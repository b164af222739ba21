import TemporalRequirements.Proofs.Text.InPlace
import TemporalRequirements.Proofs.Text.Thinning

/-!
# Redundant parentheses go in pairs

What the walk over groups keeps is a thinned text: outside all groups of what was read there, and in
each open group of a well-nested text, so that the parenthesis that closes the group matches the one
that opened it.  What follows the walk removes blanks only.
-/

namespace TemporalRequirements.Text

namespace GroupWalk

/-- Which text a walk has read.  Outside all groups it keeps a thinned text, and so it does in each
open group, where what was read is well nested. -/
inductive Follows (outer : List Char) : List OpenGroup → List Char → Prop where
  | outside {s : List Char} (h : Thinned s outer.reverse) : Follows outer [] s
  | inside {g : OpenGroup} {groups : List OpenGroup} {s t : List Char}
      (h : Follows outer groups s) (ht : Balanced t) (hg : Thinned t g.content.reverse) :
      Follows outer (g :: groups) (s ++ '(' :: t)

namespace Follows

variable {w : GroupWalk} {s t cs : List Char}

/-- Adding a thinned balanced text to a walk follows the text. -/
theorem append (h : Follows w.outer w.groups s) (ht : Balanced t) (hcs : Thinned t cs.reverse) :
    Follows (w.append cs).outer (w.append cs).groups (s ++ t) := by
  obtain ⟨outer, groups, removed⟩ := w
  cases h with
  | outside h =>
    rw [append_outside]
    refine .outside ?_
    rw [List.reverse_append]
    exact h.append hcs
  | inside h hu hg =>
    rw [append_inside, List.append_assoc, List.cons_append]
    refine .inside h (hu.append ht) ?_
    rw [List.reverse_append]
    exact hg.append hcs

theorem keep (h : Follows w.outer w.groups s) : Follows w.keep.outer w.keep.groups s := by
  obtain ⟨outer, groups, removed⟩ := w
  cases h with
  | outside h => exact .outside h
  | inside h ht hg => exact .inside h ht hg

/-- A group that is closed is part of what was read around it, with its parentheses or without. -/
theorem close (h : Follows w.outer w.groups s) :
    Follows w.close.outer w.close.groups (s ++ [')']) := by
  obtain ⟨outer, groups, removed⟩ := w
  cases h with
  | outside h =>
    have happend : Thinned (s ++ [')']) ([')'] ++ outer).reverse := by
      rw [List.reverse_append]
      exact h.append (.refl [')'])
    exact .outside happend
  | @inside g groups s t h ht hg =>
    have hparent : Follows (GroupWalk.mk outer groups removed).outer
        (GroupWalk.mk outer groups removed).groups s := h
    rw [close_inside, List.append_assoc, List.cons_append]
    split
    · exact hparent.append ht.wrap (.unwrap ht hg)
    · have hkept : Thinned ('(' :: (t ++ [')'])) (')' :: g.content ++ ['(']).reverse := by
        simpa using hg.wrap
      exact hparent.append ht.wrap hkept

/-- The walk follows the text character by character. -/
theorem step (h : Follows w.outer w.groups s) (c : Char) :
    Follows (w.step c).outer (w.step c).groups (s ++ [c]) := by
  rw [GroupWalk.step]
  split
  · rename_i hc
    subst hc
    exact .inside h .nil .nil
  · rename_i hopen
    split
    · rename_i hc
      subst hc
      exact h.close
    · rename_i hclose
      have hplain : Balanced [c] := .plain hopen hclose .nil
      split
      · exact h.keep.append hplain (.refl [c])
      · exact h.append hplain (.refl [c])

theorem foldl_step (h : Follows w.outer w.groups s) (t : List Char) :
    Follows (t.foldl GroupWalk.step w).outer (t.foldl GroupWalk.step w).groups (s ++ t) := by
  induction t generalizing w s with
  | nil => rwa [List.append_nil]
  | cons c t ih =>
    have hrest := ih (h.step c)
    rwa [List.append_assoc] at hrest

/-- Groups that are never closed keep their parentheses. -/
theorem result {outer : List Char} {groups : List OpenGroup} (h : Follows outer groups s)
    (removed : Bool) : Thinned s (GroupWalk.mk outer groups removed).result := by
  induction h with
  | outside h => exact h
  | inside _ _ hg ih =>
    rw [result_cons]
    exact ih.append (.keep '(' hg)

end Follows

end GroupWalk

/-! ## Blanks after the walk -/

/-- Shortening runs of spaces takes away blanks only. -/
theorem tightened_shortenSpaces (run : Nat) (s : List Char) :
    Tightened s (shortenSpaces run s) := by
  induction s generalizing run with
  | nil => exact .nil
  | cons c s ih =>
    rw [shortenSpaces]
    split
    · rename_i hspace
      subst hspace
      split
      · exact .keep ' ' (ih (run + 1))
      · exact .blank rfl (ih (run + 1))
    · exact .keep c (ih 0)

/-- Attaching the last operand takes away blanks only. -/
theorem tightened_attachLastOperand (s : List Char) : Tightened s (attachLastOperand s) := by
  have hattached (back : List Char) : Tightened back
      (back.takeWhile isPathPart ++ (back.dropWhile isPathPart).dropWhile isBlank) := by
    have hparts := (Tightened.refl (back.takeWhile isPathPart)).append
      (.dropWhile (back.dropWhile isPathPart))
    rwa [List.takeWhile_append_dropWhile] at hparts
  rw [attachLastOperand]
  split
  · have hreverse := ((Tightened.dropWhile s.reverse).trans (hattached _)).reverse
    rwa [List.reverse_reverse] at hreverse
  · exact .refl s

/-! ## Removing -/

theorem thinned_removeRedundant (s : List Char) : Thinned s (removeRedundant s) := by
  have hstart : GroupWalk.Follows GroupWalk.start.outer GroupWalk.start.groups [] := .outside .nil
  have hwalk : Thinned s (s.foldl GroupWalk.step GroupWalk.start).result :=
    (hstart.foldl_step s).result _
  have htext := hwalk.tighten ((tightened_shortenSpaces 0 _).trans (.trim _))
  rw [removeRedundant]
  split
  · exact htext.tighten (tightened_attachLastOperand _)
  · exact htext

/-- Removing redundant parentheses in place accesses no position that is not there, and leaves a
part of the text: all but blanks and pairs of parentheses that match.  No other character goes, an
unmatched parenthesis neither, and the result is well nested exactly if the text is. -/
theorem exists_thinning_removeRedundant (s : List Char) :
    ∃ m : MarkedText, m.IsThinning ∧ m.whole = s ∧ m.kept = removeRedundant s ∧
      removeInPlace s = some m.kept ∧ m.kept.Sublist s ∧
      m.kept.filter isWritten = s.filter isWritten ∧ (Balanced m.kept ↔ Balanced s) := by
  have hthinned := thinned_removeRedundant s
  obtain ⟨m, hm, hwhole, hkept⟩ := hthinned.exists_marks
  refine ⟨m, hm, hwhole, hkept, ?_, hwhole ▸ m.kept_sublist, ?_, ?_⟩
  · rw [hkept, removeInPlace_eq]
  · rw [hkept, hthinned.filter_isWritten]
  · rw [hkept, hthinned.balanced_iff]

-- the unmatched parenthesis stays
example : removeRedundant "(((a))) (b".toList = "(a) (b".toList := by decide

end TemporalRequirements.Text
