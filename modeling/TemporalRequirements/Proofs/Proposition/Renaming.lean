import TemporalRequirements.Proofs.Proposition.Linear

/-!
# Renaming the names of a text

A text is renamed piece by piece.  Where words become words, the pieces of the new text are the
renamed pieces, and no arrow arises.
-/

namespace TemporalRequirements

open Grammar (WordText)

/-! ## Pieces as they stand in a text -/

/-- Pieces of which no two names stand side by side and none is cut short. -/
inductive PathPieces : List Text.Piece → Prop where
  | nil : PathPieces []
  | other {c : Char} {ps : List Text.Piece} (hc : Text.isNameStart c = false)
      (hps : PathPieces ps) : PathPieces (.other c :: ps)
  | last {w : List Char} (hw : WordText w) : PathPieces [.name w]
  | name {w : List Char} {c : Char} {ps : List Text.Piece} (hw : WordText w)
      (hc : Text.isPathPart c = false) (hps : PathPieces ps) :
      PathPieces (.name w :: .other c :: ps)

theorem pathPieces_word {w : List Char} (h : WordText w) : Text.pathPieces w = [.name w] := by
  obtain ⟨c, s, rfl, hc⟩ := h.starts
  exact Text.pathPieces_name hc fun d hd ↦ h.parts d (List.mem_cons_of_mem c hd)

/-- Such pieces are those of their text. -/
theorem PathPieces.pathPieces_spell {ps : List Text.Piece} (h : PathPieces ps) :
    Text.pathPieces (ps.flatMap Text.Piece.spell) = ps := by
  induction h with
  | nil => rfl
  | other hc _ ih => exact (Text.pathPieces_cons hc _).trans (congrArg _ ih)
  | last hw => simpa [Text.Piece.spell] using pathPieces_word hw
  | @name w c ps hw hc _ ih =>
    have hsplit := Text.pathPieces_append hc w (ps.flatMap Text.Piece.spell)
    rw [pathPieces_word hw, Text.pathPieces_cons (Text.isNameStart_eq_false_of_isPathPart hc),
      ih] at hsplit
    exact hsplit

/-- The pieces of a text are such pieces. -/
theorem pathPieces_isPathPieces (s : List Char) : PathPieces (Text.pathPieces s) := by
  have hfrom (s : List Char) : ∀ current, current = [] ∨ WordText current.reverse →
      PathPieces (Text.piecesFrom Text.isNameStart Text.isPathPart current s) := by
    induction s with
    | nil =>
      rintro current (rfl | hword)
      · exact .nil
      · cases current with
        | nil => exact .nil
        | cons d current => exact .last hword
    | cons c s ih =>
      have hfirst (hc : Text.isNameStart c = true) : WordText [c].reverse :=
        ⟨⟨c, [], rfl, hc⟩, fun d hd ↦ by
          rw [List.mem_singleton.mp hd, Text.isPathPart_of_isNameStart hc]⟩
      rintro current (rfl | hword)
      · rw [Text.piecesFrom]
        split
        · rename_i hc
          exact ih [c] (Or.inr (hfirst hc))
        · rename_i hc
          exact .other (by simpa using hc) (ih [] (Or.inl rfl))
      · cases current with
        | nil =>
          obtain ⟨_, _, hnil, -⟩ := hword.starts
          cases hnil
        | cons d current =>
          rw [Text.piecesFrom]
          split
          · rename_i hc
            refine ih _ (Or.inr ?_)
            rw [List.reverse_cons]
            obtain ⟨e, more, heq, he⟩ := hword.starts
            refine ⟨⟨e, more ++ [c], by rw [heq, List.cons_append], he⟩, fun x hx ↦ ?_⟩
            rcases List.mem_append.mp hx with hx | hx
            · exact hword.parts x hx
            · rw [List.mem_singleton.mp hx, hc]
          · rename_i hc
            have hpart : Text.isPathPart c = false := by simpa using hc
            rw [if_neg (by simp [Text.isNameStart_eq_false_of_isPathPart hpart])]
            exact .name hword hpart (ih [] (Or.inl rfl))
  exact hfrom s [] (Or.inl rfl)

/-! ## Renaming -/

/-- A name before pieces, made an identifier if it is neither called nor a truth value. -/
def renamedName (identifier : String → String) (w : List Char) (ps : List Text.Piece) :
    List Char :=
  if opensCall ps || String.ofList w ∈ truthNames then w
  else (identifier (String.ofList w)).toList

/-- Pieces with every name that is neither called nor a truth value made an identifier. -/
def renamedPieces (identifier : String → String) : List Text.Piece → List Text.Piece
  | [] => []
  | .other c :: ps => .other c :: renamedPieces identifier ps
  | .name w :: ps => .name (renamedName identifier w ps) :: renamedPieces identifier ps

theorem spellRenamed_eq (identifier : String → String) (ps : List Text.Piece) :
    spellRenamed identifier ps = (renamedPieces identifier ps).flatMap Text.Piece.spell := by
  fun_induction spellRenamed identifier ps with
  | case1 => rfl
  | case2 c ps ih => simpa [renamedPieces, Text.Piece.spell] using ih
  | case3 w ps name spelled ih =>
    simpa [renamedPieces, renamedName, Text.Piece.spell, spelled, name] using ih

/-- A renaming under which words stay words. -/
def KeepsWords (identifier : String → String) : Prop :=
  ∀ w, WordText w → WordText (identifier (String.ofList w)).toList

section

variable {identifier : String → String} {ps : List Text.Piece}

theorem KeepsWords.renamedName {w : List Char} (hf : KeepsWords identifier) (hw : WordText w)
    (ps : List Text.Piece) : WordText (renamedName identifier w ps) := by
  unfold TemporalRequirements.renamedName
  split
  · exact hw
  · exact hf w hw

theorem KeepsWords.pathPieces_renamedPieces (hf : KeepsWords identifier) (h : PathPieces ps) :
    PathPieces (renamedPieces identifier ps) := by
  induction h with
  | nil => exact .nil
  | other hc _ ih => exact .other hc ih
  | last hw => exact .last (hf.renamedName hw [])
  | name hw hc _ ih => exact .name (hf.renamedName hw _) hc ih

/-- The pieces of a text that was renamed are the renamed pieces. -/
theorem KeepsWords.pathPieces_spellRenamed (hf : KeepsWords identifier) (s : List Char) :
    Text.pathPieces (spellRenamed identifier (Text.pathPieces s)) =
      renamedPieces identifier (Text.pathPieces s) := by
  rw [spellRenamed_eq]
  exact (hf.pathPieces_renamedPieces (pathPieces_isPathPieces s)).pathPieces_spell

theorem arrowFree_word_append {w s : List Char} (hw : WordText w) (hs : ArrowFree s) :
    ArrowFree (w ++ s) :=
  arrowFree_append (fun c hc ↦ Grammar.ne_of_isPathPart (hw.parts c hc) rfl) hs

/-- Renaming makes no arrow. -/
theorem KeepsWords.arrowFree_renamed (hf : KeepsWords identifier) (h : PathPieces ps)
    (hfree : ArrowFree (ps.flatMap Text.Piece.spell)) :
    ArrowFree ((renamedPieces identifier ps).flatMap Text.Piece.spell) := by
  have hhead {w : List Char} (hw : WordText w) (s : List Char) : (w ++ s).head? ≠ some '>' := by
    obtain ⟨c, rest, rfl, hc⟩ := hw.starts
    intro heq
    obtain rfl := Option.some.inj heq
    cases hc
  have hcons {c : Char} {s s' : List Char} (hstarts : s'.head? = some '>' → s.head? = some '>')
      (hs : ArrowFree s → ArrowFree s') (h : ArrowFree (c :: s)) : ArrowFree (c :: s') := by
    obtain ⟨hc, hrest⟩ := arrowFree_cons_iff.mp h
    exact arrowFree_cons_iff.mpr ⟨fun heq ↦ hc ⟨heq.1, hstarts heq.2⟩, hs hrest⟩
  -- a greater sign stands in front of the renamed text only if it did so before
  have hboth : (((renamedPieces identifier ps).flatMap Text.Piece.spell).head? = some '>' →
      (ps.flatMap Text.Piece.spell).head? = some '>') ∧
        (ArrowFree (ps.flatMap Text.Piece.spell) →
          ArrowFree ((renamedPieces identifier ps).flatMap Text.Piece.spell)) := by
    clear hfree
    induction h with
    | nil => exact ⟨id, id⟩
    | other hc _ ih => exact ⟨id, hcons ih.1 ih.2⟩
    | last hw =>
      have hword := hf.renamedName hw []
      refine ⟨fun heq ↦ absurd heq (hhead hword []), fun _ ↦ ?_⟩
      exact arrowFree_word_append hword arrowFree_nil
    | @name w c ps hw hc _ ih =>
      have hword := hf.renamedName hw (.other c :: ps)
      refine ⟨fun heq ↦ absurd heq (hhead hword _), fun hfree ↦ ?_⟩
      exact arrowFree_word_append hword
        (hcons ih.1 ih.2 (hfree.of_infix (List.suffix_append w _).isInfix))
  exact hboth.2 hfree

end

end TemporalRequirements
