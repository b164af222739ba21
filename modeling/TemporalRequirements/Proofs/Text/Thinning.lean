import TemporalRequirements.Proofs.Cuts
import TemporalRequirements.Proofs.Text.Counts

/-!
# Texts that lose blanks and matching parentheses

`Thinned s t` says that `t` is left of `s` when some blanks go and some parentheses, these only in
pairs that match.  Every other character stays, an unmatched parenthesis too.  Reading either text
opens and closes groups to the same depth, so that one is well nested if the other is.
-/

namespace TemporalRequirements.Text

/-- A text and what is left of it when some blanks go. -/
inductive Tightened : List Char → List Char → Prop where
  | nil : Tightened [] []
  | keep (c : Char) {s t : List Char} (h : Tightened s t) : Tightened (c :: s) (c :: t)
  | blank {c : Char} {s t : List Char} (hc : isBlank c = true) (h : Tightened s t) :
      Tightened (c :: s) t

namespace Tightened

variable {s t u : List Char}

theorem refl : ∀ s : List Char, Tightened s s
  | [] => nil
  | c :: s => keep c (refl s)

theorem trans (h : Tightened s t) (h' : Tightened t u) : Tightened s u := by
  induction h generalizing u with
  | nil => exact h'
  | keep c _ ih =>
    cases h' with
    | keep _ h' => exact keep c (ih h')
    | blank hc h' => exact blank hc (ih h')
  | blank hc _ ih => exact blank hc (ih h')

theorem append {s' t' : List Char} (h : Tightened s t) (h' : Tightened s' t') :
    Tightened (s ++ s') (t ++ t') := by
  induction h with
  | nil => exact h'
  | keep c _ ih => exact keep c ih
  | blank hc _ ih => exact blank hc ih

/-- What is left of two texts in a row is left of the one and of the other. -/
theorem exists_append {s' : List Char} (h : Tightened (s ++ s') u) :
    ∃ t t', u = t ++ t' ∧ Tightened s t ∧ Tightened s' t' := by
  induction s generalizing u with
  | nil => exact ⟨[], u, rfl, nil, h⟩
  | cons c s ih =>
    cases h with
    | keep _ h =>
      obtain ⟨t, t', rfl, ht, ht'⟩ := ih h
      exact ⟨c :: t, t', rfl, keep c ht, ht'⟩
    | blank hc h =>
      obtain ⟨t, t', rfl, ht, ht'⟩ := ih h
      exact ⟨t, t', rfl, blank hc ht, ht'⟩

theorem reverse (h : Tightened s t) : Tightened s.reverse t.reverse := by
  induction h with
  | nil => exact nil
  | keep c _ ih =>
    rw [List.reverse_cons, List.reverse_cons]
    exact ih.append (refl [c])
  | @blank c s t hc _ ih =>
    rw [List.reverse_cons, ← List.append_nil t.reverse]
    exact ih.append (blank hc nil)

theorem dropWhile (s : List Char) : Tightened s (s.dropWhile isBlank) := by
  induction s with
  | nil => exact nil
  | cons c s ih =>
    cases hc : isBlank c with
    | true =>
      rw [List.dropWhile_cons_of_pos hc]
      exact blank hc ih
    | false =>
      rw [List.dropWhile_cons_of_neg (by simp [hc])]
      exact refl _

theorem trim (s : List Char) : Tightened s (trim s) := by
  have hend := (dropWhile (trimStart s).reverse).reverse
  rw [List.reverse_reverse] at hend
  exact (dropWhile s).trans hend

end Tightened

/-- A text and what is left of it when some blanks and some pairs of matching parentheses go. -/
inductive Thinned : List Char → List Char → Prop where
  | nil : Thinned [] []
  | keep (c : Char) {s t : List Char} (h : Thinned s t) : Thinned (c :: s) (c :: t)
  | blank {c : Char} {s t : List Char} (hc : isBlank c = true) (h : Thinned s t) :
      Thinned (c :: s) t
  | pair {s s' t t' : List Char} (hs : Balanced s) (h : Thinned s s') (h' : Thinned t t') :
      Thinned ('(' :: (s ++ ')' :: t)) (s' ++ t')

namespace Thinned

variable {s t : List Char}

theorem refl : ∀ s : List Char, Thinned s s
  | [] => nil
  | c :: s => keep c (refl s)

theorem append {s' t' : List Char} (h : Thinned s t) (h' : Thinned s' t') :
    Thinned (s ++ s') (t ++ t') := by
  induction h with
  | nil => exact h'
  | keep c _ ih => exact keep c ih
  | blank hc _ ih => exact blank hc ih
  | pair hs h _ _ ih =>
    rw [List.cons_append, List.append_assoc, List.cons_append, List.append_assoc]
    exact pair hs h ih

/-- A group may go as a whole group loses its parentheses. -/
theorem unwrap (hs : Balanced s) (h : Thinned s t) : Thinned ('(' :: (s ++ [')'])) t := by
  rw [← List.append_nil t]
  exact pair hs h nil

theorem wrap (h : Thinned s t) : Thinned ('(' :: (s ++ [')'])) ('(' :: (t ++ [')'])) :=
  keep '(' (h.append (refl [')']))

/-- Blanks may go afterwards. -/
theorem tighten {u : List Char} (h : Thinned s t) (h' : Tightened t u) : Thinned s u := by
  induction h generalizing u with
  | nil =>
    cases h'
    exact nil
  | keep c _ ih =>
    cases h' with
    | keep _ h' => exact keep c (ih h')
    | blank hc h' => exact blank hc (ih h')
  | blank hc _ ih => exact blank hc (ih h')
  | pair hs _ _ ih ih' =>
    obtain ⟨v, v', rfl, hv, hv'⟩ := h'.exists_append
    exact pair hs (ih hv) (ih' hv')

end Thinned

/-! ## Characters that stay -/

/-- Whether a character is neither a blank nor a parenthesis. -/
def isWritten (c : Char) : Bool := !isBlank c && c != '(' && c != ')'

theorem isWritten_of_isBlank {c : Char} (h : isBlank c = true) : isWritten c = false := by
  rw [isWritten, h]
  rfl

theorem Thinned.filter_isWritten {s t : List Char} (h : Thinned s t) :
    t.filter isWritten = s.filter isWritten := by
  induction h with
  | nil => rfl
  | keep c _ ih => rw [List.filter_cons, List.filter_cons, ih]
  | blank hc _ ih => rw [List.filter_cons_of_neg (by simp [isWritten_of_isBlank hc]), ih]
  | pair _ _ _ ih ih' =>
    rw [List.filter_cons_of_neg (by decide), List.filter_append, List.filter_append,
      List.filter_cons_of_neg (by decide), ih, ih']

abbrev MarkedText := List (Char × Bool)

namespace MarkedText

def whole (m : MarkedText) : List Char := m.map Prod.fst

def kept (m : MarkedText) : List Char := (m.filter Prod.snd).map Prod.fst

theorem kept_sublist (m : MarkedText) : m.kept.Sublist m.whole :=
  List.filter_sublist.map Prod.fst

/-- The reasons for which a character between two marked texts may go: it is a blank, or a
parenthesis, and the one that matches it goes as well. -/
inductive MayGo : MarkedText → Char → MarkedText → Prop where
  | blank {before after : MarkedText} {c : Char} (hc : isBlank c = true) : MayGo before c after
  | opener {before inner after : MarkedText} (h : Balanced inner.whole) :
      MayGo before '(' (inner ++ (')', false) :: after)
  | closer {before inner after : MarkedText} (h : Balanced inner.whole) :
      MayGo (before ++ ('(', false) :: inner) ')' after

/-- What may go from a text may go from a longer one. -/
theorem MayGo.extend {before after : MarkedText} {c : Char} (h : MayGo before c after)
    (front back : MarkedText) : MayGo (front ++ before) c (after ++ back) := by
  cases h with
  | blank hc => exact .blank hc
  | opener h =>
    rw [List.append_assoc, List.cons_append]
    exact .opener h
  | closer h =>
    rw [← List.append_assoc]
    exact .closer h

/-- A marked text of which only blanks and pairs of matching parentheses go. -/
def IsThinning (m : MarkedText) : Prop :=
  ∀ before c after, m = before ++ (c, false) :: after → MayGo before c after

namespace IsThinning

variable {m m' : MarkedText}

theorem nil : IsThinning [] := by
  intro before c after heq
  simp at heq

theorem append (h : IsThinning m) (h' : IsThinning m') : IsThinning (m ++ m') := by
  intro before c after heq
  rcases append_eq_append_cons heq with ⟨between, rfl, hm'⟩ | ⟨rest, hm, rfl⟩
  · have hgo := (h' between c after hm').extend m []
    rwa [List.append_nil] at hgo
  · exact (h before c rest hm).extend [] m'

theorem singleton {x : Char × Bool} (h : x.2 = false → isBlank x.1 = true) :
    IsThinning [x] := by
  intro before c after heq
  obtain ⟨-, hx, -⟩ : before = [] ∧ (c, false) = x ∧ after = [] := by
    simpa [List.singleton_eq_append_iff] using heq
  rw [← hx] at h
  exact .blank (h rfl)

/-- A matched pair of parentheses around a thinned text may go. -/
theorem group (h : IsThinning m) (hm : Balanced m.whole) :
    IsThinning (('(', false) :: (m ++ [(')', false)])) := by
  intro before c after heq
  rcases List.cons_eq_append_iff.mp heq with ⟨rfl, hfirst⟩ | ⟨before, rfl, hrest⟩
  · obtain ⟨hc, rfl⟩ := List.cons.inj hfirst
    obtain ⟨rfl, -⟩ := Prod.mk.inj hc
    exact .opener hm
  · rcases append_eq_append_cons hrest with ⟨between, rfl, hlast⟩ | ⟨rest, rfl, rfl⟩
    · obtain ⟨rfl, hc, rfl⟩ : between = [] ∧ c = ')' ∧ after = [] := by
        simpa [List.singleton_eq_append_iff] using hlast
      have hgo : MayGo ([] ++ ('(', false) :: m) ')' [] := .closer hm
      rw [hc, List.append_nil]
      exact hgo
    · exact (h before c rest rfl).extend [('(', false)] _

end IsThinning

end MarkedText

open MarkedText in
/-- A thinned text is what stays of the text under marks of which each that lets a character go
has its reason. -/
theorem Thinned.exists_marks {s t : List Char} (h : Thinned s t) :
    ∃ m : MarkedText, m.IsThinning ∧ m.whole = s ∧ m.kept = t := by
  induction h with
  | nil => exact ⟨[], .nil, rfl, rfl⟩
  | keep c _ ih =>
    obtain ⟨m, hm, rfl, rfl⟩ := ih
    have hfirst : IsThinning [(c, true)] := .singleton fun h ↦ by cases h
    exact ⟨(c, true) :: m, hfirst.append hm, rfl, rfl⟩
  | @blank c _ _ hc _ ih =>
    obtain ⟨m, hm, rfl, rfl⟩ := ih
    have hfirst : IsThinning [(c, false)] := .singleton fun _ ↦ hc
    exact ⟨(c, false) :: m, hfirst.append hm, rfl, rfl⟩
  | pair hs _ _ ih ih' =>
    obtain ⟨m, hm, rfl, rfl⟩ := ih
    obtain ⟨m', hm', rfl, rfl⟩ := ih'
    refine ⟨('(', false) :: (m ++ [(')', false)]) ++ m', (hm.group hs).append hm', ?_, ?_⟩
    · simp [whole]
    · simp [kept]

/-! ## Depth -/

/-- The number of groups open after one more character, unless it closes a group that was never
opened. -/
def stepDepth (depth : Nat) (c : Char) : Option Nat :=
  if c = '(' then some (depth + 1)
  else if c = ')' then if depth = 0 then none else some (depth - 1)
  else some depth

/-- The number of groups open after a text before which some were open. -/
def depthAfter (depth : Nat) (s : List Char) : Option Nat := s.foldlM stepDepth depth

theorem depthAfter_cons (depth : Nat) (c : Char) (s : List Char) :
    depthAfter depth (c :: s) = (stepDepth depth c).bind fun depth ↦ depthAfter depth s :=
  List.foldlM_cons

theorem depthAfter_append (depth : Nat) (s t : List Char) :
    depthAfter depth (s ++ t) = (depthAfter depth s).bind fun depth ↦ depthAfter depth t :=
  List.foldlM_append

theorem stepDepth_of_plain {c : Char} (hopen : c ≠ '(') (hclose : c ≠ ')') (depth : Nat) :
    stepDepth depth c = some depth := by
  rw [stepDepth, if_neg hopen, if_neg hclose]

theorem stepDepth_of_isBlank {c : Char} (h : isBlank c = true) (depth : Nat) :
    stepDepth depth c = some depth := by
  apply stepDepth_of_plain <;> rintro rfl <;> cases h

/-- A group that is well nested inside leaves the depth as it was. -/
theorem depthAfter_group {s : List Char} (h : ∀ depth, depthAfter depth s = some depth)
    (depth : Nat) (t : List Char) :
    depthAfter depth ('(' :: (s ++ ')' :: t)) = depthAfter depth t := by
  calc
    depthAfter depth ('(' :: (s ++ ')' :: t)) = depthAfter (depth + 1) (s ++ ')' :: t) := rfl
    _ = depthAfter (depth + 1) (')' :: t) := by rw [depthAfter_append, h, Option.bind_some]
    _ = depthAfter depth t := rfl

theorem Balanced.depthAfter_eq {s : List Char} (h : Balanced s) (depth : Nat) :
    depthAfter depth s = some depth := by
  induction h generalizing depth with
  | nil => rfl
  | plain hopen hclose _ ih =>
    rw [depthAfter_cons, stepDepth_of_plain hopen hclose, Option.bind_some, ih]
  | group _ _ ihs iht => rw [depthAfter_group ihs, iht]

theorem count_of_stepDepth {depth next : Nat} {c : Char} (h : stepDepth depth c = some next) :
    depth + [c].count '(' = next + [c].count ')' := by
  unfold stepDepth at h
  split at h
  · rename_i hopen
    obtain rfl := Option.some.inj h
    rw [hopen]
    rfl
  · rename_i hopen
    split at h
    · rename_i hclose
      split at h
      · cases h
      · rename_i hdepth
        obtain rfl := Option.some.inj h
        rw [hclose]
        exact (Nat.sub_add_cancel (Nat.pos_of_ne_zero hdepth)).symm
    · rename_i hclose
      obtain rfl := Option.some.inj h
      rw [List.count_cons_of_ne hopen, List.count_cons_of_ne hclose]
      rfl

/-- The depth after a text counts what it opens and closes. -/
theorem count_of_depthAfter {depth after : Nat} {s : List Char}
    (h : depthAfter depth s = some after) : depth + s.count '(' = after + s.count ')' := by
  induction s generalizing depth with
  | nil =>
    obtain rfl := Option.some.inj h
    rfl
  | cons c s ih =>
    obtain ⟨next, hstep, hrest⟩ := Option.bind_eq_some_iff.mp (depthAfter_cons depth c s ▸ h)
    have hfirst := count_of_stepDepth hstep
    have hcount := ih hrest
    rw [← List.singleton_append, List.count_append, List.count_append]
    omega

/-- A text is well nested if it leaves no group open and closes none that was open before. -/
theorem balanced_iff_depthAfter {s : List Char} : Balanced s ↔ depthAfter 0 s = some 0 := by
  refine ⟨fun h ↦ h.depthAfter_eq 0, fun h ↦ balanced_iff_counts.mpr ⟨fun p hp ↦ ?_, ?_⟩⟩
  · obtain ⟨rest, rfl⟩ := hp
    rw [depthAfter_append] at h
    obtain ⟨depth, hdepth, -⟩ := Option.bind_eq_some_iff.mp h
    have hcount := count_of_depthAfter hdepth
    omega
  · have hcount := count_of_depthAfter h
    omega

/-- Thinning keeps the depth after a text. -/
theorem Thinned.depthAfter_eq {s t : List Char} (h : Thinned s t) (depth : Nat) :
    depthAfter depth t = depthAfter depth s := by
  induction h generalizing depth with
  | nil => rfl
  | keep c _ ih => simp only [depthAfter_cons, ih]
  | blank hc _ ih => rw [depthAfter_cons, stepDepth_of_isBlank hc, Option.bind_some, ih]
  | @pair s s' t t' hs _ _ ih ih' =>
    calc
      depthAfter depth (s' ++ t') = (depthAfter depth s).bind fun depth ↦ depthAfter depth t' := by
        rw [depthAfter_append, ih]
      _ = depthAfter depth t' := by rw [hs.depthAfter_eq, Option.bind_some]
      _ = depthAfter depth t := ih' depth
      _ = depthAfter depth ('(' :: (s ++ ')' :: t)) :=
        (depthAfter_group hs.depthAfter_eq depth t).symm

/-- Thinning makes no text well nested that was not, and none ill nested that was. -/
theorem Thinned.balanced_iff {s t : List Char} (h : Thinned s t) : Balanced t ↔ Balanced s := by
  rw [balanced_iff_depthAfter, balanced_iff_depthAfter, h.depthAfter_eq]

end TemporalRequirements.Text
