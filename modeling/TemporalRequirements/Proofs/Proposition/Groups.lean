import Mathlib.Data.List.Basic
import TemporalRequirements.Proofs.Grammar.FormulaSound
import TemporalRequirements.Proofs.Text.Counts
import TemporalRequirements.Proofs.Text.Lines
import TemporalRequirements.Proposition.Normal

/-!
# Groups of a well-nested text

A well-nested text is plain characters and groups in a row.  Rewriting the inside of its groups
leaves the characters outside as they are, so that an operator outside parentheses stays where it
is, and cutting at the first one commutes with the rewriting.
-/

namespace TemporalRequirements

open Text (Balanced)
open Grammar (isPlain isPlain_iff)

section

variable {f : List Char → List Char} {c : Char} {s t : List Char}

/-- The text with a function applied to the inside of every outermost group. -/
def inGroups (f : List Char → List Char) (s : List Char) : List Char := mapGroups f s.length s

theorem mapGroups_succ_plain (hopen : c ≠ '(') (n : Nat) (s : List Char) :
    mapGroups f (n + 1) (c :: s) = c :: mapGroups f n s := by
  rw [mapGroups, if_neg hopen]

theorem mapGroups_succ_group (hs : Balanced s) (n : Nat) (t : List Char) :
    mapGroups f (n + 1) ('(' :: (s ++ ')' :: t)) = '(' :: (f s ++ ')' :: mapGroups f n t) := by
  rw [mapGroups, if_pos rfl, hs.splitClose_close]
  rfl

/-- A text has no more groups than characters. -/
theorem mapGroups_eq {n m : Nat} (hn : s.length ≤ n) (hm : s.length ≤ m) :
    mapGroups f n s = mapGroups f m s := by
  have hempty (n : Nat) : mapGroups f n [] = [] := by cases n <;> rfl
  induction n generalizing m s with
  | zero =>
    obtain rfl := List.length_eq_zero_iff.mp (Nat.le_zero.mp hn)
    rw [hempty, hempty]
  | succ n ih =>
    cases s with
    | nil => rw [hempty, hempty]
    | cons c rest =>
      obtain ⟨m, rfl⟩ := Nat.exists_eq_add_one.mpr (Nat.lt_of_lt_of_le (Nat.succ_pos _) hm)
      have hrest := Nat.le_of_succ_le_succ hn
      have hrest' := Nat.le_of_succ_le_succ hm
      rw [mapGroups, mapGroups]
      split
      · split
        · rename_i inner after hsplit
          rw [Text.eq_of_splitClose hsplit, List.length_append, List.length_cons] at hrest hrest'
          rw [ih (m := m) (by omega) (by omega)]
        · rfl
      · rw [ih hrest hrest']

theorem inGroups_plain (hopen : c ≠ '(') (s : List Char) :
    inGroups f (c :: s) = c :: inGroups f s := mapGroups_succ_plain hopen s.length s

theorem inGroups_group (hs : Balanced s) (t : List Char) :
    inGroups f ('(' :: (s ++ ')' :: t)) = '(' :: (f s ++ ')' :: inGroups f t) := by
  have hlength : t.length ≤ (s ++ ')' :: t).length := by
    rw [List.length_append, List.length_cons]
    omega
  rw [inGroups, List.length_cons, mapGroups_succ_group hs, inGroups,
    mapGroups_eq (Nat.le_refl t.length) hlength]

/-- Rewriting inside groups keeps the parentheses balanced. -/
theorem balanced_inGroups (hs : Balanced s) (hf : ∀ g, Balanced g → Balanced (f g)) :
    Balanced (inGroups f s) := by
  induction hs with
  | nil => exact .nil
  | plain hopen hclose _ ih =>
    rw [inGroups_plain hopen]
    exact .plain hopen hclose ih
  | group hu _ _ ih =>
    rw [inGroups_group hu]
    exact .group (hf _ hu) ih

end

/-! ## Operators outside groups -/

/-- The operator stands in the text outside all of its groups. -/
def StandsOutside (op s : List Char) : Prop :=
  ∃ before after, s = before ++ (op ++ after) ∧ Balanced before

/-- The text is the inside of an outermost group. -/
def IsGroup (g s : List Char) : Prop :=
  ∃ before after, s = before ++ '(' :: (g ++ ')' :: after) ∧ Balanced before ∧ Balanced g

section

variable {op s t g : List Char} {c : Char}

theorem StandsOutside.isInfix (h : StandsOutside op s) : op <:+: s := by
  obtain ⟨before, after, rfl, -⟩ := h
  exact ⟨before, after, List.append_assoc _ _ _⟩

theorem StandsOutside.append (h : StandsOutside op s) (t : List Char) :
    StandsOutside op (s ++ t) := by
  obtain ⟨before, after, rfl, hbefore⟩ := h
  exact ⟨before, after ++ t, by simp, hbefore⟩

theorem StandsOutside.prepend (h : StandsOutside op s) (ht : Balanced t) :
    StandsOutside op (t ++ s) := by
  obtain ⟨before, after, rfl, hbefore⟩ := h
  exact ⟨t ++ before, after, by simp, ht.append hbefore⟩

theorem IsGroup.balanced (h : IsGroup g s) : Balanced g := by
  obtain ⟨-, -, -, -, hg⟩ := h
  exact hg

theorem IsGroup.isInfix (h : IsGroup g s) : g <:+: s := by
  obtain ⟨before, after, rfl, -, -⟩ := h
  exact ⟨before ++ ['('], ')' :: after, by simp⟩

theorem balanced_cons_iff (hopen : c ≠ '(') (hclose : c ≠ ')') :
    Balanced (c :: s) ↔ Balanced s := by
  constructor
  · intro h
    exact h.of_append_left (s := [c]) (.plain hopen hclose .nil)
  · exact .plain hopen hclose

/-- A well-nested text that starts with an opener starts with a group. -/
theorem exists_group_of_balanced (h : Balanced ('(' :: s)) :
    ∃ g rest, s = g ++ ')' :: rest ∧ Balanced g ∧ Balanced rest := by
  cases h with
  | plain hopen _ _ => exact absurd rfl hopen
  | group hg hrest => exact ⟨_, _, rfl, hg, hrest⟩

/-- In front of a character, an operator stands there or later. -/
theorem standsOutside_plain (hopen : c ≠ '(') (hclose : c ≠ ')') :
    StandsOutside op (c :: s) ↔ op <+: c :: s ∨ StandsOutside op s := by
  constructor
  · rintro ⟨before, after, hs, hbefore⟩
    cases before with
    | nil => exact .inl ⟨after, hs.symm⟩
    | cons d before =>
      obtain ⟨rfl, rfl⟩ := List.cons.inj hs
      exact .inr ⟨before, after, rfl, (balanced_cons_iff hopen hclose).mp hbefore⟩
  · rintro (⟨after, hs⟩ | ⟨before, after, rfl, hbefore⟩)
    · exact ⟨[], after, hs.symm, .nil⟩
    · exact ⟨c :: before, after, rfl, .plain hopen hclose hbefore⟩

theorem isGroup_plain (hopen : c ≠ '(') (hclose : c ≠ ')') :
    IsGroup g (c :: s) ↔ IsGroup g s := by
  constructor
  · rintro ⟨before, after, hs, hbefore, hg⟩
    cases before with
    | nil => exact absurd (List.cons.inj hs).1 hopen
    | cons d before =>
      obtain ⟨rfl, rfl⟩ := List.cons.inj hs
      exact ⟨before, after, rfl, (balanced_cons_iff hopen hclose).mp hbefore, hg⟩
  · rintro ⟨before, after, rfl, hbefore, hg⟩
    exact ⟨c :: before, after, rfl, .plain hopen hclose hbefore, hg⟩

/-- What follows a well-nested text that is not empty follows the group that the text starts
with. -/
theorem append_eq_group {before after inner rest : List Char} (hinner : Balanced inner)
    (hbefore : Balanced before) (hne : before ≠ [])
    (h : before ++ after = '(' :: (inner ++ ')' :: rest)) :
    ∃ more, before = '(' :: (inner ++ ')' :: more) ∧ rest = more ++ after ∧ Balanced more := by
  obtain ⟨c, before, rfl⟩ := List.exists_cons_of_ne_nil hne
  obtain ⟨rfl, htail⟩ := List.cons.inj h
  obtain ⟨inner', more, rfl, hinner', hmore⟩ := exists_group_of_balanced hbefore
  rw [List.append_eq, List.append_assoc] at htail
  obtain ⟨rfl, hrest⟩ := hinner'.eq_of_close hinner htail
  exact ⟨more, rfl, hrest.symm, hmore⟩

/-- An operator outside all groups stands behind the first group. -/
theorem standsOutside_group (hop : isPlain op = true) (hg : Balanced g) :
    StandsOutside op ('(' :: (g ++ ')' :: t)) ↔ StandsOutside op t := by
  obtain ⟨hne, hplain⟩ := isPlain_iff.mp hop
  constructor
  · rintro ⟨before, after, hs, hbefore⟩
    by_cases hnil : before = []
    · obtain ⟨d, op, rfl⟩ := List.exists_cons_of_ne_nil hne
      rw [hnil] at hs
      exact absurd (List.cons.inj hs).1.symm (hplain d List.mem_cons_self).1
    · obtain ⟨more, -, ht, hmore⟩ := append_eq_group hg hbefore hnil hs.symm
      exact ⟨more, after, ht, hmore⟩
  · rintro ⟨before, after, rfl, hbefore⟩
    exact ⟨'(' :: (g ++ ')' :: before), after, by simp, .group hg hbefore⟩

/-- The groups of a text are its first group and those behind it. -/
theorem isGroup_group {inner : List Char} (hinner : Balanced inner) :
    IsGroup g ('(' :: (inner ++ ')' :: t)) ↔ g = inner ∨ IsGroup g t := by
  constructor
  · rintro ⟨before, after, hs, hbefore, hg⟩
    by_cases hnil : before = []
    · rw [hnil] at hs
      exact .inl (hg.eq_of_close hinner (List.cons.inj hs).2.symm).1
    · obtain ⟨more, -, ht, hmore⟩ := append_eq_group hinner hbefore hnil hs.symm
      exact .inr ⟨more, after, ht, hmore, hg⟩
  · rintro (rfl | ⟨before, after, rfl, hbefore, hg⟩)
    · exact ⟨[], t, rfl, .nil, hinner⟩
    · exact ⟨'(' :: (inner ++ ')' :: before), after, by simp, .group hinner hbefore, hg⟩

theorem not_standsOutside_nil (hop : isPlain op = true) : ¬ StandsOutside op [] := by
  rintro ⟨before, after, hs, -⟩
  have hnil := (List.append_eq_nil_iff.mp hs.symm).2
  exact (isPlain_iff.mp hop).1 (List.append_eq_nil_iff.mp hnil).1

theorem not_isGroup_nil : ¬ IsGroup g [] := by
  rintro ⟨before, after, hs, -⟩
  cases (List.append_eq_nil_iff.mp hs.symm).2

/-! ## Cutting -/

theorem cutOutside_plain (hopen : c ≠ '(') (hclose : c ≠ ')') :
    cutOutside op 0 (c :: s) =
      match Text.after? op (c :: s) with
      | some after => some ([], after)
      | none => (cutOutside op 0 s).map (Text.consFirst c) := by
  rw [cutOutside, if_neg hopen, if_neg hclose]
  rfl

/-- Inside a group, cutting passes over a well-nested text. -/
theorem cutOutside_inside (hg : Balanced g) {depth : Int} (hdepth : 0 < depth) (rest : List Char) :
    cutOutside op depth (g ++ rest) =
      (cutOutside op depth rest).map fun parts ↦ (g ++ parts.1, parts.2) := by
  induction hg generalizing depth rest with
  | nil => simp
  | @plain c s hopen hclose _ ih =>
    rw [List.cons_append, cutOutside, if_neg hopen, if_neg hclose,
      if_neg (Int.ne_of_gt hdepth), ih hdepth, Option.map_map]
    rfl
  | @group u v _ _ ihu ihv =>
    rw [List.cons_append, cutOutside, if_pos rfl, List.append_assoc, ihu (by omega),
      List.cons_append, cutOutside, if_neg (by decide), if_pos rfl, Int.add_sub_cancel,
      ihv hdepth, Option.map_map, Option.map_map, Option.map_map]
    apply congrFun
    apply congrArg
    funext parts
    simp [Text.consFirst]

theorem cutOutside_group (hg : Balanced g) (rest : List Char) :
    cutOutside op 0 ('(' :: (g ++ ')' :: rest)) =
      (cutOutside op 0 rest).map fun parts ↦ ('(' :: (g ++ ')' :: parts.1), parts.2) := by
  rw [cutOutside, if_pos rfl, cutOutside_inside hg (by omega), cutOutside, if_neg (by decide),
    if_pos rfl, Option.map_map, Option.map_map]
  rfl

/-- There is no cut exactly where the operator stands outside of no group. -/
theorem cutOutside_eq_none_iff (hop : isPlain op = true) (hs : Balanced s) :
    cutOutside op 0 s = none ↔ ¬ StandsOutside op s := by
  induction hs with
  | nil => exact iff_of_true rfl (not_standsOutside_nil hop)
  | @plain c s hopen hclose _ ih =>
    rw [cutOutside_plain hopen hclose, standsOutside_plain hopen hclose, not_or,
      ← Text.after?_eq_none_iff]
    cases Text.after? op (c :: s) with
    | none => simp [ih]
    | some after => simp
  | group hg _ _ ih =>
    rw [cutOutside_group hg, Option.map_eq_none_iff, ih, standsOutside_group hop hg]

/-- Cutting finds the operator outside groups, for the first time. -/
theorem cutOutside_eq_some (hop : isPlain op = true) (hs : Balanced s) {l r : List Char}
    (h : cutOutside op 0 s = some (l, r)) :
    s = l ++ (op ++ r) ∧ Balanced l ∧ ¬ StandsOutside op l := by
  induction hs generalizing l with
  | nil => cases h
  | @plain c s hopen hclose _ ih =>
    rw [cutOutside_plain hopen hclose] at h
    cases hafter : Text.after? op (c :: s) with
    | some after =>
      rw [hafter] at h
      obtain ⟨rfl, rfl⟩ := Prod.mk.inj (Option.some.inj h)
      refine ⟨?_, .nil, not_standsOutside_nil hop⟩
      rw [List.nil_append]
      exact Text.after?_eq_some_iff.mp hafter
    | none =>
      rw [hafter] at h
      obtain ⟨⟨l', r'⟩, hcut, heq⟩ := Option.map_eq_some_iff.mp h
      obtain ⟨rfl, rfl⟩ := Prod.mk.inj heq
      obtain ⟨rfl, hl, hfirst⟩ := ih hcut
      refine ⟨rfl, .plain hopen hclose hl, ?_⟩
      rw [standsOutside_plain hopen hclose]
      rintro (⟨more, hmore⟩ | hstands)
      · refine absurd ⟨more ++ (op ++ r'), ?_⟩ (Text.after?_eq_none_iff.mp hafter)
        rw [← List.append_assoc, hmore]
        rfl
      · exact hfirst hstands
  | @group g t hg _ _ ih =>
    rw [cutOutside_group hg] at h
    obtain ⟨⟨l', r'⟩, hcut, heq⟩ := Option.map_eq_some_iff.mp h
    obtain ⟨rfl, rfl⟩ := Prod.mk.inj heq
    obtain ⟨rfl, hl, hfirst⟩ := ih hcut
    refine ⟨by simp, .group hg hl, ?_⟩
    rwa [standsOutside_group hop hg]

variable {f : List Char → List Char}

/-- Rewriting inside groups does not change what a text starts with outside of them. -/
theorem after?_inGroups (hop : ∀ d ∈ op, d ≠ '(' ∧ d ≠ ')') (hs : Balanced s) :
    Text.after? op (inGroups f s) = (Text.after? op s).map (inGroups f) := by
  induction op generalizing s with
  | nil => rfl
  | cons d op ih =>
    obtain ⟨hd, hop⟩ := List.forall_mem_cons.mp hop
    cases hs with
    | nil => rfl
    | @plain c s hopen _ hs =>
      rw [inGroups_plain hopen, Text.after?, Text.after?, ih hop hs]
      split <;> rfl
    | @group g t hg _ =>
      rw [inGroups_group hg, Text.after?, Text.after?, if_neg hd.1, if_neg hd.1]
      rfl

/-- An operator stands where it stood before rewriting. -/
theorem cutOutside_inGroups (hop : isPlain op = true) (hf : ∀ g, Balanced g → Balanced (f g))
    (hs : Balanced s) : cutOutside op 0 (inGroups f s) =
      (cutOutside op 0 s).map fun parts ↦ (inGroups f parts.1, inGroups f parts.2) := by
  have hplain := (isPlain_iff.mp hop).2
  induction hs with
  | nil => rfl
  | @plain c s hopen hclose hs ih =>
    have hafter := after?_inGroups (f := f) hplain (.plain hopen hclose hs)
    rw [inGroups_plain hopen] at hafter ⊢
    rw [cutOutside_plain hopen hclose, cutOutside_plain hopen hclose, hafter]
    cases Text.after? op (c :: s) with
    | some after => rfl
    | none =>
      simp only [Option.map_none, ih, Option.map_map]
      apply congrFun
      apply congrArg
      funext parts
      simp [Text.consFirst, inGroups_plain hopen]
  | @group g t hg _ _ ih =>
    rw [inGroups_group hg, cutOutside_group (hf g hg), cutOutside_group hg, ih, Option.map_map,
      Option.map_map]
    apply congrFun
    apply congrArg
    funext parts
    simp [inGroups_group hg]

theorem standsOutside_inGroups (hop : isPlain op = true) (hf : ∀ g, Balanced g → Balanced (f g))
    (hs : Balanced s) : StandsOutside op (inGroups f s) ↔ StandsOutside op s := by
  rw [← not_iff_not, ← cutOutside_eq_none_iff hop (balanced_inGroups hs hf),
    ← cutOutside_eq_none_iff hop hs, cutOutside_inGroups hop hf hs, Option.map_eq_none_iff]

/-- The groups of a rewritten text are the rewritten groups. -/
theorem isGroup_inGroups_iff (hf : ∀ g, Balanced g → Balanced (f g)) (hs : Balanced s) :
    IsGroup g (inGroups f s) ↔ ∃ g', IsGroup g' s ∧ g = f g' := by
  induction hs with
  | nil =>
    have hnil : ¬ IsGroup g (inGroups f []) := not_isGroup_nil
    simp only [hnil, not_isGroup_nil, false_and, exists_false]
  | plain hopen hclose _ ih =>
    rw [inGroups_plain hopen, isGroup_plain hopen hclose, ih]
    simp only [isGroup_plain hopen hclose]
  | group hu _ _ ih =>
    rw [inGroups_group hu, isGroup_group (hf _ hu), ih]
    simp only [isGroup_group hu, or_and_right, exists_or, exists_eq_left]

/-- An operator in a rewritten text stands outside groups or in one of the rewritten groups. -/
theorem infix_inGroups_iff (hop : isPlain op = true) (hs : Balanced s) :
    op <:+: inGroups f s ↔ StandsOutside op s ∨ ∃ g, IsGroup g s ∧ op <:+: f g := by
  obtain ⟨hne, hplain⟩ := isPlain_iff.mp hop
  induction hs with
  | nil =>
    have hnil : ¬ op <:+: inGroups f [] := fun h ↦ hne (List.infix_nil.mp h)
    simp only [hnil, not_standsOutside_nil hop, not_isGroup_nil, false_and, exists_false, or_self]
  | @plain c s hopen hclose hs ih =>
    have hafter := after?_inGroups (f := f) hplain (.plain hopen hclose hs)
    have hprefix : op <+: c :: inGroups f s ↔ op <+: c :: s := by
      rw [inGroups_plain hopen] at hafter
      rw [← not_iff_not, ← Text.after?_eq_none_iff, ← Text.after?_eq_none_iff, hafter,
        Option.map_eq_none_iff]
    rw [inGroups_plain hopen, List.infix_cons_iff, hprefix, ih, standsOutside_plain hopen hclose,
      or_assoc]
    simp only [isGroup_plain hopen hclose]
  | @group u v hu _ _ ih =>
    have hopener : op <:+: [] ++ '(' :: (f u ++ ')' :: inGroups f v) ↔
        op <:+: [] ∨ op <:+: f u ++ ')' :: inGroups f v :=
      Text.infix_append_cons_iff (fun hmem ↦ (hplain _ hmem).1 rfl) hne
    have hcloser : op <:+: f u ++ ')' :: inGroups f v ↔ op <:+: f u ∨ op <:+: inGroups f v :=
      Text.infix_append_cons_iff (fun hmem ↦ (hplain _ hmem).2 rfl) hne
    have hnil : ¬ op <:+: [] := fun h ↦ hne (List.infix_nil.mp h)
    rw [List.nil_append, hcloser, ih, or_iff_right hnil] at hopener
    rw [inGroups_group hu, hopener, standsOutside_group hop hu, or_left_comm]
    simp only [isGroup_group hu, or_and_right, exists_or, exists_eq_left]

end

end TemporalRequirements
