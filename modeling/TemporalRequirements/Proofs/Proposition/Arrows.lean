import TemporalRequirements.Proofs.Proposition.Groups
import TemporalRequirements.Proofs.Proposition.Linear

/-!
# Arrows that stay

Removing the arrows of a well-nested text leaves no equivalence.  An implication stays if and only
if an equivalence follows on its level, since the left side of an equivalence is taken as it is;
behind another arrow, though, a group is rewritten twice and loses it.
-/

namespace TemporalRequirements

open Text (Balanced)
open Grammar (isPlain isPlain_iff)

def isArrowPart (c : Char) : Bool := c == '<' || c == '-' || c == '>'

theorem isArrowPart_of_isBlank {c : Char} (h : Text.isBlank c = true) : isArrowPart c = false := by
  have hne {d : Char} (hd : Text.isBlank d = false) : c ≠ d := by
    rintro rfl
    rw [h] at hd
    cases hd
  simp [isArrowPart, hne (d := '<') rfl, hne (d := '-') rfl, hne (d := '>') rfl]

/-- The operator is an arrow, or a part of one. -/
structure IsArrow (op : List Char) : Prop where
  ne_nil : op ≠ []
  parts : ∀ c ∈ op, isArrowPart c = true

theorem isArrow_implication : IsArrow "->".toList := ⟨by simp, Text.forall_mem_of_all rfl⟩

theorem isArrow_equivalence : IsArrow "<->".toList := ⟨by simp, Text.forall_mem_of_all rfl⟩

namespace IsArrow

variable {op : List Char} {c : Char} {s t : List Char} (h : IsArrow op)

include h

theorem notMem (hc : isArrowPart c = false) : c ∉ op := by
  intro hmem
  rw [h.parts c hmem] at hc
  cases hc

theorem isPlain : isPlain op = true := by
  refine isPlain_iff.mpr ⟨h.ne_nil, fun c hc ↦ ⟨?_, ?_⟩⟩ <;> rintro rfl
  · exact h.notMem rfl hc
  · exact h.notMem rfl hc

theorem balanced : Balanced op := .of_forall (isPlain_iff.mp h.isPlain).2

theorem not_infix_nil : ¬ op <:+: [] := fun hnil ↦ h.ne_nil (List.infix_nil.mp hnil)

/-- An arrow lies on one side of a character that is no part of it. -/
theorem infix_append_cons_iff (hc : isArrowPart c = false) :
    op <:+: s ++ c :: t ↔ op <:+: s ∨ op <:+: t :=
  Text.infix_append_cons_iff (h.notMem hc) h.ne_nil

theorem infix_cons_iff (hc : isArrowPart c = false) : op <:+: c :: t ↔ op <:+: t := by
  have hside : op <:+: [] ++ c :: t ↔ op <:+: [] ∨ op <:+: t := h.infix_append_cons_iff hc
  rwa [List.nil_append, or_iff_right h.not_infix_nil] at hside

theorem infix_blanks_append (hs : ∀ b ∈ s, Text.isBlank b = true) :
    op <:+: s ++ t ↔ op <:+: t := by
  induction s with
  | nil => rfl
  | cons b s ih =>
    obtain ⟨hb, hs⟩ := List.forall_mem_cons.mp hs
    rw [List.cons_append, h.infix_cons_iff (isArrowPart_of_isBlank hb), ih hs]

/-- Blanks behind a text hold no operator. -/
theorem infix_append_blanks (ht : ∀ b ∈ t, Text.isBlank b = true) :
    op <:+: s ++ t ↔ op <:+: s := by
  cases t with
  | nil => rw [List.append_nil]
  | cons b t =>
    obtain ⟨hb, ht⟩ := List.forall_mem_cons.mp ht
    have hblanks : ¬ op <:+: t := by
      rw [← List.append_nil t, h.infix_blanks_append ht]
      exact h.not_infix_nil
    rw [h.infix_append_cons_iff (isArrowPart_of_isBlank hb), or_iff_left hblanks]

theorem infix_trim_iff : op <:+: Text.trim s ↔ op <:+: s := by
  obtain ⟨before, after, hs, hbefore, hafter⟩ := Text.exists_trim s
  rw [hs, h.infix_blanks_append hbefore, h.infix_append_blanks hafter, ← hs]

/-- Blanks before a text change nothing about the operators outside its groups. -/
theorem standsOutside_blanks_append (hs : ∀ b ∈ s, Text.isBlank b = true) :
    StandsOutside op (s ++ t) ↔ StandsOutside op t := by
  induction s with
  | nil => rfl
  | cons b s ih =>
    obtain ⟨hb, hs⟩ := List.forall_mem_cons.mp hs
    obtain ⟨hopen, hclose⟩ : b ≠ '(' ∧ b ≠ ')' := by
      constructor <;> rintro rfl <;> cases hb
    have hstart : ¬ op <+: b :: (s ++ t) := by
      rintro ⟨after, heq⟩
      obtain ⟨d, op', rfl⟩ := List.exists_cons_of_ne_nil h.ne_nil
      obtain ⟨rfl, -⟩ := List.cons.inj heq
      exact h.notMem (isArrowPart_of_isBlank hb) List.mem_cons_self
    rw [List.cons_append, standsOutside_plain hopen hclose, ih hs, or_iff_right hstart]

end IsArrow

/-- An equivalence has an implication in it. -/
theorem StandsOutside.implication {s : List Char} (h : StandsOutside "<->".toList s) :
    StandsOutside "->".toList s := by
  obtain ⟨before, after, rfl, hbefore⟩ := h
  have hleft : Balanced ['<'] := .of_forall (Text.forall_mem_of_all rfl)
  exact ⟨before ++ ['<'], after, by simp, hbefore.append hleft⟩

def asEquivalence (l r : List Char) : List Char :=
  "!((".toList ++ l ++ ")^(".toList ++ r ++ "))".toList

def asImplication (l r : List Char) : List Char :=
  "!(".toList ++ l ++ ")||(".toList ++ r ++ ")".toList

section

variable {op l r : List Char}

theorem Text.Balanced.equivalence (hl : Balanced l) (hr : Balanced r) :
    Balanced (asEquivalence l r) := by
  have hsign : Balanced "^".toList := .of_forall (Text.forall_mem_of_all rfl)
  have hinner := hl.wrap.append (hsign.append hr.wrap)
  have htext : asEquivalence l r =
      '!' :: '(' :: (('(' :: (l ++ [')'])) ++ ("^".toList ++ '(' :: (r ++ [')'])) ++ [')']) := by
    simp [asEquivalence]
  rw [htext]
  exact .plain (by decide) (by decide) hinner.wrap

theorem Text.Balanced.implication (hl : Balanced l) (hr : Balanced r) :
    Balanced (asImplication l r) := by
  have hsign : Balanced "||".toList := .of_forall (Text.forall_mem_of_all rfl)
  have htext : asImplication l r =
      '!' :: (('(' :: (l ++ [')'])) ++ ("||".toList ++ '(' :: (r ++ [')']))) := by
    simp [asImplication]
  rw [htext]
  exact .plain (by decide) (by decide) (hl.wrap.append (hsign.append hr.wrap))

/-- An equivalence without arrows keeps the arrows of its sides only. -/
theorem IsArrow.infix_asEquivalence_iff (h : IsArrow op) :
    op <:+: asEquivalence l r ↔ op <:+: l ∨ op <:+: r := by
  have htext : asEquivalence l r =
      '!' :: '(' :: '(' :: (l ++ ')' :: '^' :: '(' :: (r ++ ')' :: [')'])) := by
    simp [asEquivalence]
  have hcloser : ¬ op <:+: [')'] := by
    rw [h.infix_cons_iff rfl]
    exact h.not_infix_nil
  rw [htext, h.infix_cons_iff rfl, h.infix_cons_iff rfl, h.infix_cons_iff rfl,
    h.infix_append_cons_iff rfl, h.infix_cons_iff rfl, h.infix_cons_iff rfl,
    h.infix_append_cons_iff rfl, or_iff_left hcloser]

theorem IsArrow.infix_asImplication_iff (h : IsArrow op) :
    op <:+: asImplication l r ↔ op <:+: l ∨ op <:+: r := by
  have htext : asImplication l r =
      '!' :: '(' :: (l ++ ')' :: '|' :: '|' :: '(' :: (r ++ [')'])) := by
    simp [asImplication]
  rw [htext, h.infix_cons_iff rfl, h.infix_cons_iff rfl, h.infix_append_cons_iff rfl,
    h.infix_cons_iff rfl, h.infix_cons_iff rfl, h.infix_cons_iff rfl, h.infix_append_cons_iff rfl,
    or_iff_left h.not_infix_nil]

end

/-- The openers and the characters of arrows in a text.  Every step spends one, and an arrow is
replaced by as many openers as it has characters. -/
def marks (s : List Char) : Nat := s.countP fun c ↦ c == '(' || isArrowPart c

section

variable {s t g l r : List Char} {f : List Char → List Char}

@[simp]
theorem marks_append (s t : List Char) : marks (s ++ t) = marks s + marks t :=
  List.countP_append

theorem marks_cons_mark {c : Char} (hc : (c == '(' || isArrowPart c) = true) (s : List Char) :
    marks (c :: s) = marks s + 1 := List.countP_cons_of_pos hc

theorem marks_cons_other {c : Char} (hc : (c == '(' || isArrowPart c) = false) (s : List Char) :
    marks (c :: s) = marks s := List.countP_cons_of_neg (by simp [hc])

theorem marks_group (s t : List Char) : marks ('(' :: (s ++ ')' :: t)) = marks s + marks t + 1 := by
  rw [marks_cons_mark rfl, marks_append, marks_cons_other rfl]

/-- Trimming leaves the marks of a text. -/
theorem marks_trim (s : List Char) : marks (Text.trim s) = marks s := by
  have hblanks {t : List Char} (ht : ∀ b ∈ t, Text.isBlank b = true) : marks t = 0 := by
    refine List.countP_eq_zero.mpr fun b hb ↦ ?_
    have hopen : b ≠ '(' := by
      rintro rfl
      cases ht _ hb
    simp [hopen, isArrowPart_of_isBlank (ht b hb)]
  obtain ⟨before, after, hs, hbefore, hafter⟩ := Text.exists_trim s
  have hmarks := congrArg marks hs
  rw [marks_append, marks_append, hblanks hbefore, hblanks hafter] at hmarks
  omega

theorem marks_inGroups (hs : Balanced s) (hf : ∀ g, Balanced g → marks (f g) = marks g) :
    marks (inGroups f s) = marks s := by
  induction hs with
  | nil => rfl
  | plain hopen _ _ ih =>
    rw [inGroups_plain hopen, marks, marks, List.countP_cons, List.countP_cons, ← marks, ih, marks]
  | group hg _ _ ih => rw [inGroups_group hg, marks_group, marks_group, hf _ hg, ih]

theorem marks_asEquivalence (l r : List Char) :
    marks (asEquivalence l r) = marks l + marks r + 3 := by
  have hstart : marks "!((".toList = 2 := rfl
  have hsign : marks ")^(".toList = 1 := rfl
  have hend : marks "))".toList = 0 := rfl
  rw [asEquivalence, marks_append, marks_append, marks_append, marks_append, hstart, hsign, hend]
  omega

theorem marks_asImplication (l r : List Char) :
    marks (asImplication l r) = marks l + marks r + 2 := by
  have hstart : marks "!(".toList = 1 := rfl
  have hsign : marks ")||(".toList = 1 := rfl
  have hend : marks ")".toList = 0 := rfl
  rw [asImplication, marks_append, marks_append, marks_append, marks_append, hstart, hsign, hend]
  omega

theorem marks_le_of_infix (h : s <:+: t) : marks s ≤ marks t := h.sublist.countP_le

theorem IsGroup.marks_lt (h : IsGroup g s) : marks g < marks s := by
  obtain ⟨before, after, rfl, -, -⟩ := h
  rw [marks_append, marks_group]
  omega

end

/-! ## One step -/

/-- The operator stands outside the groups of `s` for the first time between `l` and `r`. -/
structure FirstCut (op s l r : List Char) : Prop where
  eq : s = l ++ (op ++ r)
  left : Balanced l
  first : ¬ StandsOutside op l

theorem FirstCut.right {op s l r : List Char} (h : FirstCut op s l r) (hop : IsArrow op)
    (hs : Balanced s) : Balanced r := by
  rw [h.eq] at hs
  exact (hs.of_append_left h.left).of_append_left hop.balanced

theorem FirstCut.marks_eq {op s l r : List Char} (h : FirstCut op s l r) :
    marks s = marks l + (marks op + marks r) := by
  rw [h.eq, marks_append, marks_append]

theorem firstCut_of_cutOutside {op s l r : List Char} (hop : IsArrow op) (hs : Balanced s)
    (h : cutOutside op 0 s = some (l, r)) : FirstCut op s l r := by
  obtain ⟨heq, hl, hfirst⟩ := cutOutside_eq_some hop.isPlain hs h
  exact ⟨heq, hl, hfirst⟩

/-- The texts without the outermost arrow of `s`, where `rewrite` is applied to its groups and to
what is behind that arrow. -/
inductive Linearized (rewrite : List Char → List Char) (s : List Char) : List Char → Prop where
  | equivalence {l r : List Char} (hcut : FirstCut "<->".toList s l r) :
      Linearized rewrite s
        (asEquivalence (Text.trim (inGroups rewrite l)) (rewrite (inGroups rewrite r)))
  | implication {l r : List Char} (hnone : ¬ StandsOutside "<->".toList s)
      (hcut : FirstCut "->".toList s l r) :
      Linearized rewrite s
        (asImplication (Text.trim (inGroups rewrite l)) (rewrite (inGroups rewrite r)))
  | plain (hnone : ¬ StandsOutside "->".toList s) : Linearized rewrite s (inGroups rewrite s)

/-- One round removes the arrows in groups and then one outside of them. -/
theorem linearized_linearizeUpTo {n : Nat} {s : List Char} (hs : Balanced s)
    (hn : ∀ g, Balanced g → Balanced (linearizeUpTo n g)) :
    Linearized (linearizeUpTo n) (Text.trim s) (linearizeUpTo (n + 1) s) := by
  have hgroups : mapGroups (linearizeUpTo n) s.length (Text.trim s) =
      inGroups (linearizeUpTo n) (Text.trim s) :=
    mapGroups_eq (Text.trim_length_le s) (Nat.le_refl _)
  have hiff := cutOutside_inGroups isArrow_equivalence.isPlain hn hs.trim
  have himplies := cutOutside_inGroups isArrow_implication.isPlain hn hs.trim
  rw [linearizeUpTo, hgroups, hiff, himplies]
  cases hcut : cutOutside "<->".toList 0 (Text.trim s) with
  | some parts => exact .equivalence (firstCut_of_cutOutside isArrow_equivalence hs.trim hcut)
  | none =>
    have hnone := (cutOutside_eq_none_iff isArrow_equivalence.isPlain hs.trim).mp hcut
    cases hcut' : cutOutside "->".toList 0 (Text.trim s) with
    | some parts =>
      exact .implication hnone (firstCut_of_cutOutside isArrow_implication hs.trim hcut')
    | none => exact .plain ((cutOutside_eq_none_iff isArrow_implication.isPlain hs.trim).mp hcut')

/-- Removing arrows keeps a text well nested. -/
theorem balanced_linearizeUpTo (n : Nat) (s : List Char) (hs : Balanced s) :
    Balanced (linearizeUpTo n s) := by
  induction n generalizing s with
  | zero => exact hs.trim
  | succ n ih =>
    have hstep := linearized_linearizeUpTo hs ih
    generalize linearizeUpTo (n + 1) s = t at hstep ⊢
    cases hstep with
    | equivalence hcut =>
      have hright := balanced_inGroups (hcut.right isArrow_equivalence hs.trim) ih
      exact (balanced_inGroups hcut.left ih).trim.equivalence (ih _ hright)
    | implication _ hcut =>
      have hright := balanced_inGroups (hcut.right isArrow_implication hs.trim) ih
      exact (balanced_inGroups hcut.left ih).trim.implication (ih _ hright)
    | plain _ => exact balanced_inGroups hs.trim ih

/-- Removing arrows keeps the number of marks. -/
theorem marks_linearizeUpTo (n : Nat) (s : List Char) (hs : Balanced s) :
    marks (linearizeUpTo n s) = marks s := by
  induction n generalizing s with
  | zero => exact marks_trim s
  | succ n ih =>
    have hbalanced := balanced_linearizeUpTo n
    have hstep := linearized_linearizeUpTo hs hbalanced
    generalize linearizeUpTo (n + 1) s = t at hstep ⊢
    cases hstep with
    | equivalence hcut =>
      have hright := hcut.right isArrow_equivalence hs.trim
      have hop : marks "<->".toList = 3 := rfl
      rw [marks_asEquivalence, marks_trim, marks_inGroups hcut.left ih,
        ih _ (balanced_inGroups hright hbalanced), marks_inGroups hright ih, ← marks_trim s,
        hcut.marks_eq, hop]
      omega
    | implication _ hcut =>
      have hright := hcut.right isArrow_implication hs.trim
      have hop : marks "->".toList = 2 := rfl
      rw [marks_asImplication, marks_trim, marks_inGroups hcut.left ih,
        ih _ (balanced_inGroups hright hbalanced), marks_inGroups hright ih, ← marks_trim s,
        hcut.marks_eq, hop]
      omega
    | plain _ => rw [marks_inGroups hs.trim ih, marks_trim]

/-- An implication stands outside groups before an equivalence. -/
def Crossed (s : List Char) : Prop :=
  ∃ before rest, s = before ++ ("->".toList ++ rest) ∧ Balanced before ∧
    before.getLast? ≠ some '<' ∧ StandsOutside "<->".toList rest

/-- The text is the inside of an outermost group that no arrow outside groups stands before. -/
def LeadingGroup (g s : List Char) : Prop :=
  ∃ before after, s = before ++ '(' :: (g ++ ')' :: after) ∧ Balanced before ∧ Balanced g ∧
    ¬ StandsOutside "->".toList before

/-- The texts that keep an arrow: an implication stands before an equivalence, on the level of the
text or of a group with no arrow before it. -/
inductive KeepsArrow : List Char → Prop where
  | level {s : List Char} (h : Crossed s) : KeepsArrow s
  | group {s g : List Char} (hg : LeadingGroup g s) (h : KeepsArrow g) : KeepsArrow s

section

variable {op s t g l r : List Char}

theorem keepsArrow_iff :
    KeepsArrow s ↔ Crossed s ∨ ∃ g, LeadingGroup g s ∧ KeepsArrow g := by
  constructor
  · rintro (h | ⟨hg, h⟩)
    · exact .inl h
    · exact .inr ⟨_, hg, h⟩
  · rintro (h | ⟨g, hg, h⟩)
    · exact .level h
    · exact .group hg h

theorem Crossed.equivalence (h : Crossed s) : StandsOutside "<->".toList s := by
  obtain ⟨before, rest, rfl, hbefore, -, middle, after, rfl, hmiddle⟩ := h
  refine ⟨before ++ ("->".toList ++ middle), after, by simp, ?_⟩
  exact hbefore.append (isArrow_implication.balanced.append hmiddle)

theorem LeadingGroup.isGroup (h : LeadingGroup g s) : IsGroup g s := by
  obtain ⟨before, after, hs, hbefore, hg, -⟩ := h
  exact ⟨before, after, hs, hbefore, hg⟩

/-- Only a text with an equivalence keeps an arrow. -/
theorem KeepsArrow.equivalence (h : KeepsArrow s) : "<->".toList <:+: s := by
  induction h with
  | level h => exact h.equivalence.isInfix
  | group hg _ ih => exact ih.trans hg.isGroup.isInfix

/-- Between blanks, a part that starts and ends in ink lies in the middle. -/
theorem exists_between_blanks {before after b y a : List Char} {c : Char}
    (h : before ++ (t ++ after) = b ++ (c :: y ++ a))
    (hbefore : ∀ d ∈ before, Text.isBlank d = true)
    (hafter : ∀ d ∈ after, Text.isBlank d = true) (hc : Text.isBlank c = false)
    (hy : Text.EndsFirm (c :: y)) :
    ∃ b' a', b = before ++ b' ∧ t = b' ++ (c :: y ++ a') ∧ a = a' ++ after := by
  -- the part starts behind the blanks in front, or else it would start with a blank
  obtain ⟨b', rfl, hrest⟩ : ∃ b', b = before ++ b' ∧ t ++ after = b' ++ (c :: y ++ a) := by
    rcases List.append_eq_append_iff.mp h with hfront | ⟨blanks, rfl, hrest⟩
    · exact hfront
    · cases blanks with
      | nil => exact ⟨[], by simp, hrest.symm⟩
      | cons d blanks =>
        obtain ⟨rfl, -⟩ := List.cons.inj hrest
        rw [hbefore c (by simp)] at hc
        cases hc
  -- and likewise at the end
  rw [← List.append_assoc] at hrest
  rcases List.append_eq_append_iff.mp hrest with ⟨blanks, hback, rfl⟩ | ⟨a', rfl, ha⟩
  · obtain rfl | ⟨blanks, d, rfl⟩ := List.eq_nil_or_concat' blanks
    · exact ⟨b', [], rfl, by simpa using hback.symm, rfl⟩
    · obtain ⟨front, e, hfront, he⟩ := hy.append b'
      rw [hfront, ← List.append_assoc] at hback
      obtain rfl := List.singleton_inj.mp (List.append_inj_right' hback rfl)
      rw [hafter e (by simp)] at he
      cases he
  · exact ⟨b', a', rfl, List.append_assoc _ _ _, ha⟩

theorem getLast?_blanks_append {blanks : List Char} (h : ∀ b ∈ blanks, Text.isBlank b = true)
    {c : Char} (hc : Text.isBlank c = false) :
    (blanks ++ s).getLast? = some c ↔ s.getLast? = some c := by
  have hblanks : blanks.getLast? ≠ some c := by
    intro hlast
    rw [h c (List.mem_of_getLast? hlast)] at hc
    cases hc
  rw [List.getLast?_append]
  cases s.getLast? with
  | none => simp [hblanks]
  | some d => simp

/-- Blanks around a text change nothing about arrows that cross. -/
theorem crossed_trim : Crossed (Text.trim s) ↔ Crossed s := by
  obtain ⟨blanks, blanks', hs, hblanks, hblanks'⟩ := Text.exists_trim s
  have hbalanced := Balanced.of_isBlank hblanks
  constructor
  · rintro ⟨before, rest, htrim, hbefore, hlast, middle, after, rfl, hmiddle⟩
    refine ⟨blanks ++ before, middle ++ ("<->".toList ++ (after ++ blanks')), ?_,
      hbalanced.append hbefore, (getLast?_blanks_append hblanks rfl).not.mpr hlast,
      middle, after ++ blanks', rfl, hmiddle⟩
    rw [hs, htrim]
    simp
  · rintro ⟨before, rest, heq, hbefore, hlast, middle, after, rfl, hmiddle⟩
    have hends : Text.EndsFirm ('-' :: ('>' :: (middle ++ "<->".toList))) :=
      ⟨"->".toList ++ middle ++ "<-".toList, '>', by simp, rfl⟩
    have htext : blanks ++ (Text.trim s ++ blanks') =
        before ++ ('-' :: ('>' :: (middle ++ "<->".toList)) ++ after) := by
      rw [← hs, heq]
      simp
    obtain ⟨before, after, rfl, htrim, -⟩ :=
      exists_between_blanks htext hblanks hblanks' rfl hends
    refine ⟨before, middle ++ ("<->".toList ++ after), ?_, hbefore.of_append_left hbalanced,
      (getLast?_blanks_append hblanks rfl).not.mp hlast, middle, after, rfl, hmiddle⟩
    rw [htrim]
    simp

/-- Blanks around a text change nothing about the group in front. -/
theorem leadingGroup_trim : LeadingGroup g (Text.trim s) ↔ LeadingGroup g s := by
  obtain ⟨blanks, blanks', hs, hblanks, hblanks'⟩ := Text.exists_trim s
  have hbalanced := Balanced.of_isBlank hblanks
  have hfirst (t : List Char) := isArrow_implication.standsOutside_blanks_append (t := t) hblanks
  constructor
  · rintro ⟨before, after, htrim, hbefore, hg, hfree⟩
    refine ⟨blanks ++ before, after ++ blanks', ?_, hbalanced.append hbefore, hg,
      (hfirst before).not.mpr hfree⟩
    rw [hs, htrim]
    simp
  · rintro ⟨before, after, heq, hbefore, hg, hfree⟩
    have hends : Text.EndsFirm ('(' :: (g ++ [')'])) := ⟨'(' :: g, ')', rfl, rfl⟩
    have htext : blanks ++ (Text.trim s ++ blanks') = before ++ ('(' :: (g ++ [')']) ++ after) := by
      rw [← hs, heq]
      simp
    obtain ⟨before, after, rfl, htrim, -⟩ :=
      exists_between_blanks htext hblanks hblanks' rfl hends
    refine ⟨before, after, ?_, hbefore.of_append_left hbalanced, hg, (hfirst before).not.mp hfree⟩
    rw [htrim]
    simp

theorem keepsArrow_trim : KeepsArrow (Text.trim s) ↔ KeepsArrow s := by
  simp only [keepsArrow_iff (s := Text.trim s), keepsArrow_iff (s := s), crossed_trim,
    leadingGroup_trim]

/-- An implication that starts at an equivalence or later is its end or stands behind it. -/
theorem eq_of_equivalence_append {before rest : List Char}
    (h : "<->".toList ++ r = before ++ ("->".toList ++ rest)) :
    before = ['<'] ∨
      ∃ before', before = "<->".toList ++ before' ∧ r = before' ++ ("->".toList ++ rest) := by
  have hchars : '<' :: '-' :: '>' :: r = before ++ '-' :: '>' :: rest := h
  rcases before with _ | ⟨c, _ | ⟨d, _ | ⟨e, before⟩⟩⟩
  · cases hchars
  · obtain ⟨rfl, -⟩ := List.cons.inj hchars
    exact .inl rfl
  · cases hchars
  · obtain ⟨rfl, rfl, rfl, hr⟩ : '<' = c ∧ '-' = d ∧ '>' = e ∧
        r = before ++ '-' :: '>' :: rest := by simpa using hchars
    exact .inr ⟨before, rfl, hr⟩

/-- An equivalence that starts at an implication or later stands behind it. -/
theorem eq_of_implication_append {before rest : List Char}
    (h : "->".toList ++ rest = before ++ ("<->".toList ++ r)) :
    ∃ before', before = "->".toList ++ before' ∧ rest = before' ++ ("<->".toList ++ r) := by
  have hchars : '-' :: '>' :: rest = before ++ '<' :: '-' :: '>' :: r := h
  rcases before with _ | ⟨c, _ | ⟨d, before⟩⟩
  · cases hchars
  · cases hchars
  · obtain ⟨rfl, rfl, hrest⟩ : '-' = c ∧ '>' = d ∧ rest = before ++ '<' :: '-' :: '>' :: r := by
      simpa using hchars
    exact ⟨before, rfl, hrest⟩

theorem getLast?_equivalence_append (l before : List Char) :
    (l ++ ("<->".toList ++ before)).getLast? = some '<' ↔ before.getLast? = some '<' := by
  rw [List.getLast?_append, List.getLast?_append]
  cases before.getLast? with
  | none => simp
  | some c => simp

/-- An implication outside the groups of a text without equivalences is no part of one. -/
theorem exists_implication (h : StandsOutside "->".toList l)
    (hfirst : ¬ StandsOutside "<->".toList l) :
    ∃ before after, l = before ++ ("->".toList ++ after) ∧ Balanced before ∧
      before.getLast? ≠ some '<' := by
  obtain ⟨before, after, rfl, hbefore⟩ := h
  refine ⟨before, after, rfl, hbefore, fun hlast ↦ hfirst ?_⟩
  obtain ⟨front, rfl⟩ := List.getLast?_eq_some_iff.mp hlast
  have hleft : Balanced ['<'] := .of_forall (Text.forall_mem_of_all rfl)
  exact ⟨front, after, by simp, hbefore.of_append_right hleft⟩

/-- At the first equivalence outside groups, the text is crossed by an implication on the left, or
is crossed on the right. -/
theorem FirstCut.crossed_iff (h : FirstCut "<->".toList s l r) :
    Crossed s ↔ StandsOutside "->".toList l ∨ Crossed r := by
  obtain ⟨rfl, hl, hfirst⟩ := h
  constructor
  · rintro ⟨before, rest, heq, hbefore, hlast, hrest⟩
    -- the crossing implication starts at the equivalence or later, or it starts in `l`
    rcases List.append_eq_append_iff.mp heq with ⟨more, rfl, hmore⟩ | ⟨more, rfl, hmore⟩
    · rcases eq_of_equivalence_append hmore with rfl | ⟨before, rfl, rfl⟩
      · exact absurd (by simp) hlast
      · have hbefore' := (hbefore.of_append_left hl).of_append_left isArrow_equivalence.balanced
        have hlast' := (getLast?_equivalence_append l before).not.mp hlast
        exact .inr ⟨before, rest, rfl, hbefore', hlast', hrest⟩
    · obtain ⟨after, rfl, -⟩ := eq_of_implication_append hmore
      exact .inl ⟨before, after, rfl, hbefore⟩
  · rintro (hleft | ⟨before, rest, rfl, hbefore, hlast, hrest⟩)
    · obtain ⟨before, after, rfl, hbefore, hlast⟩ := exists_implication hleft hfirst
      have hafter := (hl.of_append_left hbefore).of_append_left isArrow_implication.balanced
      exact ⟨before, after ++ ("<->".toList ++ r), by simp, hbefore, hlast, after, r, rfl, hafter⟩
    · exact ⟨l ++ ("<->".toList ++ before), rest, by simp,
        hl.append (isArrow_equivalence.balanced.append hbefore),
        (getLast?_equivalence_append l before).not.mpr hlast, hrest⟩

/-- A group with no arrow before it stands before the first arrow. -/
theorem FirstCut.isGroup_left (h : FirstCut op s l r) (hop : IsArrow op)
    (himplies : ∀ t, StandsOutside op t → StandsOutside "->".toList t) (hg : LeadingGroup g s) :
    IsGroup g l := by
  obtain ⟨rfl, hl, -⟩ := h
  obtain ⟨before, after, heq, hbefore, hg, hfree⟩ := hg
  have hopen : '(' ∉ op := hop.notMem rfl
  rcases List.append_eq_append_iff.mp heq with ⟨more, rfl, hmore⟩ | ⟨more, rfl, hmore⟩
  · obtain ⟨after', rfl⟩ := Text.prefix_of_prefix_append_cons hopen ⟨r, hmore⟩
    exact absurd (himplies _ ⟨l, after', rfl, hl⟩) hfree
  · have hne : more ≠ [] := by
      rintro rfl
      have hprefix : op <+: [] := Text.prefix_of_prefix_append_cons hopen ⟨r, hmore.symm⟩
      exact hop.ne_nil (List.prefix_nil.mp hprefix)
    obtain ⟨after', rfl, -, -⟩ := append_eq_group hg (hl.of_append_left hbefore) hne hmore.symm
    exact ⟨before, after', rfl, hbefore, hg⟩

theorem IsGroup.leading (h : IsGroup g l) (hfree : ¬ StandsOutside "->".toList l) (t : List Char) :
    LeadingGroup g (l ++ t) := by
  obtain ⟨before, after, rfl, hbefore, hg⟩ := h
  exact ⟨before, after ++ t, by simp, hbefore, hg, fun h ↦ hfree (h.append _)⟩

/-- A group of a text without arrows outside groups is a leading one. -/
theorem leadingGroup_iff (hnone : ¬ StandsOutside "->".toList s) :
    LeadingGroup g s ↔ IsGroup g s := by
  refine ⟨LeadingGroup.isGroup, fun hg ↦ ?_⟩
  have hleading := hg.leading hnone []
  rwa [List.append_nil] at hleading

/-- A text without arrows outside groups keeps what its groups keep. -/
theorem keepsArrow_plain_iff (hnone : ¬ StandsOutside "->".toList s) :
    KeepsArrow s ↔ ∃ g, IsGroup g s ∧ KeepsArrow g := by
  have hlevel : ¬ Crossed s := fun h ↦ hnone h.equivalence.implication
  rw [keepsArrow_iff, or_iff_right hlevel]
  simp only [leadingGroup_iff hnone]

/-- An implication keeps what the groups on its left keep. -/
theorem FirstCut.keepsArrow_implication_iff (h : FirstCut "->".toList s l r)
    (hnone : ¬ StandsOutside "<->".toList s) :
    KeepsArrow s ↔ ∃ g, IsGroup g l ∧ KeepsArrow g := by
  have hlevel : ¬ Crossed s := fun hcrossed ↦ hnone hcrossed.equivalence
  rw [keepsArrow_iff, or_iff_right hlevel]
  constructor
  · rintro ⟨g, hg, hkeeps⟩
    exact ⟨g, h.isGroup_left isArrow_implication (fun _ ↦ id) hg, hkeeps⟩
  · rintro ⟨g, hg, hkeeps⟩
    rw [h.eq]
    exact ⟨g, hg.leading h.first _, hkeeps⟩

/-- An equivalence keeps the implications on its left, what the groups there keep, and the
implications that cross the right side. -/
theorem FirstCut.keepsArrow_equivalence_iff (h : FirstCut "<->".toList s l r) :
    KeepsArrow s ↔
      (StandsOutside "->".toList l ∨ ∃ g, IsGroup g l ∧ KeepsArrow g) ∨ Crossed r := by
  rw [keepsArrow_iff, h.crossed_iff]
  constructor
  · rintro ((hleft | hright) | ⟨g, hg, hkeeps⟩)
    · exact .inl (.inl hleft)
    · exact .inr hright
    · have hgroup := h.isGroup_left isArrow_equivalence (fun _ ↦ StandsOutside.implication) hg
      exact .inl (.inr ⟨g, hgroup, hkeeps⟩)
  · rintro ((hleft | ⟨g, hg, hkeeps⟩) | hright)
    · exact .inl (.inl hleft)
    -- behind an implication on the left no group is a leading one, but then the text is crossed
    · by_cases hleft : StandsOutside "->".toList l
      · exact .inl (.inl hleft)
      · rw [h.eq]
        exact .inr ⟨g, hg.leading hleft _, hkeeps⟩
    · exact .inl (.inr hright)

end

/-! ## Removing arrows -/

/-- What removing the arrows of texts with at most `n` marks does. -/
structure RemovesArrows (n : Nat) (f : List Char → List Char) : Prop where
  balanced : ∀ s, Balanced s → Balanced (f s)
  marks_eq : ∀ s, Balanced s → marks (f s) = marks s
  keeps : ∀ s, Balanced s → marks s ≤ n →
    ¬ "<->".toList <:+: f s ∧ ("->".toList <:+: f s ↔ KeepsArrow s)

section

variable {n : Nat} {f : List Char → List Char} {op s t l r : List Char}

/-- Rewriting groups keeps the arrows outside them where they are. -/
theorem crossed_inGroups {s : List Char} (hf : ∀ g, Balanced g → Balanced (f g)) (hs : Balanced s) :
    Crossed (inGroups f s) ↔ Crossed s := by
  have hop := isArrow_equivalence
  have hbalanced := balanced_inGroups hs hf
  have hcuts := cutOutside_inGroups hop.isPlain hf hs
  cases hparts : cutOutside "<->".toList 0 s with
  | none =>
    rw [hparts] at hcuts
    have hnone := (cutOutside_eq_none_iff hop.isPlain hs).mp hparts
    have hnone' := (cutOutside_eq_none_iff hop.isPlain hbalanced).mp hcuts
    exact iff_of_false (fun h ↦ hnone' h.equivalence) fun h ↦ hnone h.equivalence
  | some parts =>
    rw [hparts] at hcuts
    have hcut := firstCut_of_cutOutside hop hs hparts
    have hcut' := firstCut_of_cutOutside hop hbalanced hcuts
    have hright := crossed_inGroups hf (hcut.right hop hs)
    rw [hcut'.crossed_iff, hcut.crossed_iff, hright,
      standsOutside_inGroups isArrow_implication.isPlain hf hcut.left]
termination_by s.length
decreasing_by
  have hop : "<->".toList.length = 3 := rfl
  rw [hcut.eq, List.length_append, List.length_append, hop]
  omega

namespace RemovesArrows

variable (hf : RemovesArrows n f)

include hf

theorem equivalence_inGroups (hs : Balanced s) (hmarks : marks s ≤ n + 1)
    (hnone : ¬ StandsOutside "<->".toList s) : ¬ "<->".toList <:+: inGroups f s := by
  rw [infix_inGroups_iff isArrow_equivalence.isPlain hs]
  rintro (h | ⟨g, hg, h⟩)
  · exact hnone h
  · have hless := hg.marks_lt
    exact (hf.keeps g hg.balanced (by omega)).1 h

theorem implication_inGroups_iff (hs : Balanced s)
    (hmarks : marks s ≤ n + 1) : "->".toList <:+: inGroups f s ↔
      StandsOutside "->".toList s ∨ ∃ g, IsGroup g s ∧ KeepsArrow g := by
  rw [infix_inGroups_iff isArrow_implication.isPlain hs]
  refine or_congr_right (exists_congr fun g ↦ and_congr_right fun hg ↦ ?_)
  have hless := hg.marks_lt
  exact (hf.keeps g hg.balanced (by omega)).2

/-- Groups that were rewritten keep no arrow when they are rewritten once more. -/
theorem keepsArrow_inGroups_iff (hs : Balanced s) (hmarks : marks s ≤ n) :
    KeepsArrow (inGroups f s) ↔ Crossed s := by
  rw [keepsArrow_iff, crossed_inGroups hf.balanced hs]
  refine or_iff_left ?_
  rintro ⟨g', hleading, hkeeps⟩
  obtain ⟨g, hg, rfl⟩ := (isGroup_inGroups_iff hf.balanced hs).mp hleading.isGroup
  have hless := hg.marks_lt
  exact (hf.keeps g hg.balanced (by omega)).1 hkeeps.equivalence

/-- What is behind an arrow is rewritten twice, first inside its groups. -/
theorem keeps_right (hr : Balanced r) (hmarks : marks r ≤ n) :
    ¬ "<->".toList <:+: f (inGroups f r) ∧
      ("->".toList <:+: f (inGroups f r) ↔ Crossed r) := by
  have hmarks' : marks (inGroups f r) ≤ n := by rwa [marks_inGroups hr hf.marks_eq]
  obtain ⟨hequivalence, himplication⟩ :=
    hf.keeps (inGroups f r) (balanced_inGroups hr hf.balanced) hmarks'
  exact ⟨hequivalence, himplication.trans (hf.keepsArrow_inGroups_iff hr hmarks)⟩

end RemovesArrows

/-- One step removes the equivalences, and keeps an implication if the text does. -/
theorem Linearized.implication_iff (h : Linearized f s t) (hf : RemovesArrows n f)
    (hs : Balanced s) (hmarks : marks s ≤ n + 1) :
    ¬ "<->".toList <:+: t ∧ ("->".toList <:+: t ↔ KeepsArrow s) := by
  cases h with
  | @equivalence l r hcut =>
    have hr := hcut.right isArrow_equivalence hs
    have hop : marks "<->".toList = 3 := rfl
    have hsides := hcut.marks_eq
    obtain ⟨hequivalence, himplication⟩ := hf.keeps_right hr (by omega)
    rw [isArrow_equivalence.infix_asEquivalence_iff, isArrow_equivalence.infix_trim_iff, not_or,
      isArrow_implication.infix_asEquivalence_iff, isArrow_implication.infix_trim_iff,
      hf.implication_inGroups_iff hcut.left (by omega), himplication,
      hcut.keepsArrow_equivalence_iff]
    exact ⟨⟨hf.equivalence_inGroups hcut.left (by omega) hcut.first, hequivalence⟩,
      Iff.rfl⟩
  | @implication l r hnone hcut =>
    have hr := hcut.right isArrow_implication hs
    have hop : marks "->".toList = 2 := rfl
    have hsides := hcut.marks_eq
    obtain ⟨hequivalence, himplication⟩ := hf.keeps_right hr (by omega)
    have hleft : ¬ StandsOutside "<->".toList l := by
      intro h
      rw [hcut.eq] at hnone
      exact hnone (h.append _)
    have hcrossed : ¬ Crossed r := by
      intro h
      rw [hcut.eq] at hnone
      exact hnone ((h.equivalence.prepend isArrow_implication.balanced).prepend hcut.left)
    rw [isArrow_equivalence.infix_asImplication_iff, isArrow_equivalence.infix_trim_iff, not_or,
      isArrow_implication.infix_asImplication_iff, isArrow_implication.infix_trim_iff,
      hf.implication_inGroups_iff hcut.left (by omega), himplication,
      or_iff_left hcrossed, or_iff_right hcut.first,
      hcut.keepsArrow_implication_iff hnone]
    exact ⟨⟨hf.equivalence_inGroups hcut.left (by omega) hleft, hequivalence⟩,
      Iff.rfl⟩
  | plain hnone =>
    have hnone' : ¬ StandsOutside "<->".toList s := fun h ↦ hnone h.implication
    rw [hf.implication_inGroups_iff hs hmarks, or_iff_right hnone, keepsArrow_plain_iff hnone]
    exact ⟨hf.equivalence_inGroups hs hmarks hnone', Iff.rfl⟩

/-- Induction on the number of marks: the groups and the right side of an arrow, which a step
rewrites, have fewer of them than the text. -/
theorem removesArrows_linearizeUpTo (n : Nat) : RemovesArrows n (linearizeUpTo n) := by
  induction n with
  | zero =>
    refine ⟨balanced_linearizeUpTo 0, marks_linearizeUpTo 0, fun s _ hmarks ↦ ?_⟩
    have hnone {op : List Char} (hop : 0 < marks op) : ¬ op <:+: s := by
      intro h
      have hle := marks_le_of_infix h
      omega
    have hequivalence : ¬ "<->".toList <:+: s := hnone (by decide)
    have himplication : ¬ "->".toList <:+: s := hnone (by decide)
    rw [linearizeUpTo, isArrow_equivalence.infix_trim_iff, isArrow_implication.infix_trim_iff]
    exact ⟨hequivalence, iff_of_false himplication fun h ↦ hequivalence h.equivalence⟩
  | succ n ih =>
    refine ⟨balanced_linearizeUpTo (n + 1), marks_linearizeUpTo (n + 1), fun s hs hmarks ↦ ?_⟩
    have hstep := linearized_linearizeUpTo hs (balanced_linearizeUpTo n)
    rw [← keepsArrow_trim]
    exact hstep.implication_iff ih hs.trim (by rwa [marks_trim])

/-- No equivalence is left in a well-nested text.  An implication is left if one stands before an
equivalence on the level of the text or of a group with no arrow before it, and goes when arrows are
removed once more. -/
theorem arrowFree_linearize_iff (hs : Balanced s) :
    ¬ "<->".toList <:+: linearize s ∧ (ArrowFree (linearize s) ↔ ¬ KeepsArrow s) ∧
      ArrowFree (linearize (linearize s)) := by
  have hkeeps {t : List Char} (ht : Balanced t) :
      ¬ "<->".toList <:+: linearize t ∧ ("->".toList <:+: linearize t ↔ KeepsArrow t) := by
    have hmarks : marks t ≤ t.length + 1 := Nat.le_succ_of_le List.countP_le_length
    exact (removesArrows_linearizeUpTo (t.length + 1)).keeps t ht hmarks
  have hlinear : Balanced (linearize s) := balanced_linearizeUpTo (s.length + 1) s hs
  obtain ⟨hequivalence, himplication⟩ := hkeeps hs
  exact ⟨hequivalence, himplication.not,
    fun harrow ↦ hequivalence ((hkeeps hlinear).2.mp harrow).equivalence⟩

theorem keepsArrow_leading_group :
    Balanced "(a -> b <-> c) -> d".toList ∧ KeepsArrow "(a -> b <-> c) -> d".toList ∧
      ¬ ArrowFree (linearize "(a -> b <-> c) -> d".toList) := by
  have hinner : Balanced "a -> b <-> c".toList := .of_forall (Text.forall_mem_of_all rfl)
  have hbehind : Balanced " -> d".toList := .of_forall (Text.forall_mem_of_all rfl)
  have hmiddle : Balanced " b ".toList := .of_forall (Text.forall_mem_of_all rfl)
  have hbefore : Balanced "a ".toList := .of_forall (Text.forall_mem_of_all rfl)
  have hcrossed : Crossed "a -> b <-> c".toList :=
    ⟨"a ".toList, " b <-> c".toList, rfl, hbefore, by decide, " b ".toList, " c".toList, rfl,
      hmiddle⟩
  have hleading : LeadingGroup "a -> b <-> c".toList "(a -> b <-> c) -> d".toList :=
    ⟨[], " -> d".toList, rfl, .nil, hinner, not_standsOutside_nil isArrow_implication.isPlain⟩
  have hkeeps := KeepsArrow.group hleading (.level hcrossed)
  have hbalanced : Balanced "(a -> b <-> c) -> d".toList := .group hinner hbehind
  exact ⟨hbalanced, hkeeps, fun hfree ↦ (arrowFree_linearize_iff hbalanced).2.1.mp hfree hkeeps⟩

/-- The left side of an equivalence keeps its implication. -/
theorem not_arrowFree_linearize :
    Balanced "a -> b <-> c".toList ∧ linearize "a -> b <-> c".toList = "!((a -> b)^(c))".toList ∧
      ¬ ArrowFree (linearize "a -> b <-> c".toList) := by
  have hresult : linearize "a -> b <-> c".toList = "!((a -> b)^(c))".toList := by decide +kernel
  refine ⟨.of_forall (Text.forall_mem_of_all rfl), hresult, ?_⟩
  rw [hresult]
  exact fun hfree ↦ hfree ⟨"!((a ".toList, " b)^(c))".toList, rfl⟩

end

end TemporalRequirements
