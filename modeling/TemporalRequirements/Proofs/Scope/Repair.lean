import Mathlib.Data.List.DropRight
import TemporalRequirements.Proofs.Decomposition.UnrolledText
import TemporalRequirements.Proofs.Scope.Peeling
import TemporalRequirements.Proofs.Text.Counts

/-!
# Repaired fragments

Balancing compares counts only.  A fragment that is a well-nested core between edges is repaired,
and nothing else is: if other counts agree, the fragment is accepted with parentheses that do not
match.
Balancing again changes nothing, except that it takes off the blanks before a scope keyword that
peeling has uncovered.
-/

namespace TemporalRequirements

open Text (Balanced)

/-- The text is a well-nested core between edges that may be peeled off. -/
def Repairable (s : List Char) : Prop :=
  ∃ front core back, s = front ++ (core ++ back) ∧ OpenerEdge front ∧ CloserEdge back ∧
    Balanced core

/-- As many openers before a well-nested text as closers behind it keep it well nested. -/
theorem balanced_between {front core back : List Char} (hcore : Balanced core)
    (hfront : front.count ')' = 0) (hback : back.count '(' = 0)
    (hcount : front.count '(' = back.count ')') : Balanced (front ++ (core ++ back)) := by
  have htotal := hcore.count_open_eq_count_close
  refine Text.balanced_iff_counts.mpr ⟨fun p hp ↦ ?_, ?_⟩
  · rcases Text.prefix_append_cases hp with hinFront | ⟨q, rfl, hq⟩
    · have hle := hinFront.sublist.count_le ')'
      omega
    · rcases Text.prefix_append_cases hq with hinCore | ⟨r, rfl, hr⟩
      · have hinside := hcore.count_close_le_of_prefix hinCore
        rw [List.count_append, List.count_append]
        omega
      · have hle := hr.sublist.count_le ')'
        simp only [List.count_append]
        omega
  · simp only [List.count_append]
    omega

/-- Of an edge at the front, any number of openers can be peeled off. -/
theorem OpenerEdge.exists_append {front : List Char} (h : OpenerEdge front) {n : Nat}
    (hn : n ≤ front.count '(') : ∃ outer inner, front = outer ++ inner ∧ OpenerEdge outer ∧
      (∀ c, outer.getLast? = some c → c = '(') ∧ outer.count '(' = n :=
  (peeled_peelOpeners hn).exists_done separates_openers h

/-- Of an edge at the back, any number of closers can be peeled off. -/
theorem CloserEdge.exists_append {back : List Char} (h : CloserEdge back) {n : Nat}
    (hn : n ≤ back.count ')') : ∃ inner outer, back = inner ++ outer ∧ CloserEdge outer ∧
      (∀ c, outer.head? = some c → c = ')') ∧ outer.count ')' = n := by
  rw [← List.count_reverse] at hn
  obtain ⟨outer, inner, hback, houter, hlast, hcount⟩ :=
    (peeled_peelClosers hn).exists_done separates_closers (closerEdge_reverse.mpr h)
  refine ⟨inner.reverse, outer.reverse, ?_, closerEdge_reverse.mpr houter, ?_, ?_⟩
  · rw [← List.reverse_append, ← hback, List.reverse_reverse]
  · rwa [List.head?_reverse]
  · rwa [List.count_reverse]

/-- A text that can be repaired is repaired. -/
theorem Repairable.exists_balanced {s : List Char} (h : Repairable s) :
    ∃ core, balanceEdges s = .ok core ∧ Balanced core := by
  obtain ⟨front, core, back, rfl, hfront, hback, hcore⟩ := h
  -- the parentheses of the smaller edge stay, with as many of the other edge
  rcases Nat.le_total (back.count ')') (front.count '(') with hle | hle
  · obtain ⟨outer, inner, rfl, houter, hlast, hcount⟩ :=
      hfront.exists_append (Nat.sub_le (front.count '(') (back.count ')'))
    have hclose : inner.count ')' = 0 := by
      have hnone := hfront.count_close
      rw [List.count_append] at hnone
      omega
    rw [List.count_append] at hcount hle
    have hbetween : Balanced (inner ++ (core ++ back)) :=
      balanced_between hcore hclose hback.count_open (by omega)
    rw [List.append_assoc]
    exact ⟨_, balanceEdges_eq_ok_iff.mpr
      ⟨outer, [], .ofFront houter hlast hbetween.count_open_eq_count_close⟩, hbetween⟩
  · obtain ⟨inner, outer, rfl, houter, hhead, hcount⟩ :=
      hback.exists_append (Nat.sub_le (back.count ')') (front.count '('))
    have hopen : inner.count '(' = 0 := by
      have hnone := hback.count_open
      rw [List.count_append] at hnone
      omega
    rw [List.count_append] at hcount hle
    have hbetween : Balanced (front ++ (core ++ inner)) :=
      balanced_between hcore hfront.count_close hopen (by omega)
    have hassoc : front ++ (core ++ (inner ++ outer)) = front ++ (core ++ inner) ++ outer := by
      simp only [List.append_assoc]
    rw [hassoc]
    exact ⟨_, balanceEdges_eq_ok_iff.mpr
      ⟨[], outer, .ofBack houter hhead hbetween.count_open_eq_count_close⟩, hbetween⟩

/-- A text can be repaired if and only if balancing makes it well nested. -/
theorem repairable_iff {s : List Char} :
    Repairable s ↔ ∃ core, balanceEdges s = .ok core ∧ Balanced core := by
  constructor
  · exact Repairable.exists_balanced
  · rintro ⟨core, hcore, hbalanced⟩
    obtain ⟨front, back, hpeels⟩ := balanceEdges_eq_ok_iff.mp hcore
    exact ⟨front, core, back, hpeels.text, hpeels.isOpenerEdge, hpeels.isCloserEdge, hbalanced⟩

/-! ## Scope keywords -/

theorem balanced_keywordOf (tag : Option ScopeTag) :
    Balanced (ScopeTag.keywordOf tag).toList := by
  match tag with
  | none | some .initialCondition | some .afterInitialCondition =>
    exact .of_forall (Text.forall_mem_of_all rfl)

theorem trimStart_blanks_keyword {blanks : List Char} (h : ∀ c ∈ blanks, Text.isBlank c = true)
    (tag : ScopeTag) (rest : List Char) :
    Text.trimStart (blanks ++ (tag.keyword.toList ++ rest)) = tag.keyword.toList ++ rest := by
  rw [Text.trimStart, List.dropWhile_append_of_pos h]
  cases tag <;> rfl

/-- A text is its scope keyword and the rest, behind blanks if there is a keyword. -/
theorem exists_blanks_of_split (s : List Char) : ∃ blanks,
    s = blanks ++ ((ScopeTag.keywordOf (ScopeTag.split s).1).toList ++ (ScopeTag.split s).2) ∧
      (∀ c ∈ blanks, Text.isBlank c = true) ∧ ((ScopeTag.split s).1 = none → blanks = []) := by
  by_cases h : ∃ tag : ScopeTag, tag.keyword.toList <+: Text.trimStart s
  · obtain ⟨tag, rest, hrest⟩ := h
    rw [split_eq_some hrest.symm]
    refine ⟨s.takeWhile Text.isBlank, ?_, List.all_eq_true.mp List.all_takeWhile, ?_⟩
    · change s = s.takeWhile Text.isBlank ++ (tag.keyword.toList ++ rest)
      rw [hrest, Text.trimStart, List.takeWhile_append_dropWhile]
    · intro hnone
      cases hnone
  · rw [split_eq_none fun tag hprefix ↦ h ⟨tag, hprefix⟩]
    exact ⟨[], rfl, fun c hc ↦ (by cases hc), fun _ ↦ rfl⟩

theorem balanced_keyword_append_iff {tag : Option ScopeTag} {s : List Char} :
    Balanced (ScopeTag.keywordOf tag ++ String.ofList s).toList ↔ Balanced s := by
  rw [String.toList_append, String.toList_ofList]
  constructor
  · exact fun h ↦ h.of_append_left (balanced_keywordOf tag)
  · exact (balanced_keywordOf tag).append

theorem count_keyword_append (tag : Option ScopeTag) (s : List Char) :
    (ScopeTag.keywordOf tag ++ String.ofList s).toList.count '(' = s.count '(' ∧
      (ScopeTag.keywordOf tag ++ String.ofList s).toList.count ')' = s.count ')' := by
  obtain ⟨hopen, hclose⟩ := count_keywordOf tag
  rw [String.toList_append, String.toList_ofList, List.count_append, List.count_append, hopen,
    hclose, Nat.zero_add, Nat.zero_add]
  exact ⟨rfl, rfl⟩

/-! ## Accepted fragments -/

theorem count_eq_of_balance {fragment t : String} (h : balance fragment = .ok t) :
    t.toList.count '(' = t.toList.count ')' := by
  obtain ⟨core, rfl, hcore⟩ := balance_eq_ok_iff.mp h
  obtain ⟨front, back, hpeels⟩ := balanceEdges_eq_ok_iff.mp hcore
  obtain ⟨hopen, hclose⟩ := count_keyword_append (ScopeTag.split fragment.toList).1 core
  rw [hopen, hclose, hpeels.balanced]

/-- What balancing accepts has as many openers as closers.  It never closes more than it opened if
and only if the fragment is, behind its scope keyword, a well-nested core between edges; and every
such fragment is accepted. -/
theorem wellNested_balance_iff (fragment : String) :
    (∀ t, balance fragment = .ok t → t.toList.count '(' = t.toList.count ')') ∧
    ((∃ t, balance fragment = .ok t ∧ ∀ p, p <+: t.toList → p.count ')' ≤ p.count '(') ↔
      Repairable (ScopeTag.split fragment.toList).2) := by
  refine ⟨fun t ↦ count_eq_of_balance, ?_⟩
  calc
    (∃ t, balance fragment = .ok t ∧ ∀ p, p <+: t.toList → p.count ')' ≤ p.count '(')
      ↔ ∃ t, balance fragment = .ok t ∧ Balanced t.toList := by
        apply exists_congr
        intro t
        apply and_congr_right
        intro hok
        rw [Text.balanced_iff_counts]
        exact (and_iff_left (count_eq_of_balance hok)).symm
    _ ↔ ∃ core, balanceEdges (ScopeTag.split fragment.toList).2 = .ok core ∧ Balanced core := by
        constructor
        · rintro ⟨t, hok, ht⟩
          obtain ⟨core, rfl, hcore⟩ := balance_eq_ok_iff.mp hok
          exact ⟨core, hcore, balanced_keyword_append_iff.mp ht⟩
        · rintro ⟨core, hcore, hbalanced⟩
          exact ⟨_, balance_eq_ok_iff.mpr ⟨core, rfl, hcore⟩,
            balanced_keyword_append_iff.mpr hbalanced⟩
    _ ↔ Repairable (ScopeTag.split fragment.toList).2 := repairable_iff.symm

/-- Operands that close and open groups of their own count alike and are accepted as they stand. -/
theorem balance_crossed : balance "a) && (b" = .ok "a) && (b" ∧
    ¬ ∀ p, p <+: "a) && (b".toList → p.count ')' ≤ p.count '(' := by
  refine ⟨eq_ok_of_toOption (by decide +kernel), fun h ↦ ?_⟩
  have hprefix : "a)".toList <+: "a) && (b".toList := by decide +kernel
  exact absurd (h _ hprefix) (by decide +kernel)

/-- Blanks stand before the scope keyword that the text starts with. -/
def IndentsKeyword (t : String) : Prop :=
  ∃ (blanks : List Char) (tag : ScopeTag) (rest : List Char),
    t.toList = blanks ++ (tag.keyword.toList ++ rest) ∧ blanks ≠ [] ∧
      ∀ c ∈ blanks, Text.isBlank c = true

/-- The text without the blanks it starts with. -/
def unindented (t : String) : String := String.ofList (Text.trimStart t.toList)

theorem count_of_isBlank {blanks : List Char} (h : ∀ c ∈ blanks, Text.isBlank c = true) :
    blanks.count '(' = 0 ∧ blanks.count ')' = 0 := by
  have hnone (d : Char) (hd : Text.isBlank d = false) : blanks.count d = 0 := by
    apply List.count_eq_zero.mpr
    intro hmem
    rw [h d hmem] at hd
    cases hd
  exact ⟨hnone _ rfl, hnone _ rfl⟩

/-- A text of equal counts keeps all but the blanks before its scope keyword. -/
theorem balance_of_count_eq {t : String} (h : t.toList.count '(' = t.toList.count ')') :
    balance t = .ok (ScopeTag.keywordOf (ScopeTag.split t.toList).1 ++
      String.ofList (ScopeTag.split t.toList).2) := by
  obtain ⟨blanks, ht, hblank, -⟩ := exists_blanks_of_split t.toList
  obtain ⟨hopen, hclose⟩ := count_of_isBlank hblank
  obtain ⟨hopen', hclose'⟩ := count_keywordOf (ScopeTag.split t.toList).1
  rw [ht, List.count_append, List.count_append, List.count_append, List.count_append, hopen,
    hclose, hopen', hclose'] at h
  exact balance_eq_ok_iff.mpr ⟨_, rfl, balanceEdges_eq_ok (by omega)⟩

theorem balance_of_indentsKeyword {t : String} (h : t.toList.count '(' = t.toList.count ')')
    (hindents : IndentsKeyword t) : balance t = .ok (unindented t) := by
  obtain ⟨blanks, tag, rest, ht, -, hblank⟩ := hindents
  have htrim : Text.trimStart t.toList = tag.keyword.toList ++ rest := by
    rw [ht, trimStart_blanks_keyword hblank]
  rw [balance_of_count_eq h, split_eq_some htrim, unindented, htrim, String.ofList_append,
    String.ofList_toList]
  rfl

/-- A fragment with as many openers as closers is balanced, unless it has blanks before a keyword.
-/
theorem balance_of_not_indentsKeyword {t : String} (h : t.toList.count '(' = t.toList.count ')')
    (hindents : ¬ IndentsKeyword t) : balance t = .ok t := by
  rw [balance_of_count_eq h]
  obtain ⟨blanks, ht, hblank, hnone⟩ := exists_blanks_of_split t.toList
  have hnil : blanks = [] := by
    cases htag : (ScopeTag.split t.toList).1 with
    | none => exact hnone htag
    | some tag =>
      rw [htag] at ht
      by_contra hne
      exact hindents ⟨blanks, tag, _, ht, hne, hblank⟩
  congr 1
  apply String.toList_inj.mp
  rw [String.toList_append, String.toList_ofList]
  rw [hnil, List.nil_append] at ht
  exact ht.symm

theorem unindented_ne {t : String} (h : IndentsKeyword t) : unindented t ≠ t := by
  obtain ⟨blanks, tag, rest, ht, hne, hblank⟩ := h
  intro heq
  have hlist := congrArg String.toList heq
  rw [unindented, String.toList_ofList, ht, trimStart_blanks_keyword hblank] at hlist
  exact hne (List.append_left_eq_self.mp hlist.symm)

theorem not_indentsKeyword_unindented (t : String) : ¬ IndentsKeyword (unindented t) := by
  intro h
  apply unindented_ne h
  rw [unindented, unindented, String.toList_ofList, Text.trimStart, Text.trimStart,
    List.dropWhile_idempotent]

theorem split_snd_of_none {s : List Char} (h : (ScopeTag.split s).1 = none) :
    (ScopeTag.split s).2 = s := by
  obtain ⟨blanks, hs, -, hnone⟩ := exists_blanks_of_split s
  rw [hnone h, h] at hs
  exact hs.symm

/-- Only peeling openers, in a fragment without a keyword, uncovers an indented one. -/
theorem of_indentsKeyword {fragment t : String} (h : balance fragment = .ok t)
    (hindents : IndentsKeyword t) : (ScopeTag.split fragment.toList).1 = none ∧
      fragment.toList.count ')' < fragment.toList.count '(' := by
  obtain ⟨blanks, tag, rest, ht, hne, hblank⟩ := hindents
  obtain ⟨core, rfl, hcore⟩ := balance_eq_ok_iff.mp h
  rw [String.toList_append, String.toList_ofList] at ht
  cases htag : (ScopeTag.split fragment.toList).1 with
  | some found =>
    -- a text that starts with a keyword does not start with a blank
    rw [htag] at ht
    have hnil : ∀ c ∈ ([] : List Char), Text.isBlank c = true := fun c hc ↦ by cases hc
    have hkeyword : Text.trimStart (found.keyword.toList ++ core) = found.keyword.toList ++ core :=
      trimStart_blanks_keyword hnil found core
    have htrim := congrArg Text.trimStart ht
    rw [trimStart_blanks_keyword hblank] at htrim
    rw [show (ScopeTag.keywordOf (some found)).toList = found.keyword.toList from rfl] at ht htrim
    rw [hkeyword, ht] at htrim
    exact absurd (List.append_left_eq_self.mp htrim) hne
  | none =>
    refine ⟨rfl, Nat.lt_of_not_le fun hle ↦ ?_⟩
    rw [htag] at ht
    rw [split_snd_of_none htag] at hcore
    obtain ⟨front, back, hpeels⟩ := balanceEdges_eq_ok_iff.mp hcore
    have hcoreText : core = blanks ++ (tag.keyword.toList ++ rest) := ht
    -- with nothing peeled off the front, the fragment starts with the keyword itself
    have hfragment : fragment.toList = blanks ++ (tag.keyword.toList ++ (rest ++ back)) := by
      rw [hpeels.text, hpeels.front_eq_nil hle, hcoreText, List.nil_append, List.append_assoc,
        List.append_assoc]
    have hsplit : ScopeTag.split fragment.toList = (some tag, rest ++ back) :=
      split_eq_some (by rw [hfragment, trimStart_blanks_keyword hblank])
    rw [hsplit] at htag
    cases htag

/-- Balancing an accepted text again changes nothing if and only if no blanks stand before a scope
keyword in front of it.  They only do where openers of a fragment without a keyword were peeled off,
and balancing again takes off those blanks, after which nothing changes any more. -/
theorem balance_again {fragment t : String} (h : balance fragment = .ok t) :
    (balance t = .ok t ↔ ¬ IndentsKeyword t) ∧
    (IndentsKeyword t → (ScopeTag.split fragment.toList).1 = none ∧
      fragment.toList.count ')' < fragment.toList.count '(' ∧
      balance t = .ok (unindented t) ∧ balance (unindented t) = .ok (unindented t)) := by
  have hcount := count_eq_of_balance h
  refine ⟨⟨fun hsame hindents ↦ ?_, balance_of_not_indentsKeyword hcount⟩, fun hindents ↦ ?_⟩
  · rw [balance_of_indentsKeyword hcount hindents] at hsame
    exact unindented_ne hindents (Except.ok.inj hsame)
  · have hnext := balance_of_indentsKeyword hcount hindents
    obtain ⟨hnone, hopeners⟩ := of_indentsKeyword h hindents
    exact ⟨hnone, hopeners, hnext, balance_of_not_indentsKeyword (count_eq_of_balance hnext)
      (not_indentsKeyword_unindented t)⟩

/-- A keyword that stands behind a surplus opener and a tab. -/
theorem balance_again_uncovered :
    let fragment := "G(\tInitialConditionRequirement(a)"
    let t := "\tInitialConditionRequirement(a)"
    balance fragment = .ok t ∧ balance t = .ok (unindented t) ∧ balance t ≠ .ok t ∧
      balance (unindented t) = .ok (unindented t) := by
  intro fragment t
  have hfragment : balance fragment = .ok t := eq_ok_of_toOption (by decide +kernel)
  have hindents : IndentsKeyword t := ⟨['\t'], .initialCondition, "(a)".toList,
    by decide +kernel, List.cons_ne_nil _ _, Text.forall_mem_of_all rfl⟩
  obtain ⟨hsame, hagain⟩ := balance_again hfragment
  obtain ⟨-, -, hnext, hlast⟩ := hagain hindents
  exact ⟨hfragment, hnext, fun heq ↦ hsame.mp heq hindents, hlast⟩

/-- Peeling an opener uncovers a keyword behind a blank, which balancing again takes off. -/
theorem not_balance_idempotent : ¬ ∀ fragment t : String,
    balance fragment = .ok t → balance t = .ok t := by
  intro h
  have hfirst : balance "( InitialConditionRequirement a" =
      .ok " InitialConditionRequirement a" := eq_ok_of_toOption (by decide +kernel)
  have hsecond : balance " InitialConditionRequirement a" =
      .ok "InitialConditionRequirement a" := eq_ok_of_toOption (by decide +kernel)
  have hsame := h _ _ hfirst
  rw [hsecond] at hsame
  exact absurd (Except.ok.inj hsame) (by decide)

end TemporalRequirements
