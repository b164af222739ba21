import Mathlib.Data.List.Basic
import TemporalRequirements.Scope

/-!
# Peeling surplus parentheses

Balancing takes off a fragment just the parentheses that one side has too many of, and only at its
edge: openers from the front, closers from the back, and what may stand between them.  It fails if
and only if something else comes before the counts are equal, and then the error holds what is left
from there on.
-/

namespace TemporalRequirements

/-- What may be peeled off the front of a text: blanks and openers, an opener perhaps with the
letter of a temporal operator right before it. -/
inductive OpenerEdge : List Char → Prop where
  | nil : OpenerEdge []
  | blank {c : Char} {s : List Char} (hc : Text.isBlank c = true) (hs : OpenerEdge s) :
      OpenerEdge (c :: s)
  | opener {s : List Char} (hs : OpenerEdge s) : OpenerEdge ('(' :: s)
  | letter {c : Char} {s : List Char} (hc : c = 'G' ∨ c = 'F') (hs : OpenerEdge s) :
      OpenerEdge (c :: '(' :: s)

/-- What may be peeled off the back of a text: blanks and closers. -/
def CloserEdge (s : List Char) : Prop := ∀ c ∈ s, Text.isBlank c = true ∨ c = ')'

/-- The text starts with something that no edge at the front starts with. -/
def BlocksFront (s : List Char) : Prop :=
  ∃ c rest, s = c :: rest ∧ Text.isBlank c = false ∧ c ≠ '(' ∧
    (c = 'G' ∨ c = 'F' → rest.head? ≠ some '(')

/-- The text ends with something that no edge at the back ends with. -/
def BlocksBack (s : List Char) : Prop :=
  ∃ rest c, s = rest ++ [c] ∧ Text.isBlank c = false ∧ c ≠ ')'

theorem count_cons_of_isBlank {c : Char} (hc : Text.isBlank c = true) {d : Char}
    (hd : Text.isBlank d = false) (s : List Char) : (c :: s).count d = s.count d := by
  apply List.count_cons_of_ne
  rintro rfl
  rw [hc] at hd
  cases hd

theorem OpenerEdge.count_close {s : List Char} (h : OpenerEdge s) : s.count ')' = 0 := by
  induction h with
  | nil => rfl
  | blank hc _ ih => rw [count_cons_of_isBlank hc rfl, ih]
  | opener _ ih => rw [List.count_cons_of_ne (by decide), ih]
  | letter hc _ ih =>
    rw [List.count_cons_of_ne (by rcases hc with rfl | rfl <;> decide),
      List.count_cons_of_ne (by decide), ih]

theorem CloserEdge.count_open {s : List Char} (h : CloserEdge s) : s.count '(' = 0 := by
  apply List.count_eq_zero.mpr
  intro hmem
  rcases h _ hmem with hblank | hclose
  · exact absurd hblank (by decide)
  · exact absurd hclose (by decide)

/-- Where peeling `n` parentheses off a text stops: right behind the last of them, or with too few
peeled before a rest that blocks. -/
inductive Stops (paren : Char) (blocks : List Char → Prop) (n : Nat) (front rest : List Char) :
    Except (List Char) (List Char) → Prop where
  | done (hlast : ∀ c, front.getLast? = some c → c = paren) (hcount : front.count paren = n) :
      Stops paren blocks n front rest (.ok rest)
  | blocked (hcount : front.count paren < n) (hrest : blocks rest) :
      Stops paren blocks n front rest (.error rest)

/-- What peeling `n` parentheses off a text comes to: an edge comes off, and the rest stays. -/
def Peeled (edge : List Char → Prop) (paren : Char) (blocks : List Char → Prop) (n : Nat)
    (s : List Char) (r : Except (List Char) (List Char)) : Prop :=
  ∃ front rest, s = front ++ rest ∧ edge front ∧ Stops paren blocks n front rest r

section

variable {edge blocks : List Char → Prop} {paren : Char} {n : Nat} {s front rest : List Char}
  {r r' : Except (List Char) (List Char)}

theorem Stops.count_le (h : Stops paren blocks n front rest r) : front.count paren ≤ n := by
  cases h with
  | done _ hcount => exact Nat.le_of_eq hcount
  | blocked hcount _ => exact Nat.le_of_lt hcount

/-- Peeling stops at one place. -/
theorem Stops.unique (h : Stops paren blocks n front rest r)
    (h' : Stops paren blocks n front rest r') : r = r' := by
  cases h with
  | done _ hcount =>
    cases h' with
    | done => rfl
    | blocked hlt _ => exact absurd hcount (Nat.ne_of_lt hlt)
  | blocked hlt _ =>
    cases h' with
    | done _ hcount => exact absurd hcount (Nat.ne_of_lt hlt)
    | blocked => rfl

theorem peeled_ok_iff : Peeled edge paren blocks n s (.ok rest) ↔ ∃ front, s = front ++ rest ∧
    edge front ∧ (∀ c, front.getLast? = some c → c = paren) ∧ front.count paren = n := by
  constructor
  · rintro ⟨front, rest, hs, hfront, hstops⟩
    cases hstops with
    | done hlast hcount => exact ⟨front, hs, hfront, hlast, hcount⟩
  · rintro ⟨front, hs, hfront, hlast, hcount⟩
    exact ⟨front, rest, hs, hfront, .done hlast hcount⟩

theorem peeled_error_iff : Peeled edge paren blocks n s (.error rest) ↔ ∃ front, s = front ++ rest ∧
    edge front ∧ front.count paren < n ∧ blocks rest := by
  constructor
  · rintro ⟨front, rest, hs, hfront, hstops⟩
    cases hstops with
    | blocked hcount hrest => exact ⟨front, hs, hfront, hcount, hrest⟩
  · rintro ⟨front, hs, hfront, hcount, hrest⟩
    exact ⟨front, rest, hs, hfront, .blocked hcount hrest⟩

/-- A piece that comes off before is part of the edge. -/
theorem Peeled.prepend (piece : List Char) (h : Peeled edge paren blocks n s r)
    (hn : 0 < n ∨ piece.getLast? = some paren)
    (hedge : ∀ front, edge front → edge (piece ++ front)) :
    Peeled edge paren blocks (n + piece.count paren) (piece ++ s) r := by
  obtain ⟨front, rest, rfl, hfront, hstops⟩ := h
  refine ⟨piece ++ front, rest, (List.append_assoc piece front rest).symm, hedge front hfront, ?_⟩
  cases hstops with
  | done hlast hcount =>
    refine .done (fun c hc ↦ ?_) (by rw [List.count_append, hcount, Nat.add_comm])
    cases front with
    | nil =>
      rcases hn with hn | hpiece
      · rw [← hcount] at hn
        exact absurd hn (Nat.lt_irrefl 0)
      · rw [List.append_nil, hpiece] at hc
        exact (Option.some.inj hc).symm
    | cons d front =>
      rw [List.getLast?_append_cons] at hc
      exact hlast c hc
  | blocked hcount hrest =>
    refine .blocked ?_ hrest
    rw [List.count_append]
    omega

/-- Edges go on with edges, and a text that blocks is not empty and starts with no edge. -/
structure Separates (edge blocks : List Char → Prop) : Prop where
  cut : ∀ front more, edge (front ++ more) → edge front → edge more
  stop : ∀ front rest, edge front → blocks (front ++ rest) → front = []
  start : ¬ blocks []

/-- Nothing blocks inside an edge. -/
theorem Peeled.exists_done (hsep : Separates edge blocks) (h : Peeled edge paren blocks n s r)
    (hs : edge s) : ∃ outer inner, s = outer ++ inner ∧ edge outer ∧
      (∀ c, outer.getLast? = some c → c = paren) ∧ outer.count paren = n := by
  obtain ⟨outer, inner, rfl, houter, hstops⟩ := h
  cases hstops with
  | done hlast hcount => exact ⟨outer, inner, rfl, houter, hlast, hcount⟩
  | blocked _ hinner =>
    have hnil : inner = [] :=
      hsep.stop inner [] (hsep.cut outer inner hs houter) (by rwa [List.append_nil])
    rw [hnil] at hinner
    exact absurd hinner hsep.start

/-- Peeling that has stopped behind an edge does not stop behind a longer one. -/
theorem Stops.more_eq_nil (hsep : Separates edge blocks) {more : List Char}
    (h : Stops paren blocks n front (more ++ rest) r)
    (h' : Stops paren blocks n (front ++ more) rest r') (hfront : edge front)
    (hmore : edge (front ++ more)) : more = [] := by
  cases h with
  | blocked _ hrest => exact hsep.stop more rest (hsep.cut front more hmore hfront) hrest
  | done _ hcount =>
    have hle := h'.count_le
    rw [List.count_append, hcount] at hle
    cases h' with
    | blocked hlt _ =>
      rw [List.count_append] at hlt
      omega
    | done hlast _ =>
      -- a longer edge ends in one more parenthesis
      cases hmoreLast : more.getLast? with
      | none => exact List.getLast?_eq_none_iff.mp hmoreLast
      | some c =>
        obtain rfl : c = paren := hlast c (by rw [List.getLast?_append, hmoreLast, Option.some_or])
        have hpos := List.count_pos_iff.mpr (List.mem_of_getLast? hmoreLast)
        omega

/-- There is one way to peel a text. -/
theorem Peeled.unique (hsep : Separates edge blocks) (h : Peeled edge paren blocks n s r)
    (h' : Peeled edge paren blocks n s r') : r = r' := by
  obtain ⟨front, rest, rfl, hfront, hstops⟩ := h
  obtain ⟨front', rest', hs, hfront', hstops'⟩ := h'
  rcases List.append_eq_append_iff.mp hs with ⟨more, rfl, rfl⟩ | ⟨more, rfl, rfl⟩
  · obtain rfl := hstops.more_eq_nil hsep hstops' hfront hfront'
    rw [List.append_nil] at hstops'
    exact hstops.unique hstops'
  · obtain rfl := hstops'.more_eq_nil hsep hstops hfront' hfront
    rw [List.append_nil] at hstops
    exact hstops.unique hstops'

end

/-! ## Openers and closers -/

/-- Nothing can be peeled off a blocked front. -/
theorem OpenerEdge.eq_nil_of_blocksFront {front rest : List Char} (h : OpenerEdge front)
    (hblocks : BlocksFront (front ++ rest)) : front = [] := by
  obtain ⟨c, tail, hs, hfirm, hopen, hletter⟩ := hblocks
  cases h with
  | nil => rfl
  | blank hc _ =>
    obtain ⟨rfl, -⟩ := List.cons.inj hs
    rw [hc] at hfirm
    cases hfirm
  | opener _ => exact absurd (List.cons.inj hs).1.symm hopen
  | letter hc _ =>
    obtain ⟨rfl, rfl⟩ := List.cons.inj hs
    exact absurd rfl (hletter hc)

/-- What stays of an edge after a part of it is peeled is an edge. -/
theorem OpenerEdge.of_append {front more : List Char} (h : OpenerEdge (front ++ more))
    (hfront : OpenerEdge front) : OpenerEdge more := by
  induction hfront with
  | nil => exact h
  | @blank c s hc _ ih =>
    rw [List.cons_append] at h
    generalize s ++ more = t at h ih
    cases h with
    | blank _ ht => exact ih ht
    | opener _ => exact absurd hc (by decide)
    | letter hletter _ => exact absurd hc (by rcases hletter with rfl | rfl <;> decide)
  | @opener s _ ih =>
    rw [List.cons_append] at h
    generalize s ++ more = t at h ih
    cases h with
    | blank hc _ => exact absurd hc (by decide)
    | opener ht => exact ih ht
    | letter hletter _ => exact absurd hletter (by decide)
  | @letter c s hletter _ ih =>
    rw [List.cons_append, List.cons_append] at h
    generalize s ++ more = t at h ih
    cases h with
    | blank hc _ => exact absurd hc (by rcases hletter with rfl | rfl <;> decide)
    | opener _ => exact absurd hletter (by decide)
    | letter _ ht => exact ih ht

theorem separates_openers : Separates OpenerEdge BlocksFront where
  cut _ _ h hfront := h.of_append hfront
  stop _ _ hfront hblocks := hfront.eq_nil_of_blocksFront hblocks
  start := by
    rintro ⟨c, rest, hnil, -⟩
    cases hnil

/-- Peeling openers takes off edges until enough are gone or the front is blocked. -/
theorem peeled_peelOpeners {n : Nat} {s : List Char} (h : n ≤ s.count '(') :
    Peeled OpenerEdge '(' BlocksFront n s (peelOpeners n s) := by
  fun_induction peelOpeners n s with
  | case1 s => exact ⟨[], s, rfl, .nil, .done (fun c hc ↦ by cases hc) rfl⟩
  | case2 n => exact absurd h (Nat.not_succ_le_zero n)
  | case3 n c rest hc ih =>
    have hcount : [c].count '(' = 0 := count_cons_of_isBlank hc rfl []
    rw [count_cons_of_isBlank hc rfl] at h
    have hpeeled := (ih h).prepend [c] (.inl (Nat.succ_pos n))
      fun _ hfront ↦ .blank hc hfront
    rwa [hcount] at hpeeled
  | case4 n rest hblank ih =>
    rw [List.count_cons_self] at h
    exact (ih (Nat.le_of_succ_le_succ h)).prepend ['('] (.inr rfl)
      fun _ hfront ↦ .opener hfront
  | case5 n c hblank hc rest hletter ih =>
    have hletter : c = 'G' ∨ c = 'F' := by simpa using hletter
    have hcount : [c, '('].count '(' = 1 := List.count_cons_of_ne hc
    rw [List.count_cons_of_ne hc, List.count_cons_self] at h
    have hpeeled := (ih (Nat.le_of_succ_le_succ h)).prepend [c, '('] (.inr rfl)
      fun _ hfront ↦ .letter hletter hfront
    rwa [hcount] at hpeeled
  | case6 n c hblank hc rest hletter =>
    have hletter : ¬ (c = 'G' ∨ c = 'F') := by simpa using hletter
    exact ⟨[], _, rfl, .nil, .blocked (Nat.succ_pos n)
      ⟨c, _, rfl, Bool.eq_false_iff.mpr hblank, hc, fun h ↦ absurd h hletter⟩⟩
  | case7 n c rest hblank hc hrest =>
    refine ⟨[], _, rfl, .nil, .blocked (Nat.succ_pos n)
      ⟨c, rest, rfl, Bool.eq_false_iff.mpr hblank, hc, fun _ hhead ↦ ?_⟩⟩
    cases rest with
    | nil => cases hhead
    | cons d rest => exact hrest rest (by rw [Option.some.inj hhead])

/-- The text, written backwards, ends with something that no edge at the back ends with. -/
def BlocksReversed (s : List Char) : Prop := BlocksBack s.reverse

theorem blocksReversed_cons {c : Char} {s : List Char} :
    BlocksReversed (c :: s) ↔ Text.isBlank c = false ∧ c ≠ ')' := by
  unfold BlocksReversed BlocksBack
  constructor
  · rintro ⟨rest, d, hs, hd⟩
    rw [List.reverse_cons] at hs
    obtain ⟨-, hc⟩ := List.append_inj' hs rfl
    rwa [List.singleton_inj.mp hc]
  · intro hc
    exact ⟨s.reverse, c, List.reverse_cons, hc⟩

/-- An edge of closers can be told from what blocks it. -/
theorem separates_closers : Separates CloserEdge BlocksReversed where
  cut _ _ h _ c hc := h c (List.mem_append_right _ hc)
  stop front rest hfront hblocks := by
    cases front with
    | nil => rfl
    | cons c front =>
      obtain ⟨hfirm, hclose⟩ := blocksReversed_cons.mp hblocks
      rcases hfront c List.mem_cons_self with hc | hc
      · rw [hc] at hfirm
        cases hfirm
      · exact absurd hc hclose
  start := by
    rintro ⟨rest, c, hnil, -⟩
    exact absurd hnil.symm (List.append_ne_nil_of_right_ne_nil rest (List.cons_ne_nil c []))

theorem CloserEdge.cons {c : Char} {s : List Char} (hc : Text.isBlank c = true ∨ c = ')')
    (hs : CloserEdge s) : CloserEdge (c :: s) :=
  List.forall_mem_cons.mpr ⟨hc, hs⟩

theorem closerEdge_nil : CloserEdge [] := fun _ hc ↦ by cases hc

theorem closerEdge_reverse {s : List Char} : CloserEdge s.reverse ↔ CloserEdge s := by
  simp only [CloserEdge, List.mem_reverse]

/-- Peeling closers takes off edges until enough are gone or the back is blocked. -/
theorem peeled_peelClosers {n : Nat} {s : List Char} (h : n ≤ s.count ')') :
    Peeled CloserEdge ')' BlocksReversed n s (peelClosers n s) := by
  fun_induction peelClosers n s with
  | case1 s => exact ⟨[], s, rfl, closerEdge_nil, .done (fun c hc ↦ by cases hc) rfl⟩
  | case2 n => exact absurd h (Nat.not_succ_le_zero n)
  | case3 n c rest hc ih =>
    have hcount : [c].count ')' = 0 := count_cons_of_isBlank hc rfl []
    rw [count_cons_of_isBlank hc rfl] at h
    have hpeeled := (ih h).prepend [c] (.inl (Nat.succ_pos n))
      fun _ hback ↦ hback.cons (.inl hc)
    rwa [hcount] at hpeeled
  | case4 n rest hblank ih =>
    rw [List.count_cons_self] at h
    exact (ih (Nat.le_of_succ_le_succ h)).prepend [')'] (.inr rfl)
      fun _ hback ↦ hback.cons (.inr rfl)
  | case5 n c rest hblank hc =>
    exact ⟨[], _, rfl, closerEdge_nil, .blocked (Nat.succ_pos n)
      (blocksReversed_cons.mpr ⟨Bool.eq_false_iff.mpr hblank, hc⟩)⟩

/-! ## Both edges -/

/-- What is left of a text between an edge at its front and one at its back that hold just the
parentheses it has too many of. -/
structure PeelsTo (s front core back : List Char) : Prop where
  text : s = front ++ (core ++ back)
  isOpenerEdge : OpenerEdge front
  isCloserEdge : CloserEdge back
  balanced : core.count '(' = core.count ')'
  openers : front.count '(' = s.count '(' - s.count ')'
  closers : back.count ')' = s.count ')' - s.count '('
  oneSided : front = [] ∨ back = []
  frontEnds : ∀ c, front.getLast? = some c → c = '('
  backStarts : ∀ c, back.head? = some c → c = ')'

namespace PeelsTo

/-- A surplus of openers is peeled off at the front. -/
theorem ofFront {front core : List Char} (hfront : OpenerEdge front)
    (hlast : ∀ c, front.getLast? = some c → c = '(')
    (hcore : core.count '(' = core.count ')') : PeelsTo (front ++ core) front core [] where
  text := by rw [List.append_nil]
  isOpenerEdge := hfront
  isCloserEdge := closerEdge_nil
  balanced := hcore
  openers := by
    rw [List.count_append, List.count_append, hfront.count_close]
    omega
  closers := by
    rw [List.count_append, List.count_append, hfront.count_close, List.count_nil]
    omega
  oneSided := .inr rfl
  frontEnds := hlast
  backStarts := fun c hc ↦ by cases hc

/-- A surplus of closers is peeled off at the back. -/
theorem ofBack {core back : List Char} (hback : CloserEdge back)
    (hhead : ∀ c, back.head? = some c → c = ')')
    (hcore : core.count '(' = core.count ')') : PeelsTo (core ++ back) [] core back where
  text := rfl
  isOpenerEdge := .nil
  isCloserEdge := hback
  balanced := hcore
  openers := by
    rw [List.count_append, List.count_append, hback.count_open, List.count_nil]
    omega
  closers := by
    rw [List.count_append, List.count_append, hback.count_open]
    omega
  oneSided := .inl rfl
  frontEnds := fun c hc ↦ by cases hc
  backStarts := hhead

variable {s front core back : List Char} (h : PeelsTo s front core back)

include h

theorem front_eq_nil (hle : s.count '(' ≤ s.count ')') : front = [] := by
  have hcount := h.openers
  rw [Nat.sub_eq_zero_of_le hle] at hcount
  apply List.getLast?_eq_none_iff.mp
  cases hlast : front.getLast? with
  | none => rfl
  | some c =>
    obtain rfl := h.frontEnds c hlast
    exact absurd (List.mem_of_getLast? hlast) (List.count_eq_zero.mp hcount)

theorem back_eq_nil (hle : s.count ')' ≤ s.count '(') : back = [] := by
  have hcount := h.closers
  rw [Nat.sub_eq_zero_of_le hle] at hcount
  apply List.head?_eq_none_iff.mp
  cases hhead : back.head? with
  | none => rfl
  | some c =>
    obtain rfl := h.backStarts c hhead
    exact absurd (List.mem_of_head? hhead) (List.count_eq_zero.mp hcount)

end PeelsTo

/-- Behind an edge at the front, something else comes while openers are in surplus. -/
def BlockedAtFront (s left : List Char) : Prop :=
  ∃ front, s = front ++ left ∧ OpenerEdge front ∧ left.count ')' < left.count '(' ∧ BlocksFront left

/-- Before an edge at the back, something else comes while closers are in surplus. -/
def BlockedAtBack (s left : List Char) : Prop :=
  ∃ back, s = left ++ back ∧ CloserEdge back ∧ left.count '(' < left.count ')' ∧ BlocksBack left

section

variable {s core left : List Char}

theorem peelOpeners_eq_iff {n : Nat} (h : n ≤ s.count '(') {r : Except (List Char) (List Char)} :
    peelOpeners n s = r ↔ Peeled OpenerEdge '(' BlocksFront n s r := by
  constructor
  · rintro rfl
    exact peeled_peelOpeners h
  · exact (peeled_peelOpeners h).unique separates_openers

/-- Closers are peeled off the text written backwards. -/
theorem peelClosers_reverse_eq_iff {r : Except (List Char) (List Char)} :
    peelClosers (s.count ')' - s.count '(') s.reverse = r ↔
      Peeled CloserEdge ')' BlocksReversed (s.count ')' - s.count '(') s.reverse r := by
  have hle : s.count ')' - s.count '(' ≤ s.reverse.count ')' := by
    rw [List.count_reverse]
    exact Nat.sub_le _ _
  constructor
  · rintro rfl
    exact peeled_peelClosers hle
  · exact (peeled_peelClosers hle).unique separates_closers

/-- With openers in surplus, the front edge alone is peeled. -/
theorem balanceEdges_eq_iff_of_openers (h : s.count ')' < s.count '(')
    {r : Except (List Char) (List Char)} : balanceEdges s = r ↔
      Peeled OpenerEdge '(' BlocksFront (s.count '(' - s.count ')') s r := by
  rw [← peelOpeners_eq_iff (Nat.sub_le _ _), balanceEdges, if_pos h]

/-- With no openers in surplus, the back edge alone is peeled. -/
theorem balanceEdges_eq_ok_iff_of_closers (h : s.count '(' ≤ s.count ')') :
    balanceEdges s = .ok core ↔ ∃ back, s = core ++ back ∧ CloserEdge back ∧
      (∀ c, back.head? = some c → c = ')') ∧ back.count ')' = s.count ')' - s.count '(' := by
  have hpeel : balanceEdges s = .ok core ↔
      peelClosers (s.count ')' - s.count '(') s.reverse = .ok core.reverse := by
    rw [balanceEdges, if_neg (Nat.not_lt.mpr h)]
    split
    · rename_i back hback
      rw [hback, Except.ok.injEq, Except.ok.injEq, List.reverse_eq_iff]
    · rename_i back hback
      rw [hback]
      constructor <;> intro heq <;> cases heq
  rw [hpeel, peelClosers_reverse_eq_iff, peeled_ok_iff, List.reverse_surjective.exists]
  simp only [← List.reverse_append, List.reverse_inj, closerEdge_reverse, List.getLast?_reverse,
    List.count_reverse]

/-- A surplus of closers stays exactly where the back is blocked too early. -/
theorem balanceEdges_eq_error_iff_of_closers (h : s.count '(' ≤ s.count ')') :
    balanceEdges s = .error left ↔ ∃ back, s = left ++ back ∧ CloserEdge back ∧
      back.count ')' < s.count ')' - s.count '(' ∧ BlocksBack left := by
  have hpeel : balanceEdges s = .error left ↔
      peelClosers (s.count ')' - s.count '(') s.reverse = .error left.reverse := by
    rw [balanceEdges, if_neg (Nat.not_lt.mpr h)]
    split
    · rename_i back hback
      rw [hback]
      constructor <;> intro heq <;> cases heq
    · rename_i back hback
      rw [hback, Except.error.injEq, Except.error.injEq, List.reverse_eq_iff]
  rw [hpeel, peelClosers_reverse_eq_iff, peeled_error_iff, List.reverse_surjective.exists]
  simp only [← List.reverse_append, List.reverse_inj, closerEdge_reverse, List.count_reverse,
    BlocksReversed, List.reverse_reverse]

/-- Balancing succeeds exactly with what is left when the surplus is peeled off. -/
theorem balanceEdges_eq_ok_iff :
    balanceEdges s = .ok core ↔ ∃ front back, PeelsTo s front core back := by
  constructor
  · intro hok
    by_cases h : s.count ')' < s.count '('
    · obtain ⟨front, rfl, hfront, hlast, hcount⟩ :=
        peeled_ok_iff.mp ((balanceEdges_eq_iff_of_openers h).mp hok)
      rw [List.count_append, List.count_append, hfront.count_close] at hcount h
      exact ⟨front, [], .ofFront hfront hlast (by omega)⟩
    · obtain ⟨back, rfl, hback, hhead, hcount⟩ :=
        (balanceEdges_eq_ok_iff_of_closers (Nat.not_lt.mp h)).mp hok
      rw [List.count_append, List.count_append, hback.count_open] at hcount h
      exact ⟨[], back, .ofBack hback hhead (by omega)⟩
  · rintro ⟨front, back, hpeels⟩
    by_cases h : s.count ')' < s.count '('
    · have hback : back = [] := hpeels.back_eq_nil (Nat.le_of_lt h)
      refine (balanceEdges_eq_iff_of_openers h).mpr (peeled_ok_iff.mpr
        ⟨front, ?_, hpeels.isOpenerEdge, hpeels.frontEnds, hpeels.openers⟩)
      rw [hpeels.text, hback, List.append_nil]
    · have hle := Nat.not_lt.mp h
      have hfront : front = [] := hpeels.front_eq_nil hle
      refine (balanceEdges_eq_ok_iff_of_closers hle).mpr
        ⟨back, ?_, hpeels.isCloserEdge, hpeels.backStarts, hpeels.closers⟩
      rw [hpeels.text, hfront, List.nil_append]

/-- Balancing fails exactly with what is left at a blocked edge. -/
theorem balanceEdges_eq_error_iff :
    balanceEdges s = .error left ↔ BlockedAtFront s left ∨ BlockedAtBack s left := by
  -- what an edge takes off counts on one side only
  have hfrontCounts {front : List Char} (hs : s = front ++ left) (hfront : OpenerEdge front) :
      s.count '(' = front.count '(' + left.count '(' ∧ s.count ')' = left.count ')' := by
    rw [hs, List.count_append, List.count_append, hfront.count_close, Nat.zero_add]
    exact ⟨rfl, rfl⟩
  have hbackCounts {back : List Char} (hs : s = left ++ back) (hback : CloserEdge back) :
      s.count '(' = left.count '(' ∧ s.count ')' = left.count ')' + back.count ')' := by
    rw [hs, List.count_append, List.count_append, hback.count_open, Nat.add_zero]
    exact ⟨rfl, rfl⟩
  by_cases h : s.count ')' < s.count '('
  · rw [balanceEdges_eq_iff_of_openers h, peeled_error_iff]
    constructor
    · rintro ⟨front, hs, hfront, hcount, hblocks⟩
      obtain ⟨hopens, hcloses⟩ := hfrontCounts hs hfront
      exact .inl ⟨front, hs, hfront, by omega, hblocks⟩
    · rintro (⟨front, hs, hfront, hopen, hblocks⟩ | ⟨back, hs, hback, hopen, -⟩)
      · obtain ⟨hopens, hcloses⟩ := hfrontCounts hs hfront
        exact ⟨front, hs, hfront, by omega, hblocks⟩
      · obtain ⟨hopens, hcloses⟩ := hbackCounts hs hback
        omega
  · rw [balanceEdges_eq_error_iff_of_closers (Nat.not_lt.mp h)]
    constructor
    · rintro ⟨back, hs, hback, hcount, hblocks⟩
      obtain ⟨hopens, hcloses⟩ := hbackCounts hs hback
      exact .inr ⟨back, hs, hback, by omega, hblocks⟩
    · rintro (⟨front, hs, hfront, hopen, -⟩ | ⟨back, hs, hback, hopen, hblocks⟩)
      · obtain ⟨hopens, hcloses⟩ := hfrontCounts hs hfront
        omega
      · obtain ⟨hopens, hcloses⟩ := hbackCounts hs hback
        exact ⟨back, hs, hback, by omega, hblocks⟩

end

section

variable {fragment : String}

theorem balance_eq_ok_iff {t : String} : balance fragment = .ok t ↔
    ∃ core, t = ScopeTag.keywordOf (ScopeTag.split fragment.toList).1 ++ String.ofList core ∧
      balanceEdges (ScopeTag.split fragment.toList).2 = .ok core := by
  rw [balance]
  dsimp only
  cases balanceEdges (ScopeTag.split fragment.toList).2 <;> simp [eq_comm]

theorem balance_eq_error_iff {e : BalanceError} : balance fragment = .error e ↔
    ∃ left, e = ⟨fragment,
        ScopeTag.keywordOf (ScopeTag.split fragment.toList).1 ++ String.ofList left⟩ ∧
      balanceEdges (ScopeTag.split fragment.toList).2 = .error left := by
  rw [balance]
  dsimp only
  cases balanceEdges (ScopeTag.split fragment.toList).2 <;> simp [eq_comm]

end

/-- Balancing a fragment succeeds with the text between the edges that hold its surplus, and fails
with what is left where something else stands before the counts are equal.  A scope keyword in front
stays in front. -/
theorem balance_peels (fragment : String) :
    let keyword := ScopeTag.keywordOf (ScopeTag.split fragment.toList).1
    let rest := (ScopeTag.split fragment.toList).2
    (∀ t, balance fragment = .ok t ↔ ∃ front core back,
      t = keyword ++ String.ofList core ∧ PeelsTo rest front core back) ∧
    ∀ e, balance fragment = .error e ↔ ∃ left,
      e = ⟨fragment, keyword ++ String.ofList left⟩ ∧
        (BlockedAtFront rest left ∨ BlockedAtBack rest left) := by
  intro keyword rest
  constructor
  · intro t
    rw [balance_eq_ok_iff]
    constructor
    · rintro ⟨core, rfl, hcore⟩
      obtain ⟨front, back, hpeels⟩ := balanceEdges_eq_ok_iff.mp hcore
      exact ⟨front, core, back, rfl, hpeels⟩
    · rintro ⟨front, core, back, rfl, hpeels⟩
      exact ⟨core, rfl, balanceEdges_eq_ok_iff.mpr ⟨front, back, hpeels⟩⟩
  · intro e
    rw [balance_eq_error_iff]
    simp only [balanceEdges_eq_error_iff]
    rfl

end TemporalRequirements
