import Mathlib.Order.Bounds.Basic
import TemporalRequirements.Proofs.Cuts
import TemporalRequirements.Proofs.Text.Counts

/-!
# The parenthesis that closes a group

The cut at the parenthesis that closes a group has a well-nested text before it, and any such cut is
the one that is found.  So the position found is the first one up to which the text from the opening
parenthesis on opens and closes equally many groups.  Positions count bytes, and every one that is
named here lies between two characters.
-/

namespace TemporalRequirements.Text

/-- What stands before the closing parenthesis closes the groups opened in it. -/
theorem closesGroups_of_splitClose {depth : Nat} {s inner rest : List Char}
    (h : splitClose (depth + 1) s = some (inner, rest)) : ClosesGroups depth inner := by
  induction s generalizing depth inner with
  | nil => cases h
  | cons c s ih =>
    have hrest {d : Nat} (hd : (splitClose (d + 1) s).map (consFirst c) = some (inner, rest)) :
        ∃ inner', inner = c :: inner' ∧ ClosesGroups d inner' := by
      obtain ⟨⟨inner', rest'⟩, hsplit, heq⟩ := Option.map_eq_some_iff.mp hd
      obtain ⟨rfl, rfl⟩ := Prod.mk.inj heq
      exact ⟨inner', rfl, ih hsplit⟩
    by_cases hopen : c = '('
    · subst hopen
      rw [Balanced.splitClose_opener] at h
      obtain ⟨inner', rfl, hinner⟩ := hrest h
      exact hinner.opener
    · by_cases hclose : c = ')'
      · subst hclose
        cases depth with
        | zero =>
          have hhere : splitClose (0 + 1) (')' :: s) = some ([], s) := rfl
          obtain ⟨rfl, -⟩ := Prod.mk.inj (Option.some.inj (hhere.symm.trans h))
          exact Balanced.nil
        | succ depth =>
          rw [Balanced.splitClose_closer] at h
          obtain ⟨inner', rfl, hinner⟩ := hrest h
          exact hinner.closer
      · rw [Balanced.splitClose_plain hopen hclose] at h
        obtain ⟨inner', rfl, hinner⟩ := hrest h
        exact hinner.plain hopen hclose

/-- A group ends where a well-nested text has a closing parenthesis behind it. -/
theorem splitClose_eq_some_iff {s inner rest : List Char} :
    splitClose 1 s = some (inner, rest) ↔ s = inner ++ ')' :: rest ∧ Balanced inner := by
  constructor
  · intro h
    have hinner : ClosesGroups 0 inner := closesGroups_of_splitClose h
    exact ⟨eq_of_splitClose h, hinner⟩
  · rintro ⟨rfl, hinner⟩
    exact hinner.splitClose_close rest

/-- In a text that leaves some group open, no prefix closes all of them. -/
theorem count_close_le_of_splitClose_eq_none {depth : Nat} {s p : List Char}
    (h : splitClose (depth + 1) s = none) (hp : p <+: s) : p.count ')' ≤ depth + p.count '(' := by
  have hne : ('(' : Char) ≠ ')' := by decide
  induction s generalizing depth p with
  | nil =>
    rw [List.prefix_nil.mp hp]
    exact Nat.zero_le _
  | cons c s ih =>
    cases p with
    | nil => exact Nat.zero_le _
    | cons d p =>
      obtain ⟨rfl, hrest⟩ := List.cons_prefix_cons.mp hp
      by_cases hopen : d = '('
      · subst hopen
        rw [Balanced.splitClose_opener, Option.map_eq_none_iff] at h
        have hcount := ih h hrest
        rw [List.count_cons_self, List.count_cons_of_ne hne]
        omega
      · by_cases hclose : d = ')'
        · subst hclose
          cases depth with
          | zero => cases h
          | succ depth =>
            rw [Balanced.splitClose_closer, Option.map_eq_none_iff] at h
            have hcount := ih h hrest
            rw [List.count_cons_self, List.count_cons_of_ne hne.symm]
            omega
        · rw [Balanced.splitClose_plain hopen hclose, Option.map_eq_none_iff] at h
          rw [List.count_cons_of_ne hopen, List.count_cons_of_ne hclose]
          exact ih h hrest

/-- A matching pair wraps a text whole if the text between its parentheses is well nested. -/
theorem inside?_eq_some_iff {s inner : List Char} :
    inside? s = some inner ↔ s = '(' :: (inner ++ [')']) ∧ Balanced inner := by
  constructor
  · intro h
    obtain ⟨rest, rfl⟩ : ∃ rest, s = '(' :: rest := ⟨_, inside?_eq_some h⟩
    rw [inside?] at h
    split at h
    · rename_i hsplit
      obtain rfl := Option.some.inj h
      obtain ⟨rfl, hinner⟩ := splitClose_eq_some_iff.mp hsplit
      exact ⟨rfl, hinner⟩
    · cases h
  · rintro ⟨rfl, hinner⟩
    exact hinner.inside?_wrap

/-! ## Byte positions -/

theorem byteLength_cons (c : Char) (s : List Char) :
    byteLength (c :: s) = c.utf8Size + byteLength s := rfl

theorem byteLength_opener (s : List Char) : byteLength ('(' :: s) = 1 + byteLength s := rfl

theorem byteLength_eq_zero_iff {s : List Char} : byteLength s = 0 ↔ s = [] := by
  cases s with
  | nil => exact iff_of_true rfl rfl
  | cons c s =>
    have hsize := c.utf8Size_pos
    rw [byteLength_cons]
    simp only [reduceCtorEq, iff_false]
    omega

/-- Behind a first character there is a position, and what it has passed is that character. -/
theorem exists_byteLength_cons (c : Char) (s : List Char) :
    ∃ n, byteLength (c :: s) = n + 1 ∧ c.utf8Size ≤ n + 1 ∧ n + 1 - c.utf8Size = byteLength s := by
  have hsize := c.utf8Size_pos
  refine ⟨byteLength (c :: s) - 1, ?_, ?_, ?_⟩ <;> rw [byteLength_cons] <;> omega

/-- The text before and the text after a byte position, which must lie between two characters. -/
def cutAt? : Nat → List Char → Option (List Char × List Char)
  | 0, s => some ([], s)
  | _ + 1, [] => none
  | n + 1, c :: s =>
    if c.utf8Size ≤ n + 1 then (cutAt? (n + 1 - c.utf8Size) s).map (consFirst c) else none

theorem cutAt?_byteLength (front back : List Char) :
    cutAt? (byteLength front) (front ++ back) = some (front, back) := by
  induction front with
  | nil => cases back <;> rfl
  | cons c front ih =>
    obtain ⟨n, hn, hfits, hrest⟩ := exists_byteLength_cons c front
    rw [hn, List.cons_append, cutAt?, if_pos hfits, hrest, ih]
    rfl

/-- A cut at a byte position is a cut of the text. -/
theorem eq_of_cutAt? {n : Nat} {s front back : List Char} (h : cutAt? n s = some (front, back)) :
    s = front ++ back ∧ byteLength front = n := by
  induction s generalizing n front with
  | nil =>
    cases n with
    | zero =>
      obtain ⟨rfl, rfl⟩ := Prod.mk.inj (Option.some.inj h)
      exact ⟨rfl, rfl⟩
    | succ n => cases h
  | cons c s ih =>
    cases n with
    | zero =>
      obtain ⟨rfl, rfl⟩ := Prod.mk.inj (Option.some.inj h)
      exact ⟨rfl, rfl⟩
    | succ n =>
      rw [cutAt?] at h
      split at h
      · rename_i hfits
        obtain ⟨⟨front', back'⟩, hcut, heq⟩ := Option.map_eq_some_iff.mp h
        obtain ⟨rfl, rfl⟩ := Prod.mk.inj heq
        obtain ⟨rfl, hlength⟩ := ih hcut
        refine ⟨rfl, ?_⟩
        rw [byteLength_cons, hlength]
        omega
      · cases h

/-- A text is cut in one way at a byte position. -/
theorem eq_of_byteLength_eq {front front' back back' : List Char}
    (h : front ++ back = front' ++ back') (hlength : byteLength front = byteLength front') :
    front = front' ∧ back = back' := by
  have hcut := cutAt?_byteLength front back
  rw [h, hlength, cutAt?_byteLength] at hcut
  obtain ⟨hfront, hback⟩ := Prod.mk.inj (Option.some.inj hcut)
  exact ⟨hfront.symm, hback.symm⟩

theorem dropBytes_byteLength (front back : List Char) :
    matchingClose.dropBytes (byteLength front) (front ++ back) = back := by
  induction front with
  | nil => cases back <;> rfl
  | cons c front ih =>
    obtain ⟨n, hn, -, hrest⟩ := exists_byteLength_cons c front
    rw [hn, List.cons_append, matchingClose.dropBytes, hrest, ih]

/-! ## The first even position -/

def OpensAt (s : List Char) (start : Nat) : Prop :=
  ∃ front rest, s = front ++ '(' :: rest ∧ byteLength front = start

/-- Whether a text from one byte position on, up to the character at another and with it, has
equally many opening and closing parentheses. -/
def EvenBetween (s : List Char) (start stop : Nat) : Prop :=
  ∃ front span c back, s = front ++ (span ++ c :: back) ∧ byteLength front = start ∧
    byteLength (front ++ span) = stop ∧ (span ++ [c]).count '(' = (span ++ [c]).count ')'

/-- From an open parenthesis on, a text is even where its rest closes one group more than it
opens. -/
theorem evenBetween_opener_iff {front rest : List Char} {stop : Nat} :
    (byteLength front < stop ∧ EvenBetween (front ++ '(' :: rest) (byteLength front) stop) ↔
      ∃ p c back, rest = p ++ c :: back ∧ byteLength front + 1 + byteLength p = stop ∧
        (p ++ [c]).count ')' = (p ++ [c]).count '(' + 1 := by
  have hne : ('(' : Char) ≠ ')' := by decide
  constructor
  · rintro ⟨hlater, front', span, c, back, heq, hstart, hstop, heven⟩
    obtain ⟨rfl, hspan⟩ := eq_of_byteLength_eq heq hstart.symm
    cases span with
    | nil =>
      rw [List.append_nil] at hstop
      omega
    | cons d p =>
      obtain ⟨rfl, rfl⟩ := List.cons.inj hspan
      rw [byteLength_append, byteLength_opener] at hstop
      rw [List.cons_append, List.count_cons_self, List.count_cons_of_ne hne] at heven
      exact ⟨p, c, back, rfl, by omega, heven.symm⟩
  · rintro ⟨p, c, back, rfl, rfl, heven⟩
    refine ⟨by omega, front, '(' :: p, c, back, rfl, rfl, ?_, ?_⟩
    · rw [byteLength_append, byteLength_opener, Nat.add_assoc]
    · rw [List.cons_append, List.count_cons_self, List.count_cons_of_ne hne, heven]

variable {text : String} {start stop : Nat}

theorem matchingClose_opener {front rest : List Char} (h : text.toList = front ++ '(' :: rest) :
    matchingClose text (byteLength front) =
      (splitClose 1 rest).map fun parts ↦ byteLength front + 1 + byteLength parts.1 := by
  rw [matchingClose, h, dropBytes_byteLength, Balanced.splitClose_opener, Option.map_map]
  apply congrArg (fun f ↦ Option.map f (splitClose 1 rest))
  funext parts
  change byteLength front + byteLength ('(' :: parts.1) = _
  rw [byteLength_opener, Nat.add_assoc]

/-- The parenthesis that closes a group stands at the first even position behind its opening
one. -/
theorem isLeast_of_matchingClose (hopen : OpensAt text.toList start)
    (h : matchingClose text start = some stop) :
    IsLeast {stop | start < stop ∧ EvenBetween text.toList start stop} stop := by
  obtain ⟨front, rest, heq, rfl⟩ := hopen
  rw [matchingClose_opener heq] at h
  obtain ⟨⟨inner, back⟩, hsplit, rfl⟩ := Option.map_eq_some_iff.mp h
  obtain ⟨hrest, hinner⟩ := splitClose_eq_some_iff.mp hsplit
  rw [heq]
  constructor
  · refine evenBetween_opener_iff.mpr ⟨inner, ')', back, hrest, rfl, ?_⟩
    rw [List.count_append, List.count_append, hinner.count_open_eq_count_close]
    rfl
  · intro stop hstop
    obtain ⟨p, c, back', hrest', rfl, heven⟩ := evenBetween_opener_iff.mp hstop
    refine Nat.add_le_add_left ?_ _
    rcases append_cons_eq_append_cons (hrest.symm.trans hrest') with
      ⟨rfl, -, -⟩ | ⟨between, rfl, -⟩ | ⟨between, rfl, -⟩
    · exact Nat.le_refl _
    · rw [byteLength_append]
      exact Nat.le_add_right _ _
    · -- an even position inside the group would close more than the group opens
      have hprefix : p ++ [c] <+: p ++ c :: between := ⟨between, by simp⟩
      have hcount := hinner.count_close_le_of_prefix hprefix
      omega

/-- Without a matching parenthesis no later position is even. -/
theorem not_evenBetween_of_matchingClose (hopen : OpensAt text.toList start)
    (h : matchingClose text start = none) (hlater : start < stop) :
    ¬ EvenBetween text.toList start stop := by
  intro heven
  obtain ⟨front, rest, heq, rfl⟩ := hopen
  rw [matchingClose_opener heq, Option.map_eq_none_iff] at h
  rw [heq] at heven
  obtain ⟨p, c, back, rfl, -, heven⟩ := evenBetween_opener_iff.mp ⟨hlater, heven⟩
  have hprefix : p ++ [c] <+: p ++ c :: back := ⟨back, by simp⟩
  have hcount : (p ++ [c]).count ')' ≤ 0 + (p ++ [c]).count '(' :=
    count_close_le_of_splitClose_eq_none h hprefix
  omega

theorem matchingClose_eq_some_iff (hopen : OpensAt text.toList start) :
    matchingClose text start = some stop ↔
      IsLeast {stop | start < stop ∧ EvenBetween text.toList start stop} stop := by
  refine ⟨isLeast_of_matchingClose hopen, fun hleast ↦ ?_⟩
  cases hclose : matchingClose text start with
  | none =>
    obtain ⟨hlater, heven⟩ := hleast.1
    exact absurd heven (not_evenBetween_of_matchingClose hopen hclose hlater)
  | some found => rw [(isLeast_of_matchingClose hopen hclose).unique hleast]

theorem matchingClose_eq_none_iff (hopen : OpensAt text.toList start) :
    matchingClose text start = none ↔
      ∀ stop, start < stop → ¬ EvenBetween text.toList start stop := by
  refine ⟨fun h stop ↦ not_evenBetween_of_matchingClose hopen h, fun hnone ↦ ?_⟩
  cases hclose : matchingClose text start with
  | none => rfl
  | some stop =>
    obtain ⟨hlater, heven⟩ := (isLeast_of_matchingClose hopen hclose).1
    exact absurd heven (hnone stop hlater)

end TemporalRequirements.Text
