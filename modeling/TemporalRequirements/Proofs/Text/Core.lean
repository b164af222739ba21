import TemporalRequirements.Proofs.Text.Closing

/-!
# The core of a text

Every text is a core in layers of blanks and of matching parentheses, and it has no other core:
unwrapping finds it.  The same layers can be cut away between byte positions, with the position of
the closing parenthesis to tell whether a pair wraps the text whole, and no such cut falls inside a
character.
-/

namespace TemporalRequirements.Text

/-- A text that has no blanks around it and that no matching parentheses wrap whole. -/
structure IsCore (s : List Char) : Prop where
  starts : ∀ c ∈ s.head?, isBlank c = false
  ends : ∀ c ∈ s.getLast?, isBlank c = false
  bare : ∀ inner, Balanced inner → s ≠ '(' :: (inner ++ [')'])

/-- A text that holds `core` in layers of blanks and of matching parentheses. -/
inductive Layered (core : List Char) : List Char → Prop where
  | core : Layered core core
  | blanks {before s after : List Char} (hbefore : ∀ b ∈ before, isBlank b = true)
      (hafter : ∀ b ∈ after, isBlank b = true) (h : Layered core s) :
      Layered core (before ++ (s ++ after))
  | group {s : List Char} (hs : Balanced s) (h : Layered core s) :
      Layered core ('(' :: (s ++ [')']))

namespace IsCore

variable {s : List Char}

theorem trim (h : IsCore s) : trim s = s := by
  cases s with
  | nil => rfl
  | cons c s =>
    have hne : c :: s ≠ [] := List.cons_ne_nil c s
    have hlast := h.ends _ (List.getLast?_eq_some_getLast hne)
    exact trim_eq_self (h.starts c rfl) ⟨_, _, (List.dropLast_concat_getLast hne).symm, hlast⟩

theorem inside? (h : IsCore s) : inside? s = none := by
  cases hinside : Text.inside? s with
  | none => rfl
  | some inner =>
    obtain ⟨hs, hinner⟩ := inside?_eq_some_iff.mp hinside
    exact absurd hs (h.bare inner hinner)

/-- Unwrapping leaves a core as it is. -/
theorem unwrap (h : IsCore s) : unwrap s = s := by
  have hbare : Text.inside? (Text.trim s) = none := by rw [h.trim, h.inside?]
  rw [unwrap_eq_trim hbare, h.trim]

end IsCore

theorem isCore_trim {s : List Char} (h : inside? (trim s) = none) : IsCore (trim s) where
  starts _ hc := isBlank_of_head?_trim hc
  ends _ hc := isBlank_of_getLast?_trim hc
  bare inner hinner heq := by
    rw [heq, hinner.inside?_wrap] at h
    cases h

theorem layered_of_trim {core s : List Char} (h : Layered core (trim s)) : Layered core s := by
  obtain ⟨before, after, hs, hbefore, hafter⟩ := exists_trim s
  rw [hs]
  exact .blanks hbefore hafter h

/-! ## Unwrapping finds the core -/

/-- Unwrapping takes off layers. -/
theorem layered_unwrapUpTo (layers : Nat) (s : List Char) : Layered (unwrapUpTo layers s) s := by
  induction layers generalizing s with
  | zero => exact layered_of_trim .core
  | succ layers ih =>
    rw [unwrapUpTo]
    split
    · rename_i inner hinside
      obtain ⟨htrim, hinner⟩ := inside?_eq_some_iff.mp hinside
      apply layered_of_trim
      rw [htrim]
      exact .group hinner (ih inner)
    · exact layered_of_trim .core

/-- No layer is left after as many rounds as the text has characters. -/
theorem isCore_unwrapUpTo {layers : Nat} {s : List Char} (h : s.length ≤ layers) :
    IsCore (unwrapUpTo layers s) := by
  induction layers generalizing s with
  | zero =>
    obtain rfl := List.length_eq_zero_iff.mp (Nat.le_zero.mp h)
    exact isCore_trim rfl
  | succ layers ih =>
    rw [unwrapUpTo]
    split
    · rename_i inner hinside
      have hlength := length_of_inside? hinside
      have htrim := trim_length_le s
      exact ih (by omega)
    · rename_i hnone
      exact isCore_trim hnone

theorem trim_group (s : List Char) : trim ('(' :: (s ++ [')'])) = '(' :: (s ++ [')']) :=
  trim_eq_self rfl ⟨'(' :: s, ')', rfl, rfl⟩

/-- Unwrapping goes on with what a text holds in its layers. -/
theorem Layered.unwrap {core s : List Char} (h : Layered core s) : unwrap s = unwrap core := by
  induction h with
  | core => rfl
  | blanks hbefore hafter _ ih => rw [unwrap_congr (trim_blanks hbefore hafter), ih]
  | group hs _ ih =>
    have hinside := hs.inside?_wrap
    rw [← trim_group] at hinside
    rw [unwrap_eq_unwrap_inside hinside, ih]

theorem isCore_unwrap (s : List Char) : IsCore (unwrap s) := isCore_unwrapUpTo (Nat.le_refl _)

/-- What unwrapping finds is the one core that the text holds in layers. -/
theorem unwrap_eq_iff {core s : List Char} : unwrap s = core ↔ IsCore core ∧ Layered core s := by
  constructor
  · rintro rfl
    exact ⟨isCore_unwrap s, layered_unwrapUpTo s.length s⟩
  · rintro ⟨hcore, hlayers⟩
    rw [hlayers.unwrap, hcore.unwrap]

/-! ## Cutting layers away between positions -/

/-- The text between two byte positions, each of which must lie between two characters. -/
def slice? (s : List Char) (start stop : Nat) : Option (List Char) := do
  let before ← cutAt? stop s
  let parts ← cutAt? start before.1
  return parts.2

theorem slice?_byteLength (front part back : List Char) :
    slice? (front ++ (part ++ back)) (byteLength front) (byteLength (front ++ part)) =
      some part := by
  rw [slice?, ← List.append_assoc, cutAt?_byteLength, Option.bind_eq_bind, Option.bind_some,
    cutAt?_byteLength]
  rfl

theorem length_lt_of_slice? {s part : List Char} {stop : Nat} (h : slice? s 1 stop = some part) :
    part.length < s.length := by
  obtain ⟨⟨before, after⟩, hstop, h⟩ := Option.bind_eq_some_iff.mp h
  obtain ⟨⟨first, part'⟩, hstart, h⟩ := Option.bind_eq_some_iff.mp h
  obtain rfl := Option.some.inj h
  obtain ⟨rfl, -⟩ := eq_of_cutAt? hstop
  obtain ⟨rfl, hfirst⟩ := eq_of_cutAt? hstart
  cases first with
  | nil => cases hfirst
  | cons c first =>
    simp only [List.length_append, List.length_cons]
    omega

/-- Whether a text starts with an open parenthesis and ends with the one that closes it. -/
def isWrapped (s : List Char) : Bool :=
  s.head? == some '(' && s.getLast? == some ')' &&
    matchingClose (String.ofList s) 0 == some (byteLength s - 1)

/-- Cuts the first and the last byte off a trimmed text, and trims the rest, as long as these are
parentheses that wrap it. -/
def unwrapSlices? (s : List Char) : Option (List Char) :=
  if isWrapped s then
    match _hslice : slice? s 1 (byteLength s - 1) with
    | none => none
    | some inner => unwrapSlices? (trim inner)
  else some s
termination_by s.length
decreasing_by exact Nat.lt_of_le_of_lt (trim_length_le inner) (length_lt_of_slice? _hslice)

theorem matchingClose_zero (rest : List Char) :
    matchingClose (String.ofList ('(' :: rest)) 0 =
      (splitClose 1 rest).map fun parts ↦ 1 + byteLength parts.1 := by
  have hlist : (String.ofList ('(' :: rest)).toList = [] ++ '(' :: rest := String.toList_ofList
  exact matchingClose_opener hlist

theorem byteLength_group (s : List Char) :
    byteLength ('(' :: (s ++ [')'])) - 1 = byteLength (['('] ++ s) := by
  have hclose : byteLength [')'] = 1 := rfl
  rw [byteLength_opener, byteLength_append, hclose, List.singleton_append, byteLength_opener,
    ← Nat.add_assoc, Nat.add_sub_cancel]

/-- A matching pair wraps a text whole if the first parenthesis is closed at the last position. -/
theorem isWrapped_iff {s : List Char} : isWrapped s = true ↔ ∃ inner, inside? s = some inner := by
  constructor
  · intro h
    simp only [isWrapped, Bool.and_eq_true, beq_iff_eq] at h
    obtain ⟨⟨hstart, -⟩, hclose⟩ := h
    obtain ⟨rest, rfl⟩ := List.head?_eq_some_iff.mp hstart
    rw [matchingClose_zero] at hclose
    obtain ⟨⟨inner, back⟩, hsplit, hlast⟩ := Option.map_eq_some_iff.mp hclose
    obtain ⟨rfl, hinner⟩ := splitClose_eq_some_iff.mp hsplit
    have hback : byteLength back = 0 := by
      have hcloser : byteLength (')' :: back) = 1 + byteLength back := rfl
      change 1 + byteLength inner = _ at hlast
      rw [byteLength_opener, byteLength_append, hcloser] at hlast
      omega
    obtain rfl := byteLength_eq_zero_iff.mp hback
    exact ⟨inner, hinner.inside?_wrap⟩
  · rintro ⟨inner, hinside⟩
    obtain ⟨rfl, hinner⟩ := inside?_eq_some_iff.mp hinside
    have hlast : ('(' :: (inner ++ [')'])).getLast? = some ')' := by
      rw [← List.cons_append, List.getLast?_concat]
    have hclose : matchingClose (String.ofList ('(' :: (inner ++ [')']))) 0 =
        some (byteLength ('(' :: (inner ++ [')'])) - 1) := by
      rw [matchingClose_zero, hinner.splitClose_close, byteLength_group]
      rfl
    rw [isWrapped, hlast, hclose]
    simp

theorem slice?_group (s : List Char) :
    slice? ('(' :: (s ++ [')'])) 1 (byteLength ('(' :: (s ++ [')'])) - 1) = some s := by
  rw [byteLength_group]
  exact slice?_byteLength ['('] s [')']

/-- No cut fails, and what is left is what unwrapping leaves. -/
theorem unwrapSlices?_trim (s : List Char) : unwrapSlices? (trim s) = some (unwrap s) := by
  rw [unwrapSlices?]
  cases hinside : inside? (trim s) with
  | none =>
    have hbare : ¬ isWrapped (trim s) = true := by simp [isWrapped_iff, hinside]
    rw [if_neg hbare, unwrap_eq_trim hinside]
  | some inner =>
    obtain ⟨htrim, hinner⟩ := inside?_eq_some_iff.mp hinside
    have hslice := slice?_group inner
    rw [← htrim] at hslice
    rw [if_pos (isWrapped_iff.mpr ⟨inner, hinside⟩), unwrap_eq_unwrap_inside hinside]
    split
    · rename_i hnone
      rw [hslice] at hnone
      cases hnone
    · rename_i hsome
      obtain rfl := Option.some.inj (hslice.symm.trans hsome)
      -- what is inside a group is two characters shorter
      exact unwrapSlices?_trim inner
termination_by s.length
decreasing_by
  have hlength := length_of_inside? hinside
  have hshorter := trim_length_le s
  omega

/-- Unwrapping finds the one core that a text holds in layers, and changes it no more.  Cutting at
byte positions finds it too.  An open parenthesis is closed at the first later position up to which
the text from there on has equally many of both parentheses, and nowhere if there is none. -/
theorem unwrap_finds_core (text : String) :
    (∀ core, unwrap text.toList = core ↔ IsCore core ∧ Layered core text.toList) ∧
      unwrap (unwrap text.toList) = unwrap text.toList ∧
      unwrapSlices? (trim text.toList) = some (unwrap text.toList) ∧
      ∀ start, OpensAt text.toList start →
        (∀ stop, matchingClose text start = some stop ↔
          IsLeast {stop | start < stop ∧ EvenBetween text.toList start stop} stop) ∧
        (matchingClose text start = none ↔
          ∀ stop, start < stop → ¬ EvenBetween text.toList start stop) := by
  refine ⟨fun core ↦ unwrap_eq_iff, (isCore_unwrap text.toList).unwrap,
    unwrapSlices?_trim text.toList, ?_⟩
  intro start hopen
  exact ⟨fun stop ↦ matchingClose_eq_some_iff hopen, matchingClose_eq_none_iff hopen⟩

theorem unwrap_finds_core_accented :
    OpensAt "( é (x) )".toList 5 ∧
      IsLeast {stop | 5 < stop ∧ EvenBetween "( é (x) )".toList 5 stop} 7 ∧
      IsCore "é (x)".toList ∧ Layered "é (x)".toList "( é (x) )".toList := by
  have hopen : OpensAt "( é (x) )".toList 5 :=
    ⟨"( é ".toList, "x) )".toList, by decide, by decide⟩
  obtain ⟨hcore, -, -, hclose⟩ := unwrap_finds_core "( é (x) )"
  exact ⟨hopen, ((hclose 5 hopen).1 7).mp (by decide), (hcore _).mp (by decide)⟩

-- the first of these two groups is not closed at the end
example : unwrap "((a) && (b))".toList = "(a) && (b)".toList := by decide

end TemporalRequirements.Text
