/-!
# Finding and replacing pieces of text

Occurrences of a pattern are found from left to right and do not overlap.  `breakOn` cuts a text
at the first one, `splitOn` at every one, and `replaceAll` writes another text in their places.
-/

namespace TemporalRequirements.Text

/-- What follows `pattern` in a text that starts with it. -/
def after? : List Char → List Char → Option (List Char)
  | [], s => some s
  | _ :: _, [] => none
  | p :: pattern, c :: s => if p = c then after? pattern s else none

theorem after?_eq_some_iff {pattern s rest : List Char} :
    after? pattern s = some rest ↔ s = pattern ++ rest := by
  fun_induction after? pattern s with
  | case1 s => simp
  | case2 p pattern => simp
  | case3 pattern s c ih => simp [ih]
  | case4 p pattern c s hne => simp [Ne.symm hne]

@[simp]
theorem after?_append (pattern rest : List Char) : after? pattern (pattern ++ rest) = some rest :=
  after?_eq_some_iff.mpr rfl

/-- The text before and the text after the first occurrence of `pattern`. -/
def breakOn (pattern : List Char) : List Char → Option (List Char × List Char)
  | [] => if pattern.isEmpty then some ([], []) else none
  | c :: rest =>
    match after? pattern (c :: rest) with
    | some after => some ([], after)
    | none => (breakOn pattern rest).map fun (before, after) ↦ (c :: before, after)

/-- What `breakOn` returns is the text, cut at an occurrence of the pattern. -/
theorem eq_of_breakOn {pattern s before after : List Char}
    (h : breakOn pattern s = some (before, after)) : s = before ++ pattern ++ after := by
  induction s generalizing before after with
  | nil =>
    cases pattern with
    | nil => simp_all [breakOn]
    | cons c p => simp [breakOn] at h
  | cons c rest ih =>
    rw [breakOn] at h
    split at h
    · rename_i found heq
      obtain ⟨rfl, rfl⟩ := by simpa using h
      simpa using after?_eq_some_iff.mp heq
    · obtain ⟨⟨b, a⟩, hb, heq⟩ := Option.map_eq_some_iff.mp h
      obtain ⟨rfl, rfl⟩ := by simpa using heq
      simp [ih hb]

/-- Cuts at the occurrences of `pattern`: `skip` characters of one are still to be passed over, and
`piece` holds the present piece backwards. -/
def splitFrom (pattern : List Char) : Nat → List Char → List Char → List (List Char)
  | _, piece, [] => [piece.reverse]
  | skip + 1, piece, _ :: rest => splitFrom pattern skip piece rest
  | 0, piece, c :: rest =>
    if pattern.isPrefixOf (c :: rest) then
      piece.reverse :: splitFrom pattern (pattern.length - 1) [] rest
    else splitFrom pattern 0 (c :: piece) rest

/-- The pieces between the occurrences of `pattern`, which is not empty. -/
def splitOn (pattern s : List Char) : List (List Char) := splitFrom pattern 0 [] s

theorem splitFrom_ne_nil (pattern : List Char) (skip : Nat) (piece s : List Char) :
    splitFrom pattern skip piece s ≠ [] := by
  fun_induction splitFrom pattern skip piece s <;> simp_all

/-- Pieces that were split are joined to the text. -/
theorem intercalate_splitFrom {pattern : List Char} (hp : pattern ≠ []) (skip : Nat)
    (piece s : List Char) :
    pattern.intercalate (splitFrom pattern skip piece s) = piece.reverse ++ s.drop skip := by
  fun_induction splitFrom pattern skip piece s with
  | case1 skip piece => simp
  | case2 skip piece c rest ih => simpa using ih
  | case3 piece c rest h ih =>
    obtain ⟨after, hafter⟩ := List.isPrefixOf_iff_prefix.mp h
    have hdrop : rest.drop (pattern.length - 1) = (c :: rest).drop pattern.length := by
      cases pattern with
      | nil => exact absurd rfl hp
      | cons p ps => simp
    rw [List.intercalate_cons_of_ne_nil (splitFrom_ne_nil _ _ _ _), ih, hdrop, ← hafter]
    simp
  | case4 piece c rest h ih => simpa using ih

/-- The pieces with the pattern between them are the text again. -/
theorem intercalate_splitOn {pattern : List Char} (hp : pattern ≠ []) (s : List Char) :
    pattern.intercalate (splitOn pattern s) = s := by
  simp [splitOn, intercalate_splitFrom hp]

/-- The text with `new` in place of every occurrence of `pattern`. -/
def replaceAll (pattern new s : List Char) : List Char :=
  List.intercalate new (splitOn pattern s)

end TemporalRequirements.Text
