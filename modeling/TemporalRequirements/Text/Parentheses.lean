import TemporalRequirements.Text.Blank

/-!
# Matching parentheses

`splitClose` cuts a text at the parenthesis that closes the groups open before it.  Everything
about matching rests on it: `matchingClose` turns the cut into a position, and `unwrap` takes off
the parentheses that wrap a whole text, as often as they do.
-/

namespace TemporalRequirements.Text

/-- The number of bytes that a text takes in UTF-8. -/
def byteLength : List Char → Nat
  | [] => 0
  | c :: s => c.utf8Size + byteLength s

@[simp] theorem byteLength_append (s t : List Char) :
    byteLength (s ++ t) = byteLength s + byteLength t := by
  induction s with
  | nil => simp [byteLength]
  | cons c s ih => simp [byteLength, ih, Nat.add_assoc]

def consFirst (c : Char) (parts : List Char × List Char) : List Char × List Char :=
  (c :: parts.1, parts.2)

/-- The text before and the text after the parenthesis that closes the last of `depth` open
groups.  With none open, the groups of the text itself are counted. -/
def splitClose : Nat → List Char → Option (List Char × List Char)
  | _, [] => none
  | depth, c :: rest =>
    if c = '(' then (splitClose (depth + 1) rest).map (consFirst c)
    else if c = ')' then
      match depth with
      | 0 => none
      | 1 => some ([], rest)
      | others + 2 => (splitClose (others + 1) rest).map (consFirst c)
    else (splitClose depth rest).map (consFirst c)

/-- What `splitClose` returns is the text, cut at a closing parenthesis. -/
theorem eq_of_splitClose {depth : Nat} {s inner rest : List Char}
    (h : splitClose depth s = some (inner, rest)) : s = inner ++ ')' :: rest := by
  induction s generalizing depth inner with
  | nil => simp [splitClose] at h
  | cons c s ih =>
    have step : ∀ d, (splitClose d s).map (consFirst c) = some (inner, rest) →
        c :: s = inner ++ ')' :: rest := by
      intro d hd
      obtain ⟨⟨i, r⟩, hs, heq⟩ := Option.map_eq_some_iff.mp hd
      simp only [consFirst, Prod.mk.injEq] at heq
      obtain ⟨rfl, rfl⟩ := heq
      simp [ih hs]
    unfold splitClose at h
    split at h
    · exact step _ h
    · split at h
      · rename_i hc
        split at h
        · simp at h
        · simp_all
        · exact step _ h
      · exact step _ h

/-- The byte position of the parenthesis that closes the group opened at byte `start`. -/
def matchingClose (text : String) (start : Nat) : Option Nat :=
  (splitClose 0 (dropBytes start text.toList)).map fun (inner, _) ↦ start + byteLength inner
where
  /-- The text without the characters that start before byte `n`. -/
  dropBytes : Nat → List Char → List Char
    | 0, s => s
    | _, [] => []
    | n + 1, c :: s => dropBytes (n + 1 - c.utf8Size) s

/-! ## Unwrapping -/

/-- The inside of a text that one matched pair of parentheses wraps. -/
def inside? : List Char → Option (List Char)
  | '(' :: rest =>
    match splitClose 1 rest with
    | some (inner, []) => some inner
    | _ => none
  | _ => none

/-- The inside of a wrapped text stands between its outer parentheses. -/
theorem inside?_eq_some {s inner : List Char} (h : inside? s = some inner) :
    s = '(' :: inner ++ [')'] := by
  unfold inside? at h
  split at h
  · split at h
    · rename_i heq
      obtain rfl := by simpa using h
      simp [eq_of_splitClose heq]
    · simp at h
  · simp at h

/-- Takes off up to `layers` pairs of wrapping parentheses and the blanks around each. -/
def unwrapUpTo : Nat → List Char → List Char
  | 0, s => trim s
  | layers + 1, s =>
    match inside? (trim s) with
    | some inner => unwrapUpTo layers inner
    | none => trim s

/-- The text without the parentheses that wrap it whole and without outer blanks. -/
def unwrap (s : List Char) : List Char := unwrapUpTo s.length s

/-! ## Nesting -/

/-- The deepest nesting of parentheses below `depth` open ones; surplus closers count for
nothing. -/
def nestingFrom : Nat → List Char → Nat
  | depth, [] => depth
  | depth, c :: rest =>
    if c = '(' then nestingFrom (depth + 1) rest
    else if c = ')' then max depth (nestingFrom (depth - 1) rest)
    else nestingFrom depth rest

def nesting (s : List Char) : Nat := nestingFrom 0 s

end TemporalRequirements.Text
