import TemporalRequirements.Text.RedundantParentheses

/-!
# Removing parentheses in place

The walk over groups builds its result anew.  A scan can as well delete from the text that it reads,
with the positions of the open parentheses on a stack, if it steps back over what it deletes.  Every
access of `Scan.step?` to the text is checked, and none of them fails: the scan goes through the
states that the walk goes through, each with the characters that are left to read behind it.
-/

namespace TemporalRequirements.Text

/-- The text before a position, which must not lie behind the end. -/
def before? (s : List Char) (i : Nat) : Option (List Char) :=
  if i ≤ s.length then some (s.take i) else none

/-- The text without the character at a position, which must be there. -/
def removeAt? (s : List Char) (i : Nat) : Option (List Char) :=
  if i < s.length then some (s.eraseIdx i) else none

/-- A position some places further to the front, which must not lie before the start. -/
def back? (i n : Nat) : Option Nat := if n ≤ i then some (i - n) else none

theorem before?_length (front back : List Char) :
    before? (front ++ back) front.length = some front := by
  rw [before?, if_pos (by simp), List.take_left']
  rfl

theorem removeAt?_length (front back : List Char) (c : Char) :
    removeAt? (front ++ c :: back) front.length = some (front ++ back) := by
  rw [removeAt?, if_pos (by simp), List.eraseIdx_append_of_length_le (Nat.le_refl _), Nat.sub_self]
  rfl

/-! ## The scan -/

/-- The scan's state: the text as it is now, the positions of the open parentheses with whether
each may still go, from the innermost outwards, whether any group has gone, and the position of the
next character. -/
structure Scan where
  chars : List Char
  opened : List (Nat × Bool)
  removed : Bool
  position : Nat

namespace Scan

def start (s : List Char) : Scan := ⟨s, [], false, 0⟩

def advance (s : Scan) : Scan := { s with position := s.position + 1 }

def opens? (s : Scan) : Option Scan := do
  let front ← before? s.chars s.position
  let leads := match front.reverse.find? (fun c ↦ !isBlank c) with
    | none => true
    | some c => c == '('
  return { s with opened := (s.position, leads) :: s.opened }.advance

/-- Closes the innermost open group at the position, and deletes its parentheses if it is
redundant. -/
def closes? (s : Scan) : Option Scan :=
  match s.opened with
  | [] => some s.advance
  | (first, removable) :: opened =>
    if removable && first + 1 < s.position then do
      let chars ← removeAt? s.chars s.position
      let chars ← removeAt? chars first
      let position ← back? s.position 2
      return (⟨chars, opened, true, position⟩ : Scan).advance
    else some { s with opened }.advance

/-- The parentheses of a group that goes are deleted where they stand, and the scan goes on after
what they held. -/
theorem closes?_group (front inside rest : List Char) (removable removed : Bool)
    (opened : List (Nat × Bool)) :
    closes? ⟨(front ++ '(' :: inside) ++ ')' :: rest, (front.length, removable) :: opened, removed,
        (front ++ '(' :: inside).length⟩ =
      some (if removable && !inside.isEmpty then
        ⟨front ++ (inside ++ rest), opened, true, front.length + inside.length⟩
      else ⟨front ++ '(' :: (inside ++ ')' :: rest), opened, removed,
        front.length + inside.length + 2⟩) := by
  have hinside : decide (front.length + 1 < (front ++ '(' :: inside).length) = !inside.isEmpty := by
    cases inside <;> simp
  have hlength : (front ++ '(' :: inside).length = front.length + inside.length + 1 := by
    rw [List.length_append, List.length_cons, Nat.add_assoc]
  rw [closes?]
  simp only [hinside]
  split
  · rename_i hgone
    have hne : 1 ≤ inside.length := by
      cases inside with
      | nil => simp at hgone
      | cons c inside => exact Nat.succ_pos _
    have hback : back? (front ++ '(' :: inside).length 2 =
        some (front.length + inside.length - 1) := by
      rw [hlength, back?, if_pos (by omega)]
      rfl
    have hfirst : removeAt? (front ++ '(' :: inside ++ rest) front.length =
        some (front ++ (inside ++ rest)) := by
      rw [List.append_assoc]
      exact removeAt?_length front (inside ++ rest) '('
    simp only [removeAt?_length, hfirst, hback, Option.bind_eq_bind, Option.bind_some, advance]
    rw [Nat.sub_add_cancel (by omega)]
    rfl
  · simp [advance, hlength]

/-- Marks the innermost open group as one that holds an operand. -/
def keep (s : Scan) : Scan := { s with opened := s.opened.modifyHead fun o ↦ (o.1, false) }

def step? (s : Scan) : Option Scan := do
  let c ← s.chars[s.position]?
  if c = '(' then s.opens?
  else if c = ')' then s.closes?
  else if isOperandPart c then return s.keep.advance
  else return s.advance

/-- The number of characters that are left to read. -/
def left (s : Scan) : Nat := s.chars.length - s.position

theorem length_of_removeAt? {s t : List Char} {i : Nat} (h : removeAt? s i = some t) :
    i < s.length ∧ t.length + 1 = s.length := by
  unfold removeAt? at h
  split at h
  · rename_i hi
    obtain rfl := Option.some.inj h
    rw [List.length_eraseIdx_of_lt hi]
    omega
  · cases h

theorem left_advance {s : Scan} (hs : s.position < s.chars.length) (opened : List (Nat × Bool)) :
    ({ s with opened }.advance).left < s.left := by
  change s.chars.length - (s.position + 1) < s.chars.length - s.position
  omega

/-- Stepping back over two characters that are deleted leaves less to read. -/
theorem left_of_closes? {s s' : Scan} (hs : s.position < s.chars.length)
    (h : s.closes? = some s') : s'.left < s.left := by
  unfold closes? at h
  split at h
  · obtain rfl := Option.some.inj h
    exact left_advance hs s.opened
  · split at h
    · obtain ⟨chars, hchars, h⟩ := Option.bind_eq_some_iff.mp h
      obtain ⟨chars', hchars', h⟩ := Option.bind_eq_some_iff.mp h
      obtain ⟨position, hposition, h⟩ := Option.bind_eq_some_iff.mp h
      obtain rfl := Option.some.inj h
      have hlength := length_of_removeAt? hchars
      have hlength' := length_of_removeAt? hchars'
      unfold back? at hposition
      split at hposition
      · obtain rfl := Option.some.inj hposition
        change chars'.length - (s.position - 2 + 1) < s.chars.length - s.position
        omega
      · cases hposition
    · obtain rfl := Option.some.inj h
      exact left_advance hs _

/-- A step leaves less to read. -/
theorem left_of_step? {s s' : Scan} (hs : s.position < s.chars.length) (h : s.step? = some s') :
    s'.left < s.left := by
  obtain ⟨c, -, h⟩ := Option.bind_eq_some_iff.mp h
  split at h
  · obtain ⟨front, -, h⟩ := Option.bind_eq_some_iff.mp h
    obtain rfl := Option.some.inj h
    exact left_advance hs _
  · split at h
    · exact left_of_closes? hs h
    · split at h
      · obtain rfl := Option.some.inj h
        exact left_advance hs _
      · obtain rfl := Option.some.inj h
        exact left_advance hs s.opened

/-- Scans the text to its end. -/
def run (s : Scan) : Option Scan :=
  if s.position < s.chars.length then
    match _hstep : s.step? with
    | none => none
    | some s' => run s'
  else some s
termination_by s.left
decreasing_by exact left_of_step? ‹_› _hstep

theorem run_of_step? {s s' : Scan} (hs : s.position < s.chars.length)
    (h : s.step? = some s') : s.run = s'.run := by
  rw [run, if_pos hs]
  split
  · rename_i hnone
    rw [h] at hnone
    cases hnone
  · rename_i hsome
    rw [h] at hsome
    obtain rfl := Option.some.inj hsome
    rfl

theorem run_of_le {s : Scan} (h : s.chars.length ≤ s.position) : s.run = some s := by
  rw [run, if_neg (Nat.not_lt.mpr h)]

end Scan

/-- The text without its redundant parentheses, removed in place. -/
def removeInPlace (s : List Char) : Option (List Char) := do
  let scan ← (Scan.start s).run
  let text := trim (shortenSpaces 0 scan.chars)
  return if scan.removed then attachLastOperand text else text

/-! ## The scan and the walk -/

namespace GroupWalk

theorem result_nil (outer : List Char) (removed : Bool) :
    result ⟨outer, [], removed⟩ = outer.reverse := rfl

theorem result_cons (outer : List Char) (g : OpenGroup) (groups : List OpenGroup)
    (removed : Bool) : result ⟨outer, g :: groups, removed⟩ =
      result ⟨outer, groups, removed⟩ ++ '(' :: g.content.reverse := by
  simp [result]

theorem append_outside (cs outer : List Char) (removed : Bool) :
    append cs ⟨outer, [], removed⟩ = ⟨cs ++ outer, [], removed⟩ := rfl

theorem append_inside (cs outer : List Char) (g : OpenGroup) (groups : List OpenGroup)
    (removed : Bool) : append cs ⟨outer, g :: groups, removed⟩ =
      ⟨outer, { g with content := cs ++ g.content } :: groups, removed⟩ := rfl

theorem close_inside (outer : List Char) (g : OpenGroup) (groups : List OpenGroup)
    (removed : Bool) : close ⟨outer, g :: groups, removed⟩ =
      if g.removable && !g.content.isEmpty then
        { append g.content ⟨outer, groups, removed⟩ with removed := true }
      else append (')' :: g.content ++ ['(']) ⟨outer, groups, removed⟩ := rfl

/-- What is added to a walk stands at the end of its result. -/
theorem result_append (cs : List Char) (w : GroupWalk) :
    (w.append cs).result = w.result ++ cs.reverse := by
  obtain ⟨outer, groups, removed⟩ := w
  cases groups with
  | nil => rw [append_outside, result_nil, result_nil, List.reverse_append]
  | cons g groups =>
    rw [append_inside, result_cons, result_cons, List.reverse_append, List.append_assoc,
      List.cons_append]

/-- The positions of the open parentheses in the result of a walk, with whether each may go. -/
def openers (outer : List Char) : List OpenGroup → List (Nat × Bool)
  | [] => []
  | g :: groups =>
    ((result ⟨outer, groups, false⟩).length, g.removable) :: openers outer groups

/-- The state of a scan that has come as far as a walk, with the rest of the text behind it. -/
def scan (w : GroupWalk) (rest : List Char) : Scan where
  chars := w.result ++ rest
  opened := openers w.outer w.groups
  removed := w.removed
  position := w.result.length

theorem scan_cons (outer : List Char) (g : OpenGroup) (groups : List OpenGroup) (removed : Bool)
    (rest : List Char) :
    let front := result ⟨outer, groups, removed⟩
    scan ⟨outer, g :: groups, removed⟩ rest =
      ⟨(front ++ '(' :: g.content.reverse) ++ rest,
        (front.length, g.removable) :: openers outer groups, removed,
        (front ++ '(' :: g.content.reverse).length⟩ := by
  intro front
  rw [scan, result_cons]
  rfl

/-- A walk that takes characters over is a scan that has passed them. -/
theorem scan_append (cs : List Char) (w : GroupWalk) (rest : List Char) :
    (w.append cs).scan rest = ⟨w.result ++ (cs.reverse ++ rest), openers w.outer w.groups,
      w.removed, w.result.length + cs.length⟩ := by
  have hresult := result_append cs w
  have hkept : openers (w.append cs).outer (w.append cs).groups = openers w.outer w.groups ∧
      (w.append cs).removed = w.removed := by
    obtain ⟨outer, groups, removed⟩ := w
    cases groups <;> exact ⟨rfl, rfl⟩
  rw [scan, hresult, hkept.1, hkept.2, List.append_assoc, List.length_append, List.length_reverse]

theorem scan_append_singleton (w : GroupWalk) (c : Char) (rest : List Char) :
    (w.append [c]).scan rest = (w.scan (c :: rest)).advance :=
  scan_append [c] w rest

/-- Looking back over the whole text finds what looking back to the innermost opener finds. -/
theorem leads_result (w : GroupWalk) :
    (match w.result.reverse.find? (fun c ↦ !isBlank c) with
      | none => true
      | some c => c == '(') = w.leads := by
  obtain ⟨outer, groups, removed⟩ := w
  cases groups with
  | nil =>
    rw [result_nil, List.reverse_reverse]
    rfl
  | cons g groups =>
    rw [result_cons, List.reverse_append, List.reverse_cons, List.reverse_reverse,
      List.append_assoc, List.find?_append]
    change _ = match g.content.find? (fun c ↦ !isBlank c) with
      | none => true
      | some c => c == '('
    cases g.content.find? (fun c ↦ !isBlank c) with
    | none => rfl
    | some c => rfl

/-- The scan notes an open parenthesis as the walk does. -/
theorem opens?_scan (w : GroupWalk) (rest : List Char) :
    (w.scan ('(' :: rest)).opens? = some ((w.step '(').scan rest) := by
  have hfront : before? (w.scan ('(' :: rest)).chars (w.scan ('(' :: rest)).position =
      some w.result := before?_length w.result ('(' :: rest)
  have hopened : (w.step '(').scan rest = ⟨(w.result ++ ['(']) ++ rest,
      (w.result.length, w.leads) :: openers w.outer w.groups, w.removed,
      (w.result ++ ['(']).length⟩ := scan_cons _ _ _ _ _
  rw [hopened, Scan.opens?, hfront, Option.bind_eq_bind, Option.bind_some, leads_result,
    List.append_assoc, List.length_append]
  rfl

/-- The scan closes a group as the walk does. -/
theorem closes?_scan (w : GroupWalk) (rest : List Char) :
    (w.scan (')' :: rest)).closes? = some ((w.step ')').scan rest) := by
  obtain ⟨outer, groups, removed⟩ := w
  cases groups with
  | nil => exact congrArg some (scan_append_singleton ⟨outer, [], removed⟩ ')' rest).symm
  | cons g groups =>
    have hstep : step ⟨outer, g :: groups, removed⟩ ')' = close ⟨outer, g :: groups, removed⟩ := rfl
    rw [hstep, close_inside, scan_cons, Scan.closes?_group, List.isEmpty_reverse,
      List.length_reverse]
    split
    · have hgone := scan_append g.content ⟨outer, groups, removed⟩ rest
      exact congrArg (fun s : Scan ↦ some { s with removed := true }) hgone.symm
    · have hkept := scan_append (')' :: g.content ++ ['(']) ⟨outer, groups, removed⟩ rest
      rw [hkept]
      simp [Nat.add_assoc]

theorem keep_scan (w : GroupWalk) (rest : List Char) :
    (w.scan rest).keep = w.keep.scan rest := by
  obtain ⟨outer, groups, removed⟩ := w
  cases groups with
  | nil => rfl
  | cons g groups => simp [scan, keep, Scan.keep, result_cons, openers]

/-- No access fails in a step of the scan, which is the step of the walk. -/
theorem step?_scan (w : GroupWalk) (c : Char) (rest : List Char) :
    (w.scan (c :: rest)).step? = some ((w.step c).scan rest) := by
  have hread : (w.scan (c :: rest)).chars[(w.scan (c :: rest)).position]? = some c := by
    simp [scan]
  rw [Scan.step?, hread, Option.bind_eq_bind, Option.bind_some]
  split
  · rename_i hc
    subst hc
    exact w.opens?_scan rest
  · rename_i hopen
    split
    · rename_i hc
      subst hc
      exact w.closes?_scan rest
    · rename_i hclose
      rw [step, if_neg hopen, if_neg hclose]
      split
      · rw [keep_scan, scan_append_singleton]
        rfl
      · rw [scan_append_singleton]
        rfl

/-- The scan goes to the end of the text, and leaves what the walk leaves. -/
theorem run_scan (w : GroupWalk) (s : List Char) :
    (w.scan s).run = some ((s.foldl step w).scan []) := by
  induction s generalizing w with
  | nil => exact Scan.run_of_le (by simp [scan])
  | cons c s ih =>
    rw [Scan.run_of_step? (by simp [scan]) (w.step?_scan c s), ih]
    rfl

end GroupWalk

/-- Removing in place fails nowhere, and is removing. -/
theorem removeInPlace_eq (s : List Char) : removeInPlace s = some (removeRedundant s) := by
  have hstart : Scan.start s = GroupWalk.start.scan s := rfl
  have hchars (w : GroupWalk) : (w.scan []).chars = w.result := List.append_nil w.result
  rw [removeInPlace, hstart, GroupWalk.run_scan, Option.bind_eq_bind, Option.bind_some, hchars]
  rfl

end TemporalRequirements.Text
