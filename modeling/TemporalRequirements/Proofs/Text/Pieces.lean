import TemporalRequirements.Text.Piece
import TemporalRequirements.Text.Search

/-!
# Putting pieces of text together and taking them apart

Texts that were put together with a separator between them are the pieces between its occurrences,
if they do not hold its first character.  The names of a text are the names of its parts, where no
name goes on from one part into the next.
-/

namespace TemporalRequirements.Text

section

variable {c : Char} {pattern : List Char}

theorem splitFrom_skip (skip : Nat) (piece s : List Char) :
    splitFrom pattern skip piece s = splitFrom pattern 0 piece (s.drop skip) := by
  induction skip generalizing s with
  | zero => rfl
  | succ skip ih =>
    cases s with
    | nil => rfl
    | cons d s => rw [splitFrom, List.drop_succ_cons, ih]

/-- Without the first character of the separator, a text stays in one piece. -/
theorem splitFrom_append {s : List Char} (h : c ∉ s) (piece rest : List Char) :
    splitFrom (c :: pattern) 0 piece (s ++ rest) =
      splitFrom (c :: pattern) 0 (s.reverse ++ piece) rest := by
  induction s generalizing piece with
  | nil => rfl
  | cons d s ih =>
    obtain ⟨hd, hs⟩ := List.ne_and_not_mem_of_not_mem_cons h
    have hstart : (c :: pattern).isPrefixOf (d :: (s ++ rest)) = false := by
      simp [List.isPrefixOf, hd]
    rw [List.cons_append, splitFrom, if_neg (by simp [hstart]), ih hs, List.reverse_cons,
      List.append_assoc, List.singleton_append]

theorem splitFrom_separator (piece rest : List Char) :
    splitFrom (c :: pattern) 0 piece (c :: pattern ++ rest) =
      piece.reverse :: splitOn (c :: pattern) rest := by
  have hstart : (c :: pattern).isPrefixOf (c :: (pattern ++ rest)) = true :=
    List.isPrefixOf_iff_prefix.mpr (List.prefix_append (c :: pattern) rest)
  rw [List.cons_append, splitFrom, if_pos hstart, splitFrom_skip, List.length_cons,
    Nat.add_sub_cancel, List.drop_left]
  rfl

/-- Splitting takes apart what was put together. -/
theorem splitOn_intercalate {pieces : List (List Char)} (hne : pieces ≠ [])
    (h : ∀ s ∈ pieces, c ∉ s) :
    splitOn (c :: pattern) ((c :: pattern).intercalate pieces) = pieces := by
  induction pieces with
  | nil => exact absurd rfl hne
  | cons s pieces ih =>
    have hs := h s List.mem_cons_self
    have hrest := fun t ht ↦ h t (List.mem_cons_of_mem s ht)
    cases pieces with
    | nil =>
      have hsplit : splitFrom (c :: pattern) 0 [] (s ++ []) = _ := splitFrom_append hs [] []
      simpa [splitOn, splitFrom] using hsplit
    | cons t pieces =>
      calc
        splitOn (c :: pattern) ((c :: pattern).intercalate (s :: t :: pieces)) =
            splitFrom (c :: pattern) 0 []
              (s ++ (c :: pattern ++ (c :: pattern).intercalate (t :: pieces))) := by
          rw [List.intercalate_cons_of_ne_nil (List.cons_ne_nil t pieces), splitOn,
            List.append_assoc]
        _ = s :: splitOn (c :: pattern) ((c :: pattern).intercalate (t :: pieces)) := by
          rw [splitFrom_append hs, splitFrom_separator, List.append_nil, List.reverse_reverse]
        _ = s :: t :: pieces := by rw [ih (List.cons_ne_nil t pieces) hrest]

/-- Nothing is replaced in a text without the first character of what is looked for. -/
theorem replaceAll_of_notMem {s : List Char} (h : c ∉ s) (new : List Char) :
    replaceAll (c :: pattern) new s = s := by
  have hsplit : splitOn (c :: pattern) ((c :: pattern).intercalate [s]) = [s] :=
    splitOn_intercalate (List.cons_ne_nil s []) (by simpa using h)
  rw [List.intercalate_singleton] at hsplit
  rw [replaceAll, hsplit, List.intercalate_singleton]

end

/-- A character of joined pieces is of a piece or of the separator. -/
theorem exists_mem_of_mem_intercalate {c : Char} {separator : List Char}
    {pieces : List (List Char)} (h : c ∈ separator.intercalate pieces) :
    c ∈ separator ∨ ∃ piece ∈ pieces, c ∈ piece := by
  induction pieces with
  | nil => cases h
  | cons s pieces ih =>
    cases pieces with
    | nil => exact .inr ⟨s, List.mem_cons_self, by simpa using h⟩
    | cons t pieces =>
      rw [List.intercalate_cons_of_ne_nil (List.cons_ne_nil t pieces), List.mem_append,
        List.mem_append] at h
      rcases h with (h | h) | h
      · exact .inr ⟨s, List.mem_cons_self, h⟩
      · exact .inl h
      · rcases ih h with h | ⟨piece, hpiece, hc⟩
        · exact .inl h
        · exact .inr ⟨piece, List.mem_cons_of_mem s hpiece, hc⟩

theorem mem_intercalate_of_mem {c : Char} {separator piece : List Char}
    {pieces : List (List Char)} (h : piece ∈ pieces) (hc : c ∈ piece) :
    c ∈ separator.intercalate pieces := by
  induction pieces with
  | nil => cases h
  | cons s pieces ih =>
    cases pieces with
    | nil =>
      obtain rfl := List.mem_singleton.mp h
      simpa using hc
    | cons t pieces =>
      rw [List.intercalate_cons_of_ne_nil (List.cons_ne_nil t pieces)]
      rcases List.mem_cons.mp h with rfl | h
      · exact List.mem_append_left _ (List.mem_append_left _ hc)
      · exact List.mem_append_right _ (ih h)

/-- A character outside the separator is in one of the pieces. -/
theorem exists_mem_splitOn {c : Char} {s pattern : List Char} (hs : c ∈ s) (hne : pattern ≠ [])
    (hc : c ∉ pattern) : ∃ piece ∈ splitOn pattern s, c ∈ piece := by
  rw [← intercalate_splitOn hne s] at hs
  exact (exists_mem_of_mem_intercalate hs).resolve_left hc

/-- A character outside what is replaced stays. -/
theorem mem_replaceAll {c : Char} {pattern s : List Char} (hs : c ∈ s) (hne : pattern ≠ [])
    (hc : c ∉ pattern) (new : List Char) : c ∈ replaceAll pattern new s := by
  obtain ⟨piece, hpiece, hmem⟩ := exists_mem_splitOn hs hne hc
  exact mem_intercalate_of_mem hpiece hmem

/-! ## Names -/

theorem isNamePart_of_isNameStart {c : Char} (h : isNameStart c = true) :
    isNamePart c = true := by
  simp only [isNameStart, isNamePart, Char.isAlphanum, Bool.or_eq_true] at h ⊢
  rcases h with h | h
  · exact .inl (.inl h)
  · exact .inr h

theorem isNameStart_eq_false {c : Char} (h : isNamePart c = false) : isNameStart c = false := by
  cases hstart : isNameStart c with
  | false => rfl
  | true =>
    rw [isNamePart_of_isNameStart hstart] at h
    cases h

section

variable {starts continues : Char → Bool} {c : Char}

theorem piecesFrom_cons (h : starts c = false) (s : List Char) :
    piecesFrom starts continues [] (c :: s) = .other c :: piecesFrom starts continues [] s := by
  rw [piecesFrom, if_neg (by simp [h])]

/-- A name ends before a character that no name holds. -/
theorem piecesFrom_append (hstarts : starts c = false) (hcontinues : continues c = false)
    (current s rest : List Char) :
    piecesFrom starts continues current (s ++ c :: rest) =
      piecesFrom starts continues current s ++ .other c :: piecesFrom starts continues [] rest := by
  fun_induction piecesFrom starts continues current s with
  | case1 => exact piecesFrom_cons hstarts rest
  | case2 current hne =>
    obtain ⟨d, current, rfl⟩ := List.exists_cons_of_ne_nil hne
    rw [List.nil_append, piecesFrom, if_neg (by simp [hcontinues]), if_neg (by simp [hstarts])]
    rfl
  | case3 d s hd ih =>
    rw [List.cons_append, piecesFrom, if_pos hd, ih]
  | case4 d s hd ih =>
    rw [List.cons_append, piecesFrom, if_neg hd, ih, List.cons_append]
  | case5 d current e s he ih =>
    rw [List.cons_append, piecesFrom, if_pos he, ih]
  | case6 d current e s he he' ih =>
    rw [List.cons_append, piecesFrom, if_neg he, if_pos he', ih, List.cons_append]
  | case7 d current e s he he' ih =>
    rw [List.cons_append, piecesFrom, if_neg he, if_neg he', ih, List.cons_append, List.cons_append]

theorem piecesFrom_of_continues {current s : List Char} (h : ∀ d ∈ s, continues d = true) :
    piecesFrom starts continues (c :: current) s = [.name ((c :: current).reverse ++ s)] := by
  induction s generalizing c current with
  | nil => simp [piecesFrom]
  | cons d s ih =>
    rw [piecesFrom, if_pos (h d List.mem_cons_self),
      ih fun e he ↦ h e (List.mem_cons_of_mem d he), List.reverse_cons, List.append_assoc,
      List.singleton_append]

/-- A name is one piece. -/
theorem piecesFrom_name {s : List Char} (hc : starts c = true)
    (hs : ∀ d ∈ s, continues d = true) :
    piecesFrom starts continues [] (c :: s) = [.name (c :: s)] := by
  rw [piecesFrom, if_pos hc, piecesFrom_of_continues hs]
  rfl

end

theorem namePieces_cons {c : Char} (h : isNameStart c = false) (s : List Char) :
    namePieces (c :: s) = .other c :: namePieces s :=
  piecesFrom_cons h s

theorem namePieces_append {c : Char} (h : isNamePart c = false) (s rest : List Char) :
    namePieces (s ++ c :: rest) = namePieces s ++ namePieces (c :: rest) := by
  rw [namePieces_cons (isNameStart_eq_false h)]
  exact piecesFrom_append (isNameStart_eq_false h) h [] s rest

theorem namePieces_name {c : Char} {s : List Char} (hc : isNameStart c = true)
    (hs : ∀ d ∈ s, isNamePart d = true) : namePieces (c :: s) = [.name (c :: s)] :=
  piecesFrom_name hc hs

theorem isNameStart_eq_false_of_isPathPart {c : Char} (h : isPathPart c = false) :
    isNameStart c = false := by
  cases hstart : isNameStart c with
  | false => rfl
  | true =>
    rw [isPathPart_of_isNameStart hstart] at h
    cases h

theorem pathPieces_cons {c : Char} (h : isNameStart c = false) (s : List Char) :
    pathPieces (c :: s) = .other c :: pathPieces s :=
  piecesFrom_cons h s

theorem pathPieces_append {c : Char} (h : isPathPart c = false) (s rest : List Char) :
    pathPieces (s ++ c :: rest) = pathPieces s ++ pathPieces (c :: rest) := by
  rw [pathPieces_cons (isNameStart_eq_false_of_isPathPart h)]
  exact piecesFrom_append (isNameStart_eq_false_of_isPathPart h) h [] s rest

theorem pathPieces_name {c : Char} {s : List Char} (hc : isNameStart c = true)
    (hs : ∀ d ∈ s, isPathPart d = true) : pathPieces (c :: s) = [.name (c :: s)] :=
  piecesFrom_name hc hs

/-! ## The names of a text -/

def Piece.name? : Piece → Option String
  | .name letters => some (String.ofList letters)
  | .other _ => none

/-- The names of a text that goes on with the name `current`, dots included. -/
def namesFrom (current s : List Char) : List String :=
  (piecesFrom isNameStart isPathPart current s).filterMap Piece.name?

/-- The names of a text, dots included. -/
def pathNames (s : List Char) : List String := namesFrom [] s

/-- A character that no name holds ends the name before it. -/
theorem namesFrom_append {c : Char} (h : isPathPart c = false) (current s rest : List Char) :
    namesFrom current (s ++ c :: rest) = namesFrom current s ++ pathNames rest := by
  rw [namesFrom, piecesFrom_append (isNameStart_eq_false_of_isPathPart h) h, List.filterMap_append]
  rfl

theorem namesFrom_cons {c : Char} (h : isPathPart c = false) (current s : List Char) :
    namesFrom current (c :: s) = namesFrom current [] ++ pathNames s :=
  namesFrom_append h current [] s

theorem pathNames_cons {c : Char} (h : isPathPart c = false) (s : List Char) :
    pathNames (c :: s) = pathNames s :=
  namesFrom_cons h [] s

theorem pathNames_append {c : Char} (h : isPathPart c = false) (s rest : List Char) :
    pathNames (s ++ c :: rest) = pathNames s ++ pathNames rest :=
  namesFrom_append h [] s rest

/-- What goes on with a name that a character may belong to depends on the texts after it. -/
theorem namesFrom_cons_congr {s s' : List Char} (c : Char)
    (h : ∀ current, namesFrom current s = namesFrom current s') (current : List Char) :
    namesFrom current (c :: s) = namesFrom current (c :: s') := by
  have hfrom (current : List Char) :
      (piecesFrom isNameStart isPathPart current s).filterMap Piece.name? =
        (piecesFrom isNameStart isPathPart current s').filterMap Piece.name? := h current
  cases current with
  | nil =>
    simp only [namesFrom, piecesFrom]
    split
    · exact hfrom [c]
    · exact hfrom []
  | cons d current =>
    simp only [namesFrom, piecesFrom]
    split
    · exact hfrom _
    · split
      · rw [List.filterMap_cons, List.filterMap_cons, hfrom]
      · rw [List.filterMap_cons, List.filterMap_cons, List.filterMap_cons, List.filterMap_cons,
          hfrom]

end TemporalRequirements.Text
