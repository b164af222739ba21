import TemporalRequirements.Proofs.Grammar.Token
import TemporalRequirements.Proofs.Text.Digits
import TemporalRequirements.Proofs.Text.Pieces

/-!
# Identifiers in a text

The identifiers of a text are its names of greatest length.  Texts that are joined where no name
goes on from one into the other have the identifiers of both.
-/

namespace TemporalRequirements.Text

/-! ## Characters -/

/-- Whether no name goes on from the first text into the second. -/
def Apart (s t : List Char) : Prop :=
  t.head?.all (fun c ↦ !isNamePart c) = true ∨ s.getLast?.all (fun c ↦ !isNamePart c) = true

instance (s t : List Char) : Decidable (Apart s t) := inferInstanceAs (Decidable (_ ∨ _))

def identifiersAmong (s : List Char) : List String := (namePieces s).filterMap Piece.name?

theorem identifiersAmong_cons {c : Char} (h : isNamePart c = false) (s : List Char) :
    identifiersAmong (c :: s) = identifiersAmong s := by
  rw [identifiersAmong, namePieces_cons (isNameStart_eq_false h)]
  rfl

theorem identifiersAmong_append_cons {c : Char} (h : isNamePart c = false) (s t : List Char) :
    identifiersAmong (s ++ c :: t) = identifiersAmong s ++ identifiersAmong (c :: t) := by
  rw [identifiersAmong, namePieces_append h, List.filterMap_append]
  rfl

/-- Texts that are apart have their identifiers one after the other. -/
theorem identifiersAmong_append {s t : List Char} (h : Apart s t) :
    identifiersAmong (s ++ t) = identifiersAmong s ++ identifiersAmong t := by
  rcases h with h | h
  · cases t with
    | nil =>
      rw [List.append_nil]
      exact (List.append_nil _).symm
    | cons c t => exact identifiersAmong_append_cons (by simpa using h) s t
  · rcases s.eq_nil_or_concat with rfl | ⟨s, c, rfl⟩
    · rfl
    · rw [List.concat_eq_append] at h ⊢
      have hc : isNamePart c = false := by simpa using h
      have hend : identifiersAmong (s ++ [c]) = identifiersAmong s := by
        rw [identifiersAmong_append_cons hc, identifiersAmong_cons hc]
        exact List.append_nil _
      rw [hend, List.append_assoc, List.singleton_append, identifiersAmong_append_cons hc,
        identifiersAmong_cons hc]

/-- No identifier is among characters that start none. -/
theorem identifiersAmong_eq_nil {s : List Char} (h : ∀ c ∈ s, isNameStart c = false) :
    identifiersAmong s = [] := by
  induction s with
  | nil => rfl
  | cons c s ih =>
    rw [identifiersAmong, namePieces_cons (h c List.mem_cons_self)]
    exact ih fun d hd ↦ h d (List.mem_cons_of_mem c hd)

/-! ## Texts -/

def identifiersOf (text : String) : List String := identifiersAmong text.toList

theorem identifiersOf_append {s t : String} (h : Apart s.toList t.toList) :
    identifiersOf (s ++ t) = identifiersOf s ++ identifiersOf t := by
  rw [identifiersOf, String.toList_append]
  exact identifiersAmong_append h

/-- Whether a text that is put between others keeps their names apart. -/
def IsMark (mark : String) : Prop :=
  mark.toList.head?.any (fun c ↦ !isNamePart c) = true ∧
    mark.toList.getLast?.any (fun c ↦ !isNamePart c) = true

instance (mark : String) : Decidable (IsMark mark) := inferInstanceAs (Decidable (_ ∧ _))

theorem identifiersOf_mark_append {mark : String}
    (h : mark.toList.getLast?.all (fun c ↦ !isNamePart c) = true) (t : String) :
    identifiersOf (mark ++ t) = identifiersOf mark ++ identifiersOf t :=
  identifiersOf_append (Or.inr h)

theorem identifiersOf_append_mark {mark : String}
    (h : mark.toList.head?.all (fun c ↦ !isNamePart c) = true) (s : String) :
    identifiersOf (s ++ mark) = identifiersOf s ++ identifiersOf mark :=
  identifiersOf_append (Or.inl h)

/-- A mark keeps the identifiers on its sides apart. -/
theorem identifiersOf_between {mark : String} (h : IsMark mark) (s t : String) :
    identifiersOf (s ++ mark ++ t) = identifiersOf s ++ identifiersOf mark ++ identifiersOf t := by
  obtain ⟨hfirst, hlast⟩ := h
  have hend : Apart (s ++ mark).toList t.toList := by
    right
    rw [String.toList_append, List.getLast?_append]
    cases hc : mark.toList.getLast? with
    | none =>
      rw [hc] at hlast
      cases hlast
    | some c =>
      rw [hc] at hlast
      exact hlast
  have hstart : Apart s.toList mark.toList := by
    left
    cases hc : mark.toList.head? with
    | none => rfl
    | some c =>
      rw [hc] at hfirst
      exact hfirst
  rw [identifiersOf_append hend, identifiersOf_append hstart]

def IsIdentifier (text : String) : Prop :=
  ∃ c s, text.toList = c :: s ∧ isNameStart c = true ∧ ∀ d ∈ s, isNamePart d = true

theorem IsIdentifier.isNamePart {text : String} (h : IsIdentifier text) {c : Char}
    (hc : c ∈ text.toList) : isNamePart c = true := by
  obtain ⟨d, s, htext, hd, hs⟩ := h
  rw [htext] at hc
  rcases List.mem_cons.mp hc with rfl | hc
  · exact isNamePart_of_isNameStart hd
  · exact hs c hc

theorem IsIdentifier.identifiersOf {text : String} (h : IsIdentifier text) :
    identifiersOf text = [text] := by
  obtain ⟨c, s, htext, hc, hs⟩ := h
  rw [Text.identifiersOf, identifiersAmong, htext, namePieces_name hc hs, ← htext]
  simp [Piece.name?]

theorem identifiersOf_toString (n : Nat) : identifiersOf (toString n) = [] := by
  apply identifiersAmong_eq_nil
  intro c hc
  rw [Nat.toString_eq_ofList_toDigits, String.toList_ofList] at hc
  exact Grammar.isNameStart_of_isDigit (isDigit_of_mem_toDigits n c hc)

end TemporalRequirements.Text
