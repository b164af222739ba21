import TemporalRequirements.Interface.Name
import TemporalRequirements.Proofs.Cuts

/-!
# Safe names

A safe name does not start with a digit and holds letters, digits and underscores only.  What tells
it from the name are underscores.  Names that are made of two parts are taken apart at the last
underscore.
-/

namespace TemporalRequirements

/-- The name with an underscore in place of every character that no identifier holds. -/
def plainName (name : String) : List Char :=
  name.toList.map fun c ↦ if Text.isNamePart c then c else '_'

/-- The text with an underscore in front, where no name could start. -/
def startedName : List Char → List Char
  | [] => ['_']
  | c :: rest => if c.isDigit then '_' :: c :: rest else c :: rest

theorem safeName_eq (name : String) :
    safeName name = if String.ofList (startedName (plainName name)) ∈ reservedWords
      then String.ofList (startedName (plainName name) ++ ['_'])
      else String.ofList (startedName (plainName name)) := by
  rw [safeName, plainName]
  cases name.toList.map fun c ↦ if Text.isNamePart c then c else '_' <;> rfl

theorem toList_safeName (name : String) :
    (safeName name).toList = startedName (plainName name) ∨
      (safeName name).toList = startedName (plainName name) ++ ['_'] := by
  rw [safeName_eq]
  split
  · exact Or.inr String.toList_ofList
  · exact Or.inl String.toList_ofList

theorem startedName_cases (plain : List Char) :
    startedName plain = plain ∨ startedName plain = '_' :: plain := by
  cases plain with
  | nil => exact Or.inr rfl
  | cons c rest =>
    rw [startedName]
    split
    · exact Or.inr rfl
    · exact Or.inl rfl

/-- A name that is started anew begins with no digit. -/
theorem exists_startedName_eq_cons (plain : List Char) :
    ∃ c rest, startedName plain = c :: rest ∧ c.isDigit = false := by
  cases plain with
  | nil => exact ⟨'_', [], rfl, rfl⟩
  | cons c rest =>
    rw [startedName]
    split
    · exact ⟨'_', c :: rest, rfl, rfl⟩
    · rename_i hc
      exact ⟨c, rest, rfl, by simpa using hc⟩

/-- A safe name does not start with a digit. -/
theorem exists_safeName_eq_cons (name : String) :
    ∃ c rest, (safeName name).toList = c :: rest ∧ c.isDigit = false := by
  obtain ⟨c, rest, hstarted, hc⟩ := exists_startedName_eq_cons (plainName name)
  rcases toList_safeName name with h | h
  · exact ⟨c, rest, h.trans hstarted, hc⟩
  · exact ⟨c, rest ++ ['_'], by rw [h, hstarted, List.cons_append], hc⟩

theorem isNamePart_of_mem_plainName {name : String} {c : Char} (h : c ∈ plainName name) :
    Text.isNamePart c = true := by
  obtain ⟨d, -, rfl⟩ := List.mem_map.mp h
  split
  · rename_i hd
    exact hd
  · rfl

/-- A safe name consists of parts of a name. -/
theorem isNamePart_of_mem_safeName {name : String} {c : Char} (h : c ∈ (safeName name).toList) :
    Text.isNamePart c = true := by
  have hstarted (h : c ∈ startedName (plainName name)) : Text.isNamePart c = true := by
    rcases startedName_cases (plainName name) with heq | heq
    · exact isNamePart_of_mem_plainName (heq ▸ h)
    · rw [heq] at h
      rcases List.mem_cons.mp h with rfl | h
      · rfl
      · exact isNamePart_of_mem_plainName h
  rcases toList_safeName name with heq | heq
  · exact hstarted (heq ▸ h)
  · rw [heq] at h
    rcases List.mem_append.mp h with h | h
    · exact hstarted h
    · rw [List.mem_singleton.mp h]
      rfl

/-- A name of letters, digits and underscores is kept. -/
theorem plainName_of_isNamePart {name : String}
    (h : ∀ c ∈ name.toList, Text.isNamePart c = true) : plainName name = name.toList := by
  rw [plainName]
  conv_rhs => rw [← List.map_id name.toList]
  apply List.map_congr_left
  intro c hc
  exact if_pos (h c hc)

/-- Every character of the name is kept where no underscore has taken its place. -/
theorem plainName_eq_self {name : String} (h : '_' ∉ plainName name) :
    plainName name = name.toList := by
  apply plainName_of_isNamePart
  intro c hc
  by_contra hpart
  exact h (List.mem_map.mpr ⟨c, hc, if_neg hpart⟩)

/-- Only underscores tell a safe name from the name. -/
theorem safeName_eq_self {name : String} (h : '_' ∉ (safeName name).toList) :
    safeName name = name := by
  have hplain : (safeName name).toList = plainName name := by
    rcases toList_safeName name with hsafe | hsafe
    · rcases startedName_cases (plainName name) with hstarted | hstarted
      · exact hsafe.trans hstarted
      · rw [hsafe, hstarted] at h
        exact absurd List.mem_cons_self h
    · rw [hsafe] at h
      exact absurd (List.mem_append_right _ List.mem_cons_self) h
  rw [hplain] at h
  exact String.toList_inj.mp (hplain.trans (plainName_eq_self h))

/-- Two parts joined by an underscore are known from the whole, if the second holds none. -/
theorem joined_injective {a a' b b' : String} (hb : '_' ∉ b.toList) (hb' : '_' ∉ b'.toList)
    (h : a ++ "_" ++ b = a' ++ "_" ++ b') : a = a' ∧ b = b' := by
  -- the last underscore is the first of the reversed texts
  have hreversed : b.toList.reverse ++ '_' :: a.toList.reverse =
      b'.toList.reverse ++ '_' :: a'.toList.reverse := by
    simpa using congrArg (fun s ↦ s.toList.reverse) h
  obtain ⟨hsecond, hfirst⟩ :=
    append_cons_injective (by simpa using hb) (by simpa using hb') hreversed
  exact ⟨String.toList_inj.mp (List.reverse_inj.mp hfirst),
    String.toList_inj.mp (List.reverse_inj.mp hsecond)⟩

end TemporalRequirements
