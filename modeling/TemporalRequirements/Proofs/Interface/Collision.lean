import TemporalRequirements.Monitor.Bundle
import TemporalRequirements.Proofs.Engine.History
import TemporalRequirements.Proofs.Interface.Name
import TemporalRequirements.Smt.Script

/-!
# Names that become one

Three rewrites make a safe name: other characters become underscores, an underscore goes in front of
a digit, and one goes after a reserved word.  Each of them loses something: the first forgets which
character was replaced, and what the other two add may be in the name already.  Two names become the
same safe name in these ways only.
-/

namespace TemporalRequirements

/-- The text cannot stand as a name, since it is empty or starts with a digit. -/
def NeedsStart (plain : List Char) : Prop :=
  ∀ c ∈ plain.head?, c.isDigit = true

/-- How the first name comes to have the safe name of the second. -/
inductive Clashes (a b : String) : Prop
  /-- The names differ in characters that no identifier holds. -/
  | replaced (h : plainName a = plainName b) : Clashes a b
  /-- The first name has the underscore that the second gets in front. -/
  | started (h : plainName a = '_' :: plainName b) (hb : NeedsStart (plainName b)) : Clashes a b
  /-- The first name has the underscore that the second gets as a reserved word. -/
  | reserved (h : plainName a = b.toList ++ ['_']) (hb : b ∈ reservedWords) : Clashes a b

section

variable {plain other : List Char} {a b word : String}

theorem startedName_of_needsStart (h : NeedsStart plain) : startedName plain = '_' :: plain := by
  cases plain with
  | nil => rfl
  | cons c rest => exact if_pos (h c rfl)

theorem startedName_of_not_needsStart (h : ¬ NeedsStart plain) : startedName plain = plain := by
  cases plain with
  | nil => exact absurd (fun c hc ↦ nomatch hc) h
  | cons c rest =>
    apply if_neg
    intro hc
    apply h
    intro d hd
    rwa [← Option.mem_some.mp hd]

theorem not_needsStart_underscore : ¬ NeedsStart ('_' :: plain) := by
  intro h
  exact absurd (h '_' rfl) (by decide)

/-- Texts that are started alike are alike, or one of them has the underscore that the other
gets. -/
theorem eq_or_of_startedName_eq (h : startedName plain = startedName other) :
    plain = other ∨ (plain = '_' :: other ∧ NeedsStart other) ∨
      (other = '_' :: plain ∧ NeedsStart plain) := by
  by_cases hplain : NeedsStart plain <;> by_cases hother : NeedsStart other
  · rw [startedName_of_needsStart hplain, startedName_of_needsStart hother] at h
    exact Or.inl (List.cons.inj h).2
  · rw [startedName_of_needsStart hplain, startedName_of_not_needsStart hother] at h
    exact Or.inr (Or.inr ⟨h.symm, hplain⟩)
  · rw [startedName_of_not_needsStart hplain, startedName_of_needsStart hother] at h
    exact Or.inr (Or.inl ⟨h, hother⟩)
  · rw [startedName_of_not_needsStart hplain, startedName_of_not_needsStart hother] at h
    exact Or.inl h

/-! ## The underscore behind -/

theorem mem_reservedWord (h : word ∈ reservedWords) :
    ∀ c ∈ word.toList, c ≠ '_' ∧ c.isDigit = false := by
  have hall : reservedWords.all (fun w ↦ w.toList.all fun c ↦ c != '_' && !c.isDigit) = true := by
    decide +kernel
  intro c hc
  have hpart := List.all_eq_true.mp (List.all_eq_true.mp hall word h) c hc
  simpa using hpart

theorem underscore_notMem_of_mem_reservedWords (h : word ∈ reservedWords) : '_' ∉ word.toList :=
  fun hmem ↦ (mem_reservedWord h '_' hmem).1 rfl

/-- A reserved word starts with neither an underscore nor a digit. -/
theorem exists_reservedWord_eq_cons (h : word ∈ reservedWords) :
    ∃ c letters, word.toList = c :: letters ∧ c ≠ '_' ∧ c.isDigit = false := by
  cases hword : word.toList with
  | nil =>
    rw [String.toList_eq_nil_iff.mp hword] at h
    exact absurd h (by decide)
  | cons c letters => exact ⟨c, letters, rfl, mem_reservedWord h c (hword ▸ List.mem_cons_self)⟩

theorem safeName_of_mem_reservedWords (h : word ∈ reservedWords) : safeName word = word ++ "_" := by
  revert word
  decide +kernel

theorem append_underscore_notMem_reservedWords : word ++ "_" ∉ reservedWords := by
  intro h
  apply underscore_notMem_of_mem_reservedWords h
  rw [String.toList_append]
  exact List.mem_append_right _ List.mem_cons_self

/-- Only the reserved word itself is started to it. -/
theorem startedName_eq_of_mem_reservedWords
    (h : String.ofList (startedName (plainName a)) ∈ reservedWords) :
    startedName (plainName a) = a.toList := by
  have hunderscore : '_' ∉ startedName (plainName a) := by
    have hmem := underscore_notMem_of_mem_reservedWords h
    rwa [String.toList_ofList] at hmem
  have hstarted : startedName (plainName a) = plainName a := by
    apply startedName_of_not_needsStart
    intro hneeds
    rw [startedName_of_needsStart hneeds] at hunderscore
    exact hunderscore List.mem_cons_self
  rw [hstarted] at hunderscore ⊢
  exact plainName_eq_self hunderscore

/-- A text that starts with a reserved word got no underscore in front. -/
theorem startedName_eq_append_iff (h : word ∈ reservedWords) (rest : List Char) :
    startedName plain = word.toList ++ rest ↔ plain = word.toList ++ rest := by
  obtain ⟨c, letters, hword, hc, hdigit⟩ := exists_reservedWord_eq_cons h
  rw [hword, List.cons_append]
  constructor
  · intro heq
    rcases startedName_cases plain with hplain | hplain
    · exact hplain.symm.trans heq
    · exact absurd (List.cons.inj (heq.symm.trans hplain)).1 hc
  · intro heq
    rw [heq]
    apply startedName_of_not_needsStart
    intro hneeds
    exact absurd (hneeds c rfl) (Bool.eq_false_iff.mp hdigit)

/-! ## Names with one safe name -/

theorem safeName_eq_of_startedName_eq
    (h : startedName (plainName a) = startedName (plainName b)) : safeName a = safeName b := by
  rw [safeName_eq, safeName_eq, h]

/-- Names that clash have one safe name. -/
theorem safeName_eq_of_clashes (h : Clashes a b) : safeName a = safeName b := by
  cases h with
  | replaced h => exact safeName_eq_of_startedName_eq (congrArg startedName h)
  | started h hb =>
    apply safeName_eq_of_startedName_eq
    calc startedName (plainName a)
      _ = '_' :: plainName b := by rw [h, startedName_of_not_needsStart not_needsStart_underscore]
      _ = startedName (plainName b) := (startedName_of_needsStart hb).symm
  | reserved h hb =>
    have hstarted : String.ofList (startedName (plainName a)) = b ++ "_" := by
      apply String.toList_inj.mp
      rw [String.toList_ofList, String.toList_append]
      exact (startedName_eq_append_iff hb ['_']).mpr h
    rw [safeName_eq, hstarted, if_neg append_underscore_notMem_reservedWords,
      safeName_of_mem_reservedWords hb]

/-- Where the first name is a reserved word and the second is none, the second has the underscore
that the first gets. -/
theorem clashes_of_reserved (ha : String.ofList (startedName (plainName a)) ∈ reservedWords)
    (h : String.ofList (startedName (plainName a) ++ ['_']) =
      String.ofList (startedName (plainName b))) : Clashes b a := by
  have hword : startedName (plainName a) = a.toList := startedName_eq_of_mem_reservedWords ha
  rw [hword, String.ofList_toList] at ha
  rw [hword] at h
  have hstarted : startedName (plainName b) = a.toList ++ ['_'] := (String.ofList_inj.mp h).symm
  exact Clashes.reserved ((startedName_eq_append_iff ha ['_']).mp hstarted) ha

theorem clashes_of_startedName_eq (h : startedName (plainName a) = startedName (plainName b)) :
    Clashes a b ∨ Clashes b a := by
  rcases eq_or_of_startedName_eq h with h | ⟨h, hb⟩ | ⟨h, ha⟩
  · exact Or.inl (Clashes.replaced h)
  · exact Or.inl (Clashes.started h hb)
  · exact Or.inr (Clashes.started h ha)

theorem clashes_of_safeName_eq (h : safeName a = safeName b) : Clashes a b ∨ Clashes b a := by
  rw [safeName_eq, safeName_eq] at h
  split at h <;> split at h
  · exact clashes_of_startedName_eq (List.append_cancel_right (String.ofList_inj.mp h))
  · rename_i ha hb
    exact Or.inr (clashes_of_reserved ha h)
  · rename_i ha hb
    exact Or.inl (clashes_of_reserved hb h.symm)
  · exact clashes_of_startedName_eq (String.ofList_inj.mp h)

end

/-- Two names have one safe name if and only if they clash. -/
theorem safeName_eq_iff_clashes (a b : String) :
    safeName a = safeName b ↔ Clashes a b ∨ Clashes b a := by
  constructor
  · exact clashes_of_safeName_eq
  · rintro (h | h)
    · exact safeName_eq_of_clashes h
    · exact (safeName_eq_of_clashes h).symm

/-- Two names of the formula grammar, and two identifiers of requirements, that become one: one
constant is declared for both signals, and the group of their property cannot be satisfied. -/
theorem safeName_plant_speed :
    let text := "G(plant.speed && !plant_speed)"
    let e := (Engine.start Interface.empty .standard).run [.add "R" text .property, .formalizeAll]
    (Formula.parse text).toOption.map (·.atoms.flatMap (·.predicate.variables)) =
        some ["plant.speed", "plant_speed"] ∧
      safeName "plant.speed" = safeName "plant_speed" ∧
      ¬ (∀ a b : String, a ≠ b → safeName a ≠ safeName b) ∧
      (Smt.build e.store e.interface e.config.unrollLimit e.groups).1.lines =
        ["(set-logic ALL)", "(declare-const plant_speed Bool)", "(push 1)",
          "(assert (! (and plant_speed (not plant_speed)) :named R_0))", "(check-sat)",
          "(pop 1)"] ∧
      Monitor.chunkName e.interface "R 1" 0 = Monitor.chunkName e.interface "R_1" 0 := by
  intro text e
  have hsame : safeName "plant.speed" = safeName "plant_speed" := by decide +kernel
  refine ⟨by decide +kernel, hsame, ?_, by decide +kernel, by decide +kernel⟩
  intro h
  exact h "plant.speed" "plant_speed" (by decide) hsame

end TemporalRequirements
