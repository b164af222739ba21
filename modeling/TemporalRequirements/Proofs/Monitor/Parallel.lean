import Mathlib.Data.List.Pairwise
import TemporalRequirements.Proofs.Monitor.Host

/-!
# Monitors that run together

Monitors whose variables differ and which read no variables of each other are run together by
running the updates of all of them and then the checks of all of them.  A statement of one leaves
alone what the others name, so each of them goes on as it does alone, until one of them fails.
-/

namespace TemporalRequirements.Monitor

def Declaration.name : Declaration → String
  | .flag name | .counter name => name

/-- The variables of a monitor. -/
def names (m : Monitor) : List String := m.declarations.map Declaration.name

/-- The monitor that does what several do: the updates of all before the checks of all. -/
def concat (ms : List Monitor) : Monitor :=
  ⟨ms.flatMap declarations, ms.flatMap updates, ms.flatMap checks⟩

variable {ms : List Monitor} {m : Monitor}

theorem names_concat (ms : List Monitor) : (concat ms).names = ms.flatMap names := List.map_flatMap

theorem mem_names_concat {x : String} : x ∈ (concat ms).names ↔ ∃ m ∈ ms, x ∈ m.names := by
  rw [names_concat, List.mem_flatMap]

/-- Whether a name is one of a monitor or of none. -/
def Sees (ms : List Monitor) (m : Monitor) (x : String) : Prop :=
  x ∈ m.names ∨ x ∉ (concat ms).names

/-- Monitors that can be run together. -/
structure Parallel (ms : List Monitor) : Prop where
  nodup : (concat ms).names.Nodup
  targets : ∀ m ∈ ms, ∀ s ∈ m.updates ++ m.checks, ∀ x ∈ s.target?, x ∈ m.names
  within : ∀ m ∈ ms, ∀ s ∈ m.updates ++ m.checks, s.Within (Sees ms m)
  updates : (concat ms).updates.Pairwise fun s t ↦
    s.text = t.text → Environment.Repeats (· ∉ (concat ms).names) s t
  checks : (concat ms).checks.Pairwise fun s t ↦
    s.text = t.text → Environment.Repeats (· ∉ (concat ms).names) s t

theorem pairwise_disjoint_names (hnodup : (concat ms).names.Nodup) :
    ms.Pairwise (Function.onFun List.Disjoint names) :=
  (List.nodup_flatMap.mp (names_concat ms ▸ hnodup)).2

theorem nodup_names_of_mem (hnodup : (concat ms).names.Nodup) (hm : m ∈ ms) : m.names.Nodup :=
  (List.nodup_flatMap.mp (names_concat ms ▸ hnodup)).1 m hm

/-- A variable is declared by one monitor. -/
theorem eq_of_mem_names (hnodup : (concat ms).names.Nodup) {k : Monitor} (hm : m ∈ ms) (hk : k ∈ ms)
    {x : String} (hx : x ∈ m.names) (hx' : x ∈ k.names) : k = m := by
  by_contra hne
  have hsymm : Std.Symm (Function.onFun List.Disjoint names) := ⟨fun _ _ h _ hx hx' ↦ h hx' hx⟩
  exact (pairwise_disjoint_names hnodup).forall hk hm hne hx' hx

/-- A monitor sees no variable of one that stands at another place. -/
theorem not_sees (hnodup : (concat ms).names.Nodup) :
    ms.Pairwise fun a b ↦ (∀ x ∈ a.names, ¬ Sees ms b x) ∧ ∀ x ∈ b.names, ¬ Sees ms a x := by
  have hpairs := pairwise_disjoint_names hnodup
  refine hpairs.imp_of_mem fun {a b} ha hb hdisjoint ↦ ⟨fun x hx hsees ↦ ?_, fun x hx hsees ↦ ?_⟩
  · rcases hsees with hown | hnone
    · exact hdisjoint hx hown
    · exact hnone (mem_names_concat.mpr ⟨a, ha, hx⟩)
  · rcases hsees with hown | hnone
    · exact hdisjoint hown hx
    · exact hnone (mem_names_concat.mpr ⟨b, hb, hx⟩)

namespace Environment

variable {env : Environment} {step : String} {n : Nat} {W : Monitor → String → Prop}

/-! ## Blocks of statements -/

/-- The variables of several monitors and those of each alone: either some of them is missing and so
are the first, or they agree with each of them. -/
def Together (W : Monitor → String → Prop) (ms : List Monitor) (whole : Option Variables)
    (own : Monitor → Option Variables) : Prop :=
  (whole = none ∧ ∃ m ∈ ms, own m = none) ∨
    ∃ v, whole = some v ∧ ∀ m ∈ ms, ∃ v', own m = some v' ∧ v.AgreeOn (W m) v'

theorem Together.eq_none_iff {whole : Option Variables} {own : Monitor → Option Variables}
    (h : Together W ms whole own) : whole = none ↔ ∃ m ∈ ms, own m = none := by
  rcases h with ⟨hwhole, hown⟩ | ⟨v, rfl, hown⟩
  · exact iff_of_true hwhole hown
  · refine iff_of_false (Option.some_ne_none v) ?_
    rintro ⟨m, hm, hnone⟩
    obtain ⟨v', hsome, -⟩ := hown m hm
    rw [hnone] at hsome
    cases hsome

/-- Monitors that agree still do so when the step counter gets its number. -/
theorem Together.setStep {whole : Option Variables} {own : Monitor → Option Variables}
    (h : Together W ms whole own) (step : String) (n : Nat) :
    Together W ms (whole.map (·.set step n)) fun m ↦ (own m).map (·.set step n) := by
  rcases h with ⟨rfl, m, hm, hown⟩ | ⟨v, rfl, hagree⟩
  · exact Or.inl ⟨rfl, m, hm, Option.map_eq_none_iff.mpr hown⟩
  · refine Or.inr ⟨v.set step n, rfl, fun m hm ↦ ?_⟩
    obtain ⟨v', hown, hsame⟩ := hagree m hm
    exact ⟨v'.set step n, congrArg (Option.map _) hown, hsame.set step n⟩

/-- Whether the statements of one monitor change what another sees. -/
def LeavesAlone (W : Monitor → String → Prop) (block : Monitor → List Statement) (a b : Monitor) :
    Prop := ∀ s ∈ block a, ∀ x ∈ s.target?, ¬ W b x

variable {block : Monitor → List Statement}

/-- Monitors go on together through one block of each, as long as none fails. -/
theorem together_runLines (henv : env.Respects) {own : Monitor → Option Variables}
    {v : Variables} (hwithin : ∀ m ∈ ms, ∀ s ∈ block m, s.Within (W m))
    (hapart : ms.Pairwise fun a b ↦ LeavesAlone W block a b ∧ LeavesAlone W block b a)
    (hagree : ∀ m ∈ ms, ∃ v', own m = some v' ∧ v.AgreeOn (W m) v') :
    Together W ms (env.runLines step n (ms.flatMap block) v)
      fun m ↦ (own m).bind (env.runLines step n (block m)) := by
  induction ms generalizing v with
  | nil => exact Or.inr ⟨v, rfl, fun m hm ↦ by cases hm⟩
  | cons a ms ih =>
    obtain ⟨hothers, hpairs⟩ := List.pairwise_cons.mp hapart
    obtain ⟨v', hown, hsame⟩ := hagree a List.mem_cons_self
    have hown' : (own a).bind (env.runLines step n (block a)) =
        env.runLines step n (block a) v' := by
      rw [hown, Option.bind_some]
    rw [List.flatMap_cons, runLines_append]
    rcases cases_of_rel (runLines_agree step n henv (hwithin a List.mem_cons_self) hsame) with
      ⟨hnone, hnone'⟩ | ⟨next, next', hnext, hnext', hsame'⟩
    · exact Or.inl ⟨by rw [hnone, Option.bind_none], a, List.mem_cons_self, hown'.trans hnone'⟩
    · rw [hnext, Option.bind_some]
      -- the others see nothing of what the first statements change
      have hothers' : ∀ b ∈ ms, ∃ v', own b = some v' ∧ next.AgreeOn (W b) v' := by
        intro b hb
        obtain ⟨v', hown, hsame⟩ := hagree b (List.mem_cons_of_mem a hb)
        exact ⟨v', hown, (agree_of_runLines hnext (hothers b hb).1).symm.trans hsame⟩
      rcases ih (fun m hm ↦ hwithin m (List.mem_cons_of_mem a hm)) hpairs hothers' with
        ⟨hnone, m, hm, hfails⟩ | ⟨final, hfinal, hrest⟩
      · exact Or.inl ⟨hnone, m, List.mem_cons_of_mem a hm, hfails⟩
      · have hkept : next.AgreeOn (W a) final := agree_of_runLines hfinal fun s hs ↦ by
          obtain ⟨b, hb, hs⟩ := List.mem_flatMap.mp hs
          exact (hothers b hb).2 s hs
        refine Or.inr ⟨final, hfinal, List.forall_mem_cons.mpr ⟨?_, hrest⟩⟩
        exact ⟨next', hown'.trans hnext', hkept.symm.trans hsame'⟩

/-- Monitors go on together through blocks of statements that leave each other alone. -/
theorem Together.runLines {whole : Option Variables} {own : Monitor → Option Variables}
    (h : Together W ms whole own) (step : String) (n : Nat) (henv : env.Respects)
    (block : Monitor → List Statement)
    (hwithin : ∀ m ∈ ms, ∀ s ∈ block m, s.Within (W m))
    (hapart : ms.Pairwise fun a b ↦ LeavesAlone W block a b ∧ LeavesAlone W block b a) :
    Together W ms (whole.bind (env.runLines step n (ms.flatMap block)))
      fun m ↦ (own m).bind (env.runLines step n (block m)) := by
  rcases h with ⟨rfl, m, hm, hown⟩ | ⟨v, rfl, hagree⟩
  · exact Or.inl ⟨rfl, m, hm, Option.bind_eq_none_iff.mpr fun v hv ↦ by
      rw [hown] at hv
      cases hv⟩
  · exact together_runLines henv hwithin hapart hagree

/-! ## Runs -/

/-- A variable starts with the same value alone and together. -/
theorem agreeOn_declared (hnodup : (concat ms).names.Nodup) (hm : m ∈ ms) :
    (concat ms).declared.AgreeOn (Sees ms m) m.declared := by
  have hdeclared (d : Declaration) (hd : Sees ms m d.name) :
      d ∈ (concat ms).declarations ↔ d ∈ m.declarations := by
    refine ⟨fun hmem ↦ ?_, fun hmem ↦ List.mem_flatMap.mpr ⟨m, hm, hmem⟩⟩
    obtain ⟨k, hk, hdk⟩ := List.mem_flatMap.mp hmem
    have hname : d.name ∈ k.names := List.mem_map_of_mem hdk
    rcases hd with hown | hnone
    · exact eq_of_mem_names hnodup hm hk hown hname ▸ hdk
    · exact absurd (mem_names_concat.mpr ⟨k, hk, hname⟩) hnone
  intro x hx
  simp only [declared, hdeclared (.counter x) hx, hdeclared (.flag x) hx]

/-- Monitors that can be run together do at every step what they do alone. -/
theorem together_run (henv : env.Respects) (h : Parallel ms) (n : Nat) :
    Together (Sees ms) ms (env.run step (concat ms).spelled n)
      fun m ↦ env.run step m.spelled n := by
  have hapart (block : Monitor → List Statement) (hblock : ∀ m, block m ⊆ m.updates ++ m.checks) :
      ms.Pairwise fun a b ↦ LeavesAlone (Sees ms) block a b ∧ LeavesAlone (Sees ms) block b a :=
    (not_sees h.nodup).imp_of_mem fun {a b} ha hb hsees ↦
      ⟨fun s hs x hx ↦ hsees.1 x (h.targets a ha s (hblock a hs) x hx),
        fun s hs x hx ↦ hsees.2 x (h.targets b hb s (hblock b hs) x hx)⟩
  induction n with
  | zero =>
    exact Or.inr ⟨(concat ms).declared, rfl, fun m hm ↦
      ⟨m.declared, rfl, agreeOn_declared h.nodup hm⟩⟩
  | succ n ih =>
    have hupdates := (ih.setStep step n).runLines step n henv updates
      (fun m hm s hs ↦ h.within m hm s (List.mem_append_left _ hs))
      (hapart updates fun m ↦ List.subset_append_left _ _)
    have hchecks := hupdates.runLines step n henv checks
      (fun m hm s hs ↦ h.within m hm s (List.mem_append_right _ hs))
      (hapart checks fun m ↦ List.subset_append_right _ _)
    simp only [Option.bind_assoc, Option.bind_map, Function.comp_def] at hchecks
    exact hchecks

/-- A monitor runs alike without the lines that are repeated. -/
theorem run_distinct (henv : env.Respects) {W : String → Prop}
    (hupdates : m.updates.Pairwise fun s t ↦ s.text = t.text → Repeats W s t)
    (hchecks : m.checks.Pairwise fun s t ↦ s.text = t.text → Repeats W s t)
    (htargets : ∀ s ∈ m.updates ++ m.checks, ∀ x ∈ s.target?, ¬ W x) (n : Nat) :
    env.run step m.distinct.spelled n = env.run step m.spelled n := by
  have hfirst (n : Nat) : env.runLines step n (distinctLines m.updates) =
      env.runLines step n m.updates :=
    funext <| runLines_distinctLines henv _ hupdates fun s hs ↦
      htargets s (List.mem_append_left _ hs)
  have hsecond (n : Nat) : env.runLines step n (distinctLines m.checks) =
      env.runLines step n m.checks :=
    funext <| runLines_distinctLines henv _ hchecks fun s hs ↦
      htargets s (List.mem_append_right _ hs)
  induction n with
  | zero => rfl
  | succ n ih =>
    rw [run_spelled_succ, run_spelled_succ, ih]
    simp only [distinct, hfirst, hsecond]

/-- The lines of monitors that can be run together fail when those of one of them do. -/
theorem run_eq_none_iff (henv : env.Respects) (h : Parallel ms) (n : Nat) :
    env.run step (concat ms).distinct.spelled n = none ↔
      ∃ m ∈ ms, env.run step m.distinct.spelled n = none := by
  have hwhole : env.run step (concat ms).distinct.spelled n =
      env.run step (concat ms).spelled n := by
    refine run_distinct henv h.updates h.checks (fun s hs x hx hfree ↦ ?_) n
    obtain ⟨m, hm, hs⟩ : ∃ m ∈ ms, s ∈ m.updates ++ m.checks := by
      rcases List.mem_append.mp hs with hs | hs
      · obtain ⟨m, hm, hs⟩ := List.mem_flatMap.mp hs
        exact ⟨m, hm, List.mem_append_left _ hs⟩
      · obtain ⟨m, hm, hs⟩ := List.mem_flatMap.mp hs
        exact ⟨m, hm, List.mem_append_right _ hs⟩
    exact hfree (mem_names_concat.mpr ⟨m, hm, h.targets m hm s hs x hx⟩)
  have hown (m : Monitor) (hm : m ∈ ms) : env.run step m.distinct.spelled n =
      env.run step m.spelled n := by
    refine run_distinct henv ((List.pairwise_flatMap.mp h.updates).1 m hm)
      ((List.pairwise_flatMap.mp h.checks).1 m hm) (fun s hs x hx hfree ↦ ?_) n
    exact hfree (mem_names_concat.mpr ⟨m, hm, h.targets m hm s hs x hx⟩)
  rw [hwhole, (together_run henv h n).eq_none_iff]
  exact exists_congr fun m ↦ and_congr_right fun hm ↦ by rw [hown m hm]

end Environment

end TemporalRequirements.Monitor
