import TemporalRequirements.Proofs.Monitor.Lines
import TemporalRequirements.Proofs.Monitor.Variables
import TemporalRequirements.Proofs.Text.Identifiers

/-!
# Lines that run together

A host program takes every C expression of a line as a whole: it finds its value from the text and
from the variables that the text names, the step counter among them.  So a statement does the same
for variables that agree on what it names, and changes its own variable only.  A check that is
repeated word for word decides nothing, if no statement changes what it reads.
-/

namespace TemporalRequirements.Monitor

/-- The condition as one expression that is not looked into. -/
def Condition.spelled (c : Condition) : Condition := .leaf c.text

/-- The trigger as one expression that is not looked into. -/
def Trigger.spelled (t : Trigger) : Trigger := ⟨none, t.text?.map .leaf⟩

/-- The statement with the expressions of its line. -/
def Statement.spelled : Statement → Statement
  | .observe flag trigger => .observe flag trigger.spelled
  | .latch flag current => .latch flag current
  | .advance counter => .advance counter
  | .cancel counter delay premise => .cancel counter delay premise.spelled
  | .start counter trigger => .start counter trigger.spelled
  | .check trigger conclusion => .check trigger.spelled conclusion.spelled
  | .checkAt counter delay conclusion => .checkAt counter delay conclusion.spelled
  | .checkThrough counter delay last conclusion =>
    .checkThrough counter delay last conclusion.spelled
  | .checkBy counter delay last conclusion => .checkBy counter delay last conclusion.spelled

def Statement.target? : Statement → Option String
  | .observe flag _ | .latch flag _ => some flag
  | .advance counter | .cancel counter _ _ | .start counter _ | .checkAt counter _ _
  | .checkThrough counter _ _ _ | .checkBy counter _ _ _ => some counter
  | .check _ _ => none

def Statement.expressions : Statement → List String
  | .observe _ trigger | .start _ trigger => trigger.text?.toList
  | .latch _ current => [current]
  | .advance _ => []
  | .cancel _ _ premise => [premise.text]
  | .check trigger conclusion => trigger.text?.toList ++ [conclusion.text]
  | .checkAt _ _ conclusion | .checkThrough _ _ _ conclusion
  | .checkBy _ _ _ conclusion => [conclusion.text]

/-- Whether a statement names nothing but certain variables. -/
structure Statement.Within (s : Statement) (W : String → Prop) : Prop where
  target : ∀ x ∈ s.target?, W x
  expressions : ∀ e ∈ s.expressions, W e ∧ ∀ x ∈ Text.identifiersOf e, W x

/-- The monitor with the expressions of its lines. -/
def spelled (m : Monitor) : Monitor :=
  ⟨m.declarations, m.updates.map Statement.spelled, m.checks.map Statement.spelled⟩

namespace Variables

def AgreeOn (W : String → Prop) (v v' : Variables) : Prop := ∀ x, W x → v x = v' x

namespace AgreeOn

variable {W : String → Prop} {v v' v'' : Variables}

theorem refl (W : String → Prop) (v : Variables) : AgreeOn W v v := fun _ _ ↦ rfl

theorem trans (h : AgreeOn W v v') (h' : AgreeOn W v' v'') : AgreeOn W v v'' := fun x hx ↦
  (h x hx).trans (h' x hx)

theorem symm (h : AgreeOn W v v') : AgreeOn W v' v := fun x hx ↦ (h x hx).symm

theorem mono {V : String → Prop} (h : AgreeOn W v v') (hsub : ∀ x, V x → W x) : AgreeOn V v v' :=
  fun x hx ↦ h x (hsub x hx)

theorem set (h : AgreeOn W v v') (x : String) (value : Int) :
    AgreeOn W (v.set x value) (v'.set x value) := fun y hy ↦ by
  rw [Variables.set, Variables.set, h y hy]

theorem ite {p : Prop} [Decidable p] {w w' : Variables} (h : AgreeOn W v v')
    (h' : AgreeOn W w w') : AgreeOn W (if p then v else w) (if p then v' else w') := by
  split <;> assumption

theorem set_right {x : String} (h : ¬ W x) (v : Variables) (value : Int) :
    AgreeOn W v (v.set x value) := fun _ hy ↦ (if_neg (by rintro rfl; exact h hy)).symm

end AgreeOn

end Variables

namespace Environment

variable (env : Environment) (step : String)

/-- Whether the value of an expression is found from the variables that the expression names. -/
def Respects : Prop :=
  ∀ n text v v', Variables.AgreeOn (· ∈ Text.identifiersOf text) v v' →
    env n v text = env n v' text

/-- The variables after lines in their order, unless a check is not met. -/
def runLines (n : Nat) (ss : List Statement) (v : Variables) : Option Variables :=
  env.performAll step n (ss.map Statement.spelled) v

variable {env step} {n : Nat} {W : String → Prop} {v v' : Variables} {s : Statement}

theorem runLines_cons (ss : List Statement) : env.runLines step n (s :: ss) v =
    (s.spelled.perform step (env n v) v).bind (env.runLines step n ss) := rfl

theorem runLines_append (ss ts : List Statement) : env.runLines step n (ss ++ ts) v =
    (env.runLines step n ss v).bind (env.runLines step n ts) := by
  rw [runLines, List.map_append, performAll_append]
  rfl

theorem run_spelled_succ (m : Monitor) (n : Nat) : env.run step m.spelled (n + 1) =
    (env.run step m.spelled n).bind fun v ↦
      (env.runLines step n m.updates (v.set step n)).bind (env.runLines step n m.checks) := rfl

/-! ## What a line reads and changes -/

theorem value_spelled (t : Trigger) (read : String → Int) :
    t.spelled.value read = t.text?.elim 1 read := by
  rw [Trigger.spelled]
  cases t.text? <;> rfl

theorem read_congr (henv : env.Respects) (h : v.AgreeOn W v') {e : String} (he : W e)
    (hnames : ∀ x ∈ Text.identifiersOf e, W x) : v.read (env n v) e = v'.read (env n v') e := by
  rw [Variables.read, Variables.read, h e he, henv n e v v' (h.mono hnames)]

theorem rel_ite {α : Type} {r : α → α → Prop} {p : Prop} [Decidable p] {a a' b b' : Option α}
    (h : Option.Rel r a a') (h' : Option.Rel r b b') :
    Option.Rel r (if p then a else b) (if p then a' else b') := by
  split <;> assumption

/-- A statement does the same for variables that agree on what it names. -/
theorem perform_agree (step : String) (n : Nat) (henv : env.Respects) (hs : s.Within W)
    (h : v.AgreeOn W v') :
    Option.Rel (Variables.AgreeOn W) (s.spelled.perform step (env n v) v)
      (s.spelled.perform step (env n v') v') := by
  have hread (e : String) (he : e ∈ s.expressions) : v.read (env n v) e = v'.read (env n v') e :=
    read_congr henv h (hs.expressions e he).1 (hs.expressions e he).2
  have hcount (x : String) (hx : x ∈ s.target?) : v.count x = v'.count x := by
    rw [Variables.count, Variables.count, h x (hs.target x hx)]
  have hcondition (c : Condition) (hc : c.text ∈ s.expressions) :
      c.spelled.value (v.read (env n v)) = c.spelled.value (v'.read (env n v')) := hread c.text hc
  have htrigger (t : Trigger) (ht : ∀ e ∈ t.text?, e ∈ s.expressions) :
      t.spelled.value (v.read (env n v)) = t.spelled.value (v'.read (env n v')) := by
    rw [value_spelled, value_spelled]
    cases htext : t.text? with
    | none => rfl
    | some e => exact hread e (ht e htext)
  cases s with
  | observe flag trigger =>
    simp only [Statement.spelled, Statement.perform]
    rw [htrigger trigger fun e he ↦ Option.mem_toList.mpr he]
    exact .some (h.set flag _)
  | latch flag current =>
    simp only [Statement.spelled, Statement.perform]
    rw [hread current List.mem_cons_self]
    exact .some (h.set flag _)
  | advance counter =>
    simp only [Statement.spelled, Statement.perform]
    rw [hcount counter rfl]
    exact .some (.ite (h.set counter _) h)
  | cancel counter delay premise =>
    simp only [Statement.spelled, Statement.perform]
    rw [hcount counter rfl, hcondition premise List.mem_cons_self]
    exact .some (.ite (h.set counter _) h)
  | start counter trigger =>
    simp only [Statement.spelled, Statement.perform]
    rw [hcount counter rfl, htrigger trigger fun e he ↦ Option.mem_toList.mpr he]
    exact .some (.ite (h.set counter _) h)
  | check trigger conclusion =>
    simp only [Statement.spelled, Statement.perform]
    rw [htrigger trigger fun e he ↦ List.mem_append_left _ (Option.mem_toList.mpr he),
      hcondition conclusion (List.mem_append_right _ List.mem_cons_self)]
    exact rel_ite .none (.some h)
  | checkAt counter delay conclusion =>
    simp only [Statement.spelled, Statement.perform]
    rw [hcount counter rfl, hcondition conclusion List.mem_cons_self]
    exact rel_ite (rel_ite (.some (h.set counter _)) .none) (.some h)
  | checkThrough counter delay last conclusion =>
    simp only [Statement.spelled, Statement.perform]
    rw [hcount counter rfl, hcondition conclusion List.mem_cons_self]
    exact rel_ite (rel_ite (.some (.ite (h.set counter _) h)) .none) (.some h)
  | checkBy counter delay last conclusion =>
    simp only [Statement.spelled, Statement.perform]
    rw [hcount counter rfl, hcondition conclusion List.mem_cons_self]
    exact rel_ite (rel_ite (.some (h.set counter _)) (rel_ite (.some h) .none)) (.some h)

/-- A statement changes its own variable at most. -/
theorem perform_cases (h : s.spelled.perform step (env n v) v = some v') :
    v' = v ∨ ∃ x ∈ s.target?, ∃ value, v' = v.set x value := by
  have hsame (h : some v = some v') : v' = v := (Option.some.inj h).symm
  cases s with
  | observe flag trigger | latch flag current =>
    exact Or.inr ⟨flag, rfl, _, (Option.some.inj h).symm⟩
  | advance counter | cancel counter delay premise | start counter trigger =>
    obtain rfl := Option.some.inj h
    split
    · exact Or.inr ⟨counter, rfl, _, rfl⟩
    · exact Or.inl rfl
  | check trigger conclusion =>
    simp only [Statement.spelled, Statement.perform] at h
    split at h
    · cases h
    · exact Or.inl (hsame h)
  | checkAt counter delay conclusion =>
    simp only [Statement.spelled, Statement.perform] at h
    split at h
    · split at h
      · exact Or.inr ⟨counter, rfl, _, (Option.some.inj h).symm⟩
      · cases h
    · exact Or.inl (hsame h)
  | checkThrough counter delay last conclusion =>
    simp only [Statement.spelled, Statement.perform] at h
    split at h
    · split at h
      · obtain rfl := Option.some.inj h
        split
        · exact Or.inr ⟨counter, rfl, _, rfl⟩
        · exact Or.inl rfl
      · cases h
    · exact Or.inl (hsame h)
  | checkBy counter delay last conclusion =>
    simp only [Statement.spelled, Statement.perform] at h
    split at h
    · split at h
      · exact Or.inr ⟨counter, rfl, _, (Option.some.inj h).symm⟩
      · split at h
        · exact Or.inl (hsame h)
        · cases h
    · exact Or.inl (hsame h)

theorem agree_of_perform (h : s.spelled.perform step (env n v) v = some v')
    (hs : ∀ x ∈ s.target?, ¬ W x) : v.AgreeOn W v' := by
  rcases perform_cases h with rfl | ⟨x, hx, value, rfl⟩
  · exact .refl W v'
  · exact .set_right (hs x hx) v value

/-- A check without a variable changes nothing. -/
theorem eq_of_perform (h : s.spelled.perform step (env n v) v = some v')
    (hs : s.target? = none) : v' = v := by
  rcases perform_cases h with rfl | ⟨x, hx, -⟩
  · rfl
  · rw [hs] at hx
    cases hx

/-- Checks without a variable do the same if they read the same expressions. -/
theorem spelled_congr {t : Statement} (hs : s.target? = none) (ht : t.target? = none)
    (h : s.expressions = t.expressions) : s.spelled = t.spelled := by
  cases s with
  | check trigger conclusion =>
    cases t with
    | check trigger' conclusion' =>
      obtain ⟨htrigger, hconclusion⟩ := List.append_inj' h rfl
      have htext : trigger.text? = trigger'.text? := Option.ext fun e ↦ by
        simpa using iff_of_eq (congrArg (e ∈ ·) htrigger)
      have htrigger' : trigger.spelled = trigger'.spelled := by
        rw [Trigger.spelled, Trigger.spelled, htext]
      have hconclusion' : conclusion.spelled = conclusion'.spelled :=
        congrArg Condition.leaf (List.singleton_inj.mp hconclusion)
      rw [Statement.spelled, Statement.spelled, htrigger', hconclusion']
    | _ => cases ht
  | _ => cases hs

/-! ## Several lines -/

variable {ss : List Statement}

/-- Outcomes that are related are both missing or both there. -/
theorem cases_of_rel {α β : Type} {r : α → β → Prop} {a : Option α} {b : Option β}
    (h : Option.Rel r a b) :
    (a = none ∧ b = none) ∨ ∃ x y, a = some x ∧ b = some y ∧ r x y := by
  cases h with
  | some h => exact Or.inr ⟨_, _, rfl, rfl, h⟩
  | none => exact Or.inl ⟨rfl, rfl⟩

/-- Lines do the same for variables that agree on what they name. -/
theorem runLines_agree (step : String) (n : Nat) (henv : env.Respects)
    (hss : ∀ s ∈ ss, s.Within W) (h : v.AgreeOn W v') :
    Option.Rel (Variables.AgreeOn W) (env.runLines step n ss v) (env.runLines step n ss v') := by
  induction ss generalizing v v' with
  | nil => exact .some h
  | cons s ss ih =>
    rw [runLines_cons, runLines_cons]
    rcases cases_of_rel (perform_agree step n henv (hss s List.mem_cons_self) h)
      with ⟨hnone, hnone'⟩ | ⟨next, next', hnext, hnext', hagree⟩
    · rw [hnone, hnone']
      exact .none
    · rw [hnext, hnext']
      exact ih (fun t ht ↦ hss t (List.mem_cons_of_mem s ht)) hagree

theorem agree_of_runLines (h : env.runLines step n ss v = some v')
    (hss : ∀ s ∈ ss, ∀ x ∈ s.target?, ¬ W x) : v.AgreeOn W v' := by
  induction ss generalizing v with
  | nil => exact Option.some.inj h ▸ .refl W v
  | cons s ss ih =>
    obtain ⟨next, hnext, hrest⟩ := Option.bind_eq_some_iff.mp h
    exact (agree_of_perform hnext (hss s List.mem_cons_self)).trans
      (ih hrest fun t ht ↦ hss t (List.mem_cons_of_mem s ht))

/-- A check that says again what an earlier one says, of variables that stay as they are. -/
structure Repeats (W : String → Prop) (s t : Statement) : Prop where
  first : s.target? = none
  second : t.target? = none
  expressions : s.expressions = t.expressions
  within : s.Within W

/-- A check that was met is met again. -/
theorem runLines_filter (henv : env.Respects)
    (hmet : s.spelled.perform step (env n v) v = some v)
    (hss : ∀ t ∈ ss, s.text = t.text → Repeats W s t)
    (hkept : ∀ t ∈ ss, ∀ x ∈ t.target?, ¬ W x) (h : v.AgreeOn W v') :
    env.runLines step n (ss.filter fun t ↦ (t.text == s.text) = false) v' =
      env.runLines step n ss v' := by
  induction ss generalizing v' with
  | nil => rfl
  | cons t ss ih =>
    have hrest (v' : Variables) (h : v.AgreeOn W v') := ih
      (fun u hu ↦ hss u (List.mem_cons_of_mem t hu))
      (fun u hu ↦ hkept u (List.mem_cons_of_mem t hu)) h
    by_cases htext : t.text = s.text
    · rw [List.filter_cons_of_neg (by simp [htext]), runLines_cons, hrest v' h]
      have hrepeats := hss t List.mem_cons_self htext.symm
      rcases cases_of_rel (perform_agree step n henv hrepeats.within h) with
        ⟨hunmet, -⟩ | ⟨-, next, -, hnext, -⟩
      · rw [hmet] at hunmet
        cases hunmet
      · rw [spelled_congr hrepeats.first hrepeats.second hrepeats.expressions] at hnext
        rw [hnext, eq_of_perform hnext hrepeats.second, Option.bind_some]
    · rw [List.filter_cons_of_pos (by simp [htext]), runLines_cons, runLines_cons]
      cases hnext : t.spelled.perform step (env n v') v' with
      | none => rfl
      | some next =>
        exact hrest next (h.trans (agree_of_perform hnext (hkept t List.mem_cons_self)))

/-- Leaving out lines that are repeated changes nothing. -/
theorem runLines_distinctLines (henv : env.Respects) (ss : List Statement)
    (hss : ss.Pairwise fun s t ↦ s.text = t.text → Repeats W s t)
    (hkept : ∀ t ∈ ss, ∀ x ∈ t.target?, ¬ W x) (v : Variables) :
    env.runLines step n (distinctLines ss) v = env.runLines step n ss v := by
  match ss, hss, hkept with
  | [], _, _ => rfl
  | s :: ss, hss, hkept =>
    obtain ⟨hfirst, hpairs⟩ := List.pairwise_cons.mp hss
    have hkept' : ∀ t ∈ ss, ∀ x ∈ t.target?, ¬ W x := fun t ht ↦
      hkept t (List.mem_cons_of_mem s ht)
    have hrest := runLines_distinctLines henv (ss.filter fun t ↦ (t.text == s.text) = false)
      (hpairs.sublist List.filter_sublist) fun t ht ↦ hkept' t (List.mem_filter.mp ht).1
    unfold distinctLines at hrest ⊢
    rw [List.eraseDupsBy_cons, runLines_cons, runLines_cons]
    cases hnext : s.spelled.perform step (env n v) v with
    | none => rfl
    | some next =>
      rw [Option.bind_some, Option.bind_some, hrest]
      by_cases hagain : ∃ t ∈ ss, s.text = t.text
      · obtain ⟨t, ht, htext⟩ := hagain
        obtain rfl := eq_of_perform hnext (hfirst t ht htext).first
        exact runLines_filter henv hnext hfirst hkept' (.refl W next)
      · have hall : (ss.filter fun t ↦ (t.text == s.text) = false) = ss :=
          List.filter_eq_self.mpr fun t ht ↦ by
            have hne : t.text ≠ s.text := fun heq ↦ hagain ⟨t, ht, heq.symm⟩
            simpa using hne
        rw [hall]
termination_by ss.length
decreasing_by exact Nat.lt_succ_of_le (List.length_filter_le _ _)

end Environment

end TemporalRequirements.Monitor
