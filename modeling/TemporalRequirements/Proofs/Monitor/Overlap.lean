import TemporalRequirements.Proofs.Monitor.Simulation

/-!
# Obligations that overlap

A counter that is busy starts no other obligation.  Of the obligations of a conclusion that is due
after a delay or throughout a window, the monitor takes on those that begin while no other is open,
and it checks these and no others.  A count has 32 bits and a sign, so an obligation that would be
open longer ends when its count overflows.
-/

namespace TemporalRequirements.Monitor

/-- The number of steps after its first through which an obligation is open. -/
def span (delay steps : Nat) : Nat := min (delay + steps) (2 ^ 31 - 1)

/-- An obligation that begins at step `n` is taken on, unless one taken on earlier is open. -/
def Taken (starts : Nat → Prop) (span n : Nat) : Prop :=
  starts n ∧ ∀ s, s < n → n ≤ s + span → ¬ Taken starts span s
termination_by n

/-- An obligation that was taken on is due at step `n`, and its conclusion does not hold. -/
def Unmet (starts core : Nat → Prop) (delay span n : Nat) : Prop :=
  ∃ s, Taken starts span s ∧ s + delay ≤ n ∧ n ≤ s + span ∧ ¬ core n

variable {starts core : Nat → Prop} {n s s' : Nat}

theorem Taken.begins {span : Nat} (h : Taken starts span n) : starts n := by
  rw [Taken] at h
  exact h.1

theorem taken_zero {span : Nat} : Taken starts span 0 ↔ starts 0 := by
  rw [Taken]
  exact and_iff_left fun s hlt ↦ absurd hlt (Nat.not_lt_zero s)

/-- No obligation is taken on while another is open. -/
theorem Taken.lt_of_lt {span : Nat} (h : Taken starts span s) (h' : Taken starts span s')
    (hlt : s < s') : s + span < s' := by
  rw [Taken] at h'
  by_contra hle
  exact h'.2 s hlt (by omega) h

/-- One obligation is open at a time. -/
theorem Taken.eq_of_open {span : Nat} (h : Taken starts span s) (h' : Taken starts span s')
    (hs : s ≤ n) (hs' : s' ≤ n) (hopen : n ≤ s + span) (hopen' : n ≤ s' + span) : s = s' := by
  rcases Nat.lt_trichotomy s s' with hlt | heq | hgt
  · have hfar := h.lt_of_lt h' hlt
    omega
  · exact heq
  · have hfar := h'.lt_of_lt h hgt
    omega

/-- A delay too long for a word is as good as the longest one: no count reaches either. -/
theorem unmet_of_capped {delay total : Nat} (h : total = min delay (UInt32.size - 1)) :
    Unmet starts core total (span total 0) n ↔ Unmet starts core delay (span delay 0) n := by
  have hsize : UInt32.size = 2 ^ 32 := rfl
  have hspan : span total 0 = span delay 0 := by
    unfold span
    omega
  rw [hspan]
  refine exists_congr fun s ↦ and_congr_right fun _ ↦ ?_
  have hle : span delay 0 ≤ 2 ^ 31 - 1 := Nat.min_le_right _ _
  constructor
  · rintro ⟨hdue, hrest⟩
    exact ⟨by omega, hrest⟩
  · rintro ⟨hdue, hrest⟩
    exact ⟨by omega, hrest⟩

section Counts

variable (starts) (delay : UInt32) (window : Window)

/-- A counter between its updates and its check at step `n`: it counts the steps of the obligation
that is open, if there is one. -/
def TracksAt (n : Nat) (count : Int) : Prop :=
  let span := span delay.toNat window.steps
  (count < 0 ∧ ∀ s, s ≤ n → Taken starts span s → s + span < n) ∨
    ∃ s, s ≤ n ∧ Taken starts span s ∧ n ≤ s + span ∧ count = n - s

/-- A counter before its updates at step `n`.  The obligation of a counter that is not at rest goes
on, unless the next count overflows. -/
def TracksBefore (n : Nat) (count : Int) : Prop :=
  let span := span delay.toNat window.steps
  (count < 0 ∧ ∀ s, s < n → Taken starts span s → s + span < n) ∨
    ∃ s, s < n ∧ Taken starts span s ∧ count = n - 1 - s ∧
      (n ≤ s + span ∨ n = s + span + 1 ∧ span = 2 ^ 31 - 1)

variable {starts delay window} {count : Int}

theorem span_le (delay steps : Nat) : span delay steps ≤ delay + steps := Nat.min_le_left _ _

theorem span_lt (delay steps : Nat) : span delay steps < 2 ^ 31 := by
  have hle : span delay steps ≤ 2 ^ 31 - 1 := Nat.min_le_right _ _
  omega

/-- The largest count is followed by a negative one. -/
theorem succCount_of_max (h : count = 2 ^ 31 - 1) : succCount count < 0 := by
  subst h
  decide

/-- Counting the step goes on with the obligation that is open. -/
theorem advanceCount_tracks (h : TracksBefore starts delay window n count) :
    (advanceCount count < 0 ∧
      ∀ s, s < n → Taken starts (span delay.toNat window.steps) s →
        s + span delay.toNat window.steps < n) ∨
    ∃ s, s < n ∧ Taken starts (span delay.toNat window.steps) s ∧
      n ≤ s + span delay.toNat window.steps ∧ advanceCount count = n - s := by
  have hspan := span_lt delay.toNat window.steps
  rcases h with ⟨hrest, hclosed⟩ | ⟨s, hsn, htaken, rfl, hopen | ⟨hover, hmax⟩⟩
  · left
    rw [advanceCount, if_neg (by omega)]
    exact ⟨hrest, hclosed⟩
  · right
    refine ⟨s, hsn, htaken, hopen, ?_⟩
    rw [advanceCount, if_pos (by omega), succCount_of_lt (by omega) (by omega)]
    omega
  · left
    constructor
    · rw [advanceCount, if_pos (by omega)]
      exact succCount_of_max (by omega)
    · intro s' hs' htaken'
      by_contra hopen'
      -- an obligation still open now would have begun while that of `s` was open
      rcases Nat.lt_or_ge s s' with hlt | hge
      · have hfar := htaken.lt_of_lt htaken' hlt
        omega
      · omega

/-- The updates leave a counter with the obligation that is open after them. -/
theorem tracksAt_startCount {trigger : Bool} (htrigger : trigger = true ↔ starts n)
    (h : TracksBefore starts delay window n count) :
    TracksAt starts delay window n (startCount trigger (advanceCount count)) := by
  rcases advanceCount_tracks h with ⟨hrest, hclosed⟩ | ⟨s, hsn, htaken, hopen, hcount⟩
  · have htaken : Taken starts (span delay.toNat window.steps) n ↔ starts n := by
      rw [Taken]
      refine and_iff_left fun s hsn hopen htaken ↦ ?_
      have hfar := hclosed s hsn htaken
      omega
    unfold startCount
    split
    · rename_i hstart
      exact Or.inr ⟨n, Nat.le_refl n, htaken.mpr (htrigger.mp hstart.2), by omega, by omega⟩
    · rename_i hstart
      refine Or.inl ⟨hrest, fun s hsn hs ↦ ?_⟩
      rcases Nat.lt_or_eq_of_le hsn with hlt | rfl
      · exact hclosed s hlt hs
      · exact absurd ⟨hrest, htrigger.mpr (htaken.mp hs)⟩ hstart
  · rw [startCount, if_neg (by omega)]
    exact Or.inr ⟨s, by omega, htaken, hopen, hcount⟩

/-- A check at every count or at one count fails from the delay on wherever the conclusion does not
hold. -/
theorem checkCount_eq_none_iff (hwindow : ∀ n, window ≠ .within n) (holds : Bool)
    (hcount : count ≤ span delay.toNat window.steps) :
    checkCount delay window holds count = none ↔ delay.toNat ≤ count ∧ holds = false := by
  have hle := span_le delay.toNat window.steps
  cases window with
  | within n => exact absurd rfl (hwindow n)
  | instant =>
    have hdue : count = delay.toNat ↔ delay.toNat ≤ count := by
      simp only [Window.steps] at hle hcount
      omega
    rw [checkCount, ← hdue]
    split <;> cases holds <;> simp_all
  | throughout n =>
    rw [checkCount]
    split <;> cases holds <;> simp_all

/-- A check at every count or at one count puts the counter to rest at the last one. -/
theorem eq_of_checkCount (hwindow : ∀ n, window ≠ .within n) {holds : Bool} {next : Int}
    (hcount : count ≤ span delay.toNat window.steps)
    (h : checkCount delay window holds count = some next) :
    (delay.toNat + window.steps ≤ count ∧ next = resting) ∨
      (count < delay.toNat + window.steps ∧ next = count) := by
  have hle := span_le delay.toNat window.steps
  have hlt := span_lt delay.toNat window.steps
  cases window with
  | within n => exact absurd rfl (hwindow n)
  | instant =>
    simp only [checkCount, Window.steps] at h hle hcount ⊢
    split at h
    · cases holds with
      | false => cases h
      | true => exact Or.inl ⟨by omega, (Option.some.inj h).symm⟩
    · exact Or.inr ⟨by omega, (Option.some.inj h).symm⟩
  | throughout n =>
    have hlast : ((addCapped delay n).toNat : Int) ≤ count ↔
        (delay.toNat : Int) + n.toNat ≤ count := by
      have hsize : UInt32.size = 2 ^ 32 := rfl
      rw [toNat_addCapped]
      omega
    simp only [checkCount, Window.steps, hlast] at h ⊢
    split at h
    · cases holds with
      | false => cases h
      | true =>
        rw [if_pos rfl] at h
        split at h
        · rename_i hend
          exact Or.inl ⟨hend, (Option.some.inj h).symm⟩
        · rename_i hend
          exact Or.inr ⟨by omega, (Option.some.inj h).symm⟩
    · exact Or.inr ⟨by omega, (Option.some.inj h).symm⟩

/-- The check of a counter fails exactly where an obligation that was taken on is not met. -/
theorem checkCount_eq_none_iff_unmet {holds : Bool} (hwindow : ∀ n, window ≠ .within n)
    (hholds : holds = true ↔ core n) (h : TracksAt starts delay window n count) :
    checkCount delay window holds count = none ↔
      Unmet starts core delay.toNat (span delay.toNat window.steps) n := by
  rcases h with ⟨hrest, hclosed⟩ | ⟨s, hsn, htaken, hopen, rfl⟩
  · rw [checkCount_eq_none_iff hwindow holds (by omega)]
    constructor
    · rintro ⟨hdue, -⟩
      omega
    · rintro ⟨s, htaken, hdue, hopen, -⟩
      have hfar := hclosed s (by omega) htaken
      omega
  · rw [checkCount_eq_none_iff hwindow holds (by omega), ← Bool.not_eq_true, hholds]
    constructor
    · rintro ⟨hdue, hcore⟩
      exact ⟨s, htaken, by omega, hopen, hcore⟩
    · rintro ⟨s', htaken', hdue, hopen', hcore⟩
      obtain rfl : s' = s := htaken'.eq_of_open htaken (by omega) hsn hopen' hopen
      exact ⟨by omega, hcore⟩

/-- A check that is met leaves the counter with the obligation that goes on. -/
theorem tracksBefore_checkCount {holds : Bool} {next : Int} (hwindow : ∀ n, window ≠ .within n)
    (h : TracksAt starts delay window n count)
    (hcheck : checkCount delay window holds count = some next) :
    TracksBefore starts delay window (n + 1) next := by
  rcases h with ⟨hrest, hclosed⟩ | ⟨s, hsn, htaken, hopen, rfl⟩
  · obtain rfl : next = count := by
      rcases eq_of_checkCount hwindow (by omega) hcheck with ⟨hend, -⟩ | ⟨-, heq⟩
      · omega
      · exact heq
    refine Or.inl ⟨hrest, fun s hs htaken ↦ ?_⟩
    have hfar := hclosed s (by omega) htaken
    omega
  · have hle := span_le delay.toNat window.steps
    rcases eq_of_checkCount hwindow (by omega) hcheck with ⟨hend, rfl⟩ | ⟨hlt, rfl⟩
    · left
      refine ⟨by decide, fun s' hs' htaken' ↦ ?_⟩
      by_contra hopen'
      obtain rfl : s' = s := htaken'.eq_of_open htaken (by omega) hsn (by omega) hopen
      omega
    · right
      refine ⟨s, by omega, htaken, by omega, ?_⟩
      unfold span at hopen ⊢
      omega

/-- A step of a counter fails exactly where an obligation that was taken on is not met. -/
theorem stepCount_tracks {trigger holds : Bool} (hwindow : ∀ n, window ≠ .within n)
    (htrigger : trigger = true ↔ starts n) (hholds : holds = true ↔ core n)
    (h : TracksBefore starts delay window n count) :
    (stepCount delay window trigger holds count = none ∧
        Unmet starts core delay.toNat (span delay.toNat window.steps) n) ∨
      ∃ next, stepCount delay window trigger holds count = some next ∧
        TracksBefore starts delay window (n + 1) next ∧
        ¬ Unmet starts core delay.toNat (span delay.toNat window.steps) n := by
  have htracks := tracksAt_startCount htrigger h
  rw [stepCount, ← checkCount_eq_none_iff_unmet hwindow hholds htracks]
  cases hcheck : checkCount delay window holds (startCount trigger (advanceCount count)) with
  | none => exact Or.inl ⟨rfl, rfl⟩
  | some next =>
    exact Or.inr ⟨next, rfl, tracksBefore_checkCount hwindow htracks hcheck, Option.some_ne_none _⟩

/-- A counter fails exactly if an obligation that was taken on is not met. -/
theorem exists_countAt_eq_none_iff {trigger holds : Nat → Bool} (hwindow : ∀ n, window ≠ .within n)
    (htrigger : ∀ n, trigger n = true ↔ starts n) (hholds : ∀ n, holds n = true ↔ core n) :
    (∃ n, countAt delay window trigger holds n = none) ↔
      ∃ n, Unmet starts core delay.toNat (span delay.toNat window.steps) n := by
  have hrun (n : Nat) :
      (countAt delay window trigger holds n = none ∧
        ∃ k, Unmet starts core delay.toNat (span delay.toNat window.steps) k) ∨
      ∃ count, countAt delay window trigger holds n = some count ∧
        TracksBefore starts delay window n count ∧
        ∀ k, k < n → ¬ Unmet starts core delay.toNat (span delay.toNat window.steps) k := by
    induction n with
    | zero => exact Or.inr ⟨resting, rfl, Or.inl ⟨by decide, by simp⟩, by simp⟩
    | succ n ih =>
      rcases ih with ⟨hnone, hunmet⟩ | ⟨count, hcount, htracks, hmet⟩
      · exact Or.inl ⟨by rw [countAt, hnone, Option.bind_none], hunmet⟩
      · rw [countAt, hcount, Option.bind_some]
        rcases stepCount_tracks hwindow (htrigger n) (hholds n) htracks with
          ⟨hnone, hunmet⟩ | ⟨next, hnext, htracks', hmet'⟩
        · exact Or.inl ⟨hnone, n, hunmet⟩
        · refine Or.inr ⟨next, hnext, htracks', fun k hk ↦ ?_⟩
          rcases Nat.lt_succ_iff_lt_or_eq.mp hk with hlt | rfl
          · exact hmet k hlt
          · exact hmet'
  constructor
  · rintro ⟨n, hn⟩
    rcases hrun n with ⟨-, hunmet⟩ | ⟨count, hcount, -⟩
    · exact hunmet
    · rw [hn] at hcount
      cases hcount
  · rintro ⟨n, hn⟩
    refine ⟨n + 1, ?_⟩
    rcases hrun (n + 1) with ⟨hnone, -⟩ | ⟨-, -, -, hmet⟩
    · exact hnone
    · exact absurd hn (hmet n (by omega))

end Counts

/-! ## Monitors of conclusions -/

variable {i : Interface} {name step : String} {scope : Scope} {run : Observations}

/-- The monitor of a conclusion that is due after a delay or throughout a window fails exactly if an
obligation that was taken on is not met. -/
theorem fails_iff_unmet_of_conclusion {trigger : Trigger} {timed : Timed} {conclusion : Condition}
    (hobserves : Premise.Observes ⟨trigger, 0, [], [], []⟩ run starts)
    (hconclusion : presentCondition i timed.core = .ok conclusion)
    (hwindow : ∀ n, timed.window ≠ .within n)
    (hcounted : ¬ (timed.delay = 0 ∧ timed.window = .instant))
    (hkept : timed.delay.toNat = 0 ∨ trigger.premise = none) :
    (ofConclusion name ⟨trigger, 0, [], [], []⟩ timed conclusion).distinct.Fails run ↔
      ∃ n, Unmet starts (timed.core.Holds (traceOf i run)) timed.delay.toNat
        (span timed.delay.toNat timed.window.steps) n := by
  classical
  have hspelled : Premise.Spelled ⟨trigger, 0, [], [], []⟩ :=
    ⟨List.nodup_nil, List.nodup_nil, fun s hs ↦ by cases hs⟩
  have hcore (n : Nat) (m : Memory) (hready : Premise.Ready ⟨trigger, 0, [], [], []⟩ run n m.flags) :
      conclusion.eval (m.read (run n)) = true ↔ timed.core.Holds (traceOf i run) n :=
    eval_presentCondition hconclusion fun a _ ↦ hready.undeclared _ List.not_mem_nil
  have hsimulation :
      (ofConclusion name ⟨trigger, 0, [], [], []⟩ timed conclusion).distinct.Fails run ↔
        ∃ n, countAt timed.delay timed.window (fun n ↦ decide (starts n))
          (fun n ↦ decide (timed.core.Holds (traceOf i run) n)) n = none :=
    fails_iff_countAt (by simpa using hobserves) hspelled (by simpa using hcore)
      (UInt32.sub_zero timed.delay) hcounted hkept
  rw [hsimulation]
  exact exists_countAt_eq_none_iff hwindow (fun n ↦ decide_eq_true_iff)
    fun n ↦ decide_eq_true_iff

/-- `DelayedBy q delay f` tells that `f` is `q` behind next steps and exact bounds that add up to
`delay`. -/
inductive DelayedBy (q : Formula) : Nat → Formula → Prop where
  | core : DelayedBy q 0 q
  | next {delay : Nat} {f : Formula} (h : DelayedBy q delay f) :
    DelayedBy q (delay + 1) (.unary .next f)
  | exactly {delay : Nat} {f : Formula} (n : UInt32) (h : DelayedBy q delay f) :
    DelayedBy q (delay + n.toNat) (.bounded .exactly n f)

variable {f q : Formula} {delay steps : Nat}

/-- A delayed formula is its core as many steps later. -/
theorem DelayedBy.holds_iff (h : DelayedBy q delay f) (trace : Trace) (k : Nat) :
    f.Holds trace k ↔ q.Holds trace (k + delay) := by
  induction h generalizing k with
  | core => exact Iff.rfl
  | @next delay f h ih =>
    have hshift : k + 1 + delay = k + (delay + 1) := by omega
    rw [Formula.holds_unary, UnaryOp.Holds, ih, hshift]
  | @exactly delay f n h ih =>
    have hshift : k + n.toNat + delay = k + (delay + n.toNat) := by omega
    rw [Formula.holds_bounded, BoundedOp.Holds, ih, hshift]

/-- There is no timing to peel off a formula without temporal operators. -/
theorem peel_of_not_temporal (hq : q.isTemporal = false) (delay : UInt32) (window : Window) :
    peel delay window q = .ok ⟨delay, window, q⟩ := by
  cases q with
  | const b | atom a => rfl
  | unary op f =>
    cases op with
    | not => simp [peel, hq]
    | next | eventually | always => cases hq
  | bounded op n f => cases hq
  | binary op l r => simp [peel, hq]

/-- Delays are peeled off and added up, as far as they fit into a word. -/
theorem DelayedBy.peel_eq (h : DelayedBy q delay f) (hq : q.isTemporal = false) (before : UInt32)
    (window : Window) :
    ∃ total, peel before window f = .ok ⟨total, window, q⟩ ∧
      total.toNat = min (before.toNat + delay) (UInt32.size - 1) := by
  induction h generalizing before with
  | core =>
    have hlt := before.toNat_lt_size
    exact ⟨before, peel_of_not_temporal hq before window, by omega⟩
  | next h ih =>
    obtain ⟨total, hpeel, htotal⟩ := ih (addCapped before 1)
    rw [toNat_addCapped, UInt32.toNat_one] at htotal
    exact ⟨total, hpeel, by omega⟩
  | exactly n h ih =>
    obtain ⟨total, hpeel, htotal⟩ := ih (addCapped before n)
    rw [toNat_addCapped] at htotal
    exact ⟨total, hpeel, by omega⟩

theorem DelayedBy.splitImplication_eq (h : DelayedBy q delay f) (hpos : 0 < delay) :
    splitImplication f = (none, f) := by
  cases h with
  | core => exact absurd hpos (Nat.lt_irrefl 0)
  | next h => rfl
  | exactly n h => rfl

/-! ## Properties whose obligations overlap -/

/-- `Overlapping f p delay steps q` tells that `f` demands `q`, wherever its premise `p` holds, from
`delay` steps later on and for `steps` steps more, and that its monitor never drops an obligation:
either there is no delay or there is no premise. -/
inductive Overlapping : Formula → Option Formula → Nat → Nat → Formula → Prop where
  | throughout {p q : Formula} (n : UInt32) (hp : p.isTemporal = false)
    (hq : q.isTemporal = false) :
    Overlapping (.binary .implies p (.bounded .alwaysWithin n q)) (some p) 0 n.toNat q
  | delayed {q f : Formula} {delay : Nat} (hf : DelayedBy q delay f) (hq : q.isTemporal = false)
    (hpos : 0 < delay) : Overlapping f none delay 0 q

variable {p : Option Formula}

/-- Every obligation of a property has to be met. -/
theorem Overlapping.holds_iff (h : Overlapping f p delay steps q) (trace : Trace) (k : Nat) :
    f.Holds trace k ↔ ((∀ r ∈ p, r.Holds trace k) →
      ∀ n, k + delay ≤ n → n ≤ k + delay + steps → q.Holds trace n) := by
  cases h with
  | throughout n hp hq => simp [BinaryOp.Holds, BoundedOp.Holds]
  | delayed hf hq hpos =>
    rw [hf.holds_iff]
    constructor
    · intro hholds _ n hle hge
      obtain rfl : k + delay = n := by omega
      exact hholds
    · intro hall
      exact hall (by simp) (k + delay) (Nat.le_refl _) (Nat.le_refl _)

/-- The monitor of a property whose obligations overlap fails exactly if an obligation that was
taken on is not met. -/
theorem fails_iff_unmet_of_formula {m : Monitor} (h : ofFormula i name step scope f = .ok m)
    (hshape : Overlapping f p delay steps q) :
    m.distinct.Fails run ↔ ∃ n, Unmet (startsOf (traceOf i run) scope p 0)
      (q.Holds (traceOf i run)) delay (span delay steps) n := by
  rcases ofFormula_cases h with ⟨l, r, rfl, -⟩ |
    ⟨timed, conclusion, premise, htimed, hconclusion, hpremise, rfl⟩
  · cases hshape with
    | delayed hf hq hpos =>
      cases hf
      cases hpos
  cases hshape with
  | @throughout p q n hp hq =>
    have hpeel : peel 0 .instant (.bounded .alwaysWithin n q) = .ok ⟨0, .throughout n, q⟩ := by
      rw [peel, if_pos rfl, peel_of_not_temporal hq]
    obtain rfl : timed = ⟨0, .throughout n, q⟩ := Except.ok.inj (htimed.symm.trans hpeel)
    rcases premiseOf_cases hpremise with ⟨hnone, -⟩ | ⟨r, condition, hr, hcondition, rfl⟩ |
      ⟨r, -, hdelay, -⟩
    · cases hnone
    · obtain rfl : p = r := Option.some.inj hr
      exact fails_iff_unmet_of_conclusion (observes_presentPremise hcondition) hconclusion
        (fun m hm ↦ by cases hm) (fun hplain ↦ by cases hplain.2) (Or.inl rfl)
    · exact absurd rfl hdelay
  | @delayed q f delay hf hq hpos =>
    obtain ⟨total, hpeel, htotal⟩ := hf.peel_eq hq 0 .instant
    rw [hf.splitImplication_eq hpos] at htimed hpremise
    obtain rfl : timed = ⟨total, .instant, q⟩ := Except.ok.inj (htimed.symm.trans hpeel)
    rcases premiseOf_cases hpremise with ⟨-, rfl⟩ | ⟨r, condition, hr, -⟩ | ⟨r, hr, -⟩
    · rw [UInt32.toNat_zero, Nat.zero_add] at htotal
      have hcounted : total ≠ 0 := by
        rintro rfl
        have hsize : UInt32.size = 2 ^ 32 := rfl
        rw [UInt32.toNat_zero] at htotal
        omega
      rw [fails_iff_unmet_of_conclusion observes_noPremise hconclusion (fun m hm ↦ by cases hm)
        (fun hplain ↦ hcounted hplain.1) (Or.inr rfl)]
      exact exists_congr fun n ↦ unmet_of_capped htotal
    · cases hr
    · cases hr

theorem scopeOf_always {c : Chunk} {body : Formula} (h : c.formula = .unary .always body) :
    (scopeOf c).2 = body := by
  obtain ⟨tag, f⟩ := c
  obtain rfl : f = .unary .always body := h
  rcases tag with _ | _ | _ <;> rfl

/-- A run violates a property if an obligation that begins, taken on or not, is not met. -/
theorem not_holds_iff_of_overlapping {c : Chunk} {trace : Trace}
    (h : Overlapping (scopeOf c).2 p delay steps q) :
    ¬ c.scoped.Holds trace 0 ↔ ∃ s, startsOf trace (scopeOf c).1 p 0 s ∧
      ∃ n, s + delay ≤ n ∧ n ≤ s + delay + steps ∧ ¬ q.Holds trace n := by
  rw [scoped_holds_iff]
  simp only [h.holds_iff, startsOf]
  push Not
  constructor
  · rintro ⟨k, hcovers, hpremise, hunmet⟩
    exact ⟨k, ⟨k, rfl, hcovers, hpremise⟩, hunmet⟩
  · rintro ⟨s, ⟨k, rfl, hcovers, hpremise⟩, hunmet⟩
    exact ⟨k, hcovers, hpremise, hunmet⟩

/-- If no obligation begins while another is open and none is open for too long, the monitor misses
nothing. -/
theorem fails_of_apart {c : Chunk} {m : Monitor} (h : ofChunk i name step c = .ok m)
    (hshape : Overlapping (scopeOf c).2 p delay steps q) (hfits : delay + steps < 2 ^ 31)
    (hapart : ∀ s s', startsOf (traceOf i run) (scopeOf c).1 p 0 s →
      startsOf (traceOf i run) (scopeOf c).1 p 0 s' → s < s' → s + delay + steps < s')
    (hviolated : ¬ c.scoped.Holds (traceOf i run) 0) : m.distinct.Fails run := by
  rw [fails_iff_unmet_of_formula (ofFormula_of_ofChunk h) hshape]
  obtain ⟨s, hstarts, n, hdue, hopen, hcore⟩ := (not_holds_iff_of_overlapping hshape).mp hviolated
  have hspan : span delay steps = delay + steps := by
    unfold span
    omega
  have htaken : Taken (startsOf (traceOf i run) (scopeOf c).1 p 0) (span delay steps) s := by
    rw [Taken]
    refine ⟨hstarts, fun s' hlt hopen' htaken' ↦ ?_⟩
    have hfar := hapart s' s htaken'.begins hstarts hlt
    omega
  exact ⟨n, s, htaken, hdue, by omega, hcore⟩

/-- Of a property whose obligations overlap, the monitor checks exactly the obligations that begin
while no other is open: it fails if one of these is not met, while a run violates the property if
any obligation is not met. -/
theorem fails_iff_taken_unmet {c : Chunk} {m : Monitor} {body : Formula}
    (h : ofChunk i name step c = .ok m) (hbody : c.formula = .unary .always body)
    (hshape : Overlapping body p delay steps q) :
    let starts := startsOf (traceOf i run) (scopeOf c).1 p 0
    let core := q.Holds (traceOf i run)
    (m.distinct.Fails run ↔ ∃ s, Taken starts (span delay steps) s ∧
      ∃ n, s + delay ≤ n ∧ n ≤ s + span delay steps ∧ ¬ core n) ∧
    (¬ c.scoped.Holds (traceOf i run) 0 ↔ ∃ s, starts s ∧
      ∃ n, s + delay ≤ n ∧ n ≤ s + delay + steps ∧ ¬ core n) := by
  intro starts core
  rw [← scopeOf_always hbody] at hshape
  refine ⟨?_, not_holds_iff_of_overlapping hshape⟩
  rw [fails_iff_unmet_of_formula (ofFormula_of_ofChunk h) hshape]
  constructor
  · rintro ⟨n, s, htaken, hunmet⟩
    exact ⟨s, htaken, n, hunmet⟩
  · rintro ⟨s, htaken, n, hunmet⟩
    exact ⟨n, s, htaken, hunmet⟩

/-- After `p`, `c` holds now and one step later. -/
def heldOneStep : Chunk :=
  ⟨none, .unary .always (.binary .implies (.atom (.var "p"))
    (.bounded .alwaysWithin 1 (.atom (.var "c"))))⟩

/-- From the second step on `c` holds. -/
def heldFromNext : Chunk := ⟨none, .unary .always (.unary .next (.atom (.var "c")))⟩

/-- A run with `p` at the first two steps, and with `c` but for one step. -/
def heldBut (without : Nat) : Observations := fun n text ↦
  if text = "p" then n ≤ 1 else n != without

theorem fails_iff_taken_unmet_heldOneStep :
    ∃ m body p q, ofChunk .empty "P_0" "step" heldOneStep = .ok m ∧
      heldOneStep.formula = .unary .always body ∧ Overlapping body p 0 1 q ∧
      m.distinct.Fails (heldBut 1) ∧
      ¬ heldOneStep.scoped.Holds (traceOf .empty (heldBut 1)) 0 := by
  have hmonitor : ofChunk .empty "P_0" "step" heldOneStep = .ok _ := rfl
  have hstarts : startsOf (traceOf .empty (heldBut 1)) (scopeOf heldOneStep).1
      (some (.atom (.var "p"))) 0 0 := ⟨0, rfl, trivial, fun _ h ↦ Option.some.inj h ▸ rfl⟩
  have hunmet : ¬ (Formula.atom (.var "c")).Holds (traceOf .empty (heldBut 1)) 1 := fun hholds ↦ by
    cases hholds
  obtain ⟨hfails, hviolated⟩ := fails_iff_taken_unmet hmonitor rfl (.throughout 1 rfl rfl)
  exact ⟨_, _, _, _, hmonitor, rfl, .throughout 1 rfl rfl,
    hfails.mpr ⟨0, taken_zero.mpr hstarts, 1, by decide, by decide, hunmet⟩,
    hviolated.mpr ⟨0, hstarts, 1, by decide, by decide, hunmet⟩⟩

/-- A run that violates a property and does not make its monitor fail. -/
def Missed (c : Chunk) (run : Observations) : Prop :=
  ∃ m, ofChunk .empty "P_0" "step" c = .ok m ∧ ¬ c.scoped.Holds (traceOf .empty run) 0 ∧
    ¬ m.distinct.Fails run

/-- The obligation of the second step begins while that of the first is open. -/
theorem missed_second_obligation :
    ((Chunk.parse "G(p -> G<=1 c)").toOption = some heldOneStep ∧ Missed heldOneStep (heldBut 2)) ∧
      (Chunk.parse "G(X c)").toOption = some heldFromNext ∧ Missed heldFromNext (heldBut 2) := by
  have hcore (n : Nat) (h : ¬ (Formula.atom (.var "c")).Holds (traceOf .empty (heldBut 2)) n) :
      n = 2 := by
    by_contra hne
    exact h (bne_iff_ne.mpr hne)
  have hsecond {starts : Nat → Prop} (h : starts 0) : ¬ Taken starts 1 1 := fun h' ↦ by
    have hfar := (taken_zero.mpr h).lt_of_lt h' Nat.zero_lt_one
    omega
  refine ⟨⟨by decide +kernel, ?_⟩, by decide +kernel, ?_⟩
  · have hmonitor : ofChunk .empty "P_0" "step" heldOneStep = .ok _ := rfl
    refine ⟨_, hmonitor, fun hholds ↦ ?_, ?_⟩
    · have hheld : heldBut 2 2 "c" = true := hholds 1 (by decide) rfl 2 (by decide) (by decide)
      cases hheld
    · rw [fails_iff_unmet_of_formula (ofFormula_of_ofChunk hmonitor) (.throughout 1 rfl rfl)]
      rintro ⟨n, s, htaken, -, hopen, hunmet⟩
      obtain rfl := hcore n hunmet
      obtain ⟨k, rfl, -, hp⟩ := htaken.begins
      have hearly : k ≤ 1 := of_decide_eq_true (hp _ rfl)
      have hlate : 2 ≤ k + 1 := hopen
      obtain rfl : k = 1 := by omega
      exact hsecond ⟨0, rfl, trivial, fun _ h ↦ Option.some.inj h ▸ rfl⟩ htaken
  · have hmonitor : ofChunk .empty "P_0" "step" heldFromNext = .ok _ := rfl
    refine ⟨_, hmonitor, fun hholds ↦ ?_, ?_⟩
    · have hheld : heldBut 2 2 "c" = true := hholds 1 (by decide)
      cases hheld
    · rw [fails_iff_unmet_of_formula (ofFormula_of_ofChunk hmonitor)
        (.delayed (.next .core) rfl Nat.zero_lt_one)]
      rintro ⟨n, s, htaken, hdue, hopen, hunmet⟩
      obtain rfl := hcore n hunmet
      have hlate : 2 ≤ s + 1 := hopen
      obtain rfl : s = 1 := by omega
      exact hsecond ⟨0, rfl, trivial, fun _ h ↦ by cases h⟩ htaken

end TemporalRequirements.Monitor
