import Mathlib.Order.Bounds.Basic
import TemporalRequirements.Proofs.Grammar.Printed
import TemporalRequirements.Proofs.Monitor.Simulation

/-!
# The depth of next steps

A formula leads along its paths to atoms and constants, each of which it reads as many steps ahead
as there are next steps on the path.  The depth counted in words is the largest of these numbers
exactly if all of them are words.  The premise of a property with a monitor reads at most one step
ahead on every path, so a depth that wraps around does not give a monitor.
-/

namespace TemporalRequirements

namespace Formula

/-- The number of next steps on each path from the formula to an atom or a constant, an exact bound
counting as that many. -/
def pathDepths : Formula → List Nat
  | .const _ | .atom _ => [0]
  | .unary .next f => (pathDepths f).map (· + 1)
  | .unary _ f => pathDepths f
  | .bounded .exactly n f => (pathDepths f).map (· + n.toNat)
  | .bounded _ _ f => pathDepths f
  | .binary _ l r => pathDepths l ++ pathDepths r

/-- A word is the depth of a formula if it is the largest number of next steps on a path. -/
def HasDepth (f : Formula) (depth : UInt32) : Prop :=
  IsGreatest {d | d ∈ f.pathDepths} depth.toNat

theorem HasDepth.lt_size {f : Formula} {depth : UInt32} (h : f.HasDepth depth) {d : Nat}
    (hd : d ∈ f.pathDepths) : d < UInt32.size :=
  (h.2 hd).trans_lt depth.toNat_lt

/-- If no path of `f` is too long when `n` next steps are put in front, the depth grows by `n`. -/
theorem HasDepth.add {f g : Formula} {depth n : UInt32} (h : f.HasDepth depth)
    (hpaths : g.pathDepths = f.pathDepths.map (· + n.toNat))
    (hfits : ∀ d ∈ g.pathDepths, d < UInt32.size) : g.HasDepth (depth + n) := by
  have hdeepest : depth.toNat + n.toNat ∈ g.pathDepths := by
    rw [hpaths]
    exact List.mem_map_of_mem h.1
  have hsum : (depth + n).toNat = depth.toNat + n.toNat := by
    rw [UInt32.toNat_add]
    exact Nat.mod_eq_of_lt (hfits _ hdeepest)
  constructor
  · rw [hsum]
    exact hdeepest
  · intro d hd
    rw [Set.mem_ofPred_eq, hpaths] at hd
    obtain ⟨e, he, rfl⟩ := List.mem_map.mp hd
    rw [hsum]
    exact Nat.add_le_add_right (h.2 he) n.toNat

/-- The longer of the longest paths of two operands is the longest path of both. -/
theorem HasDepth.binary {l r : Formula} {m n : UInt32} (hl : l.HasDepth m) (hr : r.HasDepth n)
    (op : BinaryOp) : (Formula.binary op l r).HasDepth (max m n) := by
  have hmax : (max m n).toNat = max m.toNat n.toNat := by
    rw [UInt32.max_def, Nat.max_def]
    simp only [UInt32.le_iff_toNat_le]
    split <;> rfl
  have hpaths : {d | d ∈ (Formula.binary op l r).pathDepths} =
      {d | d ∈ l.pathDepths} ∪ {d | d ∈ r.pathDepths} :=
    Set.ext fun d ↦ List.mem_append
  rw [HasDepth, hmax, hpaths]
  exact hl.union hr

/-- The computed depth is the greatest one of a path, if every depth fits into a word. -/
theorem hasDepth_nextDepth {f : Formula} (hfits : ∀ d ∈ f.pathDepths, d < UInt32.size) :
    f.HasDepth f.nextDepth := by
  induction f with
  | const | atom => exact ⟨List.mem_singleton_self 0, fun d hd ↦ (List.mem_singleton.mp hd).le⟩
  | unary op f ih =>
    cases op with
    | not | eventually | always => exact ih hfits
    | next =>
      have hf : f.HasDepth f.nextDepth := ih fun d hd ↦
        (Nat.le_add_right d 1).trans_lt (hfits _ (List.mem_map_of_mem hd))
      exact hf.add rfl hfits
  | bounded op n f ih =>
    cases op with
    | eventuallyWithin | alwaysWithin => exact ih hfits
    | exactly =>
      have hf : f.HasDepth f.nextDepth := ih fun d hd ↦
        (Nat.le_add_right d n.toNat).trans_lt (hfits _ (List.mem_map_of_mem hd))
      exact hf.add rfl hfits
  | binary op l r ihl ihr =>
    have hl := ihl fun d hd ↦ hfits d (List.mem_append_left _ hd)
    have hr := ihr fun d hd ↦ hfits d (List.mem_append_right _ hd)
    exact hl.binary hr op

end Formula

namespace Monitor

/-! ## Premises -/

/-- A formula with a condition has no path with more next steps than the condition may look
ahead. -/
theorem pathDepths_le_of_conditionOf {leaf : Bool → Atom → String} {mayLook ahead : Bool}
    {f : Formula} {c : Condition} (h : conditionOf leaf mayLook ahead f = .ok c) {d : Nat}
    (hd : d ∈ f.pathDepths) : d ≤ (mayLook && !ahead).toNat := by
  induction f generalizing c ahead d with
  | const | atom =>
    obtain rfl := List.mem_singleton.mp hd
    exact Nat.zero_le _
  | unary op f ih =>
    cases op with
    | not =>
      obtain ⟨c', hc', -⟩ := conditionOf_not h
      exact ih hc' hd
    | next =>
      obtain ⟨rfl, rfl, hf⟩ := conditionOf_next h
      obtain ⟨e, he, rfl⟩ := List.mem_map.mp hd
      have hzero : e ≤ (true && !true).toNat := ih hf he
      exact Nat.succ_le_succ hzero
    | eventually | always => cases h
  | bounded op n f ih => cases h
  | binary op l r ihl ihr =>
    obtain ⟨cl, cr, hcl, hcr, -⟩ := conditionOf_binary h
    rcases List.mem_append.mp hd with hd | hd
    · exact ihl hcl hd
    · exact ihr hcr hd

variable {i : Interface} {name step : String} {scope : Scope}

/-- A premise that is accepted reads at most one step ahead on each of its paths. -/
theorem pathDepths_le_one_of_premiseOf {c : Formula} {delay : UInt32} {p : Option Formula}
    {premise : Premise} (h : premiseOf i name step scope c delay p = .ok premise) {q : Formula}
    (hq : q ∈ p) {d : Nat} (hd : d ∈ q.pathDepths) : d ≤ 1 := by
  rcases premiseOf_cases h with ⟨rfl, -⟩ | ⟨q', condition, rfl, hcondition, -⟩ |
    ⟨q', rfl, -, hlooking⟩
  · cases hq
  · obtain rfl := Option.some.inj hq
    exact (pathDepths_le_of_conditionOf hcondition hd).trans (Nat.zero_le 1)
  · obtain rfl := Option.some.inj hq
    obtain ⟨condition, hcondition, -⟩ := lookingPremise_eq_ok hlooking
    exact pathDepths_le_of_conditionOf hcondition hd

/-- The premise of a property with a monitor reads at most one step ahead on each of its paths. -/
theorem pathDepths_le_one_of_ofChunk {c : Chunk} {m : Monitor}
    (h : ofChunk i name step c = .ok m) {p : Formula}
    (hp : p ∈ (splitImplication (scopeOf c).2).1) {d : Nat} (hd : d ∈ p.pathDepths) : d ≤ 1 := by
  rcases ofFormula_cases (ofFormula_of_ofChunk h) with ⟨l, r, hiff, -⟩ |
    ⟨timed, conclusion, premise, -, -, hpremise, -⟩
  · rw [hiff] at hp
    cases hp
  · exact pathDepths_le_one_of_premiseOf hpremise hp hd

end Monitor

namespace Formula

/-! ## Depths in words -/

/-- The depth that is counted in words is the largest number of next steps on a path exactly if no
path has too many of them for a word.  The premise of a property with a monitor has such a depth,
and it is at most one. -/
theorem hasDepth_nextDepth_iff (f : Formula) :
    (f.HasDepth f.nextDepth ↔ ∀ d ∈ f.pathDepths, d < UInt32.size) ∧
    ∀ (i : Interface) (name step : String) (c : Chunk) (m : Monitor),
      Monitor.ofChunk i name step c = .ok m →
      f ∈ (Monitor.splitImplication (Monitor.scopeOf c).2).1 →
      f.HasDepth f.nextDepth ∧ f.nextDepth ≤ 1 := by
  constructor
  · exact ⟨fun h d hd ↦ h.lt_size hd, hasDepth_nextDepth⟩
  · intro i name step c m h hf
    have hle (d : Nat) (hd : d ∈ f.pathDepths) : d ≤ 1 :=
      Monitor.pathDepths_le_one_of_ofChunk h hf hd
    have hdepth : f.HasDepth f.nextDepth :=
      hasDepth_nextDepth fun d hd ↦ (hle d hd).trans_lt (by decide)
    exact ⟨hdepth, UInt32.le_iff_toNat_le.mpr (hle _ hdepth.1)⟩

/-- The premise of a property that looks one step ahead has the depth one. -/
theorem hasDepth_nextDepth_iff_followed :
    ∃ f p c, Chunk.parse "G((a && X b) -> X c)" = .ok ⟨none, f⟩ ∧
      Monitor.splitImplication (Monitor.scopeOf ⟨none, f⟩).2 = (some p, c) ∧
      (∃ m, Monitor.ofChunk .empty "P_0" "i" ⟨none, f⟩ = .ok m) ∧
      p.HasDepth p.nextDepth ∧ p.nextDepth = 1 := by
  let p : Formula := binary .and (atom (.var "a")) (unary .next (atom (.var "b")))
  let c : Formula := unary .next (atom (.var "c"))
  let f : Formula := unary .always (binary .implies p c)
  have hparse : Chunk.parse "G((a && X b) -> X c)" = .ok ⟨none, f⟩ :=
    eq_ok_of_toOption (by decide +kernel)
  have hmonitor : Monitor.ofChunk .empty "P_0" "i" ⟨none, f⟩ = .ok _ := rfl
  have hdepth := (hasDepth_nextDepth_iff p).2 .empty "P_0" "i" ⟨none, f⟩ _ hmonitor rfl
  exact ⟨f, p, c, hparse, rfl, ⟨_, hmonitor⟩, hdepth.1, rfl⟩

/-- Two bounds whose sum is no word: the depth is counted as zero. -/
theorem nextDepth_wraps_around :
    ∃ f, parse "F=4294967295 X a" = .ok f ∧ UInt32.size ∈ f.pathDepths ∧ f.nextDepth = 0 ∧
      ¬ f.HasDepth f.nextDepth := by
  let f : Formula := bounded .exactly 4294967295 (unary .next (atom (.var "a")))
  have hparse : parse "F=4294967295 X a" = .ok f := eq_ok_of_toOption (by decide +kernel)
  have hpath : UInt32.size ∈ f.pathDepths := by decide
  exact ⟨f, hparse, hpath, rfl, fun h ↦ Nat.lt_irrefl _ (h.lt_size hpath)⟩

end Formula

end TemporalRequirements
