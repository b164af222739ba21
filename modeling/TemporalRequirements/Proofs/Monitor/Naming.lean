import TemporalRequirements.Proofs.Monitor.Expressions
import TemporalRequirements.Proofs.Monitor.Parallel
import TemporalRequirements.Proofs.Monitor.Simulation

/-!
# The variables of a monitor

The variables of a monitor are named after its property, and its expressions name these, the step
counter and what the atoms of the property name.  From the name of a variable the name of the
property is known, so no two properties have a variable in common.
-/

namespace TemporalRequirements.Monitor

open Text

/-- The names that a variable of the property `name` may have. -/
inductive IsGenerated (name : String) : String → Prop where
  | counter : IsGenerated name ("Counter_" ++ name)
  | transition : IsGenerated name (transitionFlag name)
  | latch (k : Nat) : IsGenerated name ("Prev_" ++ name ++ "_" ++ toString k)

theorem isNamePart_toString (k : Nat) : ∀ c ∈ (toString k).toList, isNamePart c = true := by
  intro c hc
  rw [Nat.toString_eq_ofList_toDigits, String.toList_ofList] at hc
  simp [isNamePart, Char.isAlphanum, isDigit_of_mem_toDigits k c hc]

theorem underscore_notMem_toString (k : Nat) : '_' ∉ (toString k).toList := by
  intro h
  rw [Nat.toString_eq_ofList_toDigits, String.toList_ofList] at h
  cases isDigit_of_mem_toDigits k '_' h

/-- The name of a property is known from those of its variables. -/
theorem IsGenerated.name_eq {name name' x : String} (h : IsGenerated name x)
    (h' : IsGenerated name' x) : name = name' := by
  generalize hx : x = y at h'
  have hlist := congrArg String.toList hx
  cases h with
  | counter =>
    cases h' with
    | counter => exact String.toList_inj.mp (by simpa using hlist)
    | transition => simp [transitionFlag] at hlist
    | latch k => simp at hlist
  | transition =>
    cases h' with
    | counter => simp [transitionFlag] at hlist
    | transition => exact String.toList_inj.mp (by simpa [transitionFlag] using hlist)
    | latch k => simp [transitionFlag] at hlist
  | latch k =>
    cases h' with
    | counter => simp at hlist
    | transition => simp [transitionFlag] at hlist
    | latch k' =>
      obtain ⟨hname, -⟩ := joined_injective (underscore_notMem_toString k)
        (underscore_notMem_toString k') hx
      exact String.toList_inj.mp (by simpa using congrArg String.toList hname)

/-- A generated name is an identifier that begins with a capital letter. -/
theorem IsGenerated.shape {name x : String} (h : IsGenerated name x)
    (hname : ∀ c ∈ name.toList, isNamePart c = true) : IsIdentifier x ∧ capital x = true := by
  cases h with
  | counter =>
    refine ⟨⟨'C', "ounter_".toList ++ name.toList, by simp, rfl, ?_⟩, by simp [capital]⟩
    exact List.forall_mem_append.mpr ⟨forall_mem_of_all rfl, hname⟩
  | transition =>
    refine ⟨⟨'T', "ransCondition_".toList ++ name.toList, by simp [transitionFlag], rfl, ?_⟩,
      by simp [capital, transitionFlag]⟩
    exact List.forall_mem_append.mpr ⟨forall_mem_of_all rfl, hname⟩
  | latch k =>
    refine ⟨⟨'P', "rev_".toList ++ name.toList ++ "_".toList ++ (toString k).toList, by simp,
      rfl, ?_⟩, by simp [capital]⟩
    exact List.forall_mem_append.mpr ⟨List.forall_mem_append.mpr
      ⟨List.forall_mem_append.mpr ⟨forall_mem_of_all rfl, hname⟩, forall_mem_of_all rfl⟩,
      isNamePart_toString k⟩

/-- The names of properties are told apart by those of their requirements and their numbers. -/
theorem chunkName_injective {i : Interface} {id id' : String} {k k' : Nat}
    (h : chunkName i id k = chunkName i id' k') : i.identifier id = i.identifier id' ∧ k = k' := by
  obtain ⟨hid, hk⟩ := joined_injective (underscore_notMem_toString k)
    (underscore_notMem_toString k') h
  exact ⟨hid, Nat.repr_injective hk⟩

theorem isNamePart_of_mem_chunkName {i : Interface} (hi : i.identifier = safeName) (id : String)
    (k : Nat) : ∀ c ∈ (chunkName i id k).toList, isNamePart c = true := by
  rw [chunkName, hi, String.toList_append, String.toList_append]
  exact List.forall_mem_append.mpr ⟨List.forall_mem_append.mpr
    ⟨fun c hc ↦ isNamePart_of_mem_safeName hc, forall_mem_of_all rfl⟩, isNamePart_toString k⟩

/-! ## Premises -/

theorem IsOver.mono {step : String} {V W : String → Prop} {e : String} (h : IsOver step V e)
    (hsub : ∀ x, V x → W x) : IsOver step W e where
  plain := h.plain
  identifiers x hx := (h.identifiers x hx).imp_right (hsub x)
  name he := hsub e (h.name he)

theorem Condition.IsOver.mono {V W : String → Prop} {c : Condition} (h : c.IsOver V)
    (hsub : ∀ x, V x → W x) : c.IsOver W := fun e he ↦
  ⟨(h e he).1, fun x hx ↦ hsub x ((h e he).2 x hx)⟩

def Premise.names (p : Premise) : List String := p.declarations.map Declaration.name

def Among (names : List String) (V : String → Prop) (x : String) : Prop := x ∈ names ∨ V x

/-- A statement that changes one of the named variables, if any, and names these, the step counter
and the names of `V`. -/
structure Statement.IsNamed (s : Statement) (names : List String) (step : String)
    (V : String → Prop) : Prop where
  target : ∀ x ∈ s.target?, x ∈ names
  expressions : ∀ e ∈ s.expressions, IsOver step (Among names V) e

theorem Statement.IsNamed.mono {s : Statement} {names names' : List String} {step : String}
    {V : String → Prop} (h : s.IsNamed names step V) (hsub : names ⊆ names') :
    s.IsNamed names' step V where
  target x hx := hsub (h.target x hx)
  expressions e he := (h.expressions e he).mono fun _ hx ↦ hx.imp_left fun hx ↦ hsub hx

theorem Trigger.IsOver.mono {t : Trigger} {names names' : List String} {step : String}
    {V : String → Prop} (h : t.IsOver step (Among names V)) (hsub : names ⊆ names') :
    t.IsOver step (Among names' V) where
  guard := h.guard
  premise c hc := (h.premise c hc).mono fun _ hx ↦ hx.imp_left fun hx ↦ hsub hx

/-- A premise whose variables are named after `name` and which names these, the step counter and
the names of `V`. -/
structure Premise.IsNamed (p : Premise) (name step : String) (V : String → Prop) : Prop where
  generated : ∀ x ∈ p.names, IsGenerated name x ∧ x ≠ "Counter_" ++ name
  nodup : p.names.Nodup
  targets : ∀ s ∈ p.updates ++ p.latches, s.target? ≠ none
  statements : ∀ s ∈ p.updates ++ p.latches, s.IsNamed p.names step V
  trigger : p.trigger.IsOver step (Among p.names V)

section

variable {i : Interface} {name step : String} {scope : Scope} {V : String → Prop}
  (hstep : IsIdentifier step) (hname : ∀ c ∈ name.toList, isNamePart c = true)
  (htruth : ∀ b, V (truthText b))

/-- A guard compares the step counter. -/
theorem step_of_guard {lag : UInt32} {g : Guard} (h : scope.guard step lag = some g) :
    g.step = step := by
  cases scope with
  | everyStep =>
    rw [Scope.guard] at h
    split at h
    · cases h
    · obtain rfl := Option.some.inj h
      rfl
  | initial | afterInitial =>
    obtain rfl := Option.some.inj h
    rfl

def AtomsOver (i : Interface) (V : String → Prop) (f : Formula) : Prop :=
  ∀ a ∈ f.atoms, Plain (a.expression i) ∧ ∀ x ∈ identifiersOf (a.expression i), V x

theorem isOver_presentCondition {f : Formula} {c : Condition} (hatoms : AtomsOver i V f)
    (h : presentCondition i f = .ok c) : c.IsOver V := by
  intro e he
  obtain ⟨a, ha, rfl | ⟨-, -, rfl⟩⟩ := mem_leaves_conditionOf h he
  · exact hatoms a ha
  · exact hatoms a ha

theorem isOver_scoped {lag : UInt32} {condition : Option Condition} {W : String → Prop}
    (h : ∀ c ∈ condition, c.IsOver W) :
    Trigger.IsOver step W ⟨scope.guard step lag, condition⟩ :=
  ⟨fun _ hg ↦ step_of_guard hg, h⟩

theorem isNamed_present {condition : Option Condition} (h : ∀ c ∈ condition, c.IsOver V) :
    Premise.IsNamed ⟨⟨scope.guard step 0, condition⟩, 0, [], [], []⟩ name step V where
  generated x hx := by cases hx
  nodup := List.nodup_nil
  targets s hs := by cases hs
  statements s hs := by cases hs
  trigger := isOver_scoped fun c hc ↦ (h c hc).mono fun _ hx ↦ Or.inr hx

include hname in
/-- A generated name is all that it names itself. -/
theorem IsGenerated.leaf {names : List String} {x : String} (h : IsGenerated name x)
    (hx : x ∈ names) : Plain x ∧ ∀ y ∈ identifiersOf x, Among names V y := by
  have hidentifier := (h.shape hname).1
  refine ⟨hidentifier.plain, fun y hy ↦ Or.inl ?_⟩
  rw [hidentifier.identifiersOf] at hy
  rwa [List.mem_singleton.mp hy]

theorem transitionFlag_ne_counter (name : String) : transitionFlag name ≠ "Counter_" ++ name := by
  intro h
  have hlist := congrArg (fun s ↦ s.toList.head?) h
  simp [transitionFlag] at hlist

theorem latchName_ne_counter (name : String) (latched : List String) (e : String) :
    latchName name latched e ≠ "Counter_" ++ name := by
  intro h
  have hlist := congrArg (fun s ↦ s.toList.head?) h
  simp [latchName] at hlist

def lookingNames (i : Interface) (name : String) (p : Formula) : List String :=
  transitionFlag name :: (latched i p).map (latchName name (latched i p))

theorem generated_lookingNames {p : Formula} : ∀ x ∈ lookingNames i name p,
    IsGenerated name x ∧ x ≠ "Counter_" ++ name := by
  refine List.forall_mem_cons.mpr ⟨⟨.transition, transitionFlag_ne_counter name⟩, fun x hx ↦ ?_⟩
  obtain ⟨e, -, rfl⟩ := List.mem_map.mp hx
  exact ⟨.latch _, latchName_ne_counter name _ e⟩

theorem nodup_lookingNames (p : Formula) : (lookingNames i name p).Nodup := by
  refine List.nodup_cons.mpr ⟨fun hmem ↦ ?_, List.Nodup.map_on ?_ (nodup_eraseDups _)⟩
  · obtain ⟨e, -, heq⟩ := List.mem_map.mp hmem
    exact latchName_ne_transitionFlag name _ e heq
  · exact fun e he e' _ heq ↦ latchName_injective he heq

include hname in
theorem isOver_lookingCondition {p : Formula} {c : Condition} (hatoms : AtomsOver i V p)
    (h : conditionOf (spellLooking i name p) true false p = .ok c) :
    c.IsOver (Among (lookingNames i name p) V) := by
  intro e he
  obtain ⟨a, ha, rfl | ⟨-, hpresent, rfl⟩⟩ := mem_leaves_conditionOf h he
  · exact ⟨(hatoms a ha).1, fun x hx ↦ Or.inr ((hatoms a ha).2 x hx)⟩
  · have hlatched : a.expression i ∈ latched i p := mem_latched.mpr ⟨a, hpresent, rfl⟩
    exact IsGenerated.leaf hname (.latch _)
      (List.mem_cons_of_mem _ (List.mem_map_of_mem hlatched))

theorem isNamed_latch {p : Formula} (hatoms : AtomsOver i V p) {e : String}
    (he : e ∈ latched i p) : (Statement.latch (latchName name (latched i p) e) e).IsNamed
      (lookingNames i name p) step V := by
  refine ⟨fun x hx ↦ ?_, List.forall_mem_singleton.mpr ?_⟩
  · exact Option.some.inj hx ▸ List.mem_cons_of_mem _ (List.mem_map_of_mem he)
  · obtain ⟨a, ha, rfl⟩ := mem_latched.mp he
    obtain ⟨hplain, hover⟩ := hatoms a (presentAtoms_subset ha)
    exact isOver_of_identifiers hplain fun x hx ↦ Or.inr (hover x hx)

include hname hstep htruth in
/-- A premise that looks ahead names its flag, its latches and what its atoms name. -/
theorem isNamed_looking {p : Formula} {premise : Premise} (hatoms : AtomsOver i V p)
    (h : lookingPremise i name step scope p = .ok premise) : premise.IsNamed name step V := by
  obtain ⟨condition, hcondition, rfl⟩ := lookingPremise_eq_ok h
  have hnames : lookingNames i name p = (Declaration.flag (transitionFlag name) ::
      (latched i p).map fun e ↦ Declaration.flag (latchName name (latched i p) e)).map
        Declaration.name := by
    rw [List.map_cons, List.map_map]
    rfl
  have htrigger : Trigger.IsOver step (Among (lookingNames i name p) V)
      ⟨scope.guard step 1, some condition⟩ := isOver_scoped fun c hc ↦
    Option.some.inj hc ▸ isOver_lookingCondition hname hatoms hcondition
  refine ⟨?_, ?_, ?_, ?_, ?_⟩
  · rw [Premise.names, ← hnames]
    exact generated_lookingNames
  · rw [Premise.names, ← hnames]
    exact nodup_lookingNames p
  · refine List.forall_mem_cons.mpr ⟨nofun, fun s hs ↦ ?_⟩
    obtain ⟨e, -, rfl⟩ := List.mem_map.mp hs
    exact nofun
  · rw [Premise.names, ← hnames]
    refine List.forall_mem_cons.mpr ⟨⟨fun x hx ↦ ?_, fun e he ↦ ?_⟩, fun s hs ↦ ?_⟩
    · exact Option.some.inj hx ▸ List.mem_cons_self
    · exact Trigger.isOver_text hstep (fun b ↦ Or.inr (htruth b)) htrigger
        (Option.mem_toList.mp he)
    · obtain ⟨e, he, rfl⟩ := List.mem_map.mp hs
      exact isNamed_latch hatoms he
  · rw [Premise.names, ← hnames]
    refine ⟨nofun, fun c hc ↦ ?_⟩
    obtain rfl := Option.some.inj hc
    exact List.forall_mem_singleton.mpr (IsGenerated.leaf hname .transition List.mem_cons_self)

include hname hstep htruth in
/-- A premise names its own variables and what its atoms name. -/
theorem isNamed_premiseOf {c : Formula} {delay : UInt32} {p : Option Formula} {premise : Premise}
    (hatoms : ∀ q ∈ p, AtomsOver i V q) (h : premiseOf i name step scope c delay p = .ok premise) :
    premise.IsNamed name step V := by
  rcases premiseOf_cases h with ⟨rfl, rfl⟩ | ⟨q, condition, rfl, hcondition, rfl⟩ |
    ⟨q, rfl, -, hlooking⟩
  · exact isNamed_present fun c hc ↦ by cases hc
  · refine isNamed_present fun c hc ↦ ?_
    obtain rfl := Option.some.inj hc
    exact isOver_presentCondition (hatoms q rfl) hcondition
  · exact isNamed_looking hstep hname htruth (hatoms q rfl) hlooking

end

/-! ## Whole monitors -/

/-- A monitor whose variables are named after `name` and which names these, the step counter and the
names of `V`.  The texts of its checks differ, or it has no variables and nothing but checks.  The
line of a check that changes a variable begins with a capital letter or ends two statements. -/
structure IsNamed (m : Monitor) (name step : String) (V : String → Prop) : Prop where
  generated : ∀ x ∈ m.names, IsGenerated name x
  nodup : m.names.Nodup
  statements : ∀ s ∈ m.updates ++ m.checks, s.IsNamed m.names step V
  updates : ∀ s ∈ m.updates, s.target? ≠ none
  distinctUpdates : (m.updates.map Statement.text).Nodup
  distinctChecks : (m.checks.map Statement.text).Nodup ∨
    m.names = [] ∧ ∀ s ∈ m.checks, s.target? = none
  markedChecks : ∀ s ∈ m.checks, s.target? ≠ none →
    capital s.text = true ∨ 2 ≤ s.text.toList.count ';'

/-- The line of a counter's check has two semicolons or more, which tells it from a plain check. -/
theorem two_le_count_counterCheck (counter : String) (delay : UInt32) (window : Window)
    (conclusion : Condition) :
    2 ≤ (counterCheck counter delay window conclusion).text.toList.count ';' := by
  have hassert (text : String) : 1 ≤ (assertText text).toList.count ';' := by
    have hend : ");".toList.count ';' = 1 := by decide
    rw [assertText, String.toList_append, List.count_append, hend]
    omega
  have hrest : 1 ≤ (restText counter).toList.count ';' := by
    have hend : " = -1;".toList.count ';' = 1 := by decide
    rw [restText, String.toList_append, List.count_append, hend]
    omega
  have hfirst := hassert conclusion.text
  cases window with
  | instant =>
    simp only [counterCheck, Statement.text, ifLine, String.toList_append, List.count_append]
    omega
  | within n =>
    have hlast := hassert (counter ++ " < " ++ countText (addCapped delay n))
    simp only [counterCheck, Statement.text, ifLine, String.toList_append,
      List.count_append] at hlast ⊢
    omega
  | throughout n =>
    simp only [counterCheck, Statement.text, ifLine, String.toList_append, List.count_append]
    omega

theorem mem_counterUpdates {counter : String} {delay : UInt32} {trigger : Trigger} {s : Statement}
    (h : s ∈ counterUpdates counter delay trigger) :
    s = .advance counter ∨ (∃ c ∈ trigger.premise, s = .cancel counter delay c) ∨
      s = .start counter trigger := by
  rcases List.mem_append.mp h with h | h
  · rcases List.mem_cons.mp h with rfl | h
    · exact Or.inl rfl
    · split at h
      · rename_i c hc
        split at h
        · exact Or.inr (Or.inl ⟨c, hc, List.mem_singleton.mp h⟩)
        · cases h
      · cases h
  · exact Or.inr (Or.inr (List.mem_singleton.mp h))

/-- The peeled formula has the atoms of the whole. -/
theorem atoms_of_peel {delay : UInt32} {window : Window} {f : Formula} {t : Timed}
    (h : peel delay window f = .ok t) : t.core.atoms = f.atoms := by
  have hleaf {delay : UInt32} {window : Window} {f : Formula}
      (h : (if f.isTemporal then .error f else .ok ⟨delay, window, f⟩ : Except Formula Timed) =
        .ok t) : t.core.atoms = f.atoms := by
    split at h
    · cases h
    · obtain rfl := Except.ok.inj h
      rfl
  induction f generalizing delay window with
  | const b | atom a | binary op l r ihl ihr => exact hleaf h
  | unary op f ih =>
    cases op with
    | not | eventually | always => exact hleaf h
    | next => exact ih h
  | bounded op n f ih =>
    cases op with
    | exactly => exact ih h
    | eventuallyWithin | alwaysWithin =>
      rw [peel] at h
      split at h
      · exact ih h
      · cases h

section

variable {i : Interface} {name step : String} {scope : Scope} {V : String → Prop}
  (hstep : IsIdentifier step) (hname : ∀ c ∈ name.toList, isNamePart c = true)
  (htruth : ∀ b, V (truthText b))

include hstep htruth in
theorem isOver_check {names : List String} {trigger : Trigger} {conclusion : Condition}
    (htrigger : trigger.IsOver step (Among names V)) (hconclusion : conclusion.IsOver V) :
    ∀ e ∈ (Statement.check trigger conclusion).expressions, IsOver step (Among names V) e := by
  refine List.forall_mem_append.mpr ⟨fun e he ↦ ?_, List.forall_mem_singleton.mpr ?_⟩
  · exact Trigger.isOver_text hstep (fun b ↦ Or.inr (htruth b)) htrigger (Option.mem_toList.mp he)
  · exact (conclusion.isOver_text htruth hconclusion).mono fun x hx ↦ Or.inr hx

include hstep htruth in
/-- The monitor of an equivalence names what its atoms name. -/
theorem isNamed_ofEquivalence {l r : Formula} {m : Monitor} (hl : AtomsOver i V l)
    (hr : AtomsOver i V r) (h : ofEquivalence i (scope.guard step 0) l r = .ok m) :
    m.IsNamed name step V := by
  obtain ⟨cl, cr, hcl, hcr, rfl⟩ := ofEquivalence_eq_ok h
  have hnamed {c d : Condition} (hc : c.IsOver V) (hd : d.IsOver V) :
      (Statement.check ⟨scope.guard step 0, some c⟩ d).IsNamed [] step V := by
    have htrigger : Trigger.IsOver step (Among [] V) ⟨scope.guard step 0, some c⟩ :=
      isOver_scoped fun c' hc' ↦ Option.some.inj hc' ▸ hc.mono fun _ hx ↦ Or.inr hx
    exact ⟨nofun, isOver_check hstep htruth htrigger hd⟩
  have hleft := isOver_presentCondition hl hcl
  have hright := isOver_presentCondition hr hcr
  have htargets : ∀ s ∈ [Statement.check ⟨scope.guard step 0, some cl⟩ cr,
      .check ⟨scope.guard step 0, some cr⟩ cl], s.target? = none :=
    List.forall_mem_cons.mpr ⟨rfl, List.forall_mem_singleton.mpr rfl⟩
  exact ⟨nofun, List.nodup_nil,
    List.forall_mem_cons.mpr ⟨hnamed hleft hright,
      List.forall_mem_singleton.mpr (hnamed hright hleft)⟩,
    nofun, List.nodup_nil, Or.inr ⟨rfl, htargets⟩, fun s hs hne ↦ absurd (htargets s hs) hne⟩

include hstep htruth in
theorem isNamed_counterUpdates {names : List String} {counter : String} {delay : UInt32}
    {trigger : Trigger} {s : Statement} (hcounter : counter ∈ names)
    (htrigger : trigger.IsOver step (Among names V))
    (hs : s ∈ counterUpdates counter delay trigger) :
    s.target? ≠ none ∧ s.IsNamed names step V := by
  have htarget : ∀ x ∈ some counter, x ∈ names := fun x hx ↦ Option.some.inj hx ▸ hcounter
  have htruth' (b : Bool) : Among names V (truthText b) := Or.inr (htruth b)
  rcases mem_counterUpdates hs with rfl | ⟨c, hc, rfl⟩ | rfl
  · exact ⟨nofun, htarget, nofun⟩
  · exact ⟨nofun, htarget,
      List.forall_mem_singleton.mpr (c.isOver_text htruth' (htrigger.premise c hc))⟩
  · exact ⟨nofun, htarget, fun e he ↦
      Trigger.isOver_text hstep htruth' htrigger (Option.mem_toList.mp he)⟩

include htruth in
theorem isNamed_counterCheck {names : List String} {counter : String} {delay : UInt32}
    {window : Window} {conclusion : Condition} (hcounter : counter ∈ names)
    (hconclusion : conclusion.IsOver V) :
    (counterCheck counter delay window conclusion).IsNamed names step V := by
  have htarget : ∀ x ∈ some counter, x ∈ names := fun x hx ↦ Option.some.inj hx ▸ hcounter
  have hexpressions : ∀ e ∈ [conclusion.text], IsOver step (Among names V) e :=
    List.forall_mem_singleton.mpr
      ((conclusion.isOver_text htruth hconclusion).mono fun x hx ↦ Or.inr hx)
  cases window <;> exact ⟨htarget, hexpressions⟩

theorem nodup_of_distinctLines {ss : List Statement} (h : distinctLines ss = ss) :
    (ss.map Statement.text).Nodup := by
  rw [← h, map_text_distinctLines]
  exact nodup_eraseDups _

include hstep htruth in
/-- The monitor of a conclusion names its counter, its premise and what its atoms name. -/
theorem isNamed_ofConclusion {premise : Premise} {timed : Timed} {conclusion : Condition}
    (hpremise : premise.IsNamed name step V) (hspelled : premise.Spelled)
    (hconclusion : conclusion.IsOver V) :
    (ofConclusion name premise timed conclusion).IsNamed name step V := by
  have hdistinct := distinct_ofConclusion name timed conclusion hspelled
  have hupdates := nodup_of_distinctLines (congrArg Monitor.updates hdistinct)
  have hchecks := nodup_of_distinctLines (congrArg Monitor.checks hdistinct)
  have hlatches (s : Statement) (hs : s ∈ premise.latches) :
      capital s.text = true ∨ 2 ≤ s.text.toList.count ';' :=
    Or.inl (hspelled.capitals s (List.mem_append_right _ hs))
  rcases ofConclusion_cases name premise timed conclusion with ⟨-, heq⟩ | ⟨-, heq⟩
  · rw [heq] at hupdates hchecks ⊢
    refine ⟨fun x hx ↦ (hpremise.generated x hx).1, hpremise.nodup, ?_,
      fun s hs ↦ hpremise.targets s (List.mem_append_left _ hs), hupdates, Or.inl hchecks,
      List.forall_mem_cons.mpr ⟨fun hne ↦ absurd rfl hne, fun s hs _ ↦ hlatches s hs⟩⟩
    refine List.forall_mem_append.mpr ⟨fun s hs ↦ ?_, List.forall_mem_cons.mpr ⟨?_, fun s hs ↦ ?_⟩⟩
    · exact hpremise.statements s (List.mem_append_left _ hs)
    · exact ⟨nofun, isOver_check hstep htruth hpremise.trigger hconclusion⟩
    · exact hpremise.statements s (List.mem_append_right _ hs)
  · rw [heq] at hupdates hchecks ⊢
    have hnames : (counterMonitor ("Counter_" ++ name) premise (timed.delay - premise.lag)
        timed.window conclusion).names = premise.names ++ ["Counter_" ++ name] := List.map_append
    have hcounter : "Counter_" ++ name ∈ premise.names ++ ["Counter_" ++ name] :=
      List.mem_append_right _ List.mem_cons_self
    have hsub : premise.names ⊆ premise.names ++ ["Counter_" ++ name] :=
      List.subset_append_left _ _
    have htrigger := hpremise.trigger.mono hsub
    refine ⟨?_, ?_, ?_, ?_, hupdates, Or.inl hchecks, List.forall_mem_cons.mpr
      ⟨fun _ ↦ Or.inr (two_le_count_counterCheck _ _ _ _), fun s hs _ ↦ hlatches s hs⟩⟩
    · rw [hnames]
      exact List.forall_mem_append.mpr ⟨fun x hx ↦ (hpremise.generated x hx).1,
        List.forall_mem_singleton.mpr .counter⟩
    · rw [hnames, List.nodup_append]
      refine ⟨hpremise.nodup, List.nodup_singleton _, fun x hx y hy ↦ ?_⟩
      rw [List.mem_singleton.mp hy]
      exact (hpremise.generated x hx).2
    · rw [hnames]
      refine List.forall_mem_append.mpr ⟨List.forall_mem_append.mpr ⟨fun s hs ↦ ?_, fun s hs ↦ ?_⟩,
        List.forall_mem_cons.mpr ⟨?_, fun s hs ↦ ?_⟩⟩
      · exact (hpremise.statements s (List.mem_append_left _ hs)).mono hsub
      · exact (isNamed_counterUpdates hstep htruth hcounter htrigger hs).2
      · exact isNamed_counterCheck htruth hcounter hconclusion
      · exact (hpremise.statements s (List.mem_append_right _ hs)).mono hsub
    · refine List.forall_mem_append.mpr ⟨fun s hs ↦ ?_, fun s hs ↦ ?_⟩
      · exact hpremise.targets s (List.mem_append_left _ hs)
      · exact (isNamed_counterUpdates hstep htruth hcounter htrigger hs).1

include hstep hname htruth in
/-- A monitor names its own variables and what the atoms name. -/
theorem isNamed_ofFormula {f : Formula} {m : Monitor} (hatoms : AtomsOver i V f)
    (h : ofFormula i name step scope f = .ok m) : m.IsNamed name step V := by
  rcases ofFormula_cases h with ⟨l, r, rfl, hm⟩ |
    ⟨timed, conclusion, premise, htimed, hconclusion, hpremise, rfl⟩
  · exact isNamed_ofEquivalence hstep htruth (fun a ha ↦ hatoms a (List.mem_append_left _ ha))
      (fun a ha ↦ hatoms a (List.mem_append_right _ ha)) hm
  · have hcore : AtomsOver i V timed.core := fun a ha ↦
      hatoms a (splitImplication_atoms (Or.inl (atoms_of_peel htimed ▸ ha)))
    have hpremises : ∀ q ∈ (splitImplication f).1, AtomsOver i V q := fun q hq a ha ↦
      hatoms a (splitImplication_atoms (Or.inr ⟨q, hq, ha⟩))
    exact isNamed_ofConclusion hstep htruth
      (isNamed_premiseOf hstep hname htruth hpremises hpremise) (spelled_premiseOf hpremise)
      (isOver_presentCondition hcore hconclusion)

end

end TemporalRequirements.Monitor
