import TemporalRequirements.Proofs.Smt.TypeTable

/-!
# Resolving the types of constants

Resolving fixes open names one by one: each takes the first concrete type among its peers.  A type
that is concrete stays, so every change leaves one open name less, and when the passes end no open
name has a peer with a concrete type.  What a single fix keeps is therefore kept to the end.  Two
things are: two names that are tied have one type or stay tied, and types that fit a typing of the
names go on fitting it.
-/

namespace TemporalRequirements

namespace OrderedMap

variable {α β : Type} [DecidableEq α]

theorem contains_iff_mem_keys (m : OrderedMap α β) (k : α) : m.contains k = true ↔ k ∈ m.keys := by
  simp only [contains, get?, Option.isSome_map, List.find?_isSome, keys, List.mem_map,
    decide_eq_true_eq]

theorem exists_get?_of_mem_keys {m : OrderedMap α β} {k : α} (h : k ∈ m.keys) :
    ∃ v, m.get? k = some v :=
  Option.isSome_iff_exists.mp ((m.contains_iff_mem_keys k).mpr h)

theorem contains_congr {m m' : OrderedMap α β} (h : m.keys = m'.keys) (k : α) :
    m.contains k = m'.contains k := by
  rw [Bool.eq_iff_iff, contains_iff_mem_keys, contains_iff_mem_keys, h]

end OrderedMap

namespace Smt.TypeTable

variable {t : TypeTable} {name other : String} {type found : SmtType}

def IsOpen (t : TypeTable) (name : String) : Prop :=
  ∃ type, t.types.get? name = some type ∧ type.isConcrete = false

theorem not_isOpen (h : t.types.get? name = some type) (htype : type.isConcrete = true) :
    ¬ t.IsOpen name := by
  rintro ⟨type', hknown, hopen⟩
  rw [h] at hknown
  rw [Option.some.inj hknown, hopen] at htype
  cases htype

/-- A fix changes nothing or gives an open name the concrete type of one of its peers. -/
theorem fix_cases (t : TypeTable) (name : String) :
    t.fix name = t ∨ ∃ type found, t.types.get? name = some type ∧ type.isConcrete = false ∧
      t.peerType? name type = some found ∧
      t.fix name = { t with types := t.types.insert name found } := by
  cases hknown : t.types.get? name with
  | none =>
    left
    simp only [fix, hknown]
  | some type =>
    cases hopen : type.isConcrete with
    | true =>
      left
      simp only [fix, hknown, hopen, if_true]
    | false =>
      cases hpeer : t.peerType? name type with
      | none =>
        left
        simp only [fix, hknown, hopen, hpeer, Bool.false_eq_true, if_false]
      | some found =>
        refine Or.inr ⟨type, found, rfl, hopen, hpeer, ?_⟩
        simp only [fix, hknown, hopen, hpeer, Bool.false_eq_true, if_false]

/-- A name has the entry that it had, or it is the one that was fixed. -/
theorem get?_fix_cases (t : TypeTable) (fixed name : String) :
    (t.fix fixed).types.get? name = t.types.get? name ∨
      fixed = name ∧ ∃ type found, t.types.get? name = some type ∧ type.isConcrete = false ∧
        t.peerType? name type = some found ∧ (t.fix fixed).types.get? name = some found := by
  rcases t.fix_cases fixed with heq | ⟨type, found, hknown, hopen, hpeer, heq⟩
  · rw [heq]
    exact Or.inl rfl
  · rw [heq, OrderedMap.get?_insert]
    by_cases hname : fixed = name
    · subst hname
      exact Or.inr ⟨rfl, type, found, hknown, hopen, hpeer, if_pos rfl⟩
    · exact Or.inl (if_neg hname)

/-- The type that a name takes is concrete and the type of a peer. -/
theorem peerType?_eq_some (h : t.peerType? name type = some found) :
    found.isConcrete = true ∧ ∃ p ∈ t.peers name type, t.types.get? p = some found :=
  ⟨List.find?_some h, List.mem_filterMap.mp (List.mem_of_find?_eq_some h)⟩

/-- A concrete type stays. -/
theorem get?_fix_of_isConcrete (h : t.types.get? name = some type) (htype : type.isConcrete = true)
    (other : String) : (t.fix other).types.get? name = some type := by
  rcases t.get?_fix_cases other name with heq | ⟨-, type', found, hknown, hopen, -, -⟩
  · rw [heq, h]
  · exact absurd ⟨type', hknown, hopen⟩ (not_isOpen h htype)

theorem declared_fix (t : TypeTable) (name : String) : (t.fix name).declared = t.declared := by
  rcases t.fix_cases name with h | ⟨type, found, -, -, -, h⟩ <;> rw [h]

theorem base?_fix (t : TypeTable) (other name : String) :
    (t.fix other).base? name = t.base? name := by
  simp only [base?, declared_fix, OrderedMap.contains_congr (t.names_fix other)]

theorem copy?_fix (t : TypeTable) (other name : String) :
    (t.fix other).copy? name = t.copy? name := by
  simp only [copy?, declared_fix, OrderedMap.contains_congr (t.names_fix other)]

theorem mem_peers {p : String} : p ∈ t.peers name type ↔
    type = .sameAs p ∨ t.base? name = some p ∨ t.copy? name = some p := by
  cases type <;> simp [peers, eq_comm]

/-- A fix changes no peers. -/
theorem peers_fix (t : TypeTable) (other name : String) (type : SmtType) :
    (t.fix other).peers name type = t.peers name type := by
  simp only [peers, base?_fix, copy?_fix]

/-! ## All passes -/

/-- What a single fix keeps is kept by fixing names in turn. -/
theorem foldl_fix_induction {P : TypeTable → Prop} (hfix : ∀ t name, P t → P (t.fix name))
    (names : List String) (h : P t) : P (names.foldl fix t) := by
  induction names generalizing t with
  | nil => exact h
  | cons name names ih => exact ih (hfix t name h)

/-- What a single fix keeps is kept by all passes. -/
theorem passes_induction {P : TypeTable → Prop} (hfix : ∀ t name, P t → P (t.fix name)) (n : Nat)
    (h : P t) : P (t.passes n) := by
  induction n generalizing t with
  | zero => exact h
  | succ n ih =>
    simp only [passes]
    split
    · exact h
    · exact ih (foldl_fix_induction hfix _ h)

/-- Whether no open name has a peer with a concrete type. -/
def Settled (t : TypeTable) : Prop :=
  ∀ name type, t.types.get? name = some type → type.isConcrete = false →
    t.peerType? name type = none

/-- The number of open names. -/
def openCount (t : TypeTable) : Nat := t.types.entries.countP fun e ↦ !e.2.isConcrete

theorem openCount_le_size (t : TypeTable) : t.openCount ≤ t.types.size := List.countP_le_length

/-- Giving an open name a concrete type leaves one open entry less. -/
theorem countP_insertEntry {entries : List (String × SmtType)}
    (hmem : (name, type) ∈ entries) (hnodup : (entries.map Prod.fst).Nodup)
    (hopen : type.isConcrete = false) (hfound : found.isConcrete = true) :
    (OrderedMap.insertEntry name found entries).countP (fun e ↦ !e.2.isConcrete) + 1 =
      entries.countP fun e ↦ !e.2.isConcrete := by
  induction entries with
  | nil => cases hmem
  | cons e entries ih =>
    rw [List.map_cons, List.nodup_cons] at hnodup
    rw [OrderedMap.insertEntry]
    rcases List.mem_cons.mp hmem with rfl | hmem
    · rw [if_pos rfl, List.countP_cons_of_neg (by simp [hfound]),
        List.countP_cons_of_pos (by simp [hopen])]
    · have hne : e.1 ≠ name := by
        intro heq
        have hname : name ∈ entries.map Prod.fst := List.mem_map_of_mem hmem
        exact hnodup.1 (heq ▸ hname)
      rw [if_neg hne, List.countP_cons, List.countP_cons, ← ih hmem hnodup.2]
      omega

/-- Every change leaves one open name less. -/
theorem openCount_fix (t : TypeTable) (name : String) :
    t.fix name = t ∨ (t.fix name).openCount < t.openCount := by
  rcases t.fix_cases name with heq | ⟨type, found, hknown, hopen, hpeer, heq⟩
  · exact Or.inl heq
  · have hcount := countP_insertEntry ((t.types.get?_eq_some_iff name type).mp hknown)
      t.types.nodup_keys hopen (peerType?_eq_some hpeer).1
    rw [heq]
    exact Or.inr (Nat.lt_of_succ_le (Nat.le_of_eq hcount))

theorem foldl_fix_eq_self {names : List String} (h : ∀ name ∈ names, t.fix name = t) :
    names.foldl fix t = t := by
  induction names with
  | nil => rfl
  | cons name names ih =>
    rw [List.foldl_cons, h name List.mem_cons_self]
    exact ih fun name' hname' ↦ h name' (List.mem_cons_of_mem _ hname')

/-- Fixing names in turn changes nothing only if none of the fixes does. -/
theorem openCount_foldl_fix (t : TypeTable) (names : List String) :
    (∀ name ∈ names, t.fix name = t) ∨ (names.foldl fix t).openCount < t.openCount := by
  induction names generalizing t with
  | nil => exact Or.inl fun _ h ↦ by cases h
  | cons name names ih =>
    rw [List.foldl_cons]
    rcases t.openCount_fix name with hfix | hlt
    · rw [hfix]
      rcases ih t with hall | hlt
      · exact Or.inl (List.forall_mem_cons.mpr ⟨hfix, hall⟩)
      · exact Or.inr hlt
    · rcases ih (t.fix name) with hall | hlt'
      · rw [foldl_fix_eq_self hall]
        exact Or.inr hlt
      · exact Or.inr (Nat.lt_trans hlt' hlt)

/-- A table that no fix changes is settled. -/
theorem settled_of_fix_eq (h : ∀ name ∈ t.types.keys, t.fix name = t) : t.Settled := by
  intro name type hknown hopen
  have hname : name ∈ t.types.keys := OrderedMap.mem_keys_of_get? hknown
  cases hpeer : t.peerType? name type with
  | none => rfl
  | some found =>
    have hfix : (t.fix name).types.get? name = some found := by
      simp only [fix, hknown, hopen, hpeer, Bool.false_eq_true, if_false, OrderedMap.get?_insert,
        if_true]
    rw [h name hname] at hfix
    exact absurd ⟨type, hknown, hopen⟩ (not_isOpen hfix (peerType?_eq_some hpeer).1)

/-- As many passes as there are open names, and one more, leave nothing to fix. -/
theorem settled_passes {n : Nat} (h : t.openCount < n) : (t.passes n).Settled := by
  induction n generalizing t with
  | zero => exact absurd h (Nat.not_lt_zero _)
  | succ n ih =>
    simp only [passes]
    rcases t.openCount_foldl_fix t.types.keys with hall | hlt
    · have hpass : t.pass = t := foldl_fix_eq_self hall
      rw [if_pos (by rw [hpass])]
      exact settled_of_fix_eq hall
    · have hne : t.pass.types.entries ≠ t.types.entries := by
        intro heq
        have hcount : t.pass.openCount = t.openCount := by rw [openCount, heq, openCount]
        exact Nat.ne_of_lt hlt hcount
      rw [if_neg hne]
      exact ih (Nat.lt_of_lt_of_le hlt (Nat.le_of_lt_succ h))

/-- The table in which no type can be passed along any more. -/
def settle (t : TypeTable) : TypeTable := t.passes (t.types.size + 1)

theorem settled_settle (t : TypeTable) : t.settle.Settled :=
  settled_passes (Nat.lt_succ_of_le t.openCount_le_size)

/-! ## What resolving returns -/

theorem get?_resolve (t : TypeTable) (name : String) :
    t.resolve.1.types.get? name =
      (t.settle.types.get? name).map fun type ↦ if type.isConcrete then type else .int :=
  OrderedMap.get?_mapValues _ _ name

/-- The names that become integers are those that are still open. -/
theorem mem_snd_resolve (t : TypeTable) (name : String) :
    name ∈ t.resolve.2 ↔ t.settle.IsOpen name := by
  have h : name ∈ t.settle.openNames ↔
      ∃ type, (name, type) ∈ t.settle.types.entries ∧ type.isConcrete = false := by
    simp [openNames]
  rw [show t.resolve.2 = t.settle.openNames from rfl, h]
  simp only [IsOpen, OrderedMap.get?_eq_some_iff]

/-- A concrete type is the one in the end. -/
theorem get?_resolve_of_isConcrete (h : t.types.get? name = some type)
    (htype : type.isConcrete = true) : t.resolve.1.types.get? name = some type := by
  have hsettle : t.settle.types.get? name = some type :=
    passes_induction (P := fun t ↦ t.types.get? name = some type)
      (fun _ other h ↦ get?_fix_of_isConcrete h htype other) _ h
  rw [get?_resolve, hsettle, Option.map_some, if_pos htype]

/-- Whether the type of `name` is that of `other`, and the type of one of the two can reach the
other: `other` has a concrete type, or is linked back, or is the only peer of `name`. -/
def Tied (t : TypeTable) (name other : String) : Prop :=
  t.types.get? name = some (.sameAs other) ∧ ∃ type, t.types.get? other = some type ∧
    (type.isConcrete = true ∨ type = .sameAs name ∨ t.base? name = none ∧ t.copy? name = none)

/-- Whether two names have one type or are tied. -/
def Agree (t : TypeTable) (name other : String) : Prop :=
  (∃ type, type.isConcrete = true ∧ t.types.get? name = some type ∧
    t.types.get? other = some type) ∨ t.Tied name other ∨ t.Tied other name

theorem Agree.symm (h : t.Agree name other) : t.Agree other name := by
  rcases h with ⟨type, htype, hname, hother⟩ | h | h
  · exact Or.inl ⟨type, htype, hother, hname⟩
  · exact Or.inr (Or.inr h)
  · exact Or.inr (Or.inl h)

/-- A link is the first to be followed. -/
theorem peerType?_sameAs (hother : t.types.get? other = some type)
    (htype : type.isConcrete = true) : t.peerType? name (.sameAs other) = some type := by
  rw [peerType?, peers, List.append_assoc, List.singleton_append,
    List.filterMap_cons_some hother, List.find?_cons_of_pos htype]

/-- A tie holds until one of the two names has a concrete type; the other has it, too, or takes it
from there. -/
theorem Tied.fix (h : t.Tied name other) (fixed : String) : (t.fix fixed).Agree name other := by
  obtain ⟨hname, type, hother, htie⟩ := h
  rcases t.get?_fix_cases fixed name with hkeep | ⟨rfl, type', found, hknown, -, hpeer, hfound⟩
  · -- `name` keeps its link, and `other` has the entry that it had or a concrete one.
    refine Or.inr (Or.inl ⟨hkeep.trans hname, ?_⟩)
    rw [base?_fix, copy?_fix]
    rcases t.get?_fix_cases fixed other with hkeep' | ⟨-, type', found, -, -, hpeer, hfound⟩
    · exact ⟨type, hkeep'.trans hother, htie⟩
    · exact ⟨found, hfound, Or.inl (peerType?_eq_some hpeer).1⟩
  · obtain rfl : SmtType.sameAs other = type' := Option.some.inj (hname.symm.trans hknown)
    obtain ⟨hconcrete, p, hp, hpfound⟩ := peerType?_eq_some hpeer
    have hboth (htype : type.isConcrete = true) : (t.fix fixed).Agree fixed other := by
      obtain rfl : type = found :=
        Option.some.inj ((peerType?_sameAs hother htype).symm.trans hpeer)
      exact Or.inl ⟨type, htype, hfound, get?_fix_of_isConcrete hother htype fixed⟩
    rcases htie with htype | rfl | ⟨hbase, hcopy⟩
    · exact hboth htype
    · -- `name` has a type from elsewhere, to which `other` is linked.
      rcases t.get?_fix_cases fixed other with hkeep | ⟨rfl, -⟩
      · exact Or.inr (Or.inr ⟨hkeep.trans hother, found, hfound, Or.inl hconcrete⟩)
      · exact Or.inl ⟨found, hconcrete, hfound, hfound⟩
    · -- `other` is the only peer of `name`.
      rw [peers, hbase, hcopy] at hp
      obtain rfl : p = other := List.mem_singleton.mp hp
      obtain rfl : type = found := Option.some.inj (hother.symm.trans hpfound)
      exact hboth hconcrete

theorem Agree.fix (h : t.Agree name other) (fixed : String) : (t.fix fixed).Agree name other := by
  rcases h with ⟨type, htype, hname, hother⟩ | h | h
  · exact Or.inl ⟨type, htype, get?_fix_of_isConcrete hname htype fixed,
      get?_fix_of_isConcrete hother htype fixed⟩
  · exact h.fix fixed
  · exact (h.fix fixed).symm

/-- Where nothing can be passed along, tied names are both open. -/
theorem Settled.get?_of_tied (hsettled : t.Settled) (h : t.Tied name other) :
    t.types.get? name = some (.sameAs other) ∧
      ∃ type, t.types.get? other = some type ∧ type.isConcrete = false := by
  obtain ⟨hname, type, hother, -⟩ := h
  refine ⟨hname, type, hother, Bool.eq_false_iff.mpr fun htype ↦ ?_⟩
  have hnone := hsettled name (.sameAs other) hname rfl
  rw [peerType?_sameAs hother htype] at hnone
  cases hnone

/-- In the end, names that agree have one type. -/
theorem Agree.get?_resolve (h : t.Agree name other) :
    t.resolve.1.types.get? name = t.resolve.1.types.get? other := by
  have hopen {name other : String} (h : t.settle.Tied name other) :
      t.resolve.1.types.get? name = t.resolve.1.types.get? other := by
    obtain ⟨hname, type, hother, htype⟩ := t.settled_settle.get?_of_tied h
    rw [TypeTable.get?_resolve, TypeTable.get?_resolve, hname, hother, Option.map_some,
      Option.map_some, htype]
    rfl
  have hsettle : t.settle.Agree name other :=
    passes_induction (P := fun t ↦ t.Agree name other) (fun _ fixed h ↦ h.fix fixed) _ h
  rcases hsettle with ⟨type, htype, hname, hother⟩ | h | h
  · rw [TypeTable.get?_resolve, TypeTable.get?_resolve, hname, hother]
  · exact hopen h
  · exact (hopen h).symm

/-- Whether types fit a typing of the names in a scope: a concrete type is that of the typing, and
the peers of an open name are in scope and have its type. -/
def Fits (t : TypeTable) (scope : String → Prop) (typing : String → SmtType) : Prop :=
  ∀ name type, scope name → t.types.get? name = some type →
    (type.isConcrete = true → typing name = type) ∧
    (type.isConcrete = false → ∀ p ∈ t.peers name type, scope p ∧ typing p = typing name)

variable {scope : String → Prop} {typing : String → SmtType}

/-- A typing that fits still does so when a type is fixed. -/
theorem Fits.fix (h : t.Fits scope typing) (fixed : String) : (t.fix fixed).Fits scope typing := by
  intro name type hscope htype
  rw [peers_fix]
  rcases t.get?_fix_cases fixed name with hkeep | ⟨-, type', found, hknown, hopen, hpeer, hfound⟩
  · exact h name type hscope (hkeep.symm.trans htype)
  · obtain rfl : found = type := Option.some.inj (hfound.symm.trans htype)
    obtain ⟨hconcrete, p, hp, hpfound⟩ := peerType?_eq_some hpeer
    obtain ⟨hpscope, hptyping⟩ := (h name type' hscope hknown).2 hopen p hp
    refine ⟨fun _ ↦ ?_, fun hopen' ↦ ?_⟩
    · exact hptyping.symm.trans ((h p found hpscope hpfound).1 hconcrete)
    · rw [hconcrete] at hopen'
      cases hopen'

/-- In the end, a name has the type of a typing that fits, or it becomes an integer. -/
theorem Fits.get?_resolve (h : t.Fits scope typing) (hscope : scope name)
    (htype : t.resolve.1.types.get? name = some type) :
    name ∉ t.resolve.2 ∧ type = typing name ∨ name ∈ t.resolve.2 ∧ type = .int := by
  have hsettle : t.settle.Fits scope typing :=
    passes_induction (P := fun t ↦ t.Fits scope typing) (fun _ fixed h ↦ h.fix fixed) _ h
  rw [TypeTable.get?_resolve] at htype
  obtain ⟨settled, hsettled, rfl⟩ := Option.map_eq_some_iff.mp htype
  rw [mem_snd_resolve]
  cases hconcrete : settled.isConcrete with
  | true =>
    exact Or.inl ⟨not_isOpen hsettled hconcrete,
      ((hsettle name settled hscope hsettled).1 hconcrete).symm⟩
  | false => exact Or.inr ⟨⟨settled, hsettled, hconcrete⟩, rfl⟩

end Smt.TypeTable

end TemporalRequirements
