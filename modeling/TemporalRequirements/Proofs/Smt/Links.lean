import Mathlib.Logic.Function.Iterate
import TemporalRequirements.Proofs.Smt.Resolution

/-!
# Types reached along links

An open name is linked to the name that has its type, to the name of which it is the copy one step
later, and to its own copy.  A type is reached from a name if links that run through open names lead
to a name with that type, which is concrete.  Fixing a name adds no type that was not reached, and
takes none away without leaving another.  So resolving gives every open name a type that is reached
from it, and exactly the names from which none is reached become integers.  The passes end at a
table that no further pass changes.
-/

namespace TemporalRequirements.Smt.TypeTable

variable {t : TypeTable} {name other : String} {type found : SmtType}

/-- Whether `copy` is read as the copy of `name` one step later: both are in the table, and the copy
is no declared signal. -/
structure IsCopy (t : TypeTable) (copy name : String) : Prop where
  eq_shiftedOnce : copy = shiftedOnce name
  copy_mem : copy ∈ t.names
  name_mem : name ∈ t.names
  notMem_declared : copy ∉ t.declared

/-- The links of a name: to the name that has its type, and between a name and its copy in both
directions. -/
inductive Linked (t : TypeTable) (name other : String) : Prop where
  | sameAs (h : t.types.get? name = some (.sameAs other))
  | base (h : t.IsCopy name other)
  | copy (h : t.IsCopy other name)

/-- Whether a concrete type is reached from a name: the name has it, or is open and linked to a name
from which it is reached. -/
inductive Reaches (t : TypeTable) : String → SmtType → Prop where
  | known {name : String} {type : SmtType} (h : t.types.get? name = some type)
    (htype : type.isConcrete = true) : Reaches t name type
  | link {name other : String} {type : SmtType} (hopen : t.IsOpen name)
    (hlink : t.Linked name other) (h : Reaches t other type) : Reaches t name type

/-- A name is a copy of the name that it is shifted from, unless it is declared. -/
theorem base?_eq_some_iff : t.base? name = some other ↔
    name = shiftedOnce other ∧ other ∈ t.names ∧ name ∉ t.declared := by
  rw [← String.toList_inj, toList_shiftedOnce, names, ← OrderedMap.contains_iff_mem_keys, base?]
  by_cases hdeclared : name ∈ t.declared
  · simp [hdeclared]
  · cases hletters : name.toList with
    | nil => simp
    | cons c rest =>
      have hbase : String.ofList rest = other ↔ rest = other.toList := by
        rw [← String.toList_inj, String.toList_ofList]
      have hletter : [c] = shiftLetter.toList ↔ c = 'x' := List.singleton_inj
      simp only [hdeclared, if_false, hletter, not_false_eq_true, and_true, List.cons.injEq, ← hbase,
        Bool.and_eq_true, decide_eq_true_eq, Option.ite_none_right_eq_some, Option.some.injEq]
      constructor
      · rintro ⟨⟨hc, hcontains⟩, rfl⟩
        exact ⟨⟨hc, rfl⟩, hcontains⟩
      · rintro ⟨⟨hc, rfl⟩, hcontains⟩
        exact ⟨⟨hc, hcontains⟩, rfl⟩

/-- The copy of a name is its shifted name, unless that is declared. -/
theorem copy?_eq_some_iff : t.copy? name = some other ↔
    other = shiftedOnce name ∧ other ∈ t.names ∧ other ∉ t.declared := by
  rw [names, ← OrderedMap.contains_iff_mem_keys, copy?]
  simp only [Bool.and_eq_true, Bool.not_eq_true', decide_eq_false_iff_not,
    Option.ite_none_right_eq_some, Option.some.injEq]
  constructor
  · rintro ⟨hcopy, rfl⟩
    exact ⟨rfl, hcopy⟩
  · rintro ⟨rfl, hcopy⟩
    exact ⟨hcopy, rfl⟩

/-- The peers of a name are the names to which it is linked. -/
theorem mem_peers_iff_linked (h : t.types.get? name = some type) :
    other ∈ t.peers name type ↔ t.Linked name other := by
  have hname : name ∈ t.names := OrderedMap.mem_keys_of_get? h
  rw [mem_peers, base?_eq_some_iff, copy?_eq_some_iff]
  constructor
  · rintro (rfl | ⟨hspelled, hother, hdeclared⟩ | ⟨hspelled, hother, hdeclared⟩)
    · exact .sameAs h
    · exact .base ⟨hspelled, hname, hother, hdeclared⟩
    · exact .copy ⟨hspelled, hother, hname, hdeclared⟩
  · rintro (hsame | hcopy | hcopy)
    · exact Or.inl (Option.some.inj (h.symm.trans hsame))
    · exact Or.inr (Or.inl ⟨hcopy.eq_shiftedOnce, hcopy.name_mem, hcopy.notMem_declared⟩)
    · exact Or.inr (Or.inr ⟨hcopy.eq_shiftedOnce, hcopy.copy_mem, hcopy.notMem_declared⟩)

/-! ## Passes -/

/-- A name that is open after a fix has the entry that it had. -/
theorem get?_of_get?_fix {fixed : String} (h : (t.fix fixed).types.get? name = some type)
    (htype : type.isConcrete = false) : t.types.get? name = some type := by
  rcases t.get?_fix_cases fixed name with heq | ⟨-, type', found, -, -, hpeer, hfound⟩
  · exact heq.symm.trans h
  · exact absurd ⟨type, h, htype⟩ (not_isOpen hfound (peerType?_eq_some hpeer).1)

/-- Fixing a type changes nothing about copies. -/
theorem isCopy_fix (t : TypeTable) (fixed copy name : String) :
    (t.fix fixed).IsCopy copy name ↔ t.IsCopy copy name := by
  constructor
  · rintro ⟨hspelled, hcopy, hname, hdeclared⟩
    rw [names_fix] at hcopy hname
    rw [declared_fix] at hdeclared
    exact ⟨hspelled, hcopy, hname, hdeclared⟩
  · rintro ⟨hspelled, hcopy, hname, hdeclared⟩
    rw [← t.names_fix fixed] at hcopy hname
    rw [← t.declared_fix fixed] at hdeclared
    exact ⟨hspelled, hcopy, hname, hdeclared⟩

theorem Linked.of_fix {fixed : String} (h : (t.fix fixed).Linked name other) :
    t.Linked name other := by
  cases h with
  | sameAs h => exact .sameAs (get?_of_get?_fix h rfl)
  | base h => exact .base ((t.isCopy_fix fixed name other).mp h)
  | copy h => exact .copy ((t.isCopy_fix fixed other name).mp h)

/-- A fix adds no type that was not reached. -/
theorem Reaches.of_fix {fixed : String} (h : (t.fix fixed).Reaches name type) :
    t.Reaches name type := by
  induction h with
  | @known name type h htype =>
    rcases t.get?_fix_cases fixed name with heq | ⟨-, type', found, hknown, hopen, hpeer, hfound⟩
    · exact .known (heq.symm.trans h) htype
    · obtain rfl : found = type := Option.some.inj (hfound.symm.trans h)
      obtain ⟨hconcrete, p, hp, hpfound⟩ := peerType?_eq_some hpeer
      exact .link ⟨type', hknown, hopen⟩ ((mem_peers_iff_linked hknown).mp hp)
        (.known hpfound hconcrete)
  | link hopen hlink _ ih =>
    obtain ⟨type', h, htype⟩ := hopen
    exact .link ⟨type', get?_of_get?_fix h htype, htype⟩ hlink.of_fix ih

/-- A fix leaves every name from which a type is reached another one, if not that. -/
theorem Reaches.exists_fix (h : t.Reaches name type) (fixed : String) :
    ∃ found, (t.fix fixed).Reaches name found := by
  induction h with
  | known h htype => exact ⟨_, .known (get?_fix_of_isConcrete h htype fixed) htype⟩
  | @link name other type hopen hlink _ ih =>
    obtain ⟨type', hknown, hopen⟩ := hopen
    obtain ⟨found, hfound⟩ := ih
    rcases t.get?_fix_cases fixed name with heq | ⟨-, _, type, -, -, hpeer, htype⟩
    · -- `name` is still open, and its links are still there.
      have hknown' := heq.trans hknown
      refine ⟨found, .link ⟨type', hknown', hopen⟩ ?_ hfound⟩
      rw [← mem_peers_iff_linked hknown', peers_fix, mem_peers_iff_linked hknown]
      exact hlink
    · exact ⟨type, .known htype (peerType?_eq_some hpeer).1⟩

theorem declared_pass (t : TypeTable) : t.pass.declared = t.declared :=
  foldl_fix_induction (P := fun s ↦ s.declared = t.declared)
    (fun s fixed h ↦ (s.declared_fix fixed).trans h) _ rfl

theorem declared_passes (t : TypeTable) (n : Nat) : (t.passes n).declared = t.declared :=
  passes_induction (P := fun s ↦ s.declared = t.declared)
    (fun s fixed h ↦ (s.declared_fix fixed).trans h) n rfl

/-- Where nothing can be passed along, a type is reached only from names with a type. -/
theorem Settled.exists_isConcrete (hsettled : t.Settled) (h : t.Reaches name type) :
    ∃ found, t.types.get? name = some found ∧ found.isConcrete = true := by
  induction h with
  | known h htype => exact ⟨_, h, htype⟩
  | @link name other type hopen hlink _ ih =>
    obtain ⟨type', hknown, hopen⟩ := hopen
    obtain ⟨found, hfound, hconcrete⟩ := ih
    have hnone := hsettled name type' hknown hopen
    rw [peerType?, List.find?_eq_none] at hnone
    refine absurd hconcrete (hnone found (List.mem_filterMap.mpr ⟨other, ?_, hfound⟩))
    exact (mem_peers_iff_linked hknown).mpr hlink

/-- The types in the end are types that were reached. -/
theorem reaches_of_settle (h : t.settle.types.get? name = some type)
    (htype : type.isConcrete = true) : t.Reaches name type := by
  have hreaches : ∀ name type, t.settle.Reaches name type → t.Reaches name type :=
    passes_induction (P := fun s ↦ ∀ name type, s.Reaches name type → t.Reaches name type)
      (fun _ _ ih name type h ↦ ih name type h.of_fix) _ fun _ _ h ↦ h
  exact hreaches name type (.known h htype)

/-- In the end, a name from which a type was reached has a type. -/
theorem Reaches.exists_settle (h : t.Reaches name type) :
    ∃ found, t.settle.types.get? name = some found ∧ found.isConcrete = true := by
  have hreaches : ∃ found, t.settle.Reaches name found :=
    passes_induction (P := fun s ↦ ∃ found, s.Reaches name found)
      (fun _ fixed ⟨_, h⟩ ↦ h.exists_fix fixed) _ ⟨type, h⟩
  obtain ⟨found, hfound⟩ := hreaches
  exact t.settled_settle.exists_isConcrete hfound

/-- A settled table is one that a pass leaves as it is. -/
theorem Settled.pass_eq (hsettled : t.Settled) : t.pass = t := by
  refine foldl_fix_eq_self fun name _ ↦ ?_
  rcases t.fix_cases name with heq | ⟨type, found, hknown, hopen, hpeer, -⟩
  · exact heq
  · rw [hsettled name type hknown hopen] at hpeer
    cases hpeer

theorem eq_of_entries_eq {s : TypeTable} (h : s.types.entries = t.types.entries)
    (hdeclared : s.declared = t.declared) : s = t := by
  cases s
  cases t
  rw [mk.injEq]
  exact ⟨OrderedMap.eq_of_entries_eq h, hdeclared⟩

/-- Stopping at a pass that changes nothing is as good as going on. -/
theorem passes_eq_iterate (t : TypeTable) (n : Nat) : t.passes n = pass^[n] t := by
  induction n generalizing t with
  | zero => rfl
  | succ n ih =>
    simp only [passes]
    split
    · rename_i hentries
      have hpass : t.pass = t := eq_of_entries_eq hentries t.declared_pass
      rw [Function.iterate_fixed hpass]
    · rw [ih, Function.iterate_succ_apply]

theorem iterate_pass {n : Nat} (h : t.types.size < n) : pass^[n] t = t.settle := by
  obtain ⟨k, rfl⟩ : ∃ k, n = k + (t.types.size + 1) := ⟨n - (t.types.size + 1), by omega⟩
  rw [Function.iterate_add_apply, ← passes_eq_iterate t (t.types.size + 1)]
  exact Function.iterate_fixed t.settled_settle.pass_eq k

/-! ## The main result -/

/-- What resolving a table returns: a table with the same names, and those that became integers. -/
structure IsResolution (t resolved : TypeTable) (defaulted : List String) : Prop where
  names_eq : resolved.names = t.names
  declared_eq : resolved.declared = t.declared
  /-- Every name has a concrete type. -/
  concrete : ∀ name ∈ t.names, ∃ type, resolved.types.get? name = some type ∧
    type.isConcrete = true
  /-- A concrete type stays. -/
  keeps : ∀ name type, t.types.get? name = some type → type.isConcrete = true →
    resolved.types.get? name = some type
  /-- Defaulted are the names from which no type is reached, in the order of the table. -/
  sublist : defaulted.Sublist t.names
  mem_defaulted_iff : ∀ name, name ∈ defaulted ↔ name ∈ t.names ∧ ∀ type, ¬ t.Reaches name type
  int_of_mem : ∀ name ∈ defaulted, resolved.types.get? name = some .int
  /-- Every other name has a type that is reached from it. -/
  reaches : ∀ name type, resolved.types.get? name = some type → name ∉ defaulted →
    t.Reaches name type

/-- The names with open types are names of the table, in its order. -/
theorem openNames_sublist (t : TypeTable) : t.openNames.Sublist t.names :=
  List.filter_sublist.map Prod.fst

/-- A name that is open in the end becomes an integer, and no type is reached from it. -/
theorem mem_defaulted (h : t.settle.types.get? name = some type) (htype : type.isConcrete = false) :
    name ∈ t.resolve.2 ∧ t.resolve.1.types.get? name = some .int ∧
      ∀ found, ¬ t.Reaches name found := by
  refine ⟨(t.mem_snd_resolve name).mpr ⟨type, h, htype⟩, ?_, ?_⟩
  · rw [get?_resolve, h, Option.map_some, htype]
    rfl
  · intro found hfound
    obtain ⟨type', hsettle, hconcrete⟩ := hfound.exists_settle
    exact not_isOpen hsettle hconcrete ⟨type, h, htype⟩

/-- A name that has a type in the end keeps it, and the type is reached from it. -/
theorem notMem_defaulted (h : t.settle.types.get? name = some type)
    (htype : type.isConcrete = true) :
    name ∉ t.resolve.2 ∧ t.resolve.1.types.get? name = some type ∧ t.Reaches name type := by
  refine ⟨?_, ?_, reaches_of_settle h htype⟩
  · rw [mem_snd_resolve]
    exact not_isOpen h htype
  · rw [get?_resolve, h, Option.map_some, htype]
    rfl

theorem names_settle (t : TypeTable) : t.settle.names = t.names := t.names_passes _

/-- What resolving returns is a resolution of the table. -/
theorem isResolution_resolve (t : TypeTable) : t.IsResolution t.resolve.1 t.resolve.2 := by
  have hsettle : ∀ name ∈ t.names, ∃ type, t.settle.types.get? name = some type := by
    intro name hname
    rw [← t.names_settle] at hname
    exact OrderedMap.exists_get?_of_mem_keys hname
  refine
    { names_eq := t.names_resolve
      declared_eq := t.declared_passes _
      concrete := ?_
      keeps := fun _ _ ↦ get?_resolve_of_isConcrete
      sublist := ?_
      mem_defaulted_iff := ?_
      int_of_mem := ?_
      reaches := ?_ }
  · intro name hname
    obtain ⟨type, h⟩ := hsettle name hname
    cases htype : type.isConcrete with
    | true => exact ⟨type, (notMem_defaulted h htype).2.1, htype⟩
    | false => exact ⟨.int, (mem_defaulted h htype).2.1, rfl⟩
  · rw [← t.names_settle]
    exact t.settle.openNames_sublist
  · intro name
    constructor
    · intro hmem
      obtain ⟨type, h, htype⟩ := (t.mem_snd_resolve name).mp hmem
      have hname : name ∈ t.settle.names := OrderedMap.mem_keys_of_get? h
      rw [names_settle] at hname
      exact ⟨hname, (mem_defaulted h htype).2.2⟩
    · rintro ⟨hname, hnone⟩
      obtain ⟨type, h⟩ := hsettle name hname
      cases htype : type.isConcrete with
      | true => exact absurd (notMem_defaulted h htype).2.2 (hnone type)
      | false => exact (mem_defaulted h htype).1
  · intro name hmem
    obtain ⟨type, h, htype⟩ := (t.mem_snd_resolve name).mp hmem
    exact (mem_defaulted h htype).2.1
  · intro name type hresolved hmem
    obtain ⟨settled, h, -⟩ := Option.map_eq_some_iff.mp ((t.get?_resolve name).symm.trans hresolved)
    cases htype : settled.isConcrete with
    | true =>
      obtain ⟨-, hget, hreaches⟩ := notMem_defaulted h htype
      rw [hresolved] at hget
      rwa [Option.some.inj hget]
    | false => exact absurd (mem_defaulted h htype).1 hmem

/-- The passes lead to a table that no pass changes, as any larger number of them does; only then
the names that are still open become integers.  These are the names from which no type is reached;
every other name has a type that is reached from it. -/
theorem resolve_reaches (t : TypeTable) :
    t.IsResolution t.resolve.1 t.resolve.2 ∧
      ∃ settled : TypeTable, settled.pass = settled ∧
        (∀ n, t.types.size < n → pass^[n] t = settled) ∧
        t.resolve = (settled.defaultOpen, settled.openNames) :=
  ⟨t.isResolution_resolve, t.settle, t.settled_settle.pass_eq, fun _ ↦ iterate_pass, rfl⟩

end TemporalRequirements.Smt.TypeTable
