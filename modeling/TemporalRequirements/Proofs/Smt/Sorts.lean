import TemporalRequirements.Proofs.Engine.History
import TemporalRequirements.Proofs.Grammar.Printed
import TemporalRequirements.Proofs.Smt.Resolution
import TemporalRequirements.Proofs.Smt.Script

/-!
# Sorts of compared variables

What all uses tell of a name is merged first: the concrete type that is told, or what is told first
if there is none.  A comparison of two variables links each to the other, and the merging drops a
link that is not what is told first.  Two compared variables have one sort if the link between them
is kept.  Where the uses admit a typing at all, they have one sort unless just one of them is left
without a type and named in the warning, and is no integer in the typing.
-/

namespace TemporalRequirements

theorem Interface.dataType?_eq_none {i : Interface} {name : String}
    (h : i.isSignal name = false) : i.dataType? name = none := by
  rw [dataType?, Option.map_eq_none_iff]
  exact Option.isNone_iff_eq_none.mp (Option.isSome_eq_false_iff.mp h)

namespace Smt

def tellings (notes : List Note) (name : String) : List SmtType :=
  (notes.filter fun n ↦ n.1 = name).map Prod.snd

/-- The type that is told: the first concrete one, or a real if it is an integer and a real is told
as well. -/
def told? (types : List SmtType) : Option SmtType :=
  (types.find? SmtType.isConcrete).map fun type ↦
    if type = .int ∧ .real ∈ types then .real else type

/-- What types tell together: the type that is told, or the first of them. -/
def merged? (types : List SmtType) : Option SmtType :=
  types.head?.map fun first ↦ (told? types).getD first

theorem mem_tellings {notes : List Note} {name : String} {type : SmtType} :
    type ∈ tellings notes name ↔ (name, type) ∈ notes := by
  simp [tellings]

theorem told?_eq_none_iff {types : List SmtType} :
    told? types = none ↔ ∀ type ∈ types, type.isConcrete = false := by
  simp only [told?, Option.map_eq_none_iff, List.find?_eq_none, Bool.not_eq_true]

theorem isConcrete_of_told? {types : List SmtType} {type : SmtType}
    (h : told? types = some type) : type.isConcrete = true := by
  obtain ⟨found, hfound, rfl⟩ := Option.map_eq_some_iff.mp h
  split
  · rfl
  · exact List.find?_some hfound

/-- Types tell together what is told, or the first of them if they are all open. -/
theorem merged?_cases {types : List SmtType} {type : SmtType} (h : merged? types = some type) :
    type.isConcrete = true ∧ told? types = some type ∨
      type.isConcrete = false ∧ told? types = none ∧ types.head? = some type := by
  obtain ⟨first, hfirst, rfl⟩ := Option.map_eq_some_iff.mp h
  cases htold : told? types with
  | some type => exact Or.inl ⟨isConcrete_of_told? htold, rfl⟩
  | none =>
    have hopen := told?_eq_none_iff.mp htold first (List.mem_of_mem_head? hfirst)
    exact Or.inr ⟨hopen, rfl, hfirst⟩

theorem merged?_of_told? {types : List SmtType} {type : SmtType} (h : told? types = some type) :
    merged? types = some type := by
  cases types with
  | nil => cases h
  | cons first rest => rw [merged?, List.head?_cons, Option.map_some, h, Option.getD_some]

theorem merged?_singleton (type : SmtType) : merged? [type] = some type := by
  cases type <;> rfl

theorem told?_cons_of_open {type : SmtType} (h : type.isConcrete = false) (rest : List SmtType) :
    told? (type :: rest) = told? rest := by
  have hreal : .real ∈ type :: rest ↔ .real ∈ rest := by
    refine List.mem_cons.trans (or_iff_right ?_)
    rintro rfl
    cases h
  rw [told?, told?, List.find?_cons_of_neg (by rw [h]; exact Bool.false_ne_true)]
  simp only [hreal]

theorem told?_cons_of_concrete {type : SmtType} (h : type.isConcrete = true)
    (rest : List SmtType) :
    told? (type :: rest) = some (if type = .int ∧ .real ∈ rest then .real else type) := by
  rw [told?, List.find?_cons_of_pos h, Option.map_some]
  by_cases hint : type = .int
  · subst hint
    simp
  · simp [hint]

theorem merged?_cons_of_open {type : SmtType} (h : type.isConcrete = false)
    (rest : List SmtType) : merged? (type :: rest) = some ((told? rest).getD type) := by
  rw [merged?, List.head?_cons, Option.map_some, told?_cons_of_open h]

theorem merged?_cons_of_concrete {type : SmtType} (h : type.isConcrete = true)
    (rest : List SmtType) :
    merged? (type :: rest) = some (if type = .int ∧ .real ∈ rest then .real else type) :=
  merged?_of_told? (told?_cons_of_concrete h rest)

/-- Merging keeps the first type, unless the second one tells more. -/
theorem SmtType.merge_cases (a b : SmtType) :
    a.merge b = b ∧ a.isConcrete = false ∧ b.isConcrete = true ∨
      a.merge b = b ∧ a = .int ∧ b = .real ∨
      a.merge b = a ∧ (a.isConcrete = false → b.isConcrete = false) ∧ ¬ (a = .int ∧ b = .real) := by
  rw [merge]
  split
  · rename_i hopen
    exact Or.inl ⟨rfl, by simpa using hopen⟩
  · rename_i hopen
    split
    · rename_i hwiden
      exact Or.inr (Or.inl ⟨rfl, by simpa using hwiden⟩)
    · rename_i hwiden
      exact Or.inr (Or.inr ⟨rfl, by simpa using hopen, by simpa using hwiden⟩)

/-- Two tellings that follow each other may be merged. -/
theorem merged?_merge_cons (a b : SmtType) (rest : List SmtType) :
    merged? (a.merge b :: rest) = merged? (a :: b :: rest) := by
  rcases a.merge_cases b with ⟨heq, ha, hb⟩ | ⟨heq, rfl, rfl⟩ | ⟨heq, hopen, hwiden⟩
  · rw [heq, merged?_cons_of_open ha, told?_cons_of_concrete hb, merged?_cons_of_concrete hb,
      Option.getD_some]
  · rw [heq, merged?_cons_of_concrete rfl, merged?_cons_of_concrete rfl]
    simp
  · rw [heq]
    cases ha : a.isConcrete with
    | false =>
      rw [merged?_cons_of_open ha, merged?_cons_of_open ha, told?_cons_of_open (hopen ha)]
    | true =>
      have hreal : a = .int ∧ .real ∈ b :: rest ↔ a = .int ∧ .real ∈ rest := by
        refine and_congr_right fun hint ↦ List.mem_cons.trans (or_iff_right ?_)
        exact fun hb ↦ hwiden ⟨hint, hb.symm⟩
      rw [merged?_cons_of_concrete ha, merged?_cons_of_concrete ha]
      simp only [hreal]

/-- The entry of a name is what its notes tell together. -/
theorem get?_foldl_register (notes : List Note) (t : TypeTable) (name : String) :
    (notes.foldl (fun t n ↦ t.register n.1 n.2) t).types.get? name =
      merged? ((t.types.get? name).toList ++ tellings notes name) := by
  induction notes generalizing t with
  | nil =>
    rw [List.foldl_nil]
    cases t.types.get? name with
    | none => rfl
    | some type => exact (merged?_singleton type).symm
  | cons n notes ih =>
    rw [List.foldl_cons, ih, TypeTable.register, OrderedMap.get?_insert]
    by_cases hname : n.1 = name
    · subst hname
      have hcons : tellings (n :: notes) n.1 = n.2 :: tellings notes n.1 := by simp [tellings]
      rw [if_pos rfl, hcons]
      cases t.types.get? n.1 with
      | none => rfl
      | some seen => exact merged?_merge_cons seen n.2 _
    · have hcons : tellings (n :: notes) name = tellings notes name := by simp [tellings, hname]
      rw [if_neg hname, hcons]

theorem get?_collectTypes (i : Interface) (notes : List Note) (name : String) :
    (collectTypes i notes).types.get? name = merged? (tellings notes name) := by
  rw [collectTypes, get?_foldl_register,
    types_foldl_declare (fun x : Signal ↦ i.identifier x.name)]
  rfl

/-! ## Comparisons -/

namespace Scope

variable {s : Scope} {shift : Nat}

/-- The two variables that a predicate compares, if it compares variables. -/
def comparisonOf (s : Scope) (shift : Nat) : Predicate → List (Copy × Copy)
  | .compare (.var v) _ (.var w) =>
    if s.interface.readsAsLiteral v || s.interface.readsAsLiteral w then []
    else [(⟨v, shift⟩, ⟨w, shift⟩)]
  | _ => []

/-- The pairs of variables that are compared in a formula that is read `shift` steps later. -/
def comparisons (s : Scope) (shift : Nat) : Formula → List (Copy × Copy)
  | .const _ => []
  | .atom a => s.comparisonOf shift a.predicate
  | .unary .next f => comparisons s (shift + 1) f
  | .unary _ f | .bounded _ _ f => comparisons s shift f
  | .binary _ l r => comparisons s shift l ++ comparisons s shift r

end Scope

/-- What is told of a name that is compared with another: to be compared with itself tells
nothing. -/
def linkNote (name other : String) : Note :=
  (name, if SmtType.sameAs other = .sameAs name then .unknown else .sameAs other)

theorem mem_names_of_linkNote {notes : List Note} {name other : String}
    (h : linkNote name other ∈ notes) : name ∈ notes.map Prod.fst := List.mem_map_of_mem h

theorem linkNote_of_ne {name other : String} (h : name ≠ other) :
    linkNote name other = (name, .sameAs other) := by
  rw [linkNote, if_neg]
  intro heq
  exact h (SmtType.sameAs.inj heq).symm

namespace Scope

variable {s : Scope} {shift : Nat}

theorem note_variable {v w : String} (hv : s.interface.readsAsLiteral v = false)
    (hw : s.interface.readsAsLiteral w = false) (hfree : s.interface.dataType? v = none)
    (hfree' : s.interface.dataType? w = none) :
    s.note shift v (s.typeOf shift (.var w)) =
      [linkNote (s.constantName v shift) (s.constantName w shift)] := by
  simp only [note, typeOf, hv, hw, hfree, hfree', Bool.false_eq_true, if_false, linkNote]

/-- A comparison is of two variables, neither of which is a literal. -/
theorem mem_comparisonOf {p : Predicate} {c c' : Copy} (h : (c, c') ∈ s.comparisonOf shift p) :
    ∃ v op w, p = .compare (.var v) op (.var w) ∧ s.interface.readsAsLiteral v = false ∧
      s.interface.readsAsLiteral w = false ∧ c = ⟨v, shift⟩ ∧ c' = ⟨w, shift⟩ := by
  unfold comparisonOf at h
  split at h
  · rename_i v op w
    split at h
    · cases h
    · rename_i hliteral
      obtain ⟨rfl, rfl⟩ := Prod.mk.inj (List.mem_singleton.mp h)
      rw [Bool.or_eq_true, not_or, Bool.not_eq_true, Bool.not_eq_true] at hliteral
      exact ⟨v, op, w, rfl, hliteral.1, hliteral.2, rfl, rfl⟩
  · cases h

/-- A comparison of undeclared variables links each to the other. -/
theorem linkNote_mem_predicateNotes {p : Predicate} {c c' : Copy}
    (h : (c, c') ∈ s.comparisonOf shift p) (hfree : s.interface.dataType? c.variableName = none)
    (hfree' : s.interface.dataType? c'.variableName = none) :
    linkNote (s.nameOf c) (s.nameOf c') ∈ s.predicateNotes shift p ∧
      linkNote (s.nameOf c') (s.nameOf c) ∈ s.predicateNotes shift p := by
  obtain ⟨v, op, w, rfl, hv, hw, rfl, rfl⟩ := mem_comparisonOf h
  simp only [predicateNotes, noteVariable, note_variable hv hw hfree hfree',
    note_variable hw hv hfree' hfree, nameOf, List.mem_append, List.mem_singleton, true_or,
    or_true, and_self]

/-- Two undeclared variables that are compared are noted as of one type. -/
theorem linkNote_mem_notes {f : Formula} {c c' : Copy} (h : (c, c') ∈ s.comparisons shift f)
    (hfree : s.interface.dataType? c.variableName = none)
    (hfree' : s.interface.dataType? c'.variableName = none) :
    linkNote (s.nameOf c) (s.nameOf c') ∈ s.notes shift f ∧
      linkNote (s.nameOf c') (s.nameOf c) ∈ s.notes shift f := by
  induction f generalizing shift with
  | const b => cases h
  | atom a => exact linkNote_mem_predicateNotes h hfree hfree'
  | unary op f ih => cases op <;> exact ih h
  | bounded op n f ih => exact ih h
  | binary op l r ihl ihr =>
    rw [notes, List.mem_append, List.mem_append]
    rcases List.mem_append.mp h with h | h
    · exact ⟨Or.inl (ihl h).1, Or.inl (ihl h).2⟩
    · exact ⟨Or.inr (ihr h).1, Or.inr (ihr h).2⟩

end Scope

/-! ## Ties and typings -/

variable {i : Interface} {notes : List Note} {name other : String}

/-- Whether the link from `name` to `other` is what all uses tell of `name`, and the type of one of
the two can reach the other: a type is told of `other`, or it is linked back, or `name` has neither
a base nor a copy that could give it another type. -/
structure Ties (i : Interface) (notes : List Note) (name other : String) : Prop where
  untold : told? (tellings notes name) = none
  linked : (tellings notes name).head? = some (.sameAs other)
  reached : (told? (tellings notes other)).isSome = true ∨
    (tellings notes other).head? = some (.sameAs name) ∨
    (collectTypes i notes).base? name = none ∧ (collectTypes i notes).copy? name = none

/-- A typing that all uses of the names in a scope admit: a name has the type that is told, and
linked names and copies have one type. -/
structure IsTyping (i : Interface) (notes : List Note) (scope : String → Prop)
    (typing : String → SmtType) : Prop where
  told : ∀ name type, scope name → told? (tellings notes name) = some type → typing name = type
  linked : ∀ name other, scope name → (name, .sameAs other) ∈ notes →
    scope other ∧ typing other = typing name
  copied : ∀ name other, scope name →
    (collectTypes i notes).base? name = some other ∨
      (collectTypes i notes).copy? name = some other →
    scope other ∧ typing other = typing name

theorem exists_get?_collectTypes (h : name ∈ notes.map Prod.fst) :
    ∃ type, (collectTypes i notes).types.get? name = some type :=
  OrderedMap.exists_get?_of_mem_keys ((mem_names_collectTypes i notes name).mpr h)

theorem exists_get?_resolve (h : name ∈ notes.map Prod.fst) :
    ∃ type, (collectTypes i notes).resolve.1.types.get? name = some type := by
  apply OrderedMap.exists_get?_of_mem_keys
  change name ∈ (collectTypes i notes).resolve.1.names
  rw [TypeTable.names_resolve, mem_names_collectTypes]
  exact h

/-- Notes that tie two names tie them in the table. -/
theorem Ties.tied (h : Ties i notes name other) (hother : other ∈ notes.map Prod.fst) :
    (collectTypes i notes).Tied name other := by
  have hname : merged? (tellings notes name) = some (.sameAs other) := by
    rw [merged?, h.linked, h.untold]
    rfl
  obtain ⟨type, hother⟩ := exists_get?_collectTypes hother
  refine ⟨(get?_collectTypes ..).trans hname, type, hother, ?_⟩
  rw [get?_collectTypes] at hother
  rcases h.reached with htold | hback | hpeers
  · obtain ⟨told, htold⟩ := Option.isSome_iff_exists.mp htold
    obtain rfl : told = type := Option.some.inj ((merged?_of_told? htold).symm.trans hother)
    exact Or.inl (isConcrete_of_told? htold)
  · rcases merged?_cases hother with ⟨hconcrete, -⟩ | ⟨-, -, hhead⟩
    · exact Or.inl hconcrete
    · exact Or.inr (Or.inl (Option.some.inj (hhead.symm.trans hback)))
  · exact Or.inr (Or.inr hpeers)

/-- A typing of the notes fits their table. -/
theorem IsTyping.fits {scope : String → Prop} {typing : String → SmtType}
    (h : IsTyping i notes scope typing) : (collectTypes i notes).Fits scope typing := by
  intro name type hscope htype
  rw [get?_collectTypes] at htype
  rcases merged?_cases htype with ⟨hconcrete, htold⟩ | ⟨hopen, -, hhead⟩
  · refine ⟨fun _ ↦ h.told name type hscope htold, fun hopen ↦ ?_⟩
    rw [hconcrete] at hopen
    cases hopen
  · refine ⟨fun hconcrete ↦ ?_, fun _ p hp ↦ ?_⟩
    · rw [hopen] at hconcrete
      cases hconcrete
    · rcases TypeTable.mem_peers.mp hp with rfl | hp
      · exact h.linked name p hscope (mem_tellings.mp (List.mem_of_mem_head? hhead))
      · exact h.copied name p hscope hp

/-- What a script declares for two names that are compared, where the notes are what its assertions
tell and `defaulted` are the names whose types it assumes. -/
structure DeclaresCompared (i : Interface) (notes : List Note) (script : Script)
    (defaulted : List String) (name other : String) : Prop where
  /-- Both have a type, and a constant is declared with the sort of it. -/
  declared : ∀ n ∈ [name, other], ∃ type, script.types.types.get? n = some type ∧
    constantLine i (n, type) ∈ script.constants
  /-- A type that is told is the type in the script. -/
  told : ∀ n type, told? (tellings notes n) = some type → script.types.types.get? n = some type
  /-- The link between the names gives them one type, whatever else is told. -/
  tied : Ties i notes name other ∨ Ties i notes other name →
    script.types.types.get? name = script.types.types.get? other
  /-- Where the uses admit a typing, the names have one type unless it is assumed for just one of
  them and is not the one in the typing. -/
  typed : ∀ scope typing, IsTyping i notes scope typing → scope name →
    (script.types.types.get? name = script.types.types.get? other ↔
      typing name = .int ∨ (name ∈ defaulted ↔ other ∈ defaulted))

variable {s : Store} {limit : UInt32} {ref : ChunkRef} {body : Formula} {e : Expr} {c c' : Copy}

theorem IsTyping.get?_resolve_eq_iff {scope : String → Prop} {typing : String → SmtType}
    (h : IsTyping i notes scope typing) (hlink : linkNote name other ∈ notes)
    (hback : linkNote other name ∈ notes) (hscope : scope name) :
    (collectTypes i notes).resolve.1.types.get? name =
        (collectTypes i notes).resolve.1.types.get? other ↔
      typing name = .int ∨ (name ∈ (collectTypes i notes).resolve.2 ↔
        other ∈ (collectTypes i notes).resolve.2) := by
  by_cases hsame : name = other
  · subst hsame
    exact iff_of_true rfl (Or.inr Iff.rfl)
  · obtain ⟨type, htype⟩ := exists_get?_resolve (i := i) (mem_names_of_linkNote hlink)
    obtain ⟨type', htype'⟩ := exists_get?_resolve (i := i) (mem_names_of_linkNote hback)
    rw [linkNote_of_ne hsame] at hlink
    obtain ⟨hscope', htyping⟩ := h.linked name other hscope hlink
    rw [htype, htype', Option.some_inj]
    rcases h.fits.get?_resolve hscope htype with ⟨hfound, rfl⟩ | ⟨hassumed, rfl⟩ <;>
      rcases h.fits.get?_resolve hscope' htype' with ⟨hfound', rfl⟩ | ⟨hassumed', rfl⟩
    · simp [hfound, hfound', htyping]
    · simp [hfound, hassumed']
    · simp [hassumed, hfound', htyping, eq_comm]
    · simp [hassumed, hassumed']

/-- Names that are linked both ways get one sort where one is told. -/
theorem declaresCompared_of_linkNotes {script : Script}
    (htypes : script.types = (collectTypes i notes).resolve.1)
    (hconstants : script.constants = script.types.types.entries.map (constantLine i))
    (hlink : linkNote name other ∈ notes) (hback : linkNote other name ∈ notes) :
    DeclaresCompared i notes script (collectTypes i notes).resolve.2 name other := by
  rw [htypes] at hconstants
  constructor
  · intro n hn
    have hmem : n ∈ notes.map Prod.fst := by
      rcases List.mem_pair.mp hn with rfl | rfl
      · exact mem_names_of_linkNote hlink
      · exact mem_names_of_linkNote hback
    obtain ⟨type, htype⟩ := exists_get?_resolve (i := i) hmem
    rw [htypes, hconstants]
    exact ⟨type, htype, List.mem_map_of_mem ((OrderedMap.get?_eq_some_iff _ _ _).mp htype)⟩
  · intro n type htold
    have hmerged : (collectTypes i notes).types.get? n = some type :=
      (get?_collectTypes i notes n).trans (merged?_of_told? htold)
    rw [htypes]
    exact TypeTable.get?_resolve_of_isConcrete hmerged (isConcrete_of_told? htold)
  · intro hties
    have hagree : (collectTypes i notes).Agree name other :=
      Or.inr (hties.imp (fun h ↦ h.tied (mem_names_of_linkNote hback))
        fun h ↦ h.tied (mem_names_of_linkNote hlink))
    rw [htypes]
    exact hagree.get?_resolve
  · intro scope typing htyping hscope
    rw [htypes]
    exact htyping.get?_resolve_eq_iff hlink hback hscope

/-- The constants of an assertion are the names that it tells types of. -/
theorem mem_constants_iff (h : outcome? s i limit ref = some (.asserted body e)) (name : String) :
    name ∈ e.constants ↔ name ∈ ((Scope.of i).notes 0 body).map Prod.fst := by
  obtain ⟨-, -, -, he⟩ := outcome?_eq_asserted_iff.mp h
  rw [constants_of_outcome? h, Scope.mem_notes (Scope.exists_formula_ok_iff.mp ⟨e, he⟩)]

theorem notes_subset (href : ref ∈ s.formalChunks)
    (h : outcome? s i limit ref = some (.asserted body e)) :
    (Scope.of i).notes 0 body ⊆ (assertions s i limit).flatMap Assertion.notes := by
  intro n hn
  rw [notes_assertions]
  refine List.mem_flatMap.mpr ⟨ref, href, ?_⟩
  rw [h]
  exact hn

/-- The constants of two undeclared variables that an asserted property compares have one sort if
the link between them outlives the merging, and, where the uses can be typed, if not only one of
them is named in the warning. -/
theorem declaresCompared_build (groups : List (List ChunkRef)) (href : ref ∈ s.formalChunks)
    (hasserted : outcome? s i limit ref = some (.asserted body e))
    (hcompared : (c, c') ∈ (Scope.of i).comparisons 0 body)
    (hfree : i.isSignal c.variableName = false) (hfree' : i.isSignal c'.variableName = false) :
    let notes := (assertions s i limit).flatMap Assertion.notes
    let defaulted := (resolvedTypes s i limit).2
    let result := build s i limit groups
    let name := (Scope.of i).nameOf c
    let other := (Scope.of i).nameOf c'
    name ∈ e.constants ∧ other ∈ e.constants ∧
      result.2 = reports s i limit ++ defaultWarning defaulted ∧
      DeclaresCompared i notes result.1 defaulted name other := by
  intro notes defaulted result name other
  obtain ⟨hlink, hback⟩ := Scope.linkNote_mem_notes hcompared
    (Interface.dataType?_eq_none hfree) (Interface.dataType?_eq_none hfree')
  have hname : name ∈ e.constants :=
    (mem_constants_iff hasserted name).mpr (mem_names_of_linkNote hlink)
  have hother : other ∈ e.constants :=
    (mem_constants_iff hasserted other).mpr (mem_names_of_linkNote hback)
  replace hlink : linkNote name other ∈ notes := notes_subset href hasserted hlink
  replace hback : linkNote other name ∈ notes := notes_subset href hasserted hback
  have hresult : result = _ := build_eq s i limit groups
  rw [hresult]
  exact ⟨hname, hother, rfl, declaresCompared_of_linkNotes rfl rfl hlink hback⟩

/-- An engine over no signals with one requirement. -/
def undeclaredEngine (text : String) : Engine :=
  (Engine.start .empty .standard).run [.add "R" text .property, .formalizeAll]

/-- What `a == b` and `b > 1.5` tell. -/
def linkedNotes : List Note :=
  [("a", .sameAs "b"), ("b", .sameAs "a"), ("a", .unknown), ("b", .unknown), ("b", .real),
    ("b", .unknown)]

/-- The type of `b` is told by another comparison and reaches `a` over the link. -/
theorem declaresCompared_build_linked :
    let e := undeclaredEngine "G(a == b)\n\nG(b > 1.5)"
    let notes := (assertions e.store e.interface e.config.unrollLimit).flatMap Assertion.notes
    let result := build e.store e.interface e.config.unrollLimit e.groups
    Ties e.interface notes "a" "b" ∧
      IsTyping e.interface notes (fun n ↦ n ∈ ["a", "b"]) (fun _ ↦ .real) ∧
      DeclaresCompared e.interface notes result.1 [] "a" "b" ∧
      result.1.constants = ["(declare-const a Real)", "(declare-const b Real)"] ∧
      result.2 = [] := by
  intro e notes result
  have hnotes : notes = linkedNotes := by decide +kernel
  have hdefaulted : (resolvedTypes e.store e.interface e.config.unrollLimit).2 = [] := by
    decide +kernel
  have hties : Ties e.interface notes "a" "b" := by
    rw [hnotes]
    exact ⟨by decide, by decide, Or.inl (by decide)⟩
  have htyping : IsTyping e.interface notes (fun n ↦ n ∈ ["a", "b"]) (fun _ ↦ .real) := by
    have htold : ∀ n ∈ ["a", "b"], ∀ type ∈ told? (tellings linkedNotes n), .real = type := by
      decide
    have hcopied : ∀ n ∈ ["a", "b"], (collectTypes e.interface linkedNotes).base? n = none ∧
        (collectTypes e.interface linkedNotes).copy? n = none := by
      decide +kernel
    rw [hnotes]
    refine ⟨fun n type hn ↦ htold n hn type, fun n other _ hlinked ↦ ?_, fun n other hn h ↦ ?_⟩
    · have hmem : SmtType.sameAs other ∈ linkedNotes.map Prod.snd := List.mem_map_of_mem hlinked
      exact ⟨by simpa [linkedNotes, or_comm] using hmem, rfl⟩
    · rw [(hcopied n hn).1, (hcopied n hn).2] at h
      rcases h with h | h <;> cases h
  let f : Formula := .atom ⟨"a == b", .compare (.var "a") .eq (.var "b")⟩
  have hchunk : e.store.chunk? ⟨"R", 0⟩ = some ⟨none, .unary .always f⟩ := by decide +kernel
  have hbody : Chunk.body e.config.unrollLimit ⟨none, .unary .always f⟩ = .ok f :=
    eq_ok_of_toOption (by decide +kernel)
  have hterm : (Scope.of e.interface).formula 0 f =
      .ok (.binary .equal (.constant "a") (.constant "b")) := eq_ok_of_toOption (by decide +kernel)
  have hpair : (⟨"a", 0⟩, ⟨"b", 0⟩) ∈ (Scope.of e.interface).comparisons 0 f := by decide +kernel
  have hcompared := declaresCompared_build e.groups (by decide +kernel)
    (outcome?_eq_asserted_iff.mpr ⟨_, hchunk, hbody, hterm⟩) hpair
    (by decide +kernel) (by decide +kernel)
  have hname : (Scope.of e.interface).nameOf ⟨"a", 0⟩ = "a" := by decide +kernel
  have hother : (Scope.of e.interface).nameOf ⟨"b", 0⟩ = "b" := by decide +kernel
  obtain ⟨-, -, -, hdeclared⟩ := hcompared
  rw [hdefaulted, hname, hother] at hdeclared
  exact ⟨hties, htyping, hdeclared, by decide +kernel, by decide +kernel⟩

/-- The link of `a` to `c` is dropped for the one to `b`, of which no type is told: `a` is an
integer and `c` a real, and the warning names only one of the two. -/
theorem build_droppedLink :
    let e := undeclaredEngine "G(a == b)\n\nG(a == c)\n\nG(c > 1.5)"
    let result := build e.store e.interface e.config.unrollLimit e.groups
    let f : Formula := .atom ⟨"a == c", .compare (.var "a") .eq (.var "c")⟩
    ⟨"R", 1⟩ ∈ e.store.formalChunks ∧
      e.store.chunk? ⟨"R", 1⟩ = some ⟨none, .unary .always f⟩ ∧
      line? e.store e.interface e.config.unrollLimit ⟨"R", 1⟩ =
        some "(assert (! (= a c) :named R_1))" ∧
      (⟨"a", 0⟩, ⟨"c", 0⟩) ∈ (Scope.of e.interface).comparisons 0 f ∧
      e.interface.isSignal "a" = false ∧ e.interface.isSignal "c" = false ∧
      result.1.constants =
        ["(declare-const a Int)", "(declare-const b Int)", "(declare-const c Real)"] ∧
      result.1.types.types.get? "a" = some .int ∧ result.1.types.types.get? "c" = some .real ∧
      result.2 = defaultWarning ["a", "b"] := by
  decide +kernel

end Smt

end TemporalRequirements
