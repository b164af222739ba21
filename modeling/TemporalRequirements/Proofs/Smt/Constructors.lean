import Mathlib.Data.List.Nodup
import TemporalRequirements.Proofs.Smt.Naming
import TemporalRequirements.Smt.Script

/-!
# The constructors of a script

A literal keeps its name in one enumeration, that with the longest name.  Elsewhere the name of the
enumeration is attached to it, and what comes out may be the name of another literal: one that is
spelled so, or one that gets its name in the same way.  These are the only ways in which a
constructor is declared twice, but for a literal that an enumeration lists twice.
-/

namespace TemporalRequirements

/-- The interfaces that declarations lead to, whatever the identifiers. -/
inductive Interface.IsDeclared : Interface → Prop where
  | start (identifier : String → String) : IsDeclared (.withIdentifier identifier)
  | signal {i : Interface} (h : IsDeclared i) (s : Signal) : IsDeclared (i.declare s)
  | enumeration {i : Interface} (h : IsDeclared i) (e : Enumeration) :
      IsDeclared (i.declareEnum e)

namespace Interface.IsDeclared

variable {i : Interface}

/-- An enumeration is declared under its own name. -/
theorem name_eq (h : i.IsDeclared) {name : String} {e : Enumeration}
    (he : i.enums.get? name = some e) : e.name = name := by
  induction h with
  | start identifier => cases he
  | signal _ s ih => exact ih he
  | enumeration _ e' ih =>
    rw [declareEnum, OrderedMap.get?_insert] at he
    split at he
    · rename_i hname
      exact Option.some.inj he ▸ hname
    · exact ih he

/-- Enumerations are registered under their names. -/
theorem map_name_values (h : i.IsDeclared) :
    i.enums.values.map Enumeration.name = i.enums.keys := by
  rw [OrderedMap.values, OrderedMap.keys, List.map_map]
  apply List.map_congr_left
  rintro ⟨name, e⟩ hmem
  exact h.name_eq ((i.enums.get?_eq_some_iff name e).mpr hmem)

theorem nodup_enums (h : i.IsDeclared) : i.enums.values.Nodup := by
  apply List.Nodup.of_map Enumeration.name
  rw [h.map_name_values]
  exact i.enums.nodup_keys

/-- An enumeration is known from its name. -/
theorem eq_of_name_eq (h : i.IsDeclared) {e e' : Enumeration} (he : e ∈ i.enums.values)
    (he' : e' ∈ i.enums.values) (hname : e.name = e'.name) : e = e' := by
  have hnodup : (i.enums.values.map Enumeration.name).Nodup := by
    rw [h.map_name_values]
    exact i.enums.nodup_keys
  exact List.inj_on_of_nodup_map hnodup he he' hname

end Interface.IsDeclared

namespace Smt

variable {i : Interface} {e e' : Enumeration} {l l' : String}

/-- Whether an enumeration has a name longer than all before it in a list, and one no shorter than
all after it. -/
def IsLongest (e : Enumeration) (es : List Enumeration) : Prop :=
  ∃ before after, es = before ++ e :: after ∧
    (∀ e' ∈ before, e'.name.utf8ByteSize < e.name.utf8ByteSize) ∧
    ∀ e' ∈ after, e'.name.utf8ByteSize ≤ e.name.utf8ByteSize

theorem foldl_longerName_append (es : List Enumeration) (e : Enumeration) :
    (es ++ [e]).foldl longerName none = longerName (es.foldl longerName none) e := by
  rw [List.foldl_append]
  rfl

/-- The fold finds the longest name, and the first of equals. -/
theorem isLongest_of_foldl {es : List Enumeration}
    (h : es.foldl longerName none = some e) : IsLongest e es := by
  induction es using List.reverseRecOn generalizing e with
  | nil => cases h
  | append_singleton es c ih =>
    rw [foldl_longerName_append] at h
    cases hbest : es.foldl longerName none with
    | none =>
      rw [hbest] at h
      obtain rfl := Option.some.inj h
      cases es with
      | nil => exact ⟨[], [], rfl, nofun, nofun⟩
      | cons first es =>
        obtain ⟨best, hsome⟩ := exists_foldl_longerName es first
        exact absurd (hsome.symm.trans hbest) (Option.some_ne_none best)
    | some best =>
      rw [hbest, longerName] at h
      obtain ⟨before, after, rfl, hbefore, hafter⟩ := ih hbest
      split at h
      · rename_i hlonger
        obtain rfl := Option.some.inj h
        refine ⟨before, after ++ [c], by simp, hbefore, ?_⟩
        exact List.forall_mem_append.mpr ⟨hafter, List.forall_mem_singleton.mpr hlonger⟩
      · rename_i hshorter
        obtain rfl := Option.some.inj h
        refine ⟨before ++ best :: after, [], by simp, ?_, nofun⟩
        have hlt : best.name.utf8ByteSize < c.name.utf8ByteSize := Nat.lt_of_not_le hshorter
        refine List.forall_mem_append.mpr ⟨fun e' he' ↦ (hbefore e' he').trans hlt, ?_⟩
        exact List.forall_mem_cons.mpr ⟨hlt, fun e' he' ↦ (hafter e' he').trans_lt hlt⟩

theorem foldl_of_isLongest {es : List Enumeration} (h : IsLongest e es) :
    es.foldl longerName none = some e := by
  obtain ⟨before, after, rfl, hbefore, hafter⟩ := h
  have hfirst : longerName (before.foldl longerName none) e = some e := by
    cases hbest : before.foldl longerName none with
    | none => rfl
    | some best =>
      obtain ⟨front, back, rfl, -, -⟩ := isLongest_of_foldl hbest
      have hlt := hbefore best (List.mem_append_right front List.mem_cons_self)
      exact if_neg (Nat.not_le_of_lt hlt)
  have hrest : after.foldl longerName (some e) = some e := by
    clear hfirst
    induction after with
    | nil => rfl
    | cons c after ih =>
      obtain ⟨hc, hafter⟩ := List.forall_mem_cons.mp hafter
      rw [List.foldl_cons, longerName, if_pos hc]
      exact ih hafter
  rw [List.foldl_append, List.foldl_cons, hfirst, hrest]

/-- Whether an enumeration has the longest name of all with a literal, and is the first of those
with names of that length. -/
def IsKeeper (i : Interface) (l : String) (e : Enumeration) : Prop :=
  l ∈ e.literals ∧ IsLongest e (i.enumsWithLiteral l)

theorem keeper?_eq_some_iff : keeper? i l = some e ↔ IsKeeper i l e := by
  constructor
  · intro h
    have hlongest : IsLongest e (i.enumsWithLiteral l) := isLongest_of_foldl h
    obtain ⟨before, after, hes, -, -⟩ := id hlongest
    have hmem : e ∈ i.enumsWithLiteral l := hes ▸ List.mem_append_right _ List.mem_cons_self
    exact ⟨of_decide_eq_true (List.mem_filter.mp hmem).2, hlongest⟩
  · rintro ⟨-, h⟩
    exact foldl_of_isLongest h

theorem IsKeeper.mem (h : IsKeeper i l e) : e ∈ i.enums.values := by
  obtain ⟨-, before, after, hes, -, -⟩ := h
  have hmem : e ∈ i.enumsWithLiteral l := hes ▸ List.mem_append_right _ List.mem_cons_self
  exact (List.mem_filter.mp hmem).1

theorem IsKeeper.unique (h : IsKeeper i l e) (h' : IsKeeper i l e') : e = e' :=
  Option.some.inj ((keeper?_eq_some_iff.mpr h).symm.trans (keeper?_eq_some_iff.mpr h'))

theorem exists_isKeeper (he : e ∈ i.enums.values) (hl : l ∈ e.literals) :
    ∃ keeper, IsKeeper i l keeper := by
  have hliteral : i.isLiteral l = true := List.any_eq_true.mpr ⟨e, he, decide_eq_true hl⟩
  obtain ⟨keeper, hkeeper⟩ := exists_keeper? hliteral
  exact ⟨keeper, keeper?_eq_some_iff.mp hkeeper⟩

/-! ## Names of literals -/

theorem literalName_of_isKeeper (h : IsKeeper i l e) : literalName i e.name l = l := by
  rw [literalName, keeper?_eq_some_iff.mpr h]
  exact if_pos rfl

theorem literalName_of_not_isKeeper (hi : i.IsDeclared) (he : e ∈ i.enums.values)
    (hl : l ∈ e.literals) (h : ¬ IsKeeper i l e) :
    literalName i e.name l = l ++ "_" ++ e.name := by
  obtain ⟨keeper, hkeeper⟩ := exists_isKeeper he hl
  rw [literalName, keeper?_eq_some_iff.mpr hkeeper]
  apply if_neg
  intro hname
  exact h (hi.eq_of_name_eq hkeeper.mem he hname ▸ hkeeper)

theorem append_underscore_ne (l name : String) : l ++ "_" ++ name ≠ l := by
  intro h
  have hlength := congrArg (fun t ↦ t.toList.length) h
  simp at hlength

/-- How the name that a literal gets in an enumeration comes to be that of another literal. -/
inductive Meets (i : Interface) (e e' : Enumeration) (l l' : String) : Prop
  /-- The other literal is spelled so, and keeps its name. -/
  | kept (h : ¬ IsKeeper i l e) (h' : IsKeeper i l' e') (hl : l' = l ++ "_" ++ e.name)
  /-- The other literal gets the rest of the name from its own enumeration. -/
  | joined (between : String) (h : ¬ IsKeeper i l e) (h' : ¬ IsKeeper i l' e')
      (hl : l' = l ++ "_" ++ between) (he : e.name = between ++ "_" ++ e'.name)

/-- Joined names are the same if their parts are, or if a part of one is joined itself. -/
theorem joined_eq_joined_iff {a a' b b' : String} :
    a ++ "_" ++ b = a' ++ "_" ++ b' ↔ (a = a' ∧ b = b') ∨
      (∃ between, a' = a ++ "_" ++ between ∧ b = between ++ "_" ++ b') ∨
      ∃ between, a = a' ++ "_" ++ between ∧ b' = between ++ "_" ++ b := by
  have hpart {a b : String} {between : List Char} (h : a.toList = b.toList ++ '_' :: between) :
      a = b ++ "_" ++ String.ofList between := by
    apply String.toList_inj.mp
    simpa using h
  have hrest {a b : String} {between : List Char} (h : a.toList = between ++ '_' :: b.toList) :
      a = String.ofList between ++ "_" ++ b := by
    apply String.toList_inj.mp
    simpa using h
  constructor
  · intro h
    have hlist : a.toList ++ '_' :: b.toList = a'.toList ++ '_' :: b'.toList := by
      simpa using congrArg String.toList h
    rcases append_cons_eq_append_cons hlist with ⟨ha, -, hb⟩ | ⟨between, ha, hb⟩ | ⟨between, ha, hb⟩
    · exact .inl ⟨String.toList_inj.mp ha, String.toList_inj.mp hb⟩
    · exact .inr (.inl ⟨String.ofList between, hpart ha, hrest hb⟩)
    · exact .inr (.inr ⟨String.ofList between, hpart ha, hrest hb⟩)
  · rintro (⟨rfl, rfl⟩ | ⟨between, rfl, rfl⟩ | ⟨between, rfl, rfl⟩)
    · rfl
    · simp only [String.append_assoc]
    · simp only [String.append_assoc]

/-- Different literals have one name if and only if one of them meets the other. -/
theorem literalName_eq_iff_meets (hi : i.IsDeclared) (he : e ∈ i.enums.values)
    (he' : e' ∈ i.enums.values) (hl : l ∈ e.literals) (hl' : l' ∈ e'.literals)
    (hne : (e, l) ≠ (e', l')) :
    literalName i e.name l = literalName i e'.name l' ↔ Meets i e e' l l' ∨ Meets i e' e l' l := by
  constructor
  · intro h
    by_cases hkeeps : IsKeeper i l e <;> by_cases hkeeps' : IsKeeper i l' e'
    · rw [literalName_of_isKeeper hkeeps, literalName_of_isKeeper hkeeps'] at h
      subst h
      exact absurd (congrArg (·, l) (hkeeps.unique hkeeps')) hne
    · rw [literalName_of_isKeeper hkeeps, literalName_of_not_isKeeper hi he' hl' hkeeps'] at h
      exact .inr (.kept hkeeps' hkeeps h)
    · rw [literalName_of_not_isKeeper hi he hl hkeeps, literalName_of_isKeeper hkeeps'] at h
      exact .inl (.kept hkeeps hkeeps' h.symm)
    · rw [literalName_of_not_isKeeper hi he hl hkeeps,
        literalName_of_not_isKeeper hi he' hl' hkeeps', joined_eq_joined_iff] at h
      rcases h with ⟨rfl, hname⟩ | ⟨between, hliteral, hname⟩ | ⟨between, hliteral, hname⟩
      · exact absurd (congrArg (·, l) (hi.eq_of_name_eq he he' hname)) hne
      · exact .inl (.joined between hkeeps hkeeps' hliteral hname)
      · exact .inr (.joined between hkeeps' hkeeps hliteral hname)
  · have hmeets {e e' : Enumeration} {l l' : String} (he : e ∈ i.enums.values)
        (he' : e' ∈ i.enums.values) (hl : l ∈ e.literals) (hl' : l' ∈ e'.literals)
        (h : Meets i e e' l l') : literalName i e.name l = literalName i e'.name l' := by
      cases h with
      | kept h h' heq =>
        rw [literalName_of_not_isKeeper hi he hl h, literalName_of_isKeeper h', heq]
      | joined between h h' heq hname =>
        rw [literalName_of_not_isKeeper hi he hl h, literalName_of_not_isKeeper hi he' hl' h',
          joined_eq_joined_iff]
        exact .inr (.inl ⟨between, heq, hname⟩)
    rintro (h | h)
    · exact hmeets he he' hl hl' h
    · exact (hmeets he' he hl' hl h).symm

/-! ## Constructors -/

def declaredLiterals (i : Interface) : List (Enumeration × String) :=
  i.enums.values.flatMap fun e ↦ e.literals.map (e, ·)

def constructors (i : Interface) (e : Enumeration) : List String :=
  e.literals.map (literalName i e.name)

theorem mem_declaredLiterals {p : Enumeration × String} :
    p ∈ declaredLiterals i ↔ p.1 ∈ i.enums.values ∧ p.2 ∈ p.1.literals := by
  obtain ⟨e, l⟩ := p
  simp [declaredLiterals]

theorem flatMap_constructors : i.enums.values.flatMap (constructors i) =
    (declaredLiterals i).map fun p ↦ literalName i p.1.name p.2 := by
  rw [declaredLiterals, List.map_flatMap]
  apply List.flatMap_congr
  intro e _
  rw [List.map_map]
  rfl

/-- The declared literals are distinct if each enumeration has no literal twice. -/
theorem nodup_declaredLiterals_iff (hi : i.IsDeclared) :
    (declaredLiterals i).Nodup ↔ ∀ e ∈ i.enums.values, e.literals.Nodup := by
  have hpart (e : Enumeration) : (e.literals.map (e, ·)).Nodup ↔ e.literals.Nodup :=
    List.nodup_map_iff fun l l' h ↦ (Prod.mk.inj h).2
  have hapart : i.enums.values.Pairwise
      (Function.onFun List.Disjoint fun e ↦ e.literals.map (e, ·)) := by
    refine hi.nodup_enums.imp fun {e e'} hne p hp hp' ↦ hne ?_
    obtain ⟨l, -, rfl⟩ := List.mem_map.mp hp
    obtain ⟨l', -, heq⟩ := List.mem_map.mp hp'
    exact (Prod.mk.inj heq).1.symm
  rw [declaredLiterals, List.nodup_flatMap, and_iff_left hapart]
  exact forall₂_congr fun e _ ↦ hpart e

theorem get?_literalNames_of_mem {p : Enumeration × String} (h : p ∈ declaredLiterals i) :
    (literalNames i).get? (p.1.name, p.2) = some (literalName i p.1.name p.2) := by
  obtain ⟨he, hl⟩ := mem_declaredLiterals.mp h
  have hliteral : hasLiteral i p.1.name p.2 = true :=
    List.any_eq_true.mpr ⟨p.1, he, by simpa using hl⟩
  rw [get?_literalNames, if_pos hliteral]

def datatypeText (sort : String) (names : List String) : String :=
  "(declare-datatypes ((" ++ sort ++ " 0)) ((" ++
    " ".intercalate (names.map fun name ↦ "(" ++ name ++ ")") ++ ")))"

/-- The line of an enumeration declares its constructors. -/
theorem datatypeLine_eq (he : e ∈ i.enums.values) :
    datatypeLine (Scope.of i) e = datatypeText (i.identifier e.name) (constructors i e) := by
  have hparts : (e.literals.map fun l ↦ "(" ++ ((literalNames i).get? (e.name, l)).getD l ++ ")") =
      (constructors i e).map fun name ↦ "(" ++ name ++ ")" := by
    rw [constructors, List.map_map]
    apply List.map_congr_left
    intro l hl
    rw [get?_literalNames_of_mem (p := (e, l)) (mem_declaredLiterals.mpr ⟨he, hl⟩)]
    rfl
  exact congrArg (fun parts ↦ "(declare-datatypes ((" ++ i.identifier e.name ++ " 0)) ((" ++
    " ".intercalate parts ++ ")))") hparts

theorem datatypes_build (s : Store) (i : Interface) (limit : UInt32)
    (groups : List (List ChunkRef)) : (build s i limit groups).1.datatypes =
      i.enums.values.map fun e ↦ datatypeText (i.identifier e.name) (constructors i e) :=
  List.map_congr_left fun _ he ↦ datatypeLine_eq he

theorem not_meets_self : ¬ Meets i e e l l := by
  intro h
  cases h with
  | kept h h' _ => exact h h'
  | joined between _ _ hl _ => exact append_underscore_ne l between hl.symm

/-- No constructor is declared twice if and only if no enumeration lists a literal twice and no
literal meets another. -/
theorem nodup_constructors_iff (hi : i.IsDeclared) :
    (i.enums.values.flatMap (constructors i)).Nodup ↔
      (∀ e ∈ i.enums.values, e.literals.Nodup) ∧
        ∀ p ∈ declaredLiterals i, ∀ q ∈ declaredLiterals i, ¬ Meets i p.1 q.1 p.2 q.2 := by
  have hsame {p q : Enumeration × String} (hp : p ∈ declaredLiterals i)
      (hq : q ∈ declaredLiterals i) (hne : p ≠ q) :=
    literalName_eq_iff_meets hi (mem_declaredLiterals.mp hp).1 (mem_declaredLiterals.mp hq).1
      (mem_declaredLiterals.mp hp).2 (mem_declaredLiterals.mp hq).2 hne
  rw [flatMap_constructors, ← nodup_declaredLiterals_iff hi]
  constructor
  · intro hnodup
    refine ⟨hnodup.of_map _, fun p hp q hq hmeets ↦ ?_⟩
    by_cases hpq : p = q
    · subst hpq
      exact not_meets_self hmeets
    · exact hpq (List.inj_on_of_nodup_map hnodup hp hq ((hsame hp hq hpq).mpr (.inl hmeets)))
  · rintro ⟨hnodup, hmeets⟩
    refine (List.nodup_map_iff_inj_on hnodup).mpr fun p hp q hq hname ↦ ?_
    by_contra hpq
    rcases (hsame hp hq hpq).mp hname with h | h
    · exact hmeets p hp q hq h
    · exact hmeets q hq p hp h

/-- What the names of the literals of an interface are, and when they are told apart. -/
structure NamesLiterals (i : Interface) : Prop where
  /-- A literal keeps its name in the enumeration with the longest name, the first of equals, and
  has that of the enumeration attached in all others. -/
  keeper : ∀ l, i.isLiteral l = true → ∃ e, e ∈ i.enums.values ∧ IsKeeper i l e ∧
    (literalNames i).get? (e.name, l) = some l ∧
    ∀ e' ∈ i.enums.values, l ∈ e'.literals → e' ≠ e →
      (literalNames i).get? (e'.name, l) = some (l ++ "_" ++ e'.name) ∧ l ++ "_" ++ e'.name ≠ l
  /-- Different literals have one name exactly if one of them meets the other. -/
  names : ∀ p ∈ declaredLiterals i, ∀ q ∈ declaredLiterals i, p ≠ q →
    ((literalNames i).get? (p.1.name, p.2) = (literalNames i).get? (q.1.name, q.2) ↔
      Meets i p.1 q.1 p.2 q.2 ∨ Meets i q.1 p.1 q.2 p.2)
  datatypes : ∀ s limit groups, (build s i limit groups).1.datatypes =
    i.enums.values.map fun e ↦ datatypeText (i.identifier e.name) (constructors i e)
  /-- A constructor is declared twice only if literals meet or one is listed twice. -/
  nodup : (i.enums.values.flatMap (constructors i)).Nodup ↔
    (∀ e ∈ i.enums.values, e.literals.Nodup) ∧
      ∀ p ∈ declaredLiterals i, ∀ q ∈ declaredLiterals i, ¬ Meets i p.1 q.1 p.2 q.2

/-- The names of the literals of a declared interface are told apart but for those that meet. -/
theorem namesLiterals_of_isDeclared {i : Interface} (hi : i.IsDeclared) : NamesLiterals i where
  keeper l hl := by
    obtain ⟨e, he, hmem⟩ := List.any_eq_true.mp hl
    obtain ⟨keeper, hkeeper⟩ := exists_isKeeper he (of_decide_eq_true hmem)
    have hname {e' : Enumeration} (he' : e' ∈ i.enums.values) (hl' : l ∈ e'.literals) :
        (literalNames i).get? (e'.name, l) = some (literalName i e'.name l) :=
      get?_literalNames_of_mem (p := (e', l)) (mem_declaredLiterals.mpr ⟨he', hl'⟩)
    refine ⟨keeper, hkeeper.mem, hkeeper, ?_, fun e' he' hl' hne ↦ ⟨?_, append_underscore_ne l _⟩⟩
    · rw [hname hkeeper.mem hkeeper.1, literalName_of_isKeeper hkeeper]
    · rw [hname he' hl', literalName_of_not_isKeeper hi he' hl' fun h ↦ hne (h.unique hkeeper)]
  names p hp q hq hne := by
    rw [get?_literalNames_of_mem hp, get?_literalNames_of_mem hq, Option.some_inj]
    exact literalName_eq_iff_meets hi (mem_declaredLiterals.mp hp).1 (mem_declaredLiterals.mp hq).1
      (mem_declaredLiterals.mp hp).2 (mem_declaredLiterals.mp hq).2 hne
  datatypes s limit groups := datatypes_build s i limit groups
  nodup := nodup_constructors_iff hi

/-- Of two names with four letters the first keeps a shared literal, and a longer one comes before
both. -/
theorem namesLiterals_of_isDeclared_lamps :
    let i := ((Interface.empty.declareEnum ⟨"Mode", ["Idle", "Run"]⟩).declareEnum
      ⟨"Lamp", ["Idle", "Off"]⟩).declareEnum ⟨"Heater", ["Off"]⟩
    i.IsDeclared ∧ NamesLiterals i ∧
      i.enums.values.flatMap (constructors i) = ["Idle", "Run", "Idle_Lamp", "Off_Lamp", "Off"] ∧
      ∀ p ∈ declaredLiterals i, ∀ q ∈ declaredLiterals i, ¬ Meets i p.1 q.1 p.2 q.2 := by
  intro i
  have hi : i.IsDeclared := (((Interface.IsDeclared.start safeName).enumeration _).enumeration
    _).enumeration _
  have hnames : i.enums.values.flatMap (constructors i) =
      ["Idle", "Run", "Idle_Lamp", "Off_Lamp", "Off"] := by decide +kernel
  have hnodup : (i.enums.values.flatMap (constructors i)).Nodup := hnames ▸ by decide
  have hall : NamesLiterals i := namesLiterals_of_isDeclared hi
  exact ⟨hi, hall, hnames, (hall.nodup.mp hnodup).2⟩

/-- The name that `Idle` gets in `Lamp` is a literal of `Pump`, which keeps it: two enumerations
declare one constructor. -/
theorem constructors_idle_lamp :
    let i := ((Interface.empty.declareEnum ⟨"Mode", ["Idle"]⟩).declareEnum
      ⟨"Lamp", ["Idle"]⟩).declareEnum ⟨"Pump", ["Idle_Lamp"]⟩
    (literalNames i).entries = [(("Mode", "Idle"), "Idle"), (("Lamp", "Idle"), "Idle_Lamp"),
        (("Pump", "Idle_Lamp"), "Idle_Lamp")] ∧
      ¬ (∀ i : Interface, i.IsDeclared → ∀ k k' name, (literalNames i).get? k = some name →
        (literalNames i).get? k' = some name → k = k') ∧
      ∀ s limit groups, (build s i limit groups).1.datatypes =
        ["(declare-datatypes ((Mode 0)) (((Idle))))",
          "(declare-datatypes ((Lamp 0)) (((Idle_Lamp))))",
          "(declare-datatypes ((Pump 0)) (((Idle_Lamp))))"] := by
  intro i
  have hi : i.IsDeclared := (((Interface.IsDeclared.start safeName).enumeration _).enumeration
    _).enumeration _
  refine ⟨by decide +kernel, fun h ↦ ?_, fun s limit groups ↦ ?_⟩
  · have hkeys := h i hi ("Lamp", "Idle") ("Pump", "Idle_Lamp") "Idle_Lamp" (by decide +kernel)
      (by decide +kernel)
    exact absurd hkeys (by decide)
  · rw [datatypes_build]
    decide +kernel

end Smt

end TemporalRequirements
