import TemporalRequirements.Interface.Basic

/-!
# Types of SMT constants

What is known of the type of a constant comes from declarations and from its uses.  A use may say
no more than that two constants have the same type.  `TypeTable.resolve` passes known types along
such links, and between a variable and its copies one step later, until nothing changes; what is
still open then becomes an integer.
-/

namespace TemporalRequirements.Smt

/-- What is known of the type of a constant. -/
inductive SmtType where
  | bool
  | int
  | real
  | enumeration (name : String)
  /-- The type of another constant. -/
  | sameAs (name : String)
  | unknown
  deriving DecidableEq, Repr, Inhabited

namespace SmtType

def ofDataType : DataType → SmtType
  | .boolean => bool
  | .integer _ _ => int
  | .real => real
  | .enumeration name => enumeration name
  | .unknown _ => unknown

/-- Whether the type is known for itself. -/
def isConcrete : SmtType → Bool
  | bool | int | real | enumeration _ => true
  | sameAs _ | unknown => false

/-- What two uses of one constant tell together: a concrete type wins over an open one and a real
over an integer; otherwise the first stays. -/
def merge (a b : SmtType) : SmtType :=
  if !a.isConcrete && b.isConcrete then b
  else if a = int && b = real then b
  else a

def enumName? : SmtType → Option String
  | enumeration name => some name
  | _ => none

end SmtType

/-! ## Tables of types -/

/-- What is written before a name for its copy one step later. -/
def shiftLetter : String := "x"

/-- The name of the copy one step later. -/
def shiftedOnce (name : String) : String := shiftLetter ++ name

theorem toList_shiftedOnce (name : String) : (shiftedOnce name).toList = 'x' :: name.toList := by
  rw [shiftedOnce, String.toList_append]
  rfl

/-- The types of constants, and the names that are declared signals. -/
structure TypeTable where
  types : OrderedMap String SmtType
  declared : List String

namespace TypeTable

/-- The table without names. -/
def empty : TypeTable := ⟨.empty, []⟩

/-- Declares a name as a signal, which is no copy of another. -/
def declare (t : TypeTable) (name : String) : TypeTable :=
  { t with declared := t.declared ++ [name] }

def register (t : TypeTable) (name : String) (type : SmtType) : TypeTable :=
  let known :=
    match t.types.get? name with
    | some seen => seen.merge type
    | none => type
  { t with types := t.types.insert name known }

/-! ## Resolving -/

/-- The name of which `name` is the copy one step later. -/
def base? (t : TypeTable) (name : String) : Option String :=
  if name ∈ t.declared then none
  else
    match name.toList with
    | c :: rest =>
      let base := String.ofList rest
      if [c] = shiftLetter.toList && t.types.contains base then some base else none
    | [] => none

/-- The copy of `name` one step later, if it is known. -/
def copy? (t : TypeTable) (name : String) : Option String :=
  let copy := shiftedOnce name
  if t.types.contains copy && !(copy ∈ t.declared) then some copy else none

def peers (t : TypeTable) (name : String) (type : SmtType) : List String :=
  let linked := match type with
    | .sameAs other => [other]
    | _ => []
  linked ++ (t.base? name).toList ++ (t.copy? name).toList

def peerType? (t : TypeTable) (name : String) (type : SmtType) : Option SmtType :=
  ((t.peers name type).filterMap t.types.get?).find? SmtType.isConcrete

/-- Fixes the type of a name, if it is open and a peer has a concrete one. -/
def fix (t : TypeTable) (name : String) : TypeTable :=
  match t.types.get? name with
  | none => t
  | some type =>
    if type.isConcrete then t
    else
      match t.peerType? name type with
      | some found => { t with types := t.types.insert name found }
      | none => t

/-- Tries to fix every name once, in order. -/
def pass (t : TypeTable) : TypeTable := t.types.keys.foldl fix t

/-- Passes until one changes nothing, at most `n` times. -/
def passes : Nat → TypeTable → TypeTable
  | 0, t => t
  | n + 1, t =>
    let next := t.pass
    if next.types.entries = t.types.entries then t else passes n next

def openNames (t : TypeTable) : List String :=
  (t.types.entries.filter fun e ↦ !e.2.isConcrete).map Prod.fst

def defaultOpen (t : TypeTable) : TypeTable :=
  { t with types := t.types.mapValues fun _ type ↦ if type.isConcrete then type else .int }

/-- Passes until nothing can change, and then makes open types integers; the names of these are
returned with the table. -/
def resolve (t : TypeTable) : TypeTable × List String :=
  let settled := t.passes (t.types.size + 1)
  (settled.defaultOpen, settled.openNames)

end TypeTable

end TemporalRequirements.Smt
