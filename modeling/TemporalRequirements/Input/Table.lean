import TemporalRequirements.Text.Blank

/-!
# Tables with comma-separated fields

A row ends at a line break and its fields at commas, unless quotes enclose them; inside quotes a
quote is written twice.  Empty lines are no rows, and a quote left open runs to the end.  The first
row names the columns, and all fields are trimmed.
-/

namespace TemporalRequirements.Input

inductive Place where
  | rowStart
  | fieldStart
  | plain
  | quoted
  /-- After a quote inside quotes: it closes them unless another one follows. -/
  | afterQuote
  deriving DecidableEq, Repr

/-- What a character does to the field being read. -/
inductive Action where
  /-- The character belongs to the field. -/
  | take (next : Place)
  /-- The character is passed over. -/
  | pass (next : Place)
  | endField
  | endRow
  deriving DecidableEq, Repr

def isLineBreak (c : Char) : Bool := c == '\n' || c == '\r'

/-- What a character does outside quotes. -/
def plainAction (place : Place) (c : Char) : Action :=
  if c = ',' then .endField
  else if isLineBreak c then (if place = .rowStart then .pass .rowStart else .endRow)
  else .take .plain

def actionOf (place : Place) (c : Char) : Action :=
  match place with
  | .quoted => if c = '"' then .pass .afterQuote else .take .quoted
  | .afterQuote => if c = '"' then .take .quoted else plainAction .afterQuote c
  | .rowStart | .fieldStart => if c = '"' then .pass .quoted else plainAction place c
  | .plain => plainAction .plain c

/-- The rows of a text, after a field and the fields before it in their row, both backwards. -/
def rowsFrom : Place → List Char → List (List Char) → List Char → List (List (List Char))
  | .rowStart, _, _, [] => []
  | _, field, fields, [] => [(field.reverse :: fields).reverse]
  | place, field, fields, c :: rest =>
    match actionOf place c with
    | .take next => rowsFrom next (c :: field) fields rest
    | .pass next => rowsFrom next field fields rest
    | .endField => rowsFrom .fieldStart [] (field.reverse :: fields) rest
    | .endRow => (field.reverse :: fields).reverse :: rowsFrom .rowStart [] [] rest

/-- The mark that may stand before a text to tell its encoding. -/
def byteOrderMark : Char := '\uFEFF'

def rows (text : String) : List (List String) :=
  let s := match text.toList with
    | c :: rest => if c = byteOrderMark then rest else c :: rest
    | [] => []
  (rowsFrom .rowStart [] [] s).map fun fields ↦ fields.map fun f ↦ String.ofList (Text.trim f)

/-- A table: the names of its columns and its records. -/
structure Table where
  header : List String
  records : List (List String)
  deriving DecidableEq, Repr

def Table.parse (text : String) : Table :=
  match rows text with
  | [] => ⟨[], []⟩
  | header :: records => ⟨header, records⟩

def Table.isComplete (t : Table) (record : List String) : Bool :=
  t.header.length ≤ record.length

/-- The field of a record in a column that occurs once. -/
def Table.field? (t : Table) (record : List String) (column : String) : Option String :=
  if t.header.count column = 1 then record[t.header.idxOf column]? else none

/-- The field of a record in a column that may be missing, and is empty then. -/
def Table.optionalField? (t : Table) (record : List String) (column : String) : Option String :=
  if column ∈ t.header then t.field? record column else some ""

end TemporalRequirements.Input
