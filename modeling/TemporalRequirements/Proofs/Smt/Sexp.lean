import TemporalRequirements.Proofs.Text.Pieces
import TemporalRequirements.Smt.Encoding

/-!
# S-expressions

What a solver sees of a term is its text: symbols, brackets and blanks.  The text of a term is read
as the tree of that term, if every leaf of the term is one symbol.  A leaf with a blank in it is
read as several.
-/

namespace TemporalRequirements.Smt

/-! ## Reading -/

/-- An S-expression: a symbol, or a list that is built from its end. -/
inductive Sexp where
  | symbol (text : String)
  | nil
  | cons (head tail : Sexp)
  deriving DecidableEq, Repr

def isSymbolPart (c : Char) : Bool := c.isAlphanum || "~!@$%^&*_-+=<>.?/".toList.contains c

def symbolPieces (s : List Char) : List Text.Piece :=
  Text.piecesFrom isSymbolPart isSymbolPart [] s

/-- Reads one piece from the right.  The lists that are open so far are kept innermost first, and
what is read becomes the first element of the innermost one. -/
def readPiece : Text.Piece → Option (List Sexp) → Option (List Sexp)
  | .name letters, some (current :: outer) =>
    some (.cons (.symbol (String.ofList letters)) current :: outer)
  | .other ' ', some stack => some stack
  | .other ')', some stack => some (.nil :: stack)
  | .other '(', some (current :: enclosing :: outer) => some (.cons current enclosing :: outer)
  | _, _ => none

def Sexp.read? (text : String) : Option Sexp :=
  match (symbolPieces text.toList).foldr readPiece (some [.nil]) with
  | some [.cons e .nil] => some e
  | _ => none

/-! ## Terms -/

def Expr.sexp : Expr → Sexp
  | .truth b => .symbol (truthText b)
  | .number text => .symbol text
  | .constant name => .symbol name
  | .literal name => .symbol name
  | .unary op e => .cons (.symbol op.symbol) (.cons (sexp e) .nil)
  | .binary op l r => .cons (.symbol op.symbol) (.cons (sexp l) (.cons (sexp r) .nil))

structure IsSymbol (text : String) : Prop where
  nonempty : text.toList ≠ []
  parts : ∀ c ∈ text.toList, isSymbolPart c = true

/-- Whether every leaf of a term is one symbol. -/
def Expr.IsLegible : Expr → Prop
  | .truth _ => True
  | .number text | .constant text | .literal text => IsSymbol text
  | .unary _ e => IsLegible e
  | .binary _ l r => IsLegible l ∧ IsLegible r

theorem isSymbol_truthText (b : Bool) : IsSymbol (truthText b) := by
  cases b <;> exact ⟨List.cons_ne_nil _ _, List.all_eq_true.mp rfl⟩

theorem isSymbol_symbol (op : Op) : IsSymbol op.symbol := by
  cases op <;> exact ⟨List.cons_ne_nil _ _, List.all_eq_true.mp rfl⟩

theorem symbolPieces_symbol {text : String} (h : IsSymbol text) :
    symbolPieces text.toList = [.name text.toList] := by
  obtain ⟨c, rest, hlist⟩ := List.exists_cons_of_ne_nil h.nonempty
  have hparts := h.parts
  rw [hlist] at hparts ⊢
  exact Text.piecesFrom_name (hparts c List.mem_cons_self)
    fun d hd ↦ hparts d (List.mem_cons_of_mem c hd)

theorem symbolPieces_append {c : Char} (h : isSymbolPart c = false) (s rest : List Char) :
    symbolPieces (s ++ c :: rest) = symbolPieces s ++ .other c :: symbolPieces rest :=
  Text.piecesFrom_append h h [] s rest

theorem symbolPieces_cons {c : Char} (h : isSymbolPart c = false) (s : List Char) :
    symbolPieces (c :: s) = .other c :: symbolPieces s :=
  Text.piecesFrom_cons h s

theorem foldr_readPiece_symbol {text : String} (h : IsSymbol text) (current : Sexp)
    (outer : List Sexp) :
    (symbolPieces text.toList).foldr readPiece (some (current :: outer)) =
      some (.cons (.symbol text) current :: outer) := by
  rw [symbolPieces_symbol h, List.foldr_cons, List.foldr_nil, readPiece, String.ofList_toList]

/-- Reading the text of a term adds its tree to the list that is open. -/
theorem foldr_readPiece_print {e : Expr} (h : e.IsLegible) (current : Sexp) (outer : List Sexp) :
    (symbolPieces e.print.toList).foldr readPiece (some (current :: outer)) =
      some (.cons e.sexp current :: outer) := by
  have hopen : isSymbolPart '(' = false := by decide
  have hclose : isSymbolPart ')' = false := by decide
  have hblank : isSymbolPart ' ' = false := by decide
  -- A text is read from its end, so the bracket that closes a list opens it here.
  have hend (current : Sexp) (outer : List Sexp) : readPiece (.other ')')
      ((symbolPieces []).foldr readPiece (some (current :: outer))) =
        some (.nil :: current :: outer) := rfl
  induction e generalizing current outer with
  | truth b => exact foldr_readPiece_symbol (isSymbol_truthText b) current outer
  | number text => exact foldr_readPiece_symbol h current outer
  | constant name => exact foldr_readPiece_symbol h current outer
  | literal name => exact foldr_readPiece_symbol h current outer
  | unary op e ih =>
    have htext : (Expr.unary op e).print.toList =
        '(' :: (op.symbol.toList ++ ' ' :: (e.print.toList ++ [')'])) := by
      simp [Expr.print, String.toList_append]
    rw [htext, symbolPieces_cons hopen, symbolPieces_append hblank, symbolPieces_append hclose]
    simp only [List.foldr_cons, List.foldr_append]
    rw [hend, ih h, readPiece, foldr_readPiece_symbol (isSymbol_symbol op)]
    rfl
  | binary op l r ihl ihr =>
    have htext : (Expr.binary op l r).print.toList =
        '(' :: (op.symbol.toList ++
          ' ' :: (l.print.toList ++ ' ' :: (r.print.toList ++ [')']))) := by
      simp [Expr.print, String.toList_append]
    rw [htext, symbolPieces_cons hopen, symbolPieces_append hblank, symbolPieces_append hblank,
      symbolPieces_append hclose]
    simp only [List.foldr_cons, List.foldr_append]
    rw [hend, ihr h.2, readPiece, ihl h.1, readPiece, foldr_readPiece_symbol (isSymbol_symbol op)]
    rfl

/-- The text of a legible term spells its tree. -/
theorem read?_print {e : Expr} (h : e.IsLegible) : Sexp.read? e.print = some e.sexp := by
  rw [Sexp.read?, foldr_readPiece_print h]

end TemporalRequirements.Smt
