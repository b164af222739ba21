import TemporalRequirements.Text.Blank
import TemporalRequirements.Text.Parentheses
import TemporalRequirements.Text.Search

/-!
# Scope keywords and unbalanced fragments

A keyword at the start of a property scopes it to the first step or to every step after it.
`balance` repairs a fragment of formula text at its edges: surplus openers are peeled from the
left, surplus closers from the right, and a leading keyword is set aside meanwhile.
-/

namespace TemporalRequirements

/-- The steps to which a keyword restricts a property. -/
inductive ScopeTag where
  | initialCondition
  | afterInitialCondition
  deriving DecidableEq, Repr

namespace ScopeTag

def keyword : ScopeTag → String
  | initialCondition => "InitialConditionRequirement"
  | afterInitialCondition => "AfterInitialConditionRequirement"

/-- The scopes, the one with the longer keyword first. -/
def all : List ScopeTag := [afterInitialCondition, initialCondition]

/-- Takes a leading keyword, with the blanks before it, off a text. -/
def split (s : List Char) : Option ScopeTag × List Char :=
  let found := all.findSome? fun tag ↦
    (Text.after? tag.keyword.toList (Text.trimStart s)).map fun rest ↦ (some tag, rest)
  found.getD (none, s)

def keywordOf : Option ScopeTag → String
  | some tag => tag.keyword
  | none => ""

end ScopeTag

/-- A fragment whose parentheses cannot be balanced at its edges, and what was left of it. -/
structure BalanceError where
  fragment : String
  remainder : String
  deriving DecidableEq, Repr

def BalanceError.message (e : BalanceError) : String :=
  "unbalanced parentheses in `" ++ e.fragment ++ "` (left with `" ++ e.remainder ++ "`)"

/-- Peels openers, each perhaps with a temporal letter, and blanks off the front of a text; what is
left when something else stands there is the error. -/
def peelOpeners : Nat → List Char → Except (List Char) (List Char)
  | 0, s => .ok s
  | _ + 1, [] => .error []
  | n + 1, c :: rest =>
    if Text.isBlank c then peelOpeners (n + 1) rest
    else if c = '(' then peelOpeners n rest
    else
      match rest with
      | '(' :: rest' => if c = 'G' || c = 'F' then peelOpeners n rest' else .error (c :: rest)
      | _ => .error (c :: rest)

/-- Peels closers and blanks off the front of a text that is written backwards. -/
def peelClosers : Nat → List Char → Except (List Char) (List Char)
  | 0, s => .ok s
  | _ + 1, [] => .error []
  | n + 1, c :: rest =>
    if Text.isBlank c then peelClosers (n + 1) rest
    else if c = ')' then peelClosers n rest
    else .error (c :: rest)

def balanceEdges (s : List Char) : Except (List Char) (List Char) :=
  let opened := s.count '('
  let closed := s.count ')'
  if closed < opened then peelOpeners (opened - closed) s
  else
    match peelClosers (closed - opened) s.reverse with
    | .ok back => .ok back.reverse
    | .error back => .error back.reverse

def balance (fragment : String) : Except BalanceError String :=
  let (tag, rest) := ScopeTag.split fragment.toList
  let withKeyword (s : List Char) := ScopeTag.keywordOf tag ++ String.ofList s
  match balanceEdges rest with
  | .ok s => .ok (withKeyword s)
  | .error s => .error ⟨fragment, withKeyword s⟩

end TemporalRequirements
