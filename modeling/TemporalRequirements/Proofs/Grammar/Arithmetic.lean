import TemporalRequirements.Proofs.Grammar.FormulaSound
import TemporalRequirements.Proofs.Grammar.Printed

/-!
# Arithmetic as it is written

A chain is written as a first operand and, for each operation, its sign and its right operand.  It
is read from the left, each operation as its sign says, but for one: a minus sign with a gap after
it is read as the remainder.  Every operation in an atom that is read stands in the text of the atom
as such a chain, and the text of the atom spells no other predicate.
-/

namespace TemporalRequirements

mutual

/-- The operations in a term, each with its operands. -/
def Term.operations : Term → List Term
  | .var _ | .number _ | .truth _ => []
  | .neg t => Term.operations t
  | .arith op l r => .arith op l r :: (Term.operations l ++ Term.operations r)
  | .call _ args => Term.operationsList args

def Term.operationsList : List Term → List Term
  | [] => []
  | t :: ts => Term.operations t ++ Term.operationsList ts

end

def Predicate.operations : Predicate → List Term
  | .holds t => t.operations
  | .compare l _ r => l.operations ++ r.operations

def Predicate.ofFormula? : Formula → Option Predicate
  | .const b => some (.holds (.truth b))
  | .atom a => some a.predicate
  | _ => none

theorem Predicate.ofFormula?_formula (text : String) (p : Predicate) :
    Predicate.ofFormula? (p.formula text) = some p := by
  cases p with
  | compare l op r => rfl
  | holds t => cases t <;> rfl

namespace Grammar

/-! ## Chains -/

def signs : Nat → List Char
  | 0 => ['*', '/', '%']
  | 1 => ['+', '-']
  | _ => []

def signOperation : Char → ArithOp
  | '+' => .add
  | '-' => .sub
  | '*' => .mul
  | '/' => .div
  | _ => .mod

structure Link where
  /-- The gaps before the sign. -/
  gaps : List Char
  sign : Char
  /-- What stands between the sign and the next link, gaps in front included. -/
  text : List Char
  operand : Term

/-- Whether a link is a minus sign with a gap after it. -/
def Link.gapped (l : Link) : Bool := l.sign == '-' && l.text.head?.any isGap

def Link.operation (l : Link) : ArithOp := if l.gapped then .mod else signOperation l.sign

/-- A chain of operations of one level as it is written. -/
structure Chain where
  text : List Char
  first : Term
  links : List Link

namespace Chain

def spell (c : Chain) : List Char := c.text ++ c.links.flatMap fun l ↦ l.gaps ++ l.sign :: l.text

def term (c : Chain) : Term :=
  joinLeft .arith c.first (c.links.map fun l ↦ (l.operation, l.operand))

def meant (c : Chain) : Term :=
  joinLeft .arith c.first (c.links.map fun l ↦ (signOperation l.sign, l.operand))

/-- A chain whose signs are those of a level and whose operands are spelled one level below. -/
structure Spelled (k : Nat) (c : Chain) : Prop where
  first : TermText (.level k c.first) c.text
  links : ∀ l ∈ c.links, Gaps l.gaps ∧ l.sign ∈ signs k ∧ TermText (.level k l.operand) l.text

def extend (c : Chain) (l : Link) : Chain := { c with links := c.links ++ [l] }

theorem spell_extend (c : Chain) (l : Link) :
    (c.extend l).spell = c.spell ++ (l.gaps ++ l.sign :: l.text) := by
  simp [spell, extend]

/-- One more link makes the chain so far a left operand. -/
theorem term_extend (c : Chain) (l : Link) :
    (c.extend l).term = .arith l.operation c.term l.operand := by
  have hjoin (t : Term) (links : List (ArithOp × Term)) (link : ArithOp × Term) :
      joinLeft .arith t (links ++ [link]) =
        .arith link.1 (joinLeft .arith t links) link.2 := by
    induction links generalizing t with
    | nil => rfl
    | cons link' links ih => exact ih _
  rw [term, extend, List.map_append, List.map_singleton, hjoin]
  rfl

theorem Spelled.extend {k : Nat} {c : Chain} {l : Link} (h : c.Spelled k) (hgaps : Gaps l.gaps)
    (hsign : l.sign ∈ signs k) (htext : TermText (.level k l.operand) l.text) :
    (c.extend l).Spelled k where
  first := h.first
  links l' hl' := by
    rcases List.mem_append.mp hl' with hl' | hl'
    · exact h.links l' hl'
    · obtain rfl := List.mem_singleton.mp hl'
      exact ⟨hgaps, hsign, htext⟩

/-- Chains of the same length that give the same term have the same operations and operands. -/
theorem joinLeft_injective {t u : Term} {links links' : List (ArithOp × Term)}
    (hlength : links.length = links'.length)
    (h : joinLeft .arith t links = joinLeft .arith u links') : t = u ∧ links = links' := by
  induction links generalizing t u links' with
  | nil =>
    obtain rfl := List.eq_nil_of_length_eq_zero hlength.symm
    exact ⟨h, rfl⟩
  | cons link links ih =>
    cases links' with
    | nil => cases hlength
    | cons link' links' =>
      obtain ⟨hterm, hlinks⟩ := ih (Nat.succ.inj hlength) h
      obtain ⟨hop, ht, hr⟩ := Term.arith.inj hterm
      exact ⟨ht, by rw [hlinks, Prod.ext hop hr]⟩

/-- A chain is read as its signs say if no minus sign in it has a gap after it. -/
theorem term_eq_meant_iff (c : Chain) :
    c.term = c.meant ↔ ∀ l ∈ c.links, l.gapped = false := by
  have hlink (l : Link) : l.operation = signOperation l.sign ↔ l.gapped = false := by
    rw [Link.operation]
    cases hgapped : l.gapped with
    | false => simp
    | true =>
      obtain ⟨hsign, -⟩ := (Bool.and_eq_true _ _).mp hgapped
      simp [eq_of_beq hsign, signOperation]
  have hlinks : c.term = c.meant ↔
      (c.links.map fun l ↦ (l.operation, l.operand)) =
        c.links.map fun l ↦ (signOperation l.sign, l.operand) := by
    constructor
    · intro h
      exact (joinLeft_injective (by rw [List.length_map, List.length_map]) h).2
    · intro h
      rw [term, meant, h]
  rw [hlinks, List.map_inj_left]
  refine forall_congr' fun l ↦ forall_congr' fun _ ↦ ?_
  rw [Prod.mk.injEq, hlink l]
  exact and_iff_left rfl

end Chain

/-! ## Operations in a text -/

/-- An operation that stands in a text: it is the term of a chain written there, and differs from
what the signs of the chain stand for exactly if a minus sign in it has a gap after it. -/
def Written (s : List Char) (t : Term) : Prop :=
  ∃ k c, Chain.Spelled k c ∧ c.links ≠ [] ∧ c.spell <:+: s ∧ c.term = t ∧
    (t = c.meant ↔ ∀ l ∈ c.links, l.gapped = false)

theorem Written.within {s s' : List Char} {t : Term} (h : Written s t) (hs : s <:+: s') :
    Written s' t := by
  obtain ⟨k, c, hspelled, hlinks, hpart, hterm⟩ := h
  exact ⟨k, c, hspelled, hlinks, hpart.trans hs, hterm⟩

def AllWritten (s : List Char) (ts : List Term) : Prop := ∀ t ∈ ts, Written s t

theorem AllWritten.within {s s' : List Char} {ts : List Term} (h : AllWritten s ts)
    (hs : s <:+: s') : AllWritten s' ts :=
  fun t ht ↦ (h t ht).within hs

theorem AllWritten.append {s : List Char} {ts us : List Term} (h : AllWritten s ts)
    (h' : AllWritten s us) : AllWritten s (ts ++ us) :=
  fun t ht ↦ (List.mem_append.mp ht).elim (h t) (h' t)

/-- The sign of an operation, with what stands around it, is a link. -/
theorem OperationText.sign {k : Nat} {op : ArithOp} {s s' : List Char}
    (h : OperationText k op s s') (r : Term) :
    ∃ l : Link, Gaps l.gaps ∧ l.sign ∈ signs k ∧ l.text = s' ∧ l.operand = r ∧
      l.operation = op ∧ s = l.gaps ++ [l.sign] := by
  -- a link with its own sign, read as the operation of the sign or as a remainder
  have hlink {sign : Char} (htoken : TokenText [sign] s) (hsign : sign ∈ signs k)
      (hop : ∀ gaps, (Link.mk gaps sign s' r).operation = op) :
      ∃ l : Link, Gaps l.gaps ∧ l.sign ∈ signs k ∧ l.text = s' ∧ l.operand = r ∧
        l.operation = op ∧ s = l.gaps ++ [l.sign] := by
    obtain ⟨gaps, hgaps, rfl⟩ := htoken
    exact ⟨⟨gaps, sign, s', r⟩, hgaps, hsign, rfl, rfl, hop gaps, rfl⟩
  cases h with
  | mul h | div h | mod h | add h => exact hlink h (by decide) fun _ ↦ rfl
  | sub h hgap | gapped h hgap =>
    exact hlink h (by decide) fun _ ↦ by
      simp [Link.operation, Link.gapped, hgap, signOperation]

/-- What a phrase shows of the operations in what it spells.  The rest of a chain goes on with every
chain of which the operations stand in the text. -/
def Phrase.Shows : Phrase → List Char → Prop
  | .operand t, s | .signed t, s | .level _ t, s => AllWritten s t.operations
  | .arguments ts, s | .items ts, s => AllWritten s (Term.operationsList ts)
  | .tail k l t, s => ∀ c, Chain.Spelled k c → c.term = l → AllWritten c.spell l.operations →
    AllWritten (c.spell ++ s) t.operations

/-- The operations of what a phrase spells are written in its text. -/
theorem TermText.shows {p : Phrase} {s : List Char} (h : TermText p s) : p.Shows s := by
  have hnone (s : List Char) : AllWritten s [] := fun t ht ↦ by cases ht
  induction h with
  | gap _ _ ih => exact AllWritten.within ih (List.suffix_cons _ _).isInfix
  | number _ => exact hnone _
  | truth _ => exact hnone _
  | var _ => exact hnone _
  | call _ _ ih => exact AllWritten.within ih (List.suffix_append _ _).isInfix
  | @paren t s s' _ _ ih => exact AllWritten.within ih ⟨['('], s', by simp⟩
  | noArguments _ _ => exact hnone _
  | @arguments ts s s' s'' _ _ _ ih => exact AllWritten.within ih ⟨s, s'', by simp⟩
  | lastItem _ ih => exact AllWritten.append ih (hnone _)
  | @item t ts s s' s'' _ _ _ ih ih' =>
    have hfirst : AllWritten (s ++ (s' ++ s'')) t.operations :=
      AllWritten.within ih (List.prefix_append _ _).isInfix
    have hrest : AllWritten (s ++ (s' ++ s'')) (Term.operationsList ts) :=
      AllWritten.within ih' ⟨s ++ s', [], by simp⟩
    exact hfirst.append hrest
  | unsigned _ ih => exact ih
  | negative _ _ ih => exact AllWritten.within ih (List.suffix_append _ _).isInfix
  | factor _ ih => exact ih
  | @chain k l t s s' hl _ ih ih' =>
    have hchain : (Chain.mk s l []).spell = s := List.append_nil s
    have hspelled : (Chain.mk s l []).Spelled k := ⟨hl, fun l hl ↦ by cases hl⟩
    have hshows := ih' ⟨s, l, []⟩ hspelled rfl (hchain.symm ▸ ih)
    rwa [hchain] at hshows
  | stop =>
    intro c _ _ hwritten
    rwa [List.append_nil]
  | @link k op l r t s s' s'' hop hr _ ih ih' =>
    intro c hspelled hterm hwritten
    obtain ⟨link, hgaps, hsign, rfl, rfl, rfl, rfl⟩ := hop.sign r
    have hextended : (c.extend link).Spelled k := hspelled.extend hgaps hsign hr
    have htext := c.spell_extend link
    have hterm' : (c.extend link).term = .arith link.operation l link.operand := by
      rw [c.term_extend, hterm]
    have hnew : Written (c.extend link).spell (.arith link.operation l link.operand) :=
      ⟨k, c.extend link, hextended, by simp [Chain.extend], List.infix_rfl, hterm',
        hterm' ▸ (c.extend link).term_eq_meant_iff⟩
    have hleft : AllWritten (c.extend link).spell l.operations :=
      hwritten.within (htext ▸ (List.prefix_append _ _).isInfix)
    have hright : AllWritten (c.extend link).spell link.operand.operations :=
      AllWritten.within ih ⟨c.spell ++ (link.gaps ++ [link.sign]), [], by simp [htext]⟩
    have hall : AllWritten (c.extend link).spell
        (Term.arith link.operation l link.operand).operations := by
      intro u hu
      rw [Term.operations, List.mem_cons] at hu
      rcases hu with rfl | hu
      · exact hnew
      · exact hleft.append hright u hu
    have hshows := ih' (c.extend link) hextended hterm' hall
    rw [htext] at hshows
    simpa using hshows

/-- The operations of a predicate are written in its text. -/
theorem PredicateText.shows {p : Predicate} {s : List Char} (h : PredicateText p s) :
    AllWritten s p.operations := by
  cases h with
  | holds hs => exact hs.shows
  | @compare l r op s s' s'' hl _ hr =>
    have hleft : AllWritten (s ++ (s' ++ s'')) l.operations :=
      AllWritten.within hl.shows (List.prefix_append _ _).isInfix
    have hright : AllWritten (s ++ (s' ++ s'')) r.operations :=
      AllWritten.within hr.shows ⟨s ++ s', [], by simp⟩
    exact hleft.append hright

/-- A text spells one predicate. -/
theorem PredicateText.unique {p q : Predicate} {s : List Char} (hp : PredicateText p s)
    (hq : PredicateText q s) : p = q := by
  have hend : RelationEnd [] := (formulaEnd_nil 0).toRelationEnd
  have hread := (hp.reads (Nat.le_refl _) hend).symm.trans (hq.reads (Nat.le_refl _) hend)
  have hformula := congrArg Predicate.ofFormula? (Prod.mk.inj (Option.some.inj hread)).1
  rw [Predicate.ofFormula?_formula, Predicate.ofFormula?_formula] at hformula
  exact Option.some.inj hformula

/-- The text of an atom that is read spells its predicate and no other, and every operation of the
predicate stands in it as a chain: grouped from the left, and read as its signs say unless a minus
sign has a gap after it. -/
theorem written_of_parse {text : String} {f : Formula} (h : Formula.parse text = .ok f) {a : Atom}
    (ha : a ∈ f.atoms) :
    (∀ p, PredicateText p a.text.toList ↔ p = a.predicate) ∧
      ∀ t ∈ a.predicate.operations, Written a.text.toList t := by
  have hspelled := (wellRead_of_parse h a ha).spelled
  refine ⟨fun p ↦ ⟨fun hp ↦ hp.unique hspelled, ?_⟩, hspelled.shows⟩
  rintro rfl
  exact hspelled

theorem written_of_parse_minus :
    let difference : Term := .arith .sub (.var "a") (.var "b")
    let remainder : Term := .arith .mod difference (.number "2")
    let a : Atom := ⟨"a -b - 2 > 0", .compare remainder .gt (.number "0")⟩
    Formula.parse "G(a -b - 2 > 0)" = .ok (.unary .always (.atom a)) ∧
      (∀ p, PredicateText p a.text.toList ↔ p = a.predicate) ∧
      Written a.text.toList difference ∧ Written a.text.toList remainder := by
  intro difference remainder a
  have hread : Formula.parse "G(a -b - 2 > 0)" = .ok (.unary .always (.atom a)) :=
    eq_ok_of_toOption (by decide +kernel)
  obtain ⟨hunique, hwritten⟩ := written_of_parse hread (List.mem_singleton_self a)
  have hoperations : a.predicate.operations = [remainder, difference] := rfl
  rw [hoperations] at hwritten
  exact ⟨hread, hunique, hwritten _ (by simp), hwritten _ (by simp)⟩

/-- A difference with blanks around its sign is read as a remainder. -/
theorem parse_minus_between_blanks :
    Formula.parse "a - b > 0" = .ok (.atom ⟨"a - b > 0",
        .compare (.arith .mod (.var "a") (.var "b")) .gt (.number "0")⟩) ∧
      Formula.parse "a -b > 0" = .ok (.atom ⟨"a -b > 0",
        .compare (.arith .sub (.var "a") (.var "b")) .gt (.number "0")⟩) :=
  ⟨eq_ok_of_toOption (by decide +kernel), eq_ok_of_toOption (by decide +kernel)⟩

end Grammar

end TemporalRequirements
