import TemporalRequirements.Proofs.Grammar.PredicateText

/-!
# Reading atoms

A relation is read from a text that spells its predicate, and such a text is read as that relation
wherever neither a term nor a comparison goes on.  What an atom keeps as its text is the core of
what was read.
-/

namespace TemporalRequirements

/-- The formula of a predicate that was read: a truth value alone is no atom. -/
def Predicate.formula (text : String) : Predicate → Formula
  | .holds t => Grammar.lone text t
  | .compare l op r => .atom ⟨text, .compare l op r⟩

/-- An atom that is read keeps the predicate, and the text that was given with it. -/
theorem Predicate.parts_of_formula {p : Predicate} {text : String} {a : Atom}
    (h : p.formula text = .atom a) : a.predicate = p ∧ a.text = text := by
  cases p with
  | compare l op r =>
    obtain rfl := Formula.atom.inj h
    exact ⟨rfl, rfl⟩
  | holds t =>
    cases t with
    | truth b => cases h
    | var _ | number _ | neg _ | arith _ _ _ | call _ _ =>
      obtain rfl := Formula.atom.inj h
      exact ⟨rfl, rfl⟩

/-- A predicate has an atom only if it is this atom. -/
theorem Predicate.formula_of_mem_atoms {p : Predicate} {text : String} {a : Atom}
    (h : a ∈ (p.formula text).atoms) : p.formula text = .atom a := by
  cases p with
  | compare l op r =>
    obtain rfl := List.mem_singleton.mp h
    rfl
  | holds t =>
    cases t with
    | truth b => cases h
    | var _ | number _ | neg _ | arith _ _ _ | call _ _ =>
      obtain rfl := List.mem_singleton.mp h
      rfl

/-- An atom as it is read: its text spells its predicate and is its own core. -/
structure Atom.WellRead (a : Atom) : Prop where
  spelled : Grammar.PredicateText a.predicate a.text.toList
  core : Grammar.CoreText a.text.toList
  isAtom : a.predicate.formula a.text = .atom a

namespace Grammar

/-! ## Comparisons -/

theorem relationOp_eq_some {op : RelOp} {s rest : List Char}
    (h : relationOp s = some (op, rest)) :
    ∃ token, ComparisonText op token ∧ s = token ++ rest := by
  unfold relationOp at h
  split at h
  · cases h
  · obtain ⟨sign, token, hmem, htoken, hs⟩ := symbol_eq_some h
    exact ⟨token, ⟨sign, hmem, htoken⟩, hs⟩

/-- A minus sign at the start of a term is part of no arrow. -/
theorem isMinusBefore_of_minus {p : Phrase} {s w : List Char} (h : TermText p s)
    (hp : p.starts '-' = true ∧ p.isTerm = true) (hs : s = '-' :: w) (rest : List Char) :
    isMinusBefore (w ++ rest) = true := by
  induction h generalizing w rest with
  | gap _ _ _ | number _ | truth _ | var _ | call _ _ _ | paren _ _ _ => cases hp.1
  | noArguments _ _ | arguments _ _ _ _ | lastItem _ _ | item _ _ _ _ _ => cases hp.2
  | unsigned hoperand _ =>
    obtain ⟨c, tail, hskip, hc⟩ := hoperand.starts rfl
    rw [hs, skipGaps_cons_of_not_gap rfl] at hskip
    obtain ⟨rfl, -⟩ := List.cons.inj hskip
    cases hc
  | negative hsign hsigned _ =>
    obtain ⟨gaps, hgaps, rfl⟩ := hsign
    cases gaps with
    | nil =>
      obtain ⟨-, rfl⟩ := List.cons.inj hs
      exact isMinusBefore_of_starts hsigned rfl rest
    | cons c gaps =>
      obtain ⟨rfl, -⟩ := List.cons.inj hs
      cases hgaps '-' List.mem_cons_self
  | factor _ ih => exact ih ⟨rfl, rfl⟩ hs rest
  | @chain k l t s s' hl _ ih _ =>
    cases s with
    | nil => exact absurd rfl (hl.endsFirm rfl).ne_nil
    | cons c s =>
      obtain ⟨rfl, rfl⟩ := List.cons.inj hs
      rw [List.append_eq, List.append_assoc]
      exact ih ⟨rfl, rfl⟩ rfl (s' ++ rest)
  | stop | link _ _ _ _ _ => cases hp.1

/-- The sign of a comparison is read where a term follows. -/
theorem ComparisonText.reads {op : RelOp} {r : Term} {s s' : List Char}
    (h : ComparisonText op s) (hs : TermText (.level 2 r) s') (rest : List Char) :
    relationOp (s ++ (s' ++ rest)) = some (op, s' ++ rest) := by
  obtain ⟨sign, hmem, gaps, hgaps, rfl⟩ := h
  obtain ⟨c, w, hw⟩ := List.exists_cons_of_ne_nil (hs.endsFirm rfl).ne_nil
  -- no longer comparison and no arrow starts here
  have hequal : '=' ≠ c := by
    rintro rfl
    obtain ⟨d, tail, hskip, hd⟩ := hs.starts rfl
    rw [hw, skipGaps_cons_of_not_gap rfl] at hskip
    obtain ⟨rfl, -⟩ := List.cons.inj hskip
    cases hd
  have harrow : (if '-' = c then Text.after? ['>'] (w ++ rest) else none) = none := by
    split
    · rename_i hminus
      cases hafter : Text.after? ['>'] (w ++ rest) with
      | none => rfl
      | some tail =>
        have hbefore := isMinusBefore_of_minus hs ⟨rfl, rfl⟩ (hminus ▸ hw) rest
        rw [Text.after?_eq_some_iff.mp hafter] at hbefore
        cases hbefore
    · rfl
  rw [hw]
  simp only [RelOp.spellings, List.mem_cons, Prod.mk.injEq, List.not_mem_nil, or_false] at hmem
  rcases hmem with ⟨rfl, rfl⟩ | ⟨rfl, rfl⟩ | ⟨rfl, rfl⟩ | ⟨rfl, rfl⟩ | ⟨rfl, rfl⟩ | ⟨rfl, rfl⟩ |
    ⟨rfl, rfl⟩ | ⟨rfl, rfl⟩ | ⟨rfl, rfl⟩ <;>
    simp [relationOp, symbol, skipGaps_append hgaps, skipGaps_cons_of_not_gap, RelOp.spellings,
      oneOf, Text.after?, hequal, harrow, isGap]

/-! ## Relations -/

theorem textBetween_append (s rest : List Char) :
    textBetween (s ++ rest) rest = String.ofList (normalizeAtomText s) := by
  rw [textBetween, List.length_append, Nat.add_sub_cancel, List.take_left']
  rfl

/-- What is read as a relation spells its predicate, and its atom keeps the normal text. -/
theorem relation_sound {n : Nat} {f : Formula} {s rest : List Char}
    (h : relation (termUpTo n) s = some (f, rest)) :
    ∃ span p, s = span ++ rest ∧ PredicateText p span ∧
      f = p.formula (String.ofList (normalizeAtomText span)) := by
  obtain ⟨⟨l, afterLeft⟩, hleft, hread⟩ := Option.bind_eq_some_iff.mp h
  obtain ⟨span, rfl, hspan⟩ := termUpTo_sound n _ _ _ hleft
  have hlone : ∃ span' p, span ++ afterLeft = span' ++ afterLeft ∧ PredicateText p span' ∧
      lone (textBetween (span ++ afterLeft) afterLeft) l =
        p.formula (String.ofList (normalizeAtomText span')) :=
    ⟨span, .holds l, rfl, .holds hspan, by rw [textBetween_append]; rfl⟩
  dsimp only at hread
  cases hop : relationOp afterLeft with
  | none =>
    rw [hop] at hread
    obtain ⟨rfl, rfl⟩ := Prod.mk.inj (Option.some.inj hread)
    exact hlone
  | some result =>
    obtain ⟨op, afterOp⟩ := result
    rw [hop] at hread
    cases hright : termUpTo n afterOp with
    | none =>
      simp only [Option.bind_eq_bind, Option.bind_some, hright, Option.bind_none] at hread
      obtain ⟨rfl, rfl⟩ := Prod.mk.inj (Option.some.inj hread)
      exact hlone
    | some result =>
      obtain ⟨r, afterRight⟩ := result
      simp only [Option.bind_eq_bind, Option.bind_some, hright] at hread
      obtain ⟨rfl, rfl⟩ := Prod.mk.inj (Option.some.inj hread)
      obtain ⟨token, htoken, rfl⟩ := relationOp_eq_some hop
      obtain ⟨span', rfl, hspan'⟩ := termUpTo_sound n _ _ _ hright
      refine ⟨span ++ (token ++ span'), .compare l op r, by simp, .compare hspan htoken hspan', ?_⟩
      have hparts : span ++ (token ++ (span' ++ afterRight)) =
          (span ++ (token ++ span')) ++ afterRight := by simp
      rw [hparts, textBetween_append]
      rfl

/-- A text that goes on neither with the relation before it nor with its last term. -/
structure RelationEnd (rest : List Char) : Prop extends LevelEnd 2 rest where
  notCompared : relationOp rest = none

theorem ComparisonText.levelEnd {op : RelOp} {s : List Char} (h : ComparisonText op s)
    (rest : List Char) : LevelEnd 2 (s ++ rest) := by
  obtain ⟨c, tail, hskip, hc⟩ := h.starts
  simp only [startsComparison, List.mem_cons, List.not_mem_nil, or_false,
    decide_eq_true_eq] at hc
  have hstart := skipGaps_append_of_cons hskip rest
  rcases hc with rfl | rfl | rfl | rfl | rfl | rfl <;>
    exact levelEnd_of_skipGaps hstart (detached_of_skipGaps hstart rfl) (by decide) 2

/-- A text that spells a predicate is read as its relation. -/
theorem PredicateText.reads {p : Predicate} {n : Nat} {s rest : List Char}
    (h : PredicateText p s) (hn : s.length ≤ n) (hrest : RelationEnd rest) :
    relation (termUpTo n) (s ++ rest) =
      some (p.formula (String.ofList (normalizeAtomText s)), rest) := by
  have htext := textBetween_append s rest
  cases h with
  | holds hs =>
    simp only [relation, termUpTo_append hs hn hrest.toLevelEnd, Option.bind_eq_bind,
      Option.bind_some, hrest.notCompared, Option.bind_none, htext]
    rfl
  | @compare l r op s s' s'' hl hop hr =>
    simp only [List.length_append] at hn
    rw [List.append_assoc, List.append_assoc] at htext ⊢
    have hleft : termUpTo n (s ++ (s' ++ (s'' ++ rest))) = some (l, s' ++ (s'' ++ rest)) :=
      termUpTo_append hl (by omega) (hop.levelEnd _)
    have hright : termUpTo n (s'' ++ rest) = some (r, rest) :=
      termUpTo_append hr (by omega) hrest.toLevelEnd
    simp only [relation, hleft, Option.bind_eq_bind, Option.bind_some, hop.reads hr, hright, htext]
    rfl

/-- Every atom that is read is well read. -/
theorem wellRead_of_formula {p : Predicate} {s : List Char} {a : Atom}
    (h : PredicateText p s)
    (ha : p.formula (String.ofList (normalizeAtomText s)) = .atom a) : a.WellRead := by
  obtain ⟨hspelled, hcore⟩ := h.normalize
  obtain ⟨hpredicate, htext⟩ := Predicate.parts_of_formula ha
  rw [← htext, ← hpredicate] at ha
  rw [← hpredicate] at hspelled
  rw [← String.toList_ofList (l := normalizeAtomText s), ← htext] at hspelled hcore
  exact ⟨hspelled, hcore, ha⟩

end Grammar

end TemporalRequirements
