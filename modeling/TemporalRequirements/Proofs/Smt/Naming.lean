import Mathlib.Data.List.Induction
import TemporalRequirements.Proofs.Grammar.Token
import TemporalRequirements.Proofs.Interface.Name
import TemporalRequirements.Proofs.Smt.Reading

/-!
# Names as symbols

The safe name of a variable is one symbol, with or without letters in front of it, and is read as
neither a number nor a truth value.  A literal is printed under the name that it has in the
enumeration to which it belongs.
-/

namespace TemporalRequirements

/-- Where all values are those of one function, a map of a list has them. -/
theorem OrderedMap.get?_ofList {α β : Type} [DecidableEq α] (value : α → β) {es : List (α × β)}
    (h : ∀ e ∈ es, e.2 = value e.1) (k : α) :
    (OrderedMap.ofList es).get? k = if k ∈ es.map Prod.fst then some (value k) else none := by
  induction es using List.reverseRecOn with
  | nil => rfl
  | append_singleton es e ih =>
    have hlast : OrderedMap.ofList (es ++ [e]) = (OrderedMap.ofList es).insert e.1 e.2 := by
      rw [OrderedMap.ofList, List.foldl_append]
      rfl
    rw [hlast, OrderedMap.get?_insert, ih fun e' he' ↦ h e' (List.mem_append_left _ he')]
    by_cases hk : e.1 = k
    · subst hk
      simp [h e (List.mem_append_right _ List.mem_cons_self)]
    · have hmem : k ∈ (es ++ [e]).map Prod.fst ↔ k ∈ es.map Prod.fst := by
        rw [List.map_append, List.mem_append, List.map_singleton, List.mem_singleton]
        exact or_iff_left fun heq ↦ hk heq.symm
      simp only [if_neg hk, hmem]

namespace Smt

/-- Whether a text is one symbol that is neither a number nor a truth value. -/
structure IsName (text : String) : Prop extends IsSymbol text where
  notNumber : text.toList.head?.any Char.isDigit = false
  notTruth : ∀ b, text ≠ truthText b

theorem isSymbolPart_of_isPathPart {c : Char} (h : Text.isPathPart c = true) :
    isSymbolPart c = true := by
  simp only [Text.isPathPart, Text.isNamePart, Bool.or_eq_true, beq_iff_eq] at h
  rw [isSymbolPart, Bool.or_eq_true]
  rcases h with (h | rfl) | rfl
  · exact Or.inl h
  · exact Or.inr rfl
  · exact Or.inr rfl

theorem isSymbolPart_of_isNamePart {c : Char} (h : Text.isNamePart c = true) :
    isSymbolPart c = true := by
  apply isSymbolPart_of_isPathPart
  rw [Text.isPathPart, h, Bool.true_or]

variable {D : Type} {R : Reading D} {names : String → D}

theorem symbol_truthText (b : Bool) : R.symbol names (truthText b) = R.truth b := by
  cases b <;> rfl

theorem symbol_of_isName {text : String} (h : IsName text) : R.symbol names text = names text := by
  rw [Reading.symbol, if_neg (h.notTruth true), if_neg (h.notTruth false), h.notNumber]
  rfl

theorem symbol_of_isDigit {text : String} {c : Char} {rest : List Char}
    (h : text.toList = c :: rest) (hc : c.isDigit = true) :
    R.symbol names text = R.number text := by
  have hnot (b : Bool) : text ≠ truthText b := by
    rintro rfl
    cases b <;> (obtain ⟨rfl, -⟩ := List.cons.inj h; cases hc)
  rw [Reading.symbol, if_neg (hnot true), if_neg (hnot false), h, List.head?_cons, Option.any_some,
    hc, if_pos rfl]

/-! ## Constants and literals -/

/-- Later copies of a variable have names of their own kind, and so has the variable itself if it is
spelled unlike a truth value. -/
theorem isName_constantName {s : Scope} (hs : s.interface.identifier = safeName) {v : String}
    (hv : ∀ b, v ≠ truthText b) (shift : Nat) : IsName (s.constantName v shift) := by
  obtain ⟨c, rest, hcons, hc⟩ := exists_safeName_eq_cons v
  have hlist : (s.constantName v shift).toList =
      List.replicate shift 'x' ++ (safeName v).toList := by
    rw [Scope.constantName, Scope.toList_repeat_shiftedOnce, hs]
  refine ⟨⟨?_, ?_⟩, ?_, ?_⟩
  · rw [hlist, hcons]
    simp
  · intro d hd
    rw [hlist] at hd
    rcases List.mem_append.mp hd with hd | hd
    · rw [(List.mem_replicate.mp hd).2]
      decide
    · exact isSymbolPart_of_isNamePart (isNamePart_of_mem_safeName hd)
  · rw [hlist]
    cases shift with
    | zero =>
      rw [hcons]
      simpa using hc
    | succ shift => rfl
  · intro b heq
    rw [heq] at hlist
    cases shift with
    | zero =>
      -- A safe name without an underscore is the name itself.
      rw [List.replicate_zero, List.nil_append] at hlist
      have hunderscore : '_' ∉ (safeName v).toList := by
        rw [← hlist]
        cases b <;> decide
      have hself : safeName v = v := safeName_eq_self hunderscore
      rw [hself] at hlist
      exact hv b (String.toList_inj.mp hlist.symm)
    | succ shift =>
      rw [List.replicate_succ, List.cons_append] at hlist
      have hhead := congrArg List.head? hlist
      rw [List.head?_cons] at hhead
      cases b <;> exact absurd hhead (by decide)

variable {i : Interface}

/-- The table of names has every literal of every enumeration. -/
theorem get?_literalNames (enumeration literal : String) :
    (literalNames i).get? (enumeration, literal) =
      if hasLiteral i enumeration literal then some (literalName i enumeration literal)
      else none := by
  have hmem : (enumeration, literal) ∈ (i.enums.values.flatMap fun e ↦
      e.literals.map fun l ↦ ((e.name, l), literalName i e.name l)).map Prod.fst ↔
        hasLiteral i enumeration literal = true := by
    simp [hasLiteral, and_comm]
  rw [literalNames, OrderedMap.get?_ofList fun k ↦ literalName i k.1 k.2]
  · simp only [hmem]
  · intro e he
    obtain ⟨enum, -, he⟩ := List.mem_flatMap.mp he
    obtain ⟨l, -, rfl⟩ := List.mem_map.mp he
    rfl

theorem exists_foldl_longerName (es : List Enumeration) (e : Enumeration) :
    ∃ e', es.foldl longerName (some e) = some e' := by
  induction es generalizing e with
  | nil => exact ⟨e, rfl⟩
  | cons candidate es ih =>
    rw [List.foldl_cons, longerName]
    split
    · exact ih e
    · exact ih candidate

/-- Every literal keeps its name in some enumeration. -/
theorem exists_keeper? {literal : String} (h : i.isLiteral literal = true) :
    ∃ e, keeper? i literal = some e := by
  obtain ⟨e, he, hliteral⟩ := List.any_eq_true.mp h
  have hmem : e ∈ i.enumsWithLiteral literal := List.mem_filter.mpr ⟨he, hliteral⟩
  obtain ⟨first, rest, hcons⟩ := List.exists_cons_of_ne_nil (List.ne_nil_of_mem hmem)
  rw [keeper?, hcons]
  exact exists_foldl_longerName rest first

/-- A literal is printed under its name in the enumeration to which it belongs. -/
theorem hintedName_eq {literal : String} (h : i.isLiteral literal = true) (hint : Option String) :
    hintedName (literalNames i) literal hint =
      literalName i (literalEnum i literal hint) literal := by
  obtain ⟨keeper, hkeeper⟩ := exists_keeper? h
  have hkept : literalName i keeper.name literal = literal := by
    rw [literalName, hkeeper]
    exact if_pos rfl
  cases hint with
  | none => simp [hintedName, literalEnum, hkeeper, hkept]
  | some e =>
    rw [hintedName, literalEnum, Option.bind_some, get?_literalNames]
    cases he : hasLiteral i e literal with
    | true =>
      have hfilter : (some e).filter (fun e ↦ hasLiteral i e literal) = some e :=
        Option.filter_some_pos he
      rw [hfilter]
      rfl
    | false =>
      have hfilter : (some e).filter (fun e ↦ hasLiteral i e literal) = none :=
        Option.filter_some_neg he
      rw [hfilter, hkeeper]
      exact hkept.symm

theorem literalName_cases (i : Interface) (enumeration literal : String) :
    literalName i enumeration literal = literal ∨
      literalName i enumeration literal = literal ++ "_" ++ enumeration := by
  rw [literalName]
  split
  · split
    · exact Or.inl rfl
    · exact Or.inr rfl
  · exact Or.inl rfl

theorem ne_truthText_of_nameText {v : String} (h : Grammar.NameText v.toList) (b : Bool) :
    v ≠ truthText b := by
  rintro rfl
  have hnone := h.notTruth
  rw [String.ofList_toList] at hnone
  cases b <;> cases hnone

/-- The name of a literal is read as a name, if it consists of what symbols consist of. -/
theorem isName_literalName {enumeration literal : String} (h : Grammar.NameText literal.toList)
    (hparts : ∀ c ∈ (literalName i enumeration literal).toList, isSymbolPart c = true) :
    IsName (literalName i enumeration literal) := by
  obtain ⟨c, rest, hcons, hc⟩ := h.starts
  obtain ⟨rest', hcons'⟩ : ∃ rest', (literalName i enumeration literal).toList = c :: rest' := by
    rcases literalName_cases i enumeration literal with heq | heq
    · exact ⟨rest, by rw [heq, hcons]⟩
    · exact ⟨rest ++ '_' :: enumeration.toList, by rw [heq]; simp [hcons]⟩
  refine ⟨⟨?_, hparts⟩, ?_, ?_⟩
  · rw [hcons']
    exact List.cons_ne_nil c rest'
  · rw [hcons', List.head?_cons, Option.any_some, Grammar.isDigit_of_isNameStart hc]
  · intro b heq
    rcases literalName_cases i enumeration literal with hname | hname
    · exact ne_truthText_of_nameText h b (hname.symm.trans heq)
    · have hunderscore : '_' ∈ (truthText b).toList := by
        rw [← heq, hname]
        simp
      cases b <;> exact absurd hunderscore (by decide)

/-! ## Numbers -/

/-- A number has its value with or without a point that adds nothing. -/
theorem symbol_number (R : Reading D) (names : String → D) {text : String}
    (h : Grammar.NumberText text.toList) (real : Bool) :
    let printed := if real && !('.' ∈ text.toList) then text ++ ".0" else text
    IsSymbol printed ∧ R.symbol names printed = R.number text := by
  intro printed
  obtain ⟨c, rest, hcons, hc⟩ := h.starts
  have hparts : ∀ d ∈ text.toList, isSymbolPart d = true :=
    fun d hd ↦ isSymbolPart_of_isPathPart (h.parts d hd)
  by_cases hpoint : real = true ∧ '.' ∉ text.toList
  · have hprinted : printed = text ++ ".0" := if_pos (by simpa using hpoint)
    have hlist : printed.toList = c :: (rest ++ ['.', '0']) := by
      rw [hprinted, String.toList_append, hcons]
      rfl
    refine ⟨⟨?_, ?_⟩, ?_⟩
    · rw [hlist]
      exact List.cons_ne_nil c _
    · intro d hd
      rw [hprinted, String.toList_append] at hd
      rcases List.mem_append.mp hd with hd | hd
      · exact hparts d hd
      · have hpointed : ∀ d ∈ ".0".toList, isSymbolPart d = true := List.all_eq_true.mp rfl
        exact hpointed d hd
    · rw [symbol_of_isDigit hlist hc, hprinted, R.number_point text hpoint.2]
  · have hprinted : printed = text := if_neg (by simpa using hpoint)
    rw [hprinted]
    refine ⟨⟨?_, hparts⟩, symbol_of_isDigit hcons hc⟩
    rw [hcons]
    exact List.cons_ne_nil c rest

end Smt

end TemporalRequirements
