import TemporalRequirements.Proofs.Interface.Name
import TemporalRequirements.Proofs.Proposition.Renaming

/-!
# The names in a normal form

The normal form of a proposition is made by renaming pieces of its text, without reading it.  Its
names are those of the tree nevertheless: truth values apart, they are the identifiers of the
variables and the names of the called functions in the order in which they appear.
-/

namespace TemporalRequirements

open Grammar (WordText NameText Detached)

mutual

/-- What the variables of a term are called and the names of the called functions, in order of
appearance. -/
def Term.identifiers (identifier : String → String) : Term → List String
  | .var name => [identifier name]
  | .number _ | .truth _ => []
  | .neg t => Term.identifiers identifier t
  | .arith _ l r => Term.identifiers identifier l ++ Term.identifiers identifier r
  | .call name args => name :: Term.identifiersList identifier args

def Term.identifiersList (identifier : String → String) : List Term → List String
  | [] => []
  | t :: ts => Term.identifiers identifier t ++ Term.identifiersList identifier ts

end

def Predicate.identifiers (identifier : String → String) : Predicate → List String
  | .holds t => t.identifiers identifier
  | .compare l _ r => l.identifiers identifier ++ r.identifiers identifier

mutual

/-- The names of the functions that a term calls, in order of appearance. -/
def Term.calledNames : Term → List String
  | .var _ | .number _ | .truth _ => []
  | .neg t => Term.calledNames t
  | .arith _ l r => Term.calledNames l ++ Term.calledNames r
  | .call name args => name :: Term.calledNamesList args

/-- The names of the functions that terms call, in order of appearance. -/
def Term.calledNamesList : List Term → List String
  | [] => []
  | t :: ts => Term.calledNames t ++ Term.calledNamesList ts

end

/-- The names of the functions that a predicate calls, in order of appearance. -/
def Predicate.calledNames : Predicate → List String
  | .holds t => t.calledNames
  | .compare l _ r => l.calledNames ++ r.calledNames

section

variable {identifier : String → String} {x : String}

mutual

/-- The identifiers of a term are its renamed variables and the names that it calls. -/
theorem Term.mem_identifiers_iff (t : Term) :
    x ∈ t.identifiers identifier ↔ x ∈ t.variables.map identifier ∨ x ∈ t.calledNames := by
  match t with
  | .var name => simp [Term.identifiers, Term.variables, Term.calledNames]
  | .number _ | .truth _ => simp [Term.identifiers, Term.variables, Term.calledNames]
  | .neg t => exact Term.mem_identifiers_iff t
  | .arith _ l r =>
    rw [Term.identifiers, Term.variables, Term.calledNames, List.map_append, List.mem_append,
      List.mem_append, List.mem_append, Term.mem_identifiers_iff l, Term.mem_identifiers_iff r,
      or_or_or_comm]
  | .call name args =>
    rw [Term.identifiers, Term.variables, Term.calledNames, List.mem_cons, List.mem_cons,
      Term.mem_identifiersList_iff args, or_left_comm]

theorem Term.mem_identifiersList_iff (ts : List Term) :
    x ∈ Term.identifiersList identifier ts ↔
      x ∈ (Term.variablesList ts).map identifier ∨ x ∈ Term.calledNamesList ts := by
  match ts with
  | [] => simp [Term.identifiersList, Term.variablesList, Term.calledNamesList]
  | t :: ts =>
    rw [Term.identifiersList, Term.variablesList, Term.calledNamesList, List.map_append,
      List.mem_append, List.mem_append, List.mem_append, Term.mem_identifiers_iff t,
      Term.mem_identifiersList_iff ts, or_or_or_comm]

end

/-- Identifiers are what the variables are called and the names of the called functions. -/
theorem Predicate.mem_identifiers_iff (p : Predicate) :
    x ∈ p.identifiers identifier ↔ x ∈ p.variables.map identifier ∨ x ∈ p.calledNames := by
  cases p with
  | holds t => exact t.mem_identifiers_iff
  | compare l op r =>
    rw [Predicate.identifiers, Predicate.variables, Predicate.calledNames, List.map_append,
      List.mem_append, List.mem_append, List.mem_append, l.mem_identifiers_iff,
      r.mem_identifiers_iff, or_or_or_comm]

end

/-- The names of a text that was renamed, truth values apart. -/
def renamedNames (identifier : String → String) (s : List Char) : List String :=
  ((renamedPieces identifier (Text.pathPieces s)).filterMap Text.Piece.name?).filter
    (· ∉ truthNames)

/-- A text before which a name ends that is not called. -/
structure NameEnd (rest : List Char) : Prop where
  detached : Detached rest
  notCall : opensCall (Text.pathPieces rest) = false

def AvoidsTruth (identifier : String → String) : Prop :=
  ∀ w, NameText w → identifier (String.ofList w) ∉ truthNames

section

variable {identifier : String → String} {s w rest : List Char}

theorem renamedNames_cons {c : Char} (hc : Text.isNameStart c = false) (s : List Char) :
    renamedNames identifier (c :: s) = renamedNames identifier s := by
  rw [renamedNames, Text.pathPieces_cons hc]
  rfl

/-- Signs and blanks hold no names. -/
theorem renamedNames_append (h : ∀ c ∈ s, Text.isNameStart c = false) (rest : List Char) :
    renamedNames identifier (s ++ rest) = renamedNames identifier rest := by
  induction s with
  | nil => rfl
  | cons c s ih =>
    rw [List.cons_append, renamedNames_cons (h c List.mem_cons_self),
      ih fun d hd ↦ h d (List.mem_cons_of_mem c hd)]

theorem pathPieces_word_append (hw : WordText w) (hrest : Detached rest) :
    Text.pathPieces (w ++ rest) = .name w :: Text.pathPieces rest := by
  cases rest with
  | nil => rw [List.append_nil, pathPieces_word hw]; rfl
  | cons c rest =>
    rw [Text.pathPieces_append (hrest c rfl), pathPieces_word hw, List.singleton_append]

theorem notMem_truthNames (hw : NameText w) : String.ofList w ∉ truthNames := by
  have hnone := hw.notTruth
  intro hmem
  simp only [truthNames, List.mem_cons, List.not_mem_nil, or_false] at hmem
  rcases hmem with heq | heq | heq | heq <;> rw [heq] at hnone <;> cases hnone

theorem renamedNames_variable (hf : AvoidsTruth identifier) (hw : NameText w)
    (hrest : NameEnd rest) :
    renamedNames identifier (w ++ rest) =
      identifier (String.ofList w) :: renamedNames identifier rest := by
  have hname : renamedName identifier w (Text.pathPieces rest) =
      (identifier (String.ofList w)).toList := by
    simp [renamedName, hrest.notCall, notMem_truthNames hw]
  rw [renamedNames, pathPieces_word_append hw.toWordText hrest.detached]
  simp [renamedPieces, hname, Text.Piece.name?, hf w hw, renamedNames]

theorem renamedNames_called (hw : NameText w) (hrest : Detached rest)
    (hcall : opensCall (Text.pathPieces rest) = true) :
    renamedNames identifier (w ++ rest) = String.ofList w :: renamedNames identifier rest := by
  have hname : renamedName identifier w (Text.pathPieces rest) = w := by
    simp [renamedName, hcall]
  rw [renamedNames, pathPieces_word_append hw.toWordText hrest]
  simp [renamedPieces, hname, Text.Piece.name?, notMem_truthNames hw, renamedNames]

/-- A truth value is no name. -/
theorem renamedNames_truth {word : String} (hw : word ∈ truthNames) (hrest : Detached rest) :
    renamedNames identifier (word.toList ++ rest) = renamedNames identifier rest := by
  have htext : WordText word.toList := by
    simp only [truthNames, List.mem_cons, List.not_mem_nil, or_false] at hw
    rcases hw with rfl | rfl | rfl | rfl <;>
      exact ⟨⟨_, _, rfl, rfl⟩, Text.forall_mem_of_all rfl⟩
  have hname : renamedName identifier word.toList (Text.pathPieces rest) = word.toList := by
    simp [renamedName, hw]
  rw [renamedNames, pathPieces_word_append htext hrest]
  simp [renamedPieces, hname, Text.Piece.name?, hw, renamedNames]

end

/-! ## Names of phrases -/

namespace Grammar

section

variable {c : Char} {s : List Char}

theorem isNameStart_of_isGap (h : isGap c = true) : Text.isNameStart c = false :=
  Text.isNameStart_eq_false_of_isPathPart
    (isPathPart_eq_false_of_isBlank (isBlank_of_isGap h))

/-- A name is called across gaps. -/
theorem opensCall_gaps {gaps : List Char} (h : Gaps gaps) (s : List Char) :
    opensCall (Text.pathPieces (gaps ++ s)) = opensCall (Text.pathPieces s) := by
  induction gaps with
  | nil => rfl
  | cons d gaps ih =>
    have hd := h d List.mem_cons_self
    have hopen : d ≠ '(' := by
      rintro rfl
      cases hd
    rw [List.cons_append, Text.pathPieces_cons (isNameStart_of_isGap hd), opensCall,
      ih fun e he ↦ h e (List.mem_cons_of_mem d he), isBlank_of_isGap hd]
    simp [hopen]

theorem opensCall_cons (hstart : Text.isNameStart c = false) (hblank : Text.isBlank c = false)
    (s : List Char) : opensCall (Text.pathPieces (c :: s)) = decide (c = '(') := by
  rw [Text.pathPieces_cons hstart, opensCall, hblank, Bool.false_and, Bool.or_false]

/-- A name ends before a sign. -/
theorem nameEnd_of_skipGaps {rest : List Char} (h : skipGaps s = c :: rest)
    (hpart : Text.isPathPart c = false) (hblank : Text.isBlank c = false) (hopen : c ≠ '(') :
    NameEnd s where
  detached := detached_of_skipGaps h hpart
  notCall := by
    obtain ⟨gaps, hgaps, hs⟩ := exists_gaps s
    rw [hs, h, opensCall_gaps hgaps,
      opensCall_cons (Text.isNameStart_eq_false_of_isPathPart hpart) hblank]
    exact decide_eq_false hopen

/-- A name before a mark is not called, unless the mark opens a group. -/
theorem TokenText.nameEnd (h : TokenText [c] s) (hpart : Text.isPathPart c = false)
    (hblank : Text.isBlank c = false) (hopen : c ≠ '(') (rest : List Char) :
    NameEnd (s ++ rest) := by
  have hgap : isGap c = false := by
    cases hgap : isGap c with
    | false => rfl
    | true =>
      rw [isBlank_of_isGap hgap] at hblank
      cases hblank
  exact nameEnd_of_skipGaps (h.skipGaps_append hgap rest) hpart hblank hopen

/-- A sign and the gaps before it hold no names. -/
theorem TokenText.names {identifier : String → String} {sign : List Char}
    (h : TokenText sign s) (hsign : ∀ c ∈ sign, Text.isNameStart c = false) (rest : List Char) :
    renamedNames identifier (s ++ rest) = renamedNames identifier rest := by
  obtain ⟨gaps, hgaps, rfl⟩ := h
  apply renamedNames_append
  intro d hd
  rcases List.mem_append.mp hd with hd | hd
  · exact isNameStart_of_isGap (hgaps d hd)
  · exact hsign d hd

theorem TokenText.names_mark {identifier : String → String} (h : TokenText [c] s)
    (hc : Text.isNameStart c = false) (rest : List Char) :
    renamedNames identifier (s ++ rest) = renamedNames identifier rest :=
  h.names (fun d hd ↦ by rw [List.mem_singleton.mp hd, hc]) rest

end

theorem OperationText.nameEnd {k : Nat} {op : ArithOp} {s s' : List Char}
    (h : OperationText k op s s') (rest : List Char) : NameEnd (s ++ rest) := by
  obtain ⟨c, htoken, hc⟩ := h.exists_token
  simp only [List.mem_cons, List.not_mem_nil, or_false] at hc
  rcases hc with rfl | rfl | rfl | rfl | rfl <;> exact htoken.nameEnd rfl rfl (by decide) rest

theorem OperationText.names {identifier : String → String} {k : Nat} {op : ArithOp}
    {s s' : List Char} (h : OperationText k op s s') (rest : List Char) :
    renamedNames identifier (s ++ rest) = renamedNames identifier rest := by
  obtain ⟨c, htoken, hc⟩ := h.exists_token
  refine htoken.names_mark ?_ rest
  simp only [List.mem_cons, List.not_mem_nil, or_false] at hc
  rcases hc with rfl | rfl | rfl | rfl | rfl <;> rfl

/-- A phrase contributes its identifiers to the names of a text in which it stands before `rest`;
the operations after a chain contribute those that the chain lacks. -/
def Phrase.Names (identifier : String → String) : Phrase → List Char → List Char → Prop
  | .operand t, s, rest | .signed t, s, rest | .level _ t, s, rest =>
    renamedNames identifier (s ++ rest) =
      t.identifiers identifier ++ renamedNames identifier rest
  | .arguments ts, s, rest | .items ts, s, rest =>
    renamedNames identifier (s ++ rest) =
      Term.identifiersList identifier ts ++ renamedNames identifier rest
  | .tail _ l t, s, rest =>
    l.identifiers identifier ++ renamedNames identifier (s ++ rest) =
      t.identifiers identifier ++ renamedNames identifier rest

theorem TermText.nameEnd_tail {k : Nat} {l t : Term} {s rest : List Char}
    (h : TermText (.tail k l t) s) (hrest : NameEnd rest) : NameEnd (s ++ rest) := by
  cases h with
  | stop => exact hrest
  | link hop _ _ =>
    rw [List.append_assoc]
    exact hop.nameEnd _

/-- The arguments of a call open a group. -/
theorem TermText.opensCall_arguments {ts : List Term} {s : List Char}
    (h : TermText (.arguments ts) s) (rest : List Char) :
    Detached (s ++ rest) ∧ opensCall (Text.pathPieces (s ++ rest)) = true := by
  obtain ⟨c, tail, hskip, hc⟩ := h.starts rfl
  obtain rfl := beq_iff_eq.mp hc
  obtain ⟨gaps, hgaps, hs⟩ := exists_gaps s
  have hstart := skipGaps_append_of_cons hskip rest
  refine ⟨detached_of_skipGaps hstart rfl, ?_⟩
  rw [hs, hskip, List.append_assoc, opensCall_gaps hgaps, List.cons_append, opensCall_cons rfl rfl]
  rfl

theorem NumberText.isNameStart {s : List Char} (h : NumberText s) :
    ∀ c ∈ s, Text.isNameStart c = false := by
  intro c hc
  rcases h.isDigit_or_eq_point c hc with hc | rfl
  · exact isNameStart_of_isDigit hc
  · rfl

/-- Every phrase contributes its identifiers. -/
theorem TermText.names {identifier : String → String} (hf : AvoidsTruth identifier) {p : Phrase}
    {s : List Char} (h : TermText p s) : ∀ rest, NameEnd rest → p.Names identifier s rest := by
  induction h with
  | gap hc _ ih =>
    intro rest hrest
    exact (renamedNames_cons (isNameStart_of_isGap hc) _).trans (ih rest hrest)
  | number hs =>
    intro rest hrest
    exact renamedNames_append hs.isNameStart rest
  | @truth w b hw =>
    intro rest hrest
    have hmem : w ∈ truthNames := by
      simp only [truthWords, List.mem_cons, Prod.mk.injEq, List.not_mem_nil, or_false] at hw
      rcases hw with ⟨rfl, -⟩ | ⟨rfl, -⟩ | ⟨rfl, -⟩ | ⟨rfl, -⟩ <;> decide
    exact renamedNames_truth hmem hrest.detached
  | var hw =>
    intro rest hrest
    exact renamedNames_variable hf hw hrest
  | @call w s ts hw hs ih =>
    intro rest hrest
    obtain ⟨hdetached, hcall⟩ := hs.opensCall_arguments rest
    have harguments : renamedNames identifier (s ++ rest) = _ := ih rest hrest
    rw [Phrase.Names, List.append_assoc, renamedNames_called hw hdetached hcall, harguments]
    rfl
  | @paren t s s' _ hclose ih =>
    intro rest hrest
    have hinner : renamedNames identifier (s ++ (s' ++ rest)) = _ :=
      ih _ (hclose.nameEnd rfl rfl (by decide) rest)
    rw [Phrase.Names, List.cons_append, renamedNames_cons rfl, List.append_assoc, hinner,
      hclose.names_mark rfl]
  | noArguments hopen hclose =>
    intro rest hrest
    rw [Phrase.Names, List.append_assoc, hopen.names_mark rfl, hclose.names_mark rfl]
    rfl
  | @arguments ts s s' s'' hopen _ hclose ih =>
    intro rest hrest
    have hitems : renamedNames identifier (s' ++ (s'' ++ rest)) = _ :=
      ih _ (hclose.nameEnd rfl rfl (by decide) rest)
    rw [Phrase.Names, List.append_assoc, List.append_assoc, hopen.names_mark rfl, hitems,
      hclose.names_mark rfl]
  | lastItem _ ih =>
    intro rest hrest
    have hitem : renamedNames identifier _ = _ := ih rest hrest
    rw [Phrase.Names, hitem, Term.identifiersList, Term.identifiersList, List.append_nil]
  | @item t ts s s' s'' _ hcomma _ ih ih' =>
    intro rest hrest
    have hitem : renamedNames identifier (s ++ (s' ++ (s'' ++ rest))) = _ :=
      ih _ (hcomma.nameEnd rfl rfl (by decide) _)
    have hitems : renamedNames identifier (s'' ++ rest) = _ := ih' rest hrest
    rw [Phrase.Names, List.append_assoc, List.append_assoc, hitem, hcomma.names_mark rfl, hitems,
      Term.identifiersList, List.append_assoc]
  | unsigned _ ih => exact ih
  | negative hsign _ ih =>
    intro rest hrest
    have hoperand : renamedNames identifier _ = _ := ih rest hrest
    rw [Phrase.Names, List.append_assoc, hsign.names_mark rfl, hoperand]
    rfl
  | factor _ ih => exact ih
  | @chain k l t s s' _ htail ih ih' =>
    intro rest hrest
    have hfirst : renamedNames identifier (s ++ (s' ++ rest)) = _ :=
      ih _ (htail.nameEnd_tail hrest)
    have hothers : l.identifiers identifier ++ renamedNames identifier (s' ++ rest) = _ :=
      ih' rest hrest
    rw [Phrase.Names, List.append_assoc, hfirst, hothers]
  | stop => exact fun rest hrest ↦ rfl
  | @link k op l r t s s' s'' hop _ htail ih ih' =>
    intro rest hrest
    have hoperand : renamedNames identifier (s' ++ (s'' ++ rest)) = _ :=
      ih _ (htail.nameEnd_tail hrest)
    have hothers : (Term.arith op l r).identifiers identifier ++
        renamedNames identifier (s'' ++ rest) = _ := ih' rest hrest
    rw [Phrase.Names, List.append_assoc, List.append_assoc, hop.names, hoperand, ← hothers,
      Term.identifiers, List.append_assoc]

/-! ## Predicates and normal forms -/

section

variable {p : Predicate} {s : List Char}

theorem nameEnd_nil : NameEnd [] := ⟨(fun c hc ↦ by cases hc), rfl⟩

theorem ComparisonText.nameEnd {op : RelOp} (h : ComparisonText op s) (rest : List Char) :
    NameEnd (s ++ rest) := by
  obtain ⟨c, tail, hskip, hc⟩ := h.starts
  simp only [startsComparison, List.mem_cons, List.not_mem_nil, or_false,
    decide_eq_true_eq] at hc
  have hstart := skipGaps_append_of_cons hskip rest
  rcases hc with rfl | rfl | rfl | rfl | rfl | rfl <;>
    exact nameEnd_of_skipGaps hstart rfl rfl (by decide)

/-- The names of a predicate's text are its identifiers. -/
theorem PredicateText.names {identifier : String → String} (hf : AvoidsTruth identifier)
    (h : PredicateText p s) : renamedNames identifier s = p.identifiers identifier := by
  have hterm {t : Term} {s : List Char} (h : TermText (.level 2 t) s) :
      renamedNames identifier s = t.identifiers identifier := by
    have hnames : renamedNames identifier (s ++ []) = _ := h.names hf [] nameEnd_nil
    rw [List.append_nil] at hnames
    exact hnames.trans (List.append_nil _)
  cases h with
  | holds hs => exact hterm hs
  | @compare l r op s s' s'' hl hop hr =>
    have hleft : renamedNames identifier (s ++ (s' ++ s'')) = _ :=
      hl.names hf _ (hop.nameEnd s'')
    obtain ⟨sign, hmem, htoken⟩ := hop
    rw [hleft, htoken.names fun c hc ↦ (forall_mem_spelling hmem c hc).1, hterm hr,
      Predicate.identifiers]

end

end Grammar

/-- The safe name of a word is a word. -/
theorem keepsWords_safeName : KeepsWords safeName := by
  intro w _
  obtain ⟨c, rest, hsafe, hc⟩ := exists_safeName_eq_cons (String.ofList w)
  have hpart {d : Char} (hd : d ∈ (safeName (String.ofList w)).toList) :
      Text.isNamePart d = true := isNamePart_of_mem_safeName hd
  have hstart : Text.isNameStart c = true := by
    have hfirst := hpart (hsafe ▸ List.mem_cons_self)
    simpa [Text.isNamePart, Text.isNameStart, Char.isAlphanum, hc] using hfirst
  refine ⟨⟨c, rest, hsafe, hstart⟩, fun d hd ↦ ?_⟩
  rw [Text.isPathPart, hpart hd, Bool.true_or]

/-- A safe name is a truth value only if the name is. -/
theorem avoidsTruth_safeName : AvoidsTruth safeName := by
  intro w hw hmem
  have hplain : '_' ∉ (safeName (String.ofList w)).toList := by
    simp only [truthNames, List.mem_cons, List.not_mem_nil, or_false] at hmem
    rcases hmem with heq | heq | heq | heq <;> rw [heq] <;> decide
  rw [safeName_eq_self hplain] at hmem
  exact notMem_truthNames hw hmem

/-- The names in the normal form of a proposition, truth values apart, are the identifiers of its
predicate. -/
theorem names_normalizeProposition {i : Interface} (hi : i.identifier = safeName)
    {p : Predicate} {text : String} (h : Grammar.PredicateText p text.toList) :
    (Text.pathNames (normalizeProposition i text).toList).filter (· ∉ truthNames) =
      p.identifiers safeName := by
  have hfree : ArrowFree (spellRenamed safeName (Text.pathPieces text.toList)) := by
    rw [spellRenamed_eq]
    apply keepsWords_safeName.arrowFree_renamed (pathPieces_isPathPieces _)
    rw [Text.flatMap_spell_pathPieces]
    exact h.arrowFree
  rw [normalizeProposition, hi, String.toList_ofList, pathNames_linearize hfree, Text.pathNames,
    Text.namesFrom]
  have hpieces := keepsWords_safeName.pathPieces_spellRenamed text.toList
  rw [Text.pathPieces] at hpieces
  rw [hpieces]
  exact h.names avoidsTruth_safeName

/-- The dependency tokens of a normal form are its names but for truth values and literals. -/
theorem mem_dependencyTokens {isLiteral : String → Bool} {normal t : String} :
    t ∈ dependencyTokens isLiteral normal ↔
      t ∈ (Text.pathNames normal.toList).filter (· ∉ truthNames) ∧ isLiteral t = false := by
  rw [dependencyTokens, List.mem_eraseDups, List.mem_filterMap, List.mem_filter, Text.pathNames,
    Text.namesFrom, List.mem_filterMap, and_assoc, ← exists_and_right]
  refine exists_congr fun piece ↦ ?_
  rw [and_assoc, decide_eq_true_eq]
  apply and_congr_right
  intro _
  cases piece with
  | other c => simp [Text.Piece.name?]
  | name letters =>
    simp only [Text.Piece.name?, Option.some.injEq]
    split
    · rename_i hdropped
      refine iff_of_false (by simp) ?_
      rintro ⟨rfl, htruth, hliteral⟩
      simp [htruth, hliteral] at hdropped
    · rename_i hkept
      simp only [Bool.or_eq_true, decide_eq_true_eq, not_or, Bool.not_eq_true] at hkept
      constructor
      · intro heq
        obtain rfl := Option.some.inj heq
        exact ⟨rfl, hkept⟩
      · rintro ⟨rfl, -⟩
        rfl

end TemporalRequirements
