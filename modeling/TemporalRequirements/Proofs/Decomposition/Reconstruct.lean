import TemporalRequirements.Proofs.Decomposition.PutBack
import TemporalRequirements.Proofs.Grammar.OneLine
import TemporalRequirements.Proofs.Proposition.Symbol

/-!
# Decomposition loses nothing

A requirement that was decomposed is put together again property by property.  Each property is its
scope keyword and a text that is read as its formula, unless the parentheses of the text nest too
deep.
-/

namespace TemporalRequirements

theorem eq_of_split {s : List Char} (h : Text.trimStart s = s) :
    s = (ScopeTag.keywordOf (ScopeTag.split s).1).toList ++ (ScopeTag.split s).2 := by
  simp only [ScopeTag.split, ScopeTag.all, List.findSome?_cons, List.findSome?_nil, h]
  cases hafter : Text.after? ScopeTag.afterInitialCondition.keyword.toList s with
  | some rest => exact Text.after?_eq_some_iff.mp hafter
  | none =>
    cases hinitial : Text.after? ScopeTag.initialCondition.keyword.toList s with
    | some rest => exact Text.after?_eq_some_iff.mp hinitial
    | none => rfl

theorem count_keywordOf (tag : Option ScopeTag) :
    (ScopeTag.keywordOf tag).toList.count '(' = 0 ∧
      (ScopeTag.keywordOf tag).toList.count ')' = 0 := by
  match tag with
  | none | some .initialCondition | some .afterInitialCondition => decide

theorem balanceEdges_eq_ok {s : List Char} (h : s.count '(' = s.count ')') :
    balanceEdges s = .ok s := by
  simp only [balanceEdges, h, Nat.lt_irrefl, if_false, Nat.sub_self, peelClosers,
    List.reverse_reverse]

/-- A balanced text without blanks in front is balanced already. -/
theorem balance_eq_ok {text : String} (hstart : Text.trimStart text.toList = text.toList)
    (h : Text.Balanced text.toList) : balance text = .ok text := by
  -- a keyword that is set aside holds no parenthesis and comes back in front
  have hparts := eq_of_split hstart
  have hcount := h.count_open_eq_count_close
  obtain ⟨hopen, hclose⟩ := count_keywordOf (ScopeTag.split text.toList).1
  rw [hparts, List.count_append, List.count_append, hopen, hclose, Nat.zero_add,
    Nat.zero_add] at hcount
  have htext : ScopeTag.keywordOf (ScopeTag.split text.toList).1 ++
      String.ofList (ScopeTag.split text.toList).2 = text := by
    apply String.toList_inj.mp
    rw [String.toList_append, String.toList_ofList, ← hparts]
  simp only [balance, balanceEdges_eq_ok hcount, htext]

/-- The text of an atom that was read is kept as it is. -/
theorem cleanProposition_of_wellRead {a : Atom} (h : a.WellRead) :
    cleanProposition a.text = a.text := by
  have hbalance := balance_eq_ok h.core.trimStart h.spelled.balanced
  simp only [cleanProposition, hbalance, h.core.unwrap, String.ofList_toList]

/-- A property is read if the text after its keyword is. -/
theorem parseChunk_eq_ok_iff {text : String} {tag : Option ScopeTag} {rest : List Char}
    (hsplit : ScopeTag.split text.toList = (tag, rest)) {chunk : Chunk} :
    Chunk.parse text = .ok chunk ↔
      Formula.parse (String.ofList rest) = .ok chunk.formula ∧ chunk.tag = tag := by
  rw [Chunk.parse, hsplit]
  dsimp only
  cases Formula.parse (String.ofList rest) with
  | error e => exact ⟨fun h ↦ (by cases h), fun h ↦ (by cases h.1)⟩
  | ok g =>
    constructor
    · intro h
      obtain rfl := Except.ok.inj h
      exact ⟨rfl, rfl⟩
    · rintro ⟨hf, rfl⟩
      rw [Except.ok.inj hf]
      rfl

theorem wellRead_of_parseChunk {text : String} {chunk : Chunk}
    (h : Chunk.parse text = .ok chunk) : ∀ a ∈ chunk.formula.atoms, a.WellRead :=
  Grammar.wellRead_of_parse ((parseChunk_eq_ok_iff rfl).mp h).1

/-- A list is mapped if each of its members is. -/
theorem mapM_eq_ok_iff {ε α β : Type} {f : α → Except ε β} {as : List α} {bs : List β} :
    as.mapM f = .ok bs ↔ as.map f = bs.map .ok := by
  induction as generalizing bs with
  | nil => cases bs <;> simp [pure, Except.pure]
  | cons a as ih =>
    rw [List.mapM_cons]
    cases ha : f a with
    | error e => cases bs <;> simp [bind, Except.bind, ha]
    | ok b =>
      cases has : as.mapM f with
      | error e => cases bs <;> simp [bind, Except.bind, ← ih, has]
      | ok rest => cases bs <;> simp [bind, Except.bind, pure, Except.pure, ← ih, has, ha]

/-- All properties of a text are read if each of them is. -/
theorem parseChunks_eq_ok_iff {text : String} {chunks : List Chunk} :
    parseChunks text = .ok chunks ↔ (splitChunks text).map Chunk.parse = chunks.map .ok :=
  mapM_eq_ok_iff

/-- Properties are read if each of them is. -/
theorem readChunks_eq_ok_iff {id : String} {n : Nat} {texts : List String} {chunks : List Chunk} :
    readChunks id n texts = .ok chunks ↔ texts.map Chunk.parse = chunks.map .ok := by
  induction texts generalizing n chunks with
  | nil =>
    constructor
    · intro h
      obtain rfl := Except.ok.inj h
      rfl
    · intro h
      rw [List.map_eq_nil_iff.mp h.symm]
      rfl
  | cons text texts ih =>
    rw [readChunks.eq_def, List.map_cons]
    dsimp only
    cases hchunk : Chunk.parse text with
    | error e => cases chunks <;> simp
    | ok chunk =>
      constructor
      · intro h
        cases hrest : readChunks id (n + 1) texts with
        | error e =>
          rw [hrest] at h
          cases h
        | ok rest =>
          rw [hrest] at h
          obtain rfl := Except.ok.inj h
          rw [ih.mp hrest, List.map_cons]
      · intro h
        cases chunks with
        | nil => cases h
        | cons c rest =>
          obtain ⟨hc, hrest⟩ := List.cons.inj h
          rw [ih.mpr hrest, ← Except.ok.inj hc]
          rfl

/-- The atoms of properties that are read are read. -/
theorem wellRead_of_map_parse {texts : List String} {chunks : List Chunk}
    (h : texts.map Chunk.parse = chunks.map .ok) :
    ∀ c ∈ chunks, ∀ a ∈ c.formula.atoms, a.WellRead := by
  intro c hc
  have hmem : Except.ok c ∈ texts.map Chunk.parse := h ▸ List.mem_map_of_mem hc
  obtain ⟨piece, -, hpiece⟩ := List.mem_map.mp hmem
  exact wellRead_of_parseChunk hpiece

theorem notMem_of_isBlank_eq_false {c : Char} {s : List Char} (hc : Text.isBlank c = false)
    (h : s.all Text.isBlank = true) : c ∉ s := by
  intro hmem
  rw [List.all_eq_true.mp h c hmem] at hc
  cases hc

/-- A text that is not blank has a property. -/
theorem splitChunks_ne_nil {text : String} (h : Text.isBlankText text = false) :
    splitChunks text ≠ [] := by
  obtain ⟨c, hmem, hc⟩ : ∃ c ∈ text.toList, Text.isBlank c = false := by
    simpa [Text.isBlankText] using h
  have hunix : c ∈ Text.replaceAll "\r\n".toList "\n".toList text.toList :=
    Text.mem_replaceAll hmem (by decide) (notMem_of_isBlank_eq_false hc rfl) _
  have hseparator : c ∉ chunkSeparator.toList := notMem_of_isBlank_eq_false hc rfl
  obtain ⟨piece, hpiece, hin⟩ := Text.exists_mem_splitOn hunix (by decide) hseparator
  have htrim : (Text.trim piece).isEmpty = false :=
    List.isEmpty_eq_false_iff_exists_mem.mpr ⟨c, Text.mem_trim hin hc⟩
  apply List.ne_nil_of_mem (a := String.ofList (Text.trim piece))
  rw [splitChunks, List.mem_filterMap]
  exact ⟨Text.trim piece, List.mem_map_of_mem hpiece, by rw [htrim]; rfl⟩

/-- What is decomposed are properties that are read, at least one. -/
theorem exists_chunks_of_decompose {i : Interface} {id text : String} {d : Decomposition}
    (h : decompose i id text = .ok (some d)) :
    ∃ chunks, chunks ≠ [] ∧ (∀ c ∈ chunks, ∀ a ∈ c.formula.atoms, a.WellRead) ∧
      d = .ofChunks i chunks := by
  unfold decompose at h
  split at h
  · cases h
  · rename_i hblank
    cases hread : readChunks id 0 (splitChunks text) with
    | error e =>
      rw [hread] at h
      cases h
    | ok chunks =>
      rw [hread] at h
      have hparsed := readChunks_eq_ok_iff.mp hread
      refine ⟨chunks, ?_, wellRead_of_map_parse hparsed, (Option.some.inj (Except.ok.inj h)).symm⟩
      rintro rfl
      exact splitChunks_ne_nil (by simpa using hblank) (List.map_eq_nil_iff.mp hparsed)

/-! ## Symbols in place of propositions -/

/-- Every atom has a symbol, under which its text is found. -/
theorem exists_symbolOf {i : Interface} {chunks : List Chunk} {c : Chunk} {a : Atom}
    (hc : c ∈ chunks) (ha : a ∈ c.formula.atoms) (h : a.WellRead) :
    ∃ n, (Decomposition.ofChunks i chunks).symbolOf? a = some (symbolAt n) ∧
      (Decomposition.ofChunks i chunks).propositions.get? (symbolAt n) = some a.text := by
  have hne : a.text ≠ "" := by
    intro hempty
    obtain ⟨d, rest, htext, -⟩ := h.core.starts
    rw [hempty] at htext
    cases htext
  have hmem : a.text ∈ Decomposition.propositionTexts chunks := by
    rw [Decomposition.propositionTexts, List.mem_filter, List.mem_map]
    refine ⟨⟨a, List.mem_flatMap.mpr ⟨c, hc, ha⟩, cleanProposition_of_wellRead h⟩, ?_⟩
    exact decide_eq_true hne
  obtain ⟨n, hfind, hget⟩ := exists_symbol hmem
  refine ⟨n, ?_, hget⟩
  rw [Decomposition.symbolOf?, cleanProposition_of_wellRead h]
  exact hfind

/-- The text of an atom that was put back. -/
def restoredAtom (a : Atom) : List Char :=
  (parenthesizedIf (!Text.isSimple a.text.toList) a.text).toList

theorem spaced_restoredAtom {a : Atom} (h : a.WellRead) : Text.Spaced (restoredAtom a) :=
  spaced_parenthesizedIf (Text.spaced_of_squeeze_eq h.core.squeezed) _

/-- The text of a formula whose atoms were put back. -/
def restoredText (f : Formula) : String :=
  String.ofList (f.spellWith .canonical (fun _ ↦ restoredAtom) false)

/-- Where a symbol stands for an atom, the atom is put back. -/
theorem putBack_symbol {m : OrderedMap String String} {n : Nat} {a : Atom}
    (h : m.get? (symbolAt n) = some a.text) (operand : Bool) :
    putBack m (parenthesizedIf (operand && !Text.isSimple (symbolAt n).toList)
      (symbolAt n)).toList = restoredAtom a := by
  obtain ⟨c, s, hs, hc, hparts⟩ := exists_name_symbolAt n
  have hname : String.ofList (c :: s) = symbolAt n := by rw [← hs, String.ofList_toList]
  rw [isSimple_symbolAt, Bool.not_true, Bool.and_false, parenthesizedIf, if_neg Bool.false_ne_true,
    hs, putBack_name m hc hparts]
  simp only [spellPiece, hname, isSymbol_symbolAt, if_true, h]
  rfl

/-- A keyword is no symbol, so propositions are put back behind it. -/
theorem putBack_tagged (m : OrderedMap String String) (tag : Option ScopeTag) (body : String) :
    putBack m (tagged tag body).toList =
      (tagged tag (String.ofList (putBack m body.toList))).toList := by
  cases tag with
  | none => rw [tagged, tagged, String.toList_ofList]
  | some tag =>
    have hkeyword : putBack m tag.keyword.toList = tag.keyword.toList := by
      cases tag with
      | initialCondition | afterInitialCondition =>
        exact putBack_word m rfl rfl (by decide)
    have hblank : " ".toList = [' '] := rfl
    simp only [tagged, String.toList_append, String.toList_ofList, List.append_assoc, hblank,
      List.singleton_append]
    rw [putBack_append m rfl, hkeyword]

/-- The structure of a property becomes its keyword and its formula with the propositions put back.
-/
theorem putBack_chunkStructure {d : Decomposition} {c : Chunk}
    (h : ∀ a ∈ c.formula.atoms, ∃ n, d.symbolOf? a = some (symbolAt n) ∧
      d.propositions.get? (symbolAt n) = some a.text) :
    putBack d.propositions (d.chunkStructure c).toList =
      (tagged c.tag (restoredText c.formula)).toList := by
  rw [Decomposition.chunkStructure, putBack_tagged, Formula.toList_printWith rfl, restoredText]
  congr 3
  apply putBack_spellWith
  intro a ha operand
  obtain ⟨n, hsymbol, hget⟩ := h a ha
  rw [hsymbol, Option.getD_some]
  exact putBack_symbol hget operand

/-- Propositions are put back piece by piece. -/
theorem putBack_intercalate (m : OrderedMap String String) (pieces : List (List Char)) :
    putBack m (chunkSeparator.toList.intercalate pieces) =
      chunkSeparator.toList.intercalate (pieces.map (putBack m)) := by
  induction pieces with
  | nil => rfl
  | cons s pieces ih =>
    cases pieces with
    | nil => simp
    | cons t pieces =>
      calc
        putBack m (chunkSeparator.toList.intercalate (s :: t :: pieces)) =
            putBack m (s ++ '\n' :: '\n' :: chunkSeparator.toList.intercalate (t :: pieces)) := by
          rw [List.intercalate_cons_of_ne_nil (List.cons_ne_nil t pieces), List.append_assoc]
          rfl
        _ = putBack m s ++ '\n' :: '\n' ::
            chunkSeparator.toList.intercalate ((t :: pieces).map (putBack m)) := by
          rw [putBack_append m rfl, putBack_cons m rfl, ih]
        _ = chunkSeparator.toList.intercalate ((s :: t :: pieces).map (putBack m)) := by
          simp only [List.map_cons]
          rw [List.intercalate_cons_of_ne_nil (List.cons_ne_nil _ _), List.append_assoc]
          rfl

/-! ## Putting together -/

/-- The text that is put back is read as the formula. -/
theorem parse_restoredText {f : Formula} (h : ∀ a ∈ f.atoms, a.WellRead) :
    Formula.parse (restoredText f) =
      if Text.nesting (restoredText f).toList ≤ maxNesting then .ok f
      else .error (.tooDeep (Text.nesting (restoredText f).toList)) := by
  have hatoms : ∀ a ∈ f.atoms, ∀ operand : Bool, Grammar.FormulaText 0 (.atom a) (restoredAtom a) :=
    fun a ha _ ↦ Grammar.formulaText_parenthesizedIf (Grammar.formulaText_atom (h a ha)) _
  have htext : Grammar.FormulaText 6 f (f.spellWith .canonical (fun _ ↦ restoredAtom) false) :=
    (Grammar.formulaText_spellWith (Dialect.isReadable_canonical _) hatoms).2
  rw [restoredText, htext.parse, String.toList_ofList]

/-- What is put together are the properties in order, between blank lines. -/
theorem splitOn_reconstruct {i : Interface} {chunks : List Chunk} (hne : chunks ≠ [])
    (h : ∀ c ∈ chunks, ∀ a ∈ c.formula.atoms, a.WellRead) :
    Text.splitOn chunkSeparator.toList (reconstruct (Decomposition.ofChunks i chunks).propositions
        (Decomposition.ofChunks i chunks).structureText).toList =
      chunks.map fun c ↦ (tagged c.tag (restoredText c.formula)).toList := by
  have htext : (reconstruct (Decomposition.ofChunks i chunks).propositions
      (Decomposition.ofChunks i chunks).structureText).toList =
      chunkSeparator.toList.intercalate
        (chunks.map fun c ↦ (tagged c.tag (restoredText c.formula)).toList) := by
    rw [toList_reconstruct, Decomposition.structureText, String.toList_intercalate,
      putBack_intercalate, List.map_map, List.map_map]
    congr 1
    apply List.map_congr_left
    intro c hc
    exact putBack_chunkStructure fun a ha ↦ exists_symbolOf hc ha (h c hc a ha)
  rw [htext]
  -- no property holds a line break, so every separator found is one that was put there
  apply Text.splitOn_intercalate (c := '\n')
  · simpa using hne
  · intro piece hpiece
    obtain ⟨c, hc, rfl⟩ := List.mem_map.mp hpiece
    have htext : Text.Spaced (restoredText c.formula).toList := by
      rw [restoredText, String.toList_ofList]
      exact spaced_spellWith (fun a ha _ ↦ spaced_restoredAtom (h c hc a ha)) false
    exact (spaced_tagged htext).notMem rfl (by decide)

/-- Every property of a decomposed requirement comes back: what is put together is, between blank
lines, the properties in order, each as its scope keyword and a text that is read as its formula. -/
theorem decompose_reconstruct {i : Interface} {id text : String} {d : Decomposition}
    (h : decompose i id text = .ok (some d)) :
    let pieces := Text.splitOn chunkSeparator.toList
      (reconstruct d.propositions d.structureText).toList
    pieces.length = d.chunks.length ∧
      ∀ (k : Nat) (chunk : Chunk), d.chunks[k]? = some chunk → ∃ body,
        pieces[k]? = some (tagged chunk.tag body).toList ∧
        Formula.parse body =
          if Text.nesting body.toList ≤ maxNesting then .ok chunk.formula
          else .error (.tooDeep (Text.nesting body.toList)) := by
  intro pieces
  obtain ⟨chunks, hne, hwell, rfl⟩ := exists_chunks_of_decompose h
  have hpieces : pieces = chunks.map fun c ↦ (tagged c.tag (restoredText c.formula)).toList :=
    splitOn_reconstruct hne hwell
  rw [hpieces]
  refine ⟨List.length_map _, ?_⟩
  intro k chunk hchunk
  have hget : chunks[k]? = some chunk := hchunk
  refine ⟨restoredText chunk.formula, by rw [List.getElem?_map, hget, Option.map_some], ?_⟩
  exact parse_restoredText (hwell chunk (List.mem_of_getElem? hget))

/-- Two properties whose propositions are spelled like symbols. -/
def lookalikes : String := "InitialConditionRequirement Z && Q > 2\n\nG (Y0001 U Q > 2)"

theorem decompose_reconstruct_lookalikes :
    ∃ d, decompose .empty "R1" lookalikes = .ok (some d) ∧
      let pieces := Text.splitOn chunkSeparator.toList
        (reconstruct d.propositions d.structureText).toList
      pieces.length = 2 ∧ ∃ body,
        pieces[0]? = some (tagged (some .initialCondition) body).toList ∧
        Formula.parse body =
          if Text.nesting body.toList ≤ maxNesting then Formula.parse "Z && Q > 2"
          else .error (.tooDeep (Text.nesting body.toList)) := by
  let large : Formula := .atom ⟨"Q > 2", .compare (.var "Q") .gt (.number "2")⟩
  let initial : Formula := .binary .and (.atom ⟨"Z", .holds (.var "Z")⟩) large
  let later : Formula :=
    .unary .always (.binary .strongUntil (.atom ⟨"Y0001", .holds (.var "Y0001")⟩) large)
  have htexts : splitChunks lookalikes =
      ["InitialConditionRequirement Z && Q > 2", "G (Y0001 U Q > 2)"] := by
    decide +kernel
  have hinitial : Chunk.parse "InitialConditionRequirement Z && Q > 2" =
      .ok ⟨some .initialCondition, initial⟩ := by
    have hsplit : ScopeTag.split "InitialConditionRequirement Z && Q > 2".toList =
        (some .initialCondition, " Z && Q > 2".toList) := by decide +kernel
    refine (parseChunk_eq_ok_iff hsplit).mpr ⟨?_, rfl⟩
    rw [String.ofList_toList]
    exact eq_ok_of_toOption (by decide +kernel)
  have hlater : Chunk.parse "G (Y0001 U Q > 2)" = .ok ⟨none, later⟩ := by
    have hsplit : ScopeTag.split "G (Y0001 U Q > 2)".toList =
        (none, "G (Y0001 U Q > 2)".toList) := by decide +kernel
    refine (parseChunk_eq_ok_iff hsplit).mpr ⟨?_, rfl⟩
    rw [String.ofList_toList]
    exact eq_ok_of_toOption (by decide +kernel)
  have hread : readChunks "R1" 0 (splitChunks lookalikes) =
      .ok [⟨some .initialCondition, initial⟩, ⟨none, later⟩] := by
    rw [readChunks_eq_ok_iff, htexts, List.map_cons, List.map_cons, hinitial, hlater]
    rfl
  have hblank : Text.isBlankText lookalikes = false := by decide +kernel
  have hdecompose : decompose .empty "R1" lookalikes =
      .ok (some (.ofChunks .empty [⟨some .initialCondition, initial⟩, ⟨none, later⟩])) := by
    rw [decompose, hblank, if_neg Bool.false_ne_true, hread, Except.map]
  have halone : Formula.parse "Z && Q > 2" = .ok initial :=
    eq_ok_of_toOption (by decide +kernel)
  obtain ⟨hlength, hpieces⟩ := decompose_reconstruct hdecompose
  obtain ⟨body, hbody, hparse⟩ := hpieces 0 ⟨some .initialCondition, initial⟩ rfl
  refine ⟨_, hdecompose, hlength, body, hbody, ?_⟩
  rw [halone]
  exact hparse

end TemporalRequirements
