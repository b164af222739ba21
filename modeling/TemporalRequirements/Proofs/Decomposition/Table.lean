import TemporalRequirements.Proofs.Duplicates
import TemporalRequirements.Proofs.Engine.Isolation
import TemporalRequirements.Proofs.ModelChecker.Definitions

/-!
# The table of a decomposition

A requirement whose properties are read always has a decomposition.  The checks on its propositions
and on the texts that it renders find nothing, because the text of an atom that was read is balanced
and one line, and because canonical texts have bounded operators.  Its symbols, propositions and
atoms agree with each other.
-/

namespace TemporalRequirements

theorem mem_longestFirst {text : String} {texts : List String} :
    text ∈ longestFirst texts ↔ text ∈ texts :=
  List.mem_mergeSort.trans List.mem_eraseDups

theorem nodup_longestFirst (texts : List String) : (longestFirst texts).Nodup :=
  (List.mergeSort_perm _ _).nodup_iff.mpr (nodup_eraseDups texts)

/-- The relation by which propositions are sorted. -/
theorem longer_trans (a b c : String) (hab : decide (b.utf8ByteSize ≤ a.utf8ByteSize) = true)
    (hbc : decide (c.utf8ByteSize ≤ b.utf8ByteSize) = true) :
    decide (c.utf8ByteSize ≤ a.utf8ByteSize) = true :=
  decide_eq_true (Nat.le_trans (of_decide_eq_true hbc) (of_decide_eq_true hab))

theorem longer_total (a b : String) :
    (decide (b.utf8ByteSize ≤ a.utf8ByteSize) || decide (a.utf8ByteSize ≤ b.utf8ByteSize)) =
      true := by
  simpa using Nat.le_total b.utf8ByteSize a.utf8ByteSize

/-- Texts of one length stay in the order in which they came. -/
theorem filter_longestFirst (texts : List String) (n : Nat) :
    (longestFirst texts).filter (fun t ↦ t.utf8ByteSize = n) =
      texts.eraseDups.filter fun t ↦ t.utf8ByteSize = n := by
  have hequal : (texts.eraseDups.filter fun t ↦ t.utf8ByteSize = n).Pairwise fun a b ↦
      decide (b.utf8ByteSize ≤ a.utf8ByteSize) = true := by
    refine List.pairwise_of_forall_mem_list fun a ha b hb ↦ decide_eq_true ?_
    have hsize {t : String} (ht : t ∈ texts.eraseDups.filter fun t ↦ t.utf8ByteSize = n) :
        t.utf8ByteSize = n := of_decide_eq_true (List.mem_filter.mp ht).2
    rw [hsize ha, hsize hb]
  have hkept := (List.sublist_mergeSort longer_trans longer_total hequal
    List.filter_sublist).filter fun t ↦ t.utf8ByteSize = n
  rw [List.filter_filter] at hkept
  simp only [Bool.and_self] at hkept
  exact (hkept.eq_of_length ((List.mergeSort_perm _ _).filter _).length_eq.symm).symm

/-- Propositions come with the longest text first, and with equally long texts in the order in
which they first occur. -/
theorem pairwise_longestFirst (texts : List String) :
    (longestFirst texts).Pairwise fun t t' ↦ t'.utf8ByteSize < t.utf8ByteSize ∨
      t'.utf8ByteSize = t.utf8ByteSize ∧ texts.idxOf t < texts.idxOf t' := by
  have hsorted := List.pairwise_mergeSort longer_trans longer_total texts.eraseDups
  rw [List.pairwise_iff_forall_sublist]
  intro t t' hpair
  have hle : t'.utf8ByteSize ≤ t.utf8ByteSize :=
    of_decide_eq_true (List.pairwise_iff_forall_sublist.mp hsorted hpair)
  rcases Nat.lt_or_eq_of_le hle with hlt | heq
  · exact .inl hlt
  · refine .inr ⟨heq, ?_⟩
    have hequal := hpair.filter fun s ↦ s.utf8ByteSize = t.utf8ByteSize
    rw [filter_longestFirst] at hequal
    have horder : List.Sublist [t, t'] texts.eraseDups := by
      simpa [heq] using hequal.trans List.filter_sublist
    exact List.pairwise_iff_forall_sublist.mp (pairwise_idxOf_eraseDups texts) horder

theorem keys_assignSymbols (texts : List String) :
    (assignSymbols texts).keys = (List.range (longestFirst texts).length).map symbolAt := by
  rw [OrderedMap.keys, entries_assignSymbols]
  apply List.ext_getElem <;> simp

theorem values_assignSymbols (texts : List String) :
    (assignSymbols texts).values = longestFirst texts := by
  rw [OrderedMap.values, entries_assignSymbols]
  apply List.ext_getElem <;> simp

/-! ## Every check -/

theorem breakOn_separator_of_wellRead {a : Atom} (h : a.WellRead) :
    Text.breakOn chunkSeparator.toList a.text.toList = none := by
  cases hbreak : Text.breakOn chunkSeparator.toList a.text.toList with
  | none => rfl
  | some parts =>
    have hbreaks : '\n' ∈ a.text.toList := by
      rw [Text.eq_of_breakOn hbreak]
      exact List.mem_append_left _ (List.mem_append_right _ List.mem_cons_self)
    exact absurd hbreaks ((Text.spaced_of_squeeze_eq h.core.squeezed).notMem rfl (by decide))

/-- Nothing is found wrong with atoms that were read. -/
theorem cleanTexts_eq {id : String} {texts : List String}
    (h : ∀ text ∈ texts, ∃ a : Atom, a.WellRead ∧ a.text = text) :
    cleanTexts id texts = ([], .ok texts) := by
  induction texts with
  | nil => rfl
  | cons text texts ih =>
    obtain ⟨a, ha, rfl⟩ := h text List.mem_cons_self
    have hwarning : balanceWarning? id a.text = none := by
      rw [balanceWarning?, balance_eq_ok ha.core.trimStart ha.spelled.balanced]
    rw [cleanTexts, hwarning, cleanProposition_of_wellRead ha, breakOn_separator_of_wellRead ha,
      ih fun text ht ↦ h text (List.mem_cons_of_mem _ ht)]
    rfl

theorem Dialect.lower_canonical (f : Formula) : Dialect.canonical.lower f = f := by
  induction f with
  | const b | atom a => rfl
  | unary op f ih => exact congrArg (Formula.unary op) ih
  | bounded op n f ih => exact congrArg (Formula.bounded op n) ih
  | binary op l r ihl ihr =>
    rw [Dialect.lower, ihl, ihr]
    cases op <;> rfl

theorem Decomposition.renderChunk_eq (d : Decomposition) (c : Chunk) :
    d.renderChunk c = .ok (d.chunkStructure c) := by
  simp only [renderChunk, Formula.render, Dialect.lower_canonical]
  rfl

/-- The checks change nothing: they leave no warning and no error of their own. -/
theorem decomposeChecked_eq (i : Interface) (id text : String) :
    decomposeChecked i id text = ([], match decompose i id text with
      | .error e => .error (.reading e)
      | .ok outcome => .ok (outcome.map fun d ↦ (d, d.structureText))) := by
  by_cases hblank : Text.isBlankText text = true
  · simp [decomposeChecked, decompose, hblank]
  rw [decomposeChecked, decompose, if_neg hblank, if_neg hblank]
  cases hread : readChunks id 0 (splitChunks text) with
  | error e => rfl
  | ok chunks =>
    have hwell := wellRead_of_map_parse (readChunks_eq_ok_iff.mp hread)
    have hclean : cleanTexts id ((Decomposition.ofChunks i chunks).atoms.map Atom.text).eraseDups =
        ([], .ok ((Decomposition.ofChunks i chunks).atoms.map Atom.text).eraseDups) := by
      apply cleanTexts_eq
      intro text htext
      obtain ⟨a, ha, rfl⟩ := List.mem_map.mp (List.mem_eraseDups.mp htext)
      obtain ⟨c, hc, hatom⟩ := List.mem_flatMap.mp ha
      exact ⟨a, hwell c hc a hatom, rfl⟩
    have hrender : chunks.mapM (Decomposition.ofChunks i chunks).renderChunk =
        .ok (chunks.map (Decomposition.ofChunks i chunks).chunkStructure) := by
      rw [mapM_eq_ok_iff, List.map_map]
      exact List.map_congr_left fun c _ ↦ Decomposition.renderChunk_eq _ c
    simp only [hclean, hrender]
    rfl

/-- The symbols, propositions and atoms of a decomposition agree. -/
structure Decomposition.IsConsistent (d : Decomposition) : Prop where
  keys : d.propositions.keys = (List.range d.propositions.size).map symbolAt
  keys_nodup : d.propositions.keys.Nodup
  values_nodup : d.propositions.values.Nodup
  /-- The propositions are the texts of the atoms. -/
  mem_values : ∀ text, text ∈ d.propositions.values ↔ ∃ a ∈ d.atoms, a.text = text
  /-- The longest proposition comes first, and the first to occur of equally long ones. -/
  values_ordered : d.propositions.values.Pairwise fun t t' ↦
    t'.utf8ByteSize < t.utf8ByteSize ∨ t'.utf8ByteSize = t.utf8ByteSize ∧
      (d.atoms.map Atom.text).idxOf t < (d.atoms.map Atom.text).idxOf t'
  normalized_keys : d.normalized.keys = d.propositions.keys
  /-- A property has the symbols of its atoms, in the order in which they first occur. -/
  chunkSymbols : d.chunkSymbols.map (·.map d.propositions.get?) =
    d.chunks.map fun c ↦ (c.formula.atoms.map Atom.text).eraseDups.map some
  chunkSymbols_nodup : ∀ symbols ∈ d.chunkSymbols, symbols.Nodup
  length_chunkTokens : d.chunkTokens.length = d.chunks.length
  atomsBySymbol_keys : d.atomsBySymbol.map Prod.fst = d.propositions.keys
  atomsBySymbol_text : ∀ symbol a, (symbol, a) ∈ d.atomsBySymbol →
    a ∈ d.atoms ∧ d.propositions.get? symbol = some a.text

section

variable {i : Interface} {chunks : List Chunk}
  (h : ∀ c ∈ chunks, ∀ a ∈ c.formula.atoms, a.WellRead)

include h

/-- Cleaning leaves the texts of atoms that were read as they are. -/
theorem propositionTexts_eq : Decomposition.propositionTexts chunks =
    (Decomposition.ofChunks i chunks).atoms.map Atom.text := by
  have hwell : ∀ a ∈ (Decomposition.ofChunks i chunks).atoms, a.WellRead := by
    intro a ha
    obtain ⟨c, hc, hatom⟩ := List.mem_flatMap.mp ha
    exact h c hc a hatom
  have hclean : (Decomposition.ofChunks i chunks).atoms.map (fun a ↦ cleanProposition a.text) =
      (Decomposition.ofChunks i chunks).atoms.map Atom.text :=
    List.map_congr_left fun a ha ↦ cleanProposition_of_wellRead (hwell a ha)
  rw [Decomposition.propositionTexts]
  change List.filter _ ((Decomposition.ofChunks i chunks).atoms.map _) = _
  rw [hclean, List.filter_eq_self]
  intro text htext
  obtain ⟨a, ha, rfl⟩ := List.mem_map.mp htext
  obtain ⟨c, rest, htext, -⟩ := (hwell a ha).core.starts
  apply decide_eq_true
  intro hempty
  rw [hempty] at htext
  cases htext

theorem values_propositions : (Decomposition.ofChunks i chunks).propositions.values =
    longestFirst ((Decomposition.ofChunks i chunks).atoms.map Atom.text) := by
  rw [← propositionTexts_eq h]
  exact values_assignSymbols _

/-- The symbol of an atom stands for the atom's text. -/
theorem exists_symbolFor {c : Chunk} {a : Atom} (hc : c ∈ chunks) (ha : a ∈ c.formula.atoms) :
    ∃ symbol, (Decomposition.ofChunks i chunks).symbolOf? a = some symbol ∧
      (Decomposition.ofChunks i chunks).symbolFor? a.text = some symbol ∧
      (Decomposition.ofChunks i chunks).propositions.get? symbol = some a.text := by
  obtain ⟨n, hsymbol, hget⟩ := exists_symbolOf (i := i) hc ha (h c hc a ha)
  refine ⟨symbolAt n, hsymbol, ?_, hget⟩
  rwa [Decomposition.symbolOf?, cleanProposition_of_wellRead (h c hc a ha)] at hsymbol

/-- The symbols of a property are those of the distinct texts of its atoms. -/
theorem symbolsOf_eq {c : Chunk} (hc : c ∈ chunks) :
    ((Decomposition.ofChunks i chunks).symbolsOf c.formula).map
        (Decomposition.ofChunks i chunks).propositions.get? =
      (c.formula.atoms.map Atom.text).eraseDups.map some := by
  let d := Decomposition.ofChunks i chunks
  let symbol (text : String) : String := (d.symbolFor? text).getD ""
  have hsymbol : ∀ a ∈ c.formula.atoms, d.symbolOf? a = some (symbol a.text) ∧
      d.propositions.get? (symbol a.text) = some a.text := by
    intro a ha
    obtain ⟨s, hof, hfor, hget⟩ := exists_symbolFor (i := i) h hc ha
    have hs : symbol a.text = s := by simp only [symbol, d, hfor, Option.getD_some]
    rw [hs]
    exact ⟨hof, hget⟩
  have hatoms : c.formula.atoms.filterMap d.symbolOf? =
      (c.formula.atoms.map Atom.text).map symbol := by
    rw [List.map_map]
    exact List.filterMap_eq_map_iff_forall_eq_some.mpr fun a ha ↦ (hsymbol a ha).1
  have hget : ∀ text ∈ c.formula.atoms.map Atom.text,
      d.propositions.get? (symbol text) = some text := by
    intro text htext
    obtain ⟨a, ha, rfl⟩ := List.mem_map.mp htext
    exact (hsymbol a ha).2
  rw [Decomposition.symbolsOf, hatoms, eraseDups_map, List.map_map]
  · exact List.map_congr_left fun text htext ↦ hget text (List.mem_eraseDups.mp htext)
  · intro text htext text' htext' heq
    exact Option.some.inj ((hget text htext).symm.trans (heq ▸ hget text' htext'))

theorem mem_values_propositions (text : String) :
    text ∈ (Decomposition.ofChunks i chunks).propositions.values ↔
      ∃ a ∈ (Decomposition.ofChunks i chunks).atoms, a.text = text := by
  rw [values_propositions h, mem_longestFirst, List.mem_map]

/-- Every symbol has an atom. -/
theorem keys_atomsBySymbol : (Decomposition.ofChunks i chunks).atomsBySymbol.map Prod.fst =
    (Decomposition.ofChunks i chunks).propositions.keys := by
  rw [Decomposition.atomsBySymbol, List.map_filterMap, OrderedMap.keys]
  apply List.filterMap_eq_map_iff_forall_eq_some.mpr
  intro entry hentry
  obtain ⟨a, ha, htext⟩ := (mem_values_propositions h entry.2).mp (List.mem_map_of_mem hentry)
  obtain ⟨b, hb⟩ : ∃ b, (Decomposition.ofChunks i chunks).atoms.find?
      (fun a ↦ a.text = entry.2) = some b :=
    Option.isSome_iff_exists.mp (List.find?_isSome.mpr ⟨a, ha, decide_eq_true htext⟩)
  rw [hb, Option.map_some, Option.map_some]

/-- The table of properties that were read is consistent. -/
theorem isConsistent_ofChunks : (Decomposition.ofChunks i chunks).IsConsistent where
  keys := by
    have hsize : (Decomposition.ofChunks i chunks).propositions.size =
        (longestFirst (Decomposition.propositionTexts chunks)).length := by
      rw [← values_assignSymbols, OrderedMap.values, List.length_map]
      rfl
    rw [hsize]
    exact keys_assignSymbols _
  keys_nodup := OrderedMap.nodup_keys _
  values_nodup := values_propositions h ▸ nodup_longestFirst _
  mem_values := mem_values_propositions h
  values_ordered := values_propositions h ▸ pairwise_longestFirst _
  normalized_keys := OrderedMap.keys_mapValues _ _
  chunkSymbols := by
    rw [Decomposition.chunkSymbols, List.map_map]
    exact List.map_congr_left fun c hc ↦ symbolsOf_eq h hc
  chunkSymbols_nodup := by
    intro symbols hsymbols
    obtain ⟨c, -, rfl⟩ := List.mem_map.mp hsymbols
    exact nodup_eraseDups _
  length_chunkTokens := List.length_map _
  atomsBySymbol_keys := keys_atomsBySymbol h
  atomsBySymbol_text := by
    intro symbol a hmem
    obtain ⟨text, hentry, hfind⟩ := Divine.mem_atomsBySymbol.mp hmem
    have htext : a.text = text := by simpa using List.find?_some hfind
    exact ⟨List.mem_of_find?_eq_some hfind,
      (OrderedMap.get?_eq_some_iff _ _ _).mpr (htext ▸ hentry)⟩

end

/-! ## Outcomes -/

/-- Reading fails at the first property that cannot be read. -/
theorem readChunks_eq_error {id : String} {n : Nat} {texts : List String} {e : FormalizeError}
    (h : readChunks id n texts = .error e) :
    ∃ k piece cause, e = .parse id (n + k) cause ∧ texts[k]? = some piece ∧
      Chunk.parse piece = .error cause ∧
      ∀ earlier ∈ texts.take k, ∃ chunk, Chunk.parse earlier = .ok chunk := by
  induction texts generalizing n with
  | nil => cases h
  | cons text texts ih =>
    rw [readChunks.eq_def] at h
    dsimp only at h
    cases hchunk : Chunk.parse text with
    | error cause =>
      rw [hchunk] at h
      exact ⟨0, text, cause, (Except.error.inj h).symm, rfl, hchunk, by simp⟩
    | ok chunk =>
      rw [hchunk] at h
      cases hrest : readChunks id (n + 1) texts with
      | ok chunks =>
        rw [hrest] at h
        cases h
      | error e' =>
        rw [hrest] at h
        obtain rfl := Except.error.inj h
        obtain ⟨k, piece, cause, rfl, hpiece, hcause, hearlier⟩ := ih hrest
        have hindex : n + 1 + k = n + (k + 1) := by omega
        refine ⟨k + 1, piece, cause, by rw [hindex], hpiece, hcause, ?_⟩
        rw [List.take_succ_cons]
        exact List.forall_mem_cons.mpr ⟨⟨chunk, hchunk⟩, hearlier⟩

/-- Decomposing with all checks leaves no warning and has no other error than that of the first
property that cannot be read.  A text of which all are read has a consistent decomposition, unless
it is blank. -/
theorem decompose_consistent (i : Interface) (id text : String) :
    (decomposeChecked i id text = ([], match decompose i id text with
      | .error e => .error (.reading e)
      | .ok outcome => .ok (outcome.map fun d ↦ (d, d.structureText)))) ∧
    match decompose i id text with
    | .ok none => Text.isBlankText text = true
    | .error e => Text.isBlankText text = false ∧ ∃ k piece cause, e = .parse id k cause ∧
        (splitChunks text)[k]? = some piece ∧ Chunk.parse piece = .error cause ∧
        ∀ earlier ∈ (splitChunks text).take k, ∃ chunk, Chunk.parse earlier = .ok chunk
    | .ok (some d) => Text.isBlankText text = false ∧ parseChunks text = .ok d.chunks ∧
        d.IsConsistent := by
  refine ⟨decomposeChecked_eq i id text, ?_⟩
  rw [decompose]
  cases hblank : Text.isBlankText text with
  | true => exact rfl
  | false =>
    rw [if_neg Bool.false_ne_true]
    cases hread : readChunks id 0 (splitChunks text) with
    | error e =>
      obtain ⟨k, piece, cause, rfl, hpiece⟩ := readChunks_eq_error hread
      exact ⟨rfl, k, piece, cause, by rw [Nat.zero_add], hpiece⟩
    | ok chunks =>
      have hparsed := readChunks_eq_ok_iff.mp hread
      exact ⟨rfl, parseChunks_eq_ok_iff.mpr hparsed,
        isConsistent_ofChunks (wellRead_of_map_parse hparsed)⟩

end TemporalRequirements
