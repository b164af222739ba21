import TemporalRequirements.Proofs.Decomposition.Reconstruct
import TemporalRequirements.Proofs.Duplicates
import TemporalRequirements.Proofs.Proposition.Names

/-!
# Dependency tokens

The dependency tokens of a property are read off the normal forms of its propositions.  They are
the identifiers in its formula, which are what its variables are called and the names of the called
functions, except for those that are spelled like an enumeration literal.
-/

namespace TemporalRequirements

variable {i : Interface}

/-- The variables of the atoms of a formula, in order of appearance. -/
def Formula.variables (f : Formula) : List String :=
  f.atoms.flatMap fun a ↦ a.predicate.variables

/-- The identifiers in the atoms of a formula, those of called functions included. -/
def Formula.identifiers (identifier : String → String) (f : Formula) : List String :=
  f.atoms.flatMap fun a ↦ a.predicate.identifiers identifier

def Formula.calledNames (f : Formula) : List String :=
  f.atoms.flatMap fun a ↦ a.predicate.calledNames

theorem Formula.mem_identifiers_iff {identifier : String → String} {x : String} (f : Formula) :
    x ∈ f.identifiers identifier ↔ x ∈ f.variables.map identifier ∨ x ∈ f.calledNames := by
  simp only [Formula.identifiers, Formula.variables, Formula.calledNames, List.map_flatMap,
    List.mem_flatMap, Predicate.mem_identifiers_iff, and_or_left, exists_or]

/-- No identifier of an atom that was read is a truth value. -/
theorem Atom.WellRead.notMem_truthNames {a : Atom} (h : a.WellRead) {x : String}
    (hx : x ∈ a.predicate.identifiers safeName) : x ∉ truthNames := by
  rw [← names_normalizeProposition (i := .empty) rfl h.spelled, List.mem_filter] at hx
  exact of_decide_eq_true hx.2

namespace Decomposition

/-! ## Tokens of a property -/

/-- The decomposition of properties whose atoms were read. -/
def IsRead (i : Interface) (d : Decomposition) : Prop :=
  ∃ chunks, (∀ c ∈ chunks, ∀ a ∈ c.formula.atoms, a.WellRead) ∧ d = ofChunks i chunks

theorem isRead_empty (i : Interface) : empty.IsRead i := by
  have hsymbols : assignSymbols (propositionTexts []) = .empty := by
    apply OrderedMap.eq_of_entries_eq
    simp [entries_assignSymbols, longestFirst, propositionTexts, OrderedMap.empty]
  refine ⟨[], ?_, ?_⟩
  · intro c hc
    cases hc
  · rw [ofChunks, hsymbols]
    rfl

theorem isRead_of_decompose {id text : String} {d : Decomposition}
    (h : decompose i id text = .ok (some d)) : d.IsRead i := by
  obtain ⟨chunks, -, hwell, hd⟩ := exists_chunks_of_decompose h
  exact ⟨chunks, hwell, hd⟩

/-- A formula has the tokens of the normal forms of its atoms. -/
theorem mem_tokensOf {d : Decomposition} {isLiteral : String → Bool} {f : Formula} {t : String} :
    t ∈ d.tokensOf isLiteral f ↔
      ∃ a ∈ f.atoms, ∃ normal, (d.symbolOf? a).bind d.normalized.get? = some normal ∧
        t ∈ dependencyTokens isLiteral normal := by
  simp only [tokensOf, symbolsOf, List.mem_eraseDups, List.mem_flatMap, List.mem_filterMap,
    Option.bind_eq_some_iff]
  constructor
  · rintro ⟨symbol, ⟨a, ha, hsymbol⟩, ht⟩
    cases hnormal : d.normalized.get? symbol with
    | none =>
      rw [hnormal] at ht
      cases ht
    | some normal =>
      rw [hnormal] at ht
      exact ⟨a, ha, normal, ⟨symbol, hsymbol, hnormal⟩, ht⟩
  · rintro ⟨a, ha, normal, ⟨symbol, hsymbol, hnormal⟩, ht⟩
    refine ⟨symbol, ⟨a, ha, hsymbol⟩, ?_⟩
    rw [hnormal]
    exact ht

/-- The normal form of an atom is that of its text. -/
theorem normal_of_atom {chunks : List Chunk} {c : Chunk} {a : Atom} (hc : c ∈ chunks)
    (ha : a ∈ c.formula.atoms) (h : a.WellRead) :
    ((ofChunks i chunks).symbolOf? a).bind (ofChunks i chunks).normalized.get? =
      some (normalizeProposition i a.text) := by
  obtain ⟨n, hsymbol, hget⟩ := exists_symbolOf (i := i) hc ha h
  have hnormal : (ofChunks i chunks).normalized.get? (symbolAt n) =
      ((ofChunks i chunks).propositions.get? (symbolAt n)).map (normalizeProposition i) :=
    OrderedMap.get?_mapValues _ _ _
  rw [hsymbol, Option.bind_some, hnormal, hget, Option.map_some]

variable {d : Decomposition}

theorem IsRead.getElem?_chunkTokens (h : d.IsRead i) (k : Nat) :
    d.chunkTokens[k]? = d.chunks[k]?.map fun c ↦ d.tokensOf i.isLiteral c.formula := by
  obtain ⟨chunks, -, rfl⟩ := h
  exact List.getElem?_map

/-- The tokens of a property are the identifiers in its formula but for the literals. -/
theorem IsRead.mem_tokensOf (h : d.IsRead i) (hi : i.identifier = safeName) {c : Chunk}
    (hc : c ∈ d.chunks) {t : String} :
    t ∈ d.tokensOf i.isLiteral c.formula ↔
      t ∈ c.formula.identifiers i.identifier ∧ i.isLiteral t = false := by
  obtain ⟨chunks, hwell, rfl⟩ := h
  have hatom {a : Atom} (ha : a ∈ c.formula.atoms) :
      t ∈ dependencyTokens i.isLiteral (normalizeProposition i a.text) ↔
        t ∈ a.predicate.identifiers i.identifier ∧ i.isLiteral t = false := by
    rw [mem_dependencyTokens, names_normalizeProposition hi (hwell c hc a ha).spelled, hi]
  rw [Decomposition.mem_tokensOf, Formula.identifiers, List.mem_flatMap]
  constructor
  · rintro ⟨a, ha, normal, hnormal, ht⟩
    obtain rfl := Option.some.inj
      ((normal_of_atom (i := i) hc ha (hwell c hc a ha)).symm.trans hnormal)
    exact ⟨⟨a, ha, ((hatom ha).mp ht).1⟩, ((hatom ha).mp ht).2⟩
  · rintro ⟨⟨a, ha, ht⟩, hliteral⟩
    exact ⟨a, ha, _, normal_of_atom hc ha (hwell c hc a ha), (hatom ha).mpr ⟨ht, hliteral⟩⟩

/-- No token is repeated. -/
theorem nodup_tokensOf (isLiteral : String → Bool) (f : Formula) :
    (d.tokensOf isLiteral f).Nodup :=
  nodup_eraseDups _

theorem IsRead.identifiers_notMem_truthNames (h : d.IsRead i) {c : Chunk} (hc : c ∈ d.chunks)
    {t : String} (ht : t ∈ c.formula.identifiers safeName) : t ∉ truthNames := by
  obtain ⟨chunks, hwell, rfl⟩ := h
  obtain ⟨a, ha, hmem⟩ := List.mem_flatMap.mp ht
  exact (hwell c hc a ha).notMem_truthNames hmem

end Decomposition

/-! ## The main result -/

/-- Every property of a requirement has its tokens: what its variables are called and the names of
the functions that it calls, without those that are spelled like a literal or a truth value. -/
theorem chunkTokens_of_decompose (hi : i.identifier = safeName) {id text : String}
    {d : Decomposition} (h : decompose i id text = .ok (some d)) :
    d.chunkTokens.length = d.chunks.length ∧
      ∀ (k : Nat) (c : Chunk), d.chunks[k]? = some c →
        ∃ tokens : List String, d.chunkTokens[k]? = some tokens ∧ tokens.Nodup ∧
          ∀ t, t ∈ tokens ↔
            ((∃ v ∈ c.formula.variables, safeName v = t) ∨ t ∈ c.formula.calledNames) ∧
              i.isLiteral t = false ∧ t ∉ truthNames := by
  have hread := Decomposition.isRead_of_decompose h
  refine ⟨?_, ?_⟩
  · obtain ⟨chunks, -, rfl⟩ := hread
    exact List.length_map _
  · intro k c hk
    have hc : c ∈ d.chunks := List.mem_of_getElem? hk
    refine ⟨d.tokensOf i.isLiteral c.formula, ?_, Decomposition.nodup_tokensOf _ _, fun t ↦ ?_⟩
    · rw [hread.getElem?_chunkTokens, hk, Option.map_some]
    · rw [hread.mem_tokensOf hi hc, hi]
      have htruth := hread.identifiers_notMem_truthNames hc (t := t)
      rw [Formula.mem_identifiers_iff, List.mem_map] at htruth ⊢
      constructor
      · rintro ⟨hmem, hliteral⟩
        exact ⟨hmem, hliteral, htruth hmem⟩
      · rintro ⟨hmem, hliteral, -⟩
        exact ⟨hmem, hliteral⟩

/-- An interface with a literal that is spelled like the identifier of a name with a dot. -/
def pumpModes : Interface := Interface.empty.declareEnum ⟨"Mode", ["Idle", "pump_off"]⟩

theorem chunkTokens_of_decompose_pump :
    ∃ d tokens, decompose pumpModes "R" "G (mode == Idle -> limit(2 * pump.speed) > pump.off)" =
        .ok (some d) ∧ d.chunkTokens[0]? = some tokens ∧ "mode" ∈ tokens ∧ "limit" ∈ tokens ∧
      "pump_speed" ∈ tokens ∧ "Idle" ∉ tokens ∧ "pump.off" ∉ tokens ∧ "pump_off" ∉ tokens := by
  let idle : Atom := ⟨"mode == Idle", .compare (.var "mode") .eq (.var "Idle")⟩
  let limited : Atom := ⟨"limit(2 * pump.speed) > pump.off",
    .compare (.call "limit" [.arith .mul (.number "2") (.var "pump.speed")]) .gt
      (.var "pump.off")⟩
  let c : Chunk := ⟨none, .unary .always (.binary .implies (.atom idle) (.atom limited))⟩
  have hchunks : (decompose pumpModes "R"
      "G (mode == Idle -> limit(2 * pump.speed) > pump.off)").toOption.join.map
        Decomposition.chunks = some [c] := by
    decide +kernel
  obtain ⟨d, hd, hc⟩ := Option.map_eq_some_iff.mp hchunks
  have h := eq_ok_of_toOption (Option.join_eq_some_iff.mp hd)
  have hvariables : c.formula.variables = ["mode", "Idle", "pump.speed", "pump.off"] := rfl
  have hcalled : c.formula.calledNames = ["limit"] := rfl
  obtain ⟨-, htokens⟩ := chunkTokens_of_decompose rfl h
  obtain ⟨tokens, hget, -, hmem⟩ := htokens 0 c (by rw [hc]; rfl)
  rw [hvariables, hcalled] at hmem
  refine ⟨d, tokens, h, hget, ?_⟩
  simp only [hmem]
  decide +kernel

end TemporalRequirements
