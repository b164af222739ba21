import TemporalRequirements.Proofs.Grammar.Arithmetic
import TemporalRequirements.Proofs.ModelChecker.Accounts
import TemporalRequirements.Proofs.Store.Independence

/-!
# Definitions for DIVINE

The properties of a requirement are written over names that stand for its propositions.  Each name
has one definition, which stands before the properties and spells the predicate of every atom that
is written as the name: the text of an atom determines its predicate, so atoms of one symbol agree.
-/

namespace TemporalRequirements

inductive Divine.Line where
  | define (name expression : String)
  /-- A property in the operators of the model checker. -/
  | property (ref : ChunkRef) (f : Formula)
  | comment (ref : ChunkRef) (e : UnrollError)

namespace Divine

def Line.introduces (name : String) : Line → Bool
  | define name' _ => name' = name
  | property _ _ | comment _ _ => false

def placedAtomText (s : Store) (i : Interface) (ref : ChunkRef) (a : Atom) : String :=
  atomText i (i.identifier ref.requirement) (s.decomposition ref.requirement) a

def Line.text (s : Store) (i : Interface) : Line → String
  | define name expression => "#define " ++ name ++ " (" ++ expression ++ ")"
  | property ref f => "#property " ++ f.printWith .divine (placedAtomText s i ref) false
  | comment _ e => "// #property " ++ e.marker

def Line.ofChunk (limit : UInt32) (ref : ChunkRef) (c : Chunk) : Line :=
  match c.unrolled limit with
  | .ok f => property ref (Dialect.divine.lower f)
  | .error e => comment ref e

def definitions (i : Interface) (id : String) (d : Decomposition) : List Line :=
  d.atomsBySymbol.map fun (symbol, a) ↦
    .define (propositionName (i.identifier id) symbol) (a.predicate.print (.program i))

def requirementLines (i : Interface) (limit : UInt32) (id : String) (e : Entry) : List Line :=
  definitions i id e.decomposition ++ e.numberedChunks.map fun (k, c) ↦ .ofChunk limit ⟨id, k⟩ c

def lines (s : Store) (i : Interface) (limit : UInt32) : List Line :=
  s.formalProperties.flatMap fun (id, e) ↦ requirementLines i limit id e

variable {s : Store} {i : Interface} {limit : UInt32}

/-- The line of a property has the text that is rendered. -/
theorem text_ofChunk {id : String} {e : Entry} (h : (id, e) ∈ s.formalProperties) (k : Nat)
    (c : Chunk) : (Line.ofChunk limit ⟨id, k⟩ c).text s i =
      (chunkLine i limit id e.decomposition k c).1 := by
  rw [Line.ofChunk]
  rcases chunkLine_cases i limit id e.decomposition k c with ⟨f, hf, hline⟩ | ⟨error, he, hline⟩
  · have hatoms : placedAtomText s i ⟨id, k⟩ = atomText i (i.identifier id) e.decomposition := by
      funext a
      rw [placedAtomText, s.decomposition_of_mem h]
    rw [hf, hline, ← hatoms]
    rfl
  · rw [he, hline]
    rfl

/-- The lines are those that are rendered. -/
theorem map_text_lines (s : Store) (i : Interface) (limit : UInt32) :
    (lines s i limit).map (Line.text s i) = (render s i limit).1 := by
  rw [lines, List.map_flatMap, render, List.flatMap_map]
  apply List.flatMap_congr
  rintro ⟨id, e⟩ he
  change (requirementLines i limit id e).map _ = (entryLines i limit id e).1
  rw [requirementLines, entryLines, List.map_append, definitions, List.map_map, List.map_map,
    List.map_map]
  congr 1
  apply List.map_congr_left
  rintro ⟨k, c⟩ -
  exact text_ofChunk he k c

/-! ## Names of propositions -/

/-- The definitions of a requirement are of different symbols. -/
theorem nodup_atomsBySymbol (d : Decomposition) : (d.atomsBySymbol.map Prod.fst).Nodup := by
  refine d.propositions.nodup_keys.sublist ?_
  rw [Decomposition.atomsBySymbol]
  induction d.propositions.entries with
  | nil => exact List.Sublist.slnil
  | cons entry entries ih =>
    cases hfind : d.atoms.find? fun a ↦ a.text = entry.2 with
    | none =>
      rw [List.filterMap_cons_none (by rw [hfind]; rfl)]
      exact ih.cons _
    | some a =>
      rw [List.filterMap_cons_some (by rw [hfind]; rfl)]
      exact ih.cons_cons _

variable {d : Decomposition}

/-- The atom behind a symbol is the first with the text of its proposition. -/
theorem mem_atomsBySymbol {symbol : String} {a : Atom} : (symbol, a) ∈ d.atomsBySymbol ↔
    ∃ text, (symbol, text) ∈ d.propositions.entries ∧
      d.atoms.find? (fun a ↦ a.text = text) = some a := by
  simp only [Decomposition.atomsBySymbol, List.mem_filterMap, Option.map_eq_some_iff]
  constructor
  · rintro ⟨⟨symbol, text⟩, hentry, a, ha, heq⟩
    obtain ⟨rfl, rfl⟩ := Prod.mk.inj heq
    exact ⟨text, hentry, ha⟩
  · rintro ⟨text, hentry, ha⟩
    exact ⟨(symbol, text), hentry, a, ha, rfl⟩

/-- The symbols of a read requirement hold no underscore. -/
theorem underscore_notMem_of_mem_atomsBySymbol (h : d.IsRead i) {symbol : String} {a : Atom}
    (hmem : (symbol, a) ∈ d.atomsBySymbol) : '_' ∉ symbol.toList := by
  obtain ⟨chunks, -, rfl⟩ := h
  obtain ⟨text, hentry, -⟩ := mem_atomsBySymbol.mp hmem
  rw [Decomposition.ofChunks, entries_assignSymbols, List.mem_mapIdx] at hentry
  obtain ⟨n, hn, heq⟩ := hentry
  rw [← (Prod.mk.inj heq).1]
  exact underscore_notMem_symbolAt n

/-- Every atom of a read requirement has a symbol, whose definition has the atom's predicate. -/
theorem exists_mem_atomsBySymbol (h : d.IsRead i) {c : Chunk} {a : Atom} (hc : c ∈ d.chunks)
    (ha : a ∈ c.formula.atoms) :
    ∃ symbol b, d.symbolFor? a.text = some symbol ∧ (symbol, b) ∈ d.atomsBySymbol ∧
      b.predicate = a.predicate := by
  obtain ⟨chunks, hwell, rfl⟩ := h
  change c ∈ chunks at hc
  have hread := hwell c hc a ha
  obtain ⟨n, hsymbol, hget⟩ := exists_symbolOf (i := i) hc ha hread
  rw [Decomposition.symbolOf?, cleanProposition_of_wellRead hread] at hsymbol
  have hmem : a ∈ (Decomposition.ofChunks i chunks).atoms := List.mem_flatMap.mpr ⟨c, hc, ha⟩
  obtain ⟨b, hb⟩ : ∃ b, (Decomposition.ofChunks i chunks).atoms.find?
      (fun b ↦ b.text = a.text) = some b :=
    Option.isSome_iff_exists.mp (List.find?_isSome.mpr ⟨a, hmem, decide_eq_true rfl⟩)
  have htext : b.text = a.text := by simpa using List.find?_some hb
  obtain ⟨c', hc', hb'⟩ := List.mem_flatMap.mp (List.mem_of_find?_eq_some hb)
  refine ⟨symbolAt n, b, hsymbol, mem_atomsBySymbol.mpr ⟨a.text, ?_, hb⟩, ?_⟩
  · exact (OrderedMap.get?_eq_some_iff _ _ _).mp hget
  · -- both atoms were read from the same text
    have hspelled := (hwell c' hc' b hb').spelled
    rw [htext] at hspelled
    exact hspelled.unique hread.spelled

/-- Of the definitions of a requirement, one is of a given symbol. -/
theorem filter_definitions {id symbol : String} {a : Atom} (h : (symbol, a) ∈ d.atomsBySymbol) :
    (definitions i id d).filter (Line.introduces (propositionName (i.identifier id) symbol)) =
      [.define (propositionName (i.identifier id) symbol) (a.predicate.print (.program i))] := by
  have hfilter := filter_flatMap_of_nodup (nodup_atomsBySymbol d)
    (fun entry ↦ [Line.define (propositionName (i.identifier id) entry.1)
      (entry.2.predicate.print (.program i))])
    (fun symbol ↦ Line.introduces (propositionName (i.identifier id) symbol)) ?_ h
  · rwa [← List.map_eq_flatMap] at hfilter
  · intro entry line hline symbol'
    obtain rfl := List.mem_singleton.mp hline
    rw [Line.introduces, decide_eq_true_eq, propositionName, propositionName,
      String.append_right_inj]
    exact eq_comm

theorem introduces_ofChunk (name : String) (ref : ChunkRef) (c : Chunk) :
    (Line.ofChunk limit ref c).introduces name = false := by
  rw [Line.ofChunk]
  split <;> rfl

theorem ofChunk_eq_property {ref ref' : ChunkRef} {c : Chunk} {f : Formula}
    (h : Line.ofChunk limit ref c = .property ref' f) :
    ref = ref' ∧ ∃ g, c.unrolled limit = .ok g ∧ f = Dialect.divine.lower g := by
  rw [Line.ofChunk] at h
  split at h
  · rename_i g hg
    obtain ⟨href, hf⟩ := Line.property.inj h
    exact ⟨href, g, hg, hf.symm⟩
  · cases h

/-- The lines of a requirement that define a name are among its definitions. -/
theorem filter_requirementLines (name id : String) (e : Entry) :
    (requirementLines i limit id e).filter (Line.introduces name) =
      (definitions i id e.decomposition).filter (Line.introduces name) := by
  have hproperties : (e.numberedChunks.map fun (k, c) ↦
      Line.ofChunk limit ⟨id, k⟩ c).filter (Line.introduces name) = [] := by
    rw [List.filter_eq_nil_iff]
    intro line hline
    obtain ⟨⟨k, c⟩, -, rfl⟩ := List.mem_map.mp hline
    rw [introduces_ofChunk]
    exact Bool.false_ne_true
  rw [requirementLines, List.filter_append, hproperties, List.append_nil]

/-- Requirements with different identifiers have no name in common. -/
theorem filter_definitions_of_ne (h : s.Reachable i) (hnames : (s.ids.map i.identifier).Nodup)
    {id id' symbol : String} {e e' : Entry} (he : (id, e) ∈ s.formalProperties)
    (he' : (id', e') ∈ s.formalProperties) (hsymbol : '_' ∉ symbol.toList) (hne : id' ≠ id) :
    (definitions i id' e'.decomposition).filter
      (Line.introduces (propositionName (i.identifier id) symbol)) = [] := by
  rw [List.filter_eq_nil_iff]
  intro line hline hintroduces
  obtain ⟨⟨symbol', a⟩, hmem, rfl⟩ := List.mem_map.mp hline
  have hread := h.isRead id' e' (s.get?_of_mem_formalProperties he')
  obtain ⟨hname, -⟩ := joined_injective (underscore_notMem_of_mem_atomsBySymbol hread hmem) hsymbol
    (of_decide_eq_true hintroduces)
  exact hne (List.inj_on_of_nodup_map hnames (s.mem_ids_of_mem_formalProperties he')
    (s.mem_ids_of_mem_formalProperties he) hname)

/-- Of the definitions of all requirements, one is of the name that an atom is written as. -/
theorem filter_lines (h : s.Reachable i) (hnames : (s.ids.map i.identifier).Nodup) {ref : ChunkRef}
    {e : Entry} {c : Chunk} {a : Atom} (he : (ref.requirement, e) ∈ s.formalProperties)
    (hc : c ∈ e.decomposition.chunks) (ha : a ∈ c.formula.atoms) (limit : UInt32) :
    ∃ symbol, let name := propositionName (i.identifier ref.requirement) symbol
      placedAtomText s i ref a = name ∧
      .define name (a.predicate.print (.program i)) ∈
        definitions i ref.requirement e.decomposition ∧
      (lines s i limit).filter (Line.introduces name) =
        [.define name (a.predicate.print (.program i))] := by
  have hread := h.isRead _ e (s.get?_of_mem_formalProperties he)
  obtain ⟨symbol, b, hsymbol, hmem, hpredicate⟩ := exists_mem_atomsBySymbol hread hc ha
  have hunderscore := underscore_notMem_of_mem_atomsBySymbol hread hmem
  refine ⟨symbol, ?_, ?_, ?_⟩
  · rw [placedAtomText, s.decomposition_of_mem he, atomText, hsymbol]
  · rw [← hpredicate]
    exact List.mem_map_of_mem hmem
  · rw [lines, List.filter_flatMap, flatMap_eq_of_nodup s.nodup_formalProperties he]
    · rw [filter_requirementLines, filter_definitions hmem, hpredicate]
    · rintro ⟨id', e'⟩ he' hne
      rw [filter_requirementLines]
      exact filter_definitions_of_ne h hnames he he' hunderscore hne

/-! ## Definitions stand before properties -/

/-- A member of a concatenation lies in one of its parts. -/
theorem flatMap_eq_append_cons {α β : Type} {f : α → List β} {l : List α} {before after : List β}
    {x : β} (h : l.flatMap f = before ++ x :: after) :
    ∃ front a back inner outer, l = front ++ a :: back ∧ f a = inner ++ x :: outer ∧
      before = front.flatMap f ++ inner ∧ after = outer ++ back.flatMap f := by
  induction l generalizing before with
  | nil => simp at h
  | cons b l ih =>
    rw [List.flatMap_cons] at h
    rcases List.append_eq_append_iff.mp h with ⟨more, rfl, hrest⟩ | ⟨more, hfirst, hrest⟩
    · obtain ⟨front, a, back, inner, outer, rfl, ha, rfl, rfl⟩ := ih hrest
      exact ⟨b :: front, a, back, inner, outer, rfl, ha, by simp, rfl⟩
    · cases more with
      | nil =>
        obtain ⟨front, a, back, inner, outer, rfl, ha, hnil, rfl⟩ := @ih [] hrest.symm
        refine ⟨b :: front, a, back, inner, outer, rfl, ha, ?_, rfl⟩
        rw [List.flatMap_cons, List.append_assoc, ← hnil, hfirst, List.append_nil, List.append_nil]
      | cons d more =>
        obtain ⟨rfl, rfl⟩ := List.cons.inj hrest
        exact ⟨[], b, l, before, more, rfl, hfirst, rfl, rfl⟩

/-- Before the line of a property stand all definitions of its requirement. -/
theorem exists_of_lines_eq {before after : List Line} {ref : ChunkRef} {f : Formula}
    (h : lines s i limit = before ++ .property ref f :: after) :
    ∃ e c g, (ref.requirement, e) ∈ s.formalProperties ∧ c ∈ e.decomposition.chunks ∧
      c.unrolled limit = .ok g ∧ f = Dialect.divine.lower g ∧
      definitions i ref.requirement e.decomposition ⊆ before := by
  obtain ⟨front, ⟨id, e⟩, back, inner, outer, hentries, hlines, rfl, -⟩ :=
    flatMap_eq_append_cons h
  have he : (id, e) ∈ s.formalProperties := by
    rw [hentries]
    exact List.mem_append_right _ List.mem_cons_self
  have hdefinitions : Line.property ref f ∉ definitions i id e.decomposition := by
    intro hmem
    obtain ⟨entry, -, heq⟩ := List.mem_map.mp hmem
    cases heq
  obtain ⟨hsubset, hproperty⟩ : definitions i id e.decomposition ⊆ inner ∧
      Line.property ref f ∈ e.numberedChunks.map fun (k, c) ↦ Line.ofChunk limit ⟨id, k⟩ c := by
    rcases List.append_eq_append_iff.mp hlines with ⟨more, rfl, hrest⟩ | ⟨more, hfirst, hrest⟩
    · exact ⟨List.subset_append_left _ _, hrest ▸ List.mem_append_right _ List.mem_cons_self⟩
    · cases more with
      | nil =>
        rw [List.append_nil] at hfirst
        rw [List.nil_append] at hrest
        exact ⟨hfirst ▸ List.Subset.refl _, hrest ▸ List.mem_cons_self⟩
      | cons line more =>
        obtain ⟨rfl, -⟩ := List.cons.inj hrest
        exact absurd (hfirst ▸ List.mem_append_right _ List.mem_cons_self) hdefinitions
  obtain ⟨⟨k, c⟩, hnumbered, hline⟩ := List.mem_map.mp hproperty
  obtain ⟨k', hk, hpair⟩ := List.mem_mapIdx.mp hnumbered
  obtain ⟨rfl, rfl⟩ := Prod.mk.inj hpair
  obtain ⟨rfl, g, hg, rfl⟩ := ofChunk_eq_property hline
  exact ⟨e, _, g, he, List.getElem_mem hk, hg, rfl, fun line hmem ↦
    List.mem_append_right _ (hsubset hmem)⟩

/-- Lines in which every name is defined once and before its uses, as what it stands for. -/
structure Closed (s : Store) (i : Interface) (lines : List Line) : Prop where
  /-- Every atom of a property is written as a name that one earlier line defines, and no later
  line. -/
  introduced : ∀ before ref f after, lines = before ++ .property ref f :: after → ∀ a ∈ f.atoms,
    ∃ symbol, let name := propositionName (i.identifier ref.requirement) symbol
      placedAtomText s i ref a = name ∧
      before.filter (Line.introduces name) = [.define name (a.predicate.print (.program i))] ∧
      after.filter (Line.introduces name) = []
  /-- The one definition of the name of an atom in any property spells the atom's predicate. -/
  consistent : ∀ ref ∈ s.formalChunks, ∀ c, s.chunk? ref = some c → ∀ a ∈ c.formula.atoms,
    lines.filter (Line.introduces (placedAtomText s i ref a)) =
      [.define (placedAtomText s i ref a) (a.predicate.print (.program i))]

/-- The lines for DIVINE are closed if the names of the requirements differ. -/
theorem closed_render (h : s.Reachable i) (hnames : (s.ids.map i.identifier).Nodup)
    (limit : UInt32) :
    (lines s i limit).map (Line.text s i) = (render s i limit).1 ∧
      Closed s i (lines s i limit) := by
  refine ⟨map_text_lines s i limit, ?_, ?_⟩
  · intro before ref f after hlines a ha
    obtain ⟨e, c, g, he, hc, hg, rfl, hbefore⟩ := exists_of_lines_eq hlines
    have hatom : a ∈ c.formula.atoms := Chunk.mem_atoms_of_unrolled hg (Dialect.mem_atoms_lower ha)
    obtain ⟨symbol, htext, hmem, hfilter⟩ := filter_lines h hnames he hc hatom limit
    refine ⟨symbol, htext, ?_⟩
    rw [hlines, List.filter_append, List.filter_cons_of_neg Bool.false_ne_true] at hfilter
    rcases List.append_eq_singleton_iff.mp hfilter with ⟨hnone, -⟩ | hfilter
    · exact absurd (decide_eq_true rfl) (List.filter_eq_nil_iff.mp hnone _ (hbefore hmem))
    · exact hfilter
  · intro ref href c hc a ha
    obtain ⟨e, he, hmem⟩ := s.exists_of_chunk? href hc
    obtain ⟨symbol, htext, -, hfilter⟩ := filter_lines h hnames he hmem ha limit
    rw [htext]
    exact hfilter

/-- An engine with two requirements that speak of one proposition. -/
def pumps : Engine :=
  (Engine.start .empty .standard).run
    [.add "P 1" "G (level>3 -> F<=1 drain)\n\nF !((level > 3))" .property,
      .add "P2" "level > 3 W drain" .property, .formalizeAll]

/-- The proposition of two requirements, and of one of them in two layouts, is defined as one
expression. -/
theorem closed_render_pumps :
    let wide : Atom := ⟨"level > 3", .compare (.var "level") .gt (.number "3")⟩
    let narrow : Atom := ⟨"level>3", .compare (.var "level") .gt (.number "3")⟩
    pumps.store.Reachable .empty ∧ (pumps.store.ids.map Interface.empty.identifier).Nodup ∧
      pumps.store.formalChunks = [⟨"P 1", 0⟩, ⟨"P 1", 1⟩, ⟨"P2", 0⟩] ∧
      (lines pumps.store .empty 256).map (Line.text pumps.store .empty) =
        (render pumps.store .empty 256).1 ∧
      Closed pumps.store .empty (lines pumps.store .empty 256) ∧
      ∀ x ∈ [(⟨"P 1", 0⟩, narrow), (⟨"P 1", 1⟩, wide), (⟨"P2", 0⟩, wide)],
        let name := placedAtomText pumps.store .empty x.1 x.2
        (lines pumps.store .empty 256).filter (Line.introduces name) =
          [.define name "level > 3"] := by
  intro wide narrow
  have hreachable : pumps.store.Reachable .empty := Engine.reachable_run .empty .standard _
  have hnames : (pumps.store.ids.map Interface.empty.identifier).Nodup := by decide +kernel
  have hformal : pumps.store.formalChunks = [⟨"P 1", 0⟩, ⟨"P 1", 1⟩, ⟨"P2", 0⟩] := by
    decide +kernel
  obtain ⟨htexts, hclosed⟩ := closed_render hreachable hnames 256
  refine ⟨hreachable, hnames, hformal, htexts, hclosed, ?_⟩
  have hatoms : ∀ x ∈ [((⟨"P 1", 0⟩ : ChunkRef), narrow), (⟨"P 1", 1⟩, wide), (⟨"P2", 0⟩, wide)],
      x.1 ∈ pumps.store.formalChunks ∧
        x.2 ∈ ((pumps.store.chunk? x.1).map fun c ↦ c.formula.atoms).getD [] ∧
        x.2.predicate.print (.program .empty) = "level > 3" := by
    rw [hformal]
    decide +kernel
  intro x hx
  obtain ⟨hmem, hatom, hprint⟩ := hatoms x hx
  cases hc : pumps.store.chunk? x.1 with
  | none =>
    rw [hc] at hatom
    cases hatom
  | some c =>
    rw [hc] at hatom
    have hone := hclosed.consistent x.1 hmem c hc x.2 hatom
    rwa [hprint] at hone

end Divine

end TemporalRequirements
