import TemporalRequirements.ModelChecker.Divine
import TemporalRequirements.ModelChecker.Smv
import TemporalRequirements.Proofs.Formula.Lowering
import TemporalRequirements.Proofs.Formula.Unroll
import TemporalRequirements.Proofs.Store.Places

/-!
# Model checkers are given every property

Each formal property has one line, in order: the property itself if its bounded operators can be
unrolled, a comment and an error message if they cannot.  Once they are unrolled every notation can
write the formula.
-/

namespace TemporalRequirements

/-- An unrolled property is written in every dialect. -/
theorem Chunk.render_unrolled {limit : UInt32} {c : Chunk} {f : Formula}
    (h : c.unrolled limit = .ok f) (d : Dialect) (atomText : Atom → String) :
    f.render d atomText = .ok ((d.lower f).printWith d atomText false) :=
  Formula.render_eq_ok (Formula.unroll_preserves_meaning h).1 d atomText

/-- Unrolling a property makes no new atoms. -/
theorem Chunk.mem_atoms_of_unrolled {limit : UInt32} {c : Chunk} {f : Formula} {a : Atom}
    (h : c.unrolled limit = .ok f) (ha : a ∈ f.atoms) : a ∈ c.formula.atoms := by
  have hscoped : c.scoped.atoms = c.formula.atoms := by
    unfold Chunk.scoped
    split <;> rfl
  exact hscoped ▸ Formula.mem_atoms_of_unroll h ha

/-! ## Lines of properties -/

/-- How a model checker is given the properties of a store. -/
structure Target where
  dialect : Dialect
  /-- The text of an atom of a property. -/
  atomText : ChunkRef → Atom → String
  /-- The line of a property with its text. -/
  propertyLine : ChunkRef → String → String
  /-- The line of a comment in place of a property. -/
  commentLine : ChunkRef → String → String
  /-- Whether a line is a comment. -/
  isComment : String → Bool

def Chunk.unrollFailure? (limit : UInt32) (ref : ChunkRef) (c : Chunk) : Option Diagnostic :=
  match c.unrolled limit with
  | .ok _ => none
  | .error e => some (reportMarker ref.requirement ref.index e.marker)

theorem Chunk.of_unrollFailure? {limit : UInt32} {ref : ChunkRef} {c : Chunk} {d : Diagnostic}
    (h : c.unrollFailure? limit ref = some d) :
    d.severity = .error ∧ d.isAbout ref = true := by
  unfold unrollFailure? at h
  split at h
  · cases h
  · obtain rfl := Option.some.inj h
    exact ⟨rfl, Diagnostic.isAbout_label _ _ _⟩

def Store.unrollFailure? (s : Store) (limit : UInt32) (ref : ChunkRef) : Option Diagnostic :=
  (s.chunk? ref).bind (Chunk.unrollFailure? limit ref)

namespace Target

/-- The line of a property: its text, or a comment with the reason why it has none. -/
structure IsLineOf (t : Target) (limit : UInt32) (ref : ChunkRef) (c : Chunk) (line : String) :
    Prop where
  isComment_iff : t.isComment line = true ↔ ∃ e, c.unrolled limit = .error e
  comment : ∀ e, c.unrolled limit = .error e → line = t.commentLine ref e.marker
  /-- A property that can be unrolled can be written. -/
  property : ∀ f, c.unrolled limit = .ok f → ∃ text,
    f.render t.dialect (t.atomText ref) = .ok text ∧ line = t.propertyLine ref text

structure Accounts (t : Target) (s : Store) (limit : UInt32) (lines : List String)
    (diagnostics : List Diagnostic) : Prop where
  /-- Every formal property has its line, in order. -/
  lines : List.Forall₂ (fun ref line ↦ ∃ c, s.chunk? ref = some c ∧ t.IsLineOf limit ref c line)
    s.formalChunks lines
  /-- The errors are those about properties that cannot be unrolled, in order. -/
  errors : diagnostics.filter (fun d ↦ d.severity = .error) =
    s.formalChunks.filterMap (s.unrollFailure? limit)
  /-- No other message is about a property. -/
  reported : ∀ ref ∈ s.formalChunks,
    diagnostics.filter (Diagnostic.isAbout ref) = (s.unrollFailure? limit ref).toList

variable {t : Target} {s : Store} {limit : UInt32}

/-- A property that was unrolled has its own line. -/
theorem isLineOf_propertyLine {ref : ChunkRef} {c : Chunk} {f : Formula}
    (h : c.unrolled limit = .ok f)
    (hcomment : ∀ text, t.isComment (t.propertyLine ref text) = false) :
    t.IsLineOf limit ref c
      (t.propertyLine ref ((t.dialect.lower f).printWith t.dialect (t.atomText ref) false)) where
  isComment_iff := by simp [hcomment, h]
  comment e he := by simp [h] at he
  property g hg := by
    obtain rfl := Except.ok.inj (h.symm.trans hg)
    exact ⟨_, Chunk.render_unrolled h _ _, rfl⟩

theorem isLineOf_commentLine {ref : ChunkRef} {c : Chunk} {e : UnrollError}
    (h : c.unrolled limit = .error e)
    (hcomment : ∀ text, t.isComment (t.commentLine ref text) = true) :
    t.IsLineOf limit ref c (t.commentLine ref e.marker) where
  isComment_iff := by simp [hcomment, h]
  comment e' he := by rw [Except.error.inj (h.symm.trans he)]
  property f hf := by simp [h] at hf

/-- Lines and messages made property by property leave none out.  Further messages are about no
requirement. -/
theorem accounts_placedChunks {line : ChunkRef × Chunk → String}
    {report : ChunkRef × Chunk → List Diagnostic} {others : List Diagnostic}
    (hline : ∀ x, t.IsLineOf limit x.1 x.2 (line x))
    (hreport : ∀ x, report x = (x.2.unrollFailure? limit x.1).toList)
    (hothers : ∀ d ∈ others, d.severity ≠ .error ∧ d.requirement = none) :
    t.Accounts s limit (s.placedChunks.map line) (s.placedChunks.flatMap report ++ others) := by
  have hfailure {x : ChunkRef × Chunk} (hx : x ∈ s.placedChunks) :
      s.unrollFailure? limit x.1 = x.2.unrollFailure? limit x.1 := by
    rw [Store.unrollFailure?, Store.chunk?_of_mem_placedChunks hx, Option.bind_some]
  refine ⟨?_, ?_, ?_⟩
  · rw [← s.map_fst_placedChunks, List.forall₂_map_left_iff, List.forall₂_map_right_iff,
      List.forall₂_same]
    exact fun x hx ↦ ⟨x.2, Store.chunk?_of_mem_placedChunks hx, hline x⟩
  · have hnone : others.filter (fun d ↦ d.severity = .error) = [] := by
      rw [List.filter_eq_nil_iff]
      intro d hd
      simpa using (hothers d hd).1
    have herrors : (s.placedChunks.flatMap report).filter (fun d ↦ d.severity = .error) =
        s.placedChunks.flatMap report := by
      rw [List.filter_eq_self]
      intro d hd
      obtain ⟨x, -, hd⟩ := List.mem_flatMap.mp hd
      rw [hreport, Option.mem_toList] at hd
      exact decide_eq_true (Chunk.of_unrollFailure? hd).1
    rw [List.filter_append, hnone, List.append_nil, herrors, ← s.map_fst_placedChunks,
      List.filterMap_map, List.filterMap_eq_flatMap_toList]
    apply List.flatMap_congr
    intro x hx
    rw [hreport, Function.comp_apply, hfailure hx]
  · intro ref href
    obtain ⟨c, hc⟩ := Store.exists_mem_placedChunks href
    have hnone : others.filter (Diagnostic.isAbout ref) = [] := by
      rw [List.filter_eq_nil_iff]
      intro d hd
      simp [Diagnostic.isAbout, (hothers d hd).2]
    rw [List.filter_append, hnone, List.append_nil, hfailure hc, ← hreport (ref, c)]
    refine filter_flatMap_of_nodup s.nodup_placedChunks report Diagnostic.isAbout ?_ hc
    intro x d hd r
    rw [hreport, Option.mem_toList] at hd
    exact Diagnostic.isAbout_iff_eq (Chunk.of_unrollFailure? hd).2 r

end Target

/-! ## SMV and DIVINE -/

/-- The lines for the SMV model checkers. -/
def Smv.target (i : Interface) : Target where
  dialect := .smv
  atomText _ := atomText i
  propertyLine ref text :=
    "LTLSPEC NAME " ++ i.identifier ref.requirement ++ "_" ++ toString ref.index ++ " := " ++
      text ++ ";"
  commentLine ref text :=
    "-- LTLSPEC NAME " ++ i.identifier ref.requirement ++ "_" ++ toString ref.index ++ " := " ++
      text
  isComment line := "-- ".toList.isPrefixOf line.toList

namespace Smv

variable (s : Store) (i : Interface) (limit : UInt32)

/-- The line of a property is the property or a comment. -/
theorem chunkLine_cases (ref : ChunkRef) (c : Chunk) :
    (∃ f mixed, c.unrolled limit = .ok f ∧ chunkLine i limit ref.requirement ref.index c =
        ⟨(target i).propertyLine ref
          ((Dialect.smv.lower f).printWith .smv (atomText i) false), mixed, []⟩) ∨
      ∃ e, c.unrolled limit = .error e ∧ chunkLine i limit ref.requirement ref.index c =
        ⟨(target i).commentLine ref e.marker, [],
          [reportMarker ref.requirement ref.index e.marker]⟩ := by
  rw [chunkLine]
  cases h : c.unrolled limit with
  | error e => exact Or.inr ⟨e, rfl, rfl⟩
  | ok f =>
    simp only [Chunk.render_unrolled h]
    exact Or.inl ⟨f, mixedAtoms i f, rfl, rfl⟩

theorem isLineOf_chunkLine (ref : ChunkRef) (c : Chunk) :
    (target i).IsLineOf limit ref c (chunkLine i limit ref.requirement ref.index c).text := by
  rcases chunkLine_cases i limit ref c with ⟨f, mixed, hf, hline⟩ | ⟨e, he, hline⟩
  · rw [hline]
    exact Target.isLineOf_propertyLine hf fun text ↦ by simp [target, List.isPrefixOf]
  · rw [hline]
    exact Target.isLineOf_commentLine he fun text ↦ by simp [target, List.isPrefixOf]

theorem diagnostics_chunkLine (ref : ChunkRef) (c : Chunk) :
    (chunkLine i limit ref.requirement ref.index c).diagnostics =
      (c.unrollFailure? limit ref).toList := by
  rw [Chunk.unrollFailure?]
  rcases chunkLine_cases i limit ref c with ⟨f, mixed, hf, hline⟩ | ⟨e, he, hline⟩
  · rw [hf, hline]
    rfl
  · rw [he, hline]
    rfl

theorem mixedWarning_cases {mixed : List String} {d : Diagnostic} (h : d ∈ mixedWarning mixed) :
    d.severity ≠ .error ∧ d.requirement = none := by
  rw [mixedWarning] at h
  split at h
  · cases h
  · obtain rfl := List.mem_singleton.mp h
    exact ⟨Severity.noConfusion, rfl⟩

theorem accounts_render :
    (target i).Accounts s limit (render s i limit).1 (render s i limit).2 := by
  rw [render, s.flatMap_numberedChunks (chunkLine i limit), List.map_map, List.flatMap_map]
  exact Target.accounts_placedChunks (fun x ↦ isLineOf_chunkLine i limit x.1 x.2)
    (fun x ↦ diagnostics_chunkLine i limit x.1 x.2) fun d hd ↦ mixedWarning_cases hd

end Smv

/-- The lines for DIVINE. -/
def Divine.target (s : Store) (i : Interface) : Target where
  dialect := .divine
  atomText ref := atomText i (i.identifier ref.requirement) (s.decomposition ref.requirement)
  propertyLine _ text := "#property " ++ text
  commentLine _ text := "// #property " ++ text
  isComment line := "// ".toList.isPrefixOf line.toList

def Divine.isPropertyLine (line : String) : Bool :=
  "#property ".toList.isPrefixOf line.toList || "// #property ".toList.isPrefixOf line.toList

namespace Divine

variable (s : Store) (i : Interface) (limit : UInt32)

/-- The line of a property of a store, and the message about it. -/
def placedLine (x : ChunkRef × Chunk) : String × List Diagnostic :=
  chunkLine i limit x.1.requirement (s.decomposition x.1.requirement) x.1.index x.2

/-- The line of a property is the property or a comment. -/
theorem chunkLine_cases (id : String) (d : Decomposition) (k : Nat) (c : Chunk) :
    (∃ f, c.unrolled limit = .ok f ∧ chunkLine i limit id d k c =
        ("#property " ++ (Dialect.divine.lower f).printWith .divine (atomText i (i.identifier id) d)
          false, [])) ∨
      ∃ e, c.unrolled limit = .error e ∧ chunkLine i limit id d k c =
        ("// #property " ++ e.marker, [reportMarker id k e.marker]) := by
  rw [chunkLine]
  cases h : c.unrolled limit with
  | error e => exact Or.inr ⟨e, rfl, rfl⟩
  | ok f =>
    simp only [Chunk.render_unrolled h]
    exact Or.inl ⟨f, rfl, rfl⟩

theorem isLineOf_placedLine (x : ChunkRef × Chunk) :
    (target s i).IsLineOf limit x.1 x.2 (placedLine s i limit x).1 := by
  rw [placedLine]
  rcases chunkLine_cases i limit x.1.requirement (s.decomposition x.1.requirement) x.1.index x.2
    with ⟨f, hf, hline⟩ | ⟨e, he, hline⟩
  · rw [hline]
    exact Target.isLineOf_propertyLine (t := target s i) hf fun text ↦ by
      simp [target, List.isPrefixOf]
  · rw [hline]
    exact Target.isLineOf_commentLine (t := target s i) he fun text ↦ by
      simp [target, List.isPrefixOf]

theorem diagnostics_placedLine (x : ChunkRef × Chunk) :
    (placedLine s i limit x).2 = (x.2.unrollFailure? limit x.1).toList := by
  rw [Chunk.unrollFailure?, placedLine]
  rcases chunkLine_cases i limit x.1.requirement (s.decomposition x.1.requirement) x.1.index x.2
    with ⟨f, hf, hline⟩ | ⟨e, he, hline⟩
  · rw [hf, hline]
    rfl
  · rw [he, hline]
    rfl

theorem isPropertyLine_chunkLine (id : String) (d : Decomposition) (k : Nat) (c : Chunk) :
    isPropertyLine (chunkLine i limit id d k c).1 = true := by
  rcases chunkLine_cases i limit id d k c with ⟨f, -, hline⟩ | ⟨e, -, hline⟩ <;>
    simp [hline, isPropertyLine, List.isPrefixOf]

theorem isPropertyLine_defineLine (name : String) (entry : String × Atom) :
    isPropertyLine (defineLine i name entry) = false := by
  simp [defineLine, isPropertyLine, List.isPrefixOf]

/-- The lines of a requirement but for its definitions are those of its properties. -/
theorem filter_entryLines (id : String) (e : Entry) :
    (entryLines i limit id e).1.filter isPropertyLine =
      e.numberedChunks.map fun (k, c) ↦ (chunkLine i limit id e.decomposition k c).1 := by
  have hdefines : (e.decomposition.atomsBySymbol.map (defineLine i (i.identifier id))).filter
      isPropertyLine = [] := by
    rw [List.filter_eq_nil_iff]
    intro line hline
    obtain ⟨entry, -, rfl⟩ := List.mem_map.mp hline
    rw [isPropertyLine_defineLine]
    exact Bool.false_ne_true
  rw [entryLines, List.filter_append, hdefines, List.nil_append, List.filter_eq_self.mpr]
  · rw [List.map_map]
    rfl
  · intro line hline
    rw [List.map_map] at hline
    obtain ⟨⟨k, c⟩, -, rfl⟩ := List.mem_map.mp hline
    exact isPropertyLine_chunkLine i limit id e.decomposition k c

theorem filter_render : (render s i limit).1.filter isPropertyLine =
    s.placedChunks.map fun x ↦ (placedLine s i limit x).1 := by
  rw [render, List.flatMap_map, List.filter_flatMap]
  simp only [filter_entryLines]
  exact s.flatMap_formalProperties fun id d k c ↦ (chunkLine i limit id d k c).1

/-- The messages are those about the properties, in order. -/
theorem diagnostics_render : (render s i limit).2 =
    s.placedChunks.flatMap fun x ↦ (placedLine s i limit x).2 := by
  have hlines := s.flatMap_formalProperties (chunkLine i limit)
  have hdiagnostics := congrArg (List.flatMap Prod.snd) hlines
  rw [List.flatMap_assoc, List.flatMap_map] at hdiagnostics
  have hrender : (render s i limit).2 = s.formalProperties.flatMap fun x ↦
      (x.2.numberedChunks.map fun y ↦
        chunkLine i limit x.1 x.2.decomposition y.1 y.2).flatMap Prod.snd :=
    List.flatMap_map ..
  exact hrender.trans hdiagnostics

theorem accounts_render :
    (target s i).Accounts s limit ((render s i limit).1.filter isPropertyLine)
      (render s i limit).2 := by
  rw [filter_render, diagnostics_render, ← List.append_nil (List.flatMap _ _)]
  exact Target.accounts_placedChunks (isLineOf_placedLine s i limit)
    (diagnostics_placedLine s i limit) fun d hd ↦ by cases hd

end Divine

/-- Every model checker is given each formal property of a store once and in order, or an error for
it: no store, interface or limit has a property that is left out. -/
theorem Store.accounts_modelCheckers (s : Store) (i : Interface) (limit : UInt32) :
    (Smv.target i).Accounts s limit (Smv.render s i limit).1 (Smv.render s i limit).2 ∧
      (Divine.target s i).Accounts s limit
        ((Divine.render s i limit).1.filter Divine.isPropertyLine) (Divine.render s i limit).2 :=
  ⟨Smv.accounts_render s i limit, Divine.accounts_render s i limit⟩

end TemporalRequirements
