import TemporalRequirements.Proofs.Decomposition.Table

/-!
# Placeholders of propositions

However many texts there are, the distinct ones get different symbols, the longest text first.  A
symbol is one name, and nothing else in the canonical notation is spelled like one, so that a symbol
in a structure always stands for its text.
-/

namespace TemporalRequirements

/-- A name that stands in a canonical text for a proposition: it is read as a whole, and no operator
and no truth value of the notation is spelled like it. -/
structure IsPlaceholder (name : String) : Prop where
  isSymbol : isSymbol name = true
  pieces : Text.namePieces name.toList = [.name name.toList]
  ne_truth : ∀ b, name ≠ Dialect.canonical.truth b
  ne_unary : ∀ op, name ≠ Dialect.canonical.unary op
  ne_binary : ∀ op, name ≠ Dialect.canonical.binary op

/-- The words of the canonical notation are no symbols. -/
theorem isPlaceholder_of_isSymbol {name : String} (h : isSymbol name = true)
    (hpieces : Text.namePieces name.toList = [.name name.toList]) : IsPlaceholder name where
  isSymbol := h
  pieces := hpieces
  ne_truth b := by
    rintro rfl
    cases b <;> exact absurd h (by decide)
  ne_unary op := by
    rintro rfl
    cases op <;> exact absurd h (by decide)
  ne_binary op := by
    rintro rfl
    cases op <;> exact absurd h (by decide)

theorem isPlaceholder_symbolAt (n : Nat) : IsPlaceholder (symbolAt n) := by
  obtain ⟨c, rest, hname, hc, hrest⟩ := exists_name_symbolAt n
  apply isPlaceholder_of_isSymbol (isSymbol_symbolAt n)
  rw [hname]
  exact Text.namePieces_name hc hrest

/-- Putting back turns a placeholder alone into its text. -/
theorem reconstruct_placeholder {m : OrderedMap String String} {name text : String}
    (h : IsPlaceholder name) (hget : m.get? name = some text) :
    reconstruct m name = parenthesizedIf (!Text.isSimple text.toList) text := by
  apply String.toList_inj.mp
  rw [toList_reconstruct, putBack, h.pieces, List.flatMap_singleton, spellPiece,
    String.ofList_toList]
  simp only [h.isSymbol, if_true, hget]

/-- A table that gives every text of a list a placeholder of its own, and holds no other text. -/
structure AssignsPlaceholders (m : OrderedMap String String) (texts : List String) : Prop where
  mem_values : ∀ text, text ∈ m.values ↔ text ∈ texts
  values_nodup : m.values.Nodup
  /-- The longest text comes first, and the first to occur of equally long ones. -/
  values_ordered : m.values.Pairwise fun t t' ↦ t'.utf8ByteSize < t.utf8ByteSize ∨
    t'.utf8ByteSize = t.utf8ByteSize ∧ texts.idxOf t < texts.idxOf t'
  /-- The symbols are the first ones of their sequence, one for each distinct text. -/
  keys : m.keys = (List.range texts.eraseDups.length).map symbolAt
  keys_nodup : ((List.range texts.eraseDups.length).map symbolAt).Nodup
  placeholders : ∀ name ∈ m.keys, IsPlaceholder name
  reconstruct : ∀ name text, m.get? name = some text →
    reconstruct m name = parenthesizedIf (!Text.isSimple text.toList) text

theorem length_longestFirst (texts : List String) :
    (longestFirst texts).length = texts.eraseDups.length :=
  (List.mergeSort_perm _ _).length_eq

theorem nodup_map_symbolAt (n : Nat) : ((List.range n).map symbolAt).Nodup :=
  List.nodup_range.map fun _ _ ↦ symbolAt_injective

/-- The symbols of a list of texts are placeholders, a different one for each distinct text. -/
theorem assignSymbols_assigns (texts : List String) :
    AssignsPlaceholders (assignSymbols texts) texts := by
  have hvalues := values_assignSymbols texts
  have hkeys : (assignSymbols texts).keys =
      (List.range texts.eraseDups.length).map symbolAt := by
    rw [keys_assignSymbols, length_longestFirst]
  have hplaceholders : ∀ name ∈ (assignSymbols texts).keys, IsPlaceholder name := by
    intro name hname
    rw [hkeys] at hname
    obtain ⟨n, -, rfl⟩ := List.mem_map.mp hname
    exact isPlaceholder_symbolAt n
  refine ⟨fun text ↦ ?_, ?_, ?_, hkeys, nodup_map_symbolAt _, hplaceholders, ?_⟩
  · rw [hvalues, mem_longestFirst]
  · rw [hvalues]
    exact nodup_longestFirst texts
  · rw [hvalues]
    exact pairwise_longestFirst texts
  · intro name text hget
    have hentry := ((assignSymbols texts).get?_eq_some_iff name text).mp hget
    exact reconstruct_placeholder (hplaceholders name (List.mem_map_of_mem hentry)) hget

end TemporalRequirements
