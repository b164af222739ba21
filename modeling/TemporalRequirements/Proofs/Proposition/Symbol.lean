import TemporalRequirements.Proofs.Text.Digits
import TemporalRequirements.Proofs.Text.Pieces
import TemporalRequirements.Proposition.Symbol

/-!
# Symbols stand for propositions

Different numbers give different symbols, however many are given out, and every symbol is a bare
name.  So every proposition has a symbol under which the table holds it.
-/

namespace TemporalRequirements

namespace OrderedMap

variable {α β : Type} [DecidableEq α]

theorem insertEntry_of_notMem {k : α} {v : β} {es : List (α × β)} (h : k ∉ es.map Prod.fst) :
    insertEntry k v es = es ++ [(k, v)] := by
  induction es with
  | nil => rfl
  | cons e es ih =>
    obtain ⟨hk, hrest⟩ := List.ne_and_not_mem_of_not_mem_cons h
    rw [insertEntry, if_neg (Ne.symm hk), ih hrest, List.cons_append]

/-- Entries with new keys are inserted in their order. -/
theorem entries_foldl_insert {m : OrderedMap α β} {es : List (α × β)}
    (h : ((m.entries ++ es).map Prod.fst).Nodup) :
    (es.foldl (fun m e ↦ m.insert e.1 e.2) m).entries = m.entries ++ es := by
  induction es generalizing m with
  | nil => rw [List.foldl_nil, List.append_nil]
  | cons e es ih =>
    have hnew : e.1 ∉ m.entries.map Prod.fst := by
      intro hmem
      rw [List.map_append, List.map_cons] at h
      exact (List.nodup_append.mp h).2.2 e.1 hmem e.1 List.mem_cons_self rfl
    have hentries : (m.insert e.1 e.2).entries = m.entries ++ [e] := insertEntry_of_notMem hnew
    have happend : (m.insert e.1 e.2).entries ++ es = m.entries ++ e :: es := by
      rw [hentries, List.append_assoc, List.singleton_append]
    rw [List.foldl_cons, ih (happend.symm ▸ h), happend]

/-- Entries with different keys stay as they are. -/
theorem entries_ofList {es : List (α × β)} (h : (es.map Prod.fst).Nodup) :
    (ofList es).entries = es :=
  entries_foldl_insert (m := empty) h

end OrderedMap

/-! ## Symbols -/

theorem decimalValue_fourDigits (n : Nat) : Text.decimalValue (fourDigits n) = n := by
  rw [fourDigits, Text.decimalValue_zeros_append, Text.decimalValue_toDigits]

theorem isDigit_of_mem_fourDigits (n : Nat) : ∀ c ∈ fourDigits n, c.isDigit = true := by
  intro c hc
  rcases List.mem_append.mp hc with hc | hc
  · rw [(List.mem_replicate.mp hc).2]
    rfl
  · exact Text.isDigit_of_mem_toDigits n c hc

theorem four_le_length_fourDigits (n : Nat) : 4 ≤ (fourDigits n).length := by
  rw [fourDigits, List.length_append, List.length_replicate]
  omega

theorem symbolAt_cases (n : Nat) :
    baseSymbols[n]? = some (symbolAt n) ∨
      ∃ k, n = k + 6 ∧ symbolAt n = String.ofList (numberedLetter :: fourDigits k) := by
  unfold symbolAt
  cases hbase : baseSymbols[n]? with
  | some s => exact .inl rfl
  | none =>
    have hlarge : 6 ≤ n := List.getElem?_eq_none_iff.mp hbase
    exact .inr ⟨n - 6, by omega, rfl⟩

theorem ne_numbered_of_mem_base {s : String} (h : s ∈ baseSymbols) (digits : List Char) :
    s ≠ String.ofList (numberedLetter :: digits) := by
  intro heq
  have hhead : s.toList.head? = some numberedLetter := by rw [heq, String.toList_ofList]; rfl
  have hnone : ∀ t ∈ baseSymbols, t.toList.head? ≠ some numberedLetter := by decide
  exact hnone s h hhead

/-- Different numbers give different symbols. -/
theorem symbolAt_injective {m n : Nat} (h : symbolAt m = symbolAt n) : m = n := by
  rcases symbolAt_cases m with hm | ⟨k, rfl, hm⟩
  · rcases symbolAt_cases n with hn | ⟨j, rfl, hn⟩
    · have hlt : m < baseSymbols.length := (List.getElem?_eq_some_iff.mp hm).1
      have hnodup : baseSymbols.Nodup := by decide
      exact (List.getElem?_inj hlt hnodup).mp (by rw [hm, hn, h])
    · exact absurd (h.trans hn) (ne_numbered_of_mem_base (List.mem_of_getElem? hm) _)
  · rcases symbolAt_cases n with hn | ⟨j, rfl, hn⟩
    · exact absurd (h.symm.trans hm) (ne_numbered_of_mem_base (List.mem_of_getElem? hn) _)
    · rw [hm, hn, String.ofList_inj] at h
      have hdigits := (List.cons.inj h).2
      rw [← decimalValue_fourDigits k, hdigits, decimalValue_fourDigits]

theorem isSymbol_symbolAt (n : Nat) : isSymbol (symbolAt n) = true := by
  rcases symbolAt_cases n with hn | ⟨k, rfl, hn⟩
  · have hmem := List.mem_of_getElem? hn
    simp [isSymbol, hmem]
  · have hdigits : (fourDigits k).all Char.isDigit = true :=
      List.all_eq_true.mpr (isDigit_of_mem_fourDigits k)
    simp [isSymbol, hn, hdigits, four_le_length_fourDigits]

/-- Every symbol is a name. -/
theorem exists_name_symbolAt (n : Nat) :
    ∃ c s, (symbolAt n).toList = c :: s ∧ Text.isNameStart c = true ∧
      ∀ d ∈ s, Text.isNamePart d = true := by
  rcases symbolAt_cases n with hn | ⟨k, rfl, hn⟩
  · have hmem := List.mem_of_getElem? hn
    simp only [baseSymbols, List.mem_cons, List.not_mem_nil, or_false] at hmem
    rcases hmem with h | h | h | h | h | h <;>
      exact ⟨_, [], by rw [h]; rfl, rfl, fun d hd ↦ by cases hd⟩
  · refine ⟨numberedLetter, fourDigits k, by rw [hn, String.toList_ofList], rfl, ?_⟩
    intro d hd
    simp [Text.isNamePart, Char.isAlphanum, isDigit_of_mem_fourDigits k d hd]

/-- No symbol holds an underscore. -/
theorem underscore_notMem_symbolAt (n : Nat) : '_' ∉ (symbolAt n).toList := by
  rcases symbolAt_cases n with hn | ⟨k, rfl, hn⟩
  · have hnone : ∀ s ∈ baseSymbols, '_' ∉ s.toList := by decide
    exact hnone _ (List.mem_of_getElem? hn)
  · rw [hn, String.toList_ofList]
    intro hmem
    rcases List.mem_cons.mp hmem with heq | hdigit
    · cases heq
    · cases isDigit_of_mem_fourDigits k _ hdigit

theorem isSimple_symbolAt (n : Nat) : Text.isSimple (symbolAt n).toList = true := by
  obtain ⟨c, s, hs, hc, hparts⟩ := exists_name_symbolAt n
  have hpath : s.all Text.isPathPart = true := by
    apply List.all_eq_true.mpr
    intro d hd
    simp [Text.isPathPart, hparts d hd]
  rw [hs, Text.isSimple, if_pos hc, hpath]

/-! ## Assigning symbols -/

theorem entries_assignSymbols (texts : List String) :
    (assignSymbols texts).entries = (longestFirst texts).mapIdx fun n t ↦ (symbolAt n, t) := by
  apply OrderedMap.entries_ofList
  rw [List.Nodup, List.pairwise_iff_getElem]
  intro i j hi hj hlt heq
  simp only [List.getElem_map, List.getElem_mapIdx] at heq
  exact absurd (symbolAt_injective heq) (Nat.ne_of_lt hlt)

/-- Every text has a symbol under which it is found. -/
theorem exists_symbol {texts : List String} {text : String} (h : text ∈ texts) :
    ∃ n, ((assignSymbols texts).entries.find? (fun e ↦ e.2 = text)).map Prod.fst =
        some (symbolAt n) ∧ (assignSymbols texts).get? (symbolAt n) = some text := by
  have hlongest : text ∈ longestFirst texts :=
    List.mem_mergeSort.mpr (List.mem_eraseDups.mpr h)
  obtain ⟨k, hk, hget⟩ := List.mem_iff_getElem.mp hlongest
  have hentry : (symbolAt k, text) ∈ (assignSymbols texts).entries := by
    rw [entries_assignSymbols, List.mem_mapIdx]
    exact ⟨k, hk, by rw [hget]⟩
  obtain ⟨entry, hfind⟩ : ∃ entry,
      (assignSymbols texts).entries.find? (fun e ↦ e.2 = text) = some entry := by
    apply Option.isSome_iff_exists.mp
    exact List.find?_isSome.mpr ⟨_, hentry, by simp⟩
  have htext : entry.2 = text := by simpa using List.find?_some hfind
  have hmem := List.mem_of_find?_eq_some hfind
  obtain ⟨n, hn, hsymbol⟩ : ∃ n, ∃ _ : n < (longestFirst texts).length,
      (symbolAt n, (longestFirst texts)[n]) = entry := by
    rwa [entries_assignSymbols, List.mem_mapIdx] at hmem
  have hkey : entry.1 = symbolAt n := by rw [← hsymbol]
  refine ⟨n, by rw [hfind, Option.map_some, hkey], ?_⟩
  rw [OrderedMap.get?_eq_some_iff, ← hkey, ← htext]
  exact hmem

end TemporalRequirements
