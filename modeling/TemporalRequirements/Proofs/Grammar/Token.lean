import TemporalRequirements.Grammar.Term
import TemporalRequirements.Proofs.Text.Balanced

/-!
# Gaps, tokens, names and numbers

What the readers of single tokens take off a text, and the texts that names and numbers have.  A
name and a number end before a character that is no part of a path.
-/

namespace TemporalRequirements.Grammar

/-- A text of blanks that may stand between tokens. -/
def Gaps (s : List Char) : Prop := ∀ c ∈ s, isGap c = true

theorem isBlank_of_isGap {c : Char} (h : isGap c = true) : Text.isBlank c = true := by
  simp only [isGap, Bool.or_eq_true, beq_iff_eq] at h
  rcases h with ((rfl | rfl) | rfl) | rfl <;> decide

theorem Gaps.nil : Gaps [] := fun c hc ↦ by cases hc

theorem Gaps.cons {c : Char} {s : List Char} (hc : isGap c = true) (hs : Gaps s) :
    Gaps (c :: s) := by
  intro d hd
  rcases List.mem_cons.mp hd with rfl | hd
  · exact hc
  · exact hs d hd

theorem Gaps.append {s t : List Char} (hs : Gaps s) (ht : Gaps t) : Gaps (s ++ t) := by
  intro c hc
  rcases List.mem_append.mp hc with hc | hc
  · exact hs c hc
  · exact ht c hc

theorem Gaps.isBlank {s : List Char} (h : Gaps s) : ∀ c ∈ s, Text.isBlank c = true :=
  fun c hc ↦ isBlank_of_isGap (h c hc)

theorem skipGaps_append {gaps : List Char} (h : Gaps gaps) (s : List Char) :
    skipGaps (gaps ++ s) = skipGaps s :=
  List.dropWhile_append_of_pos h

theorem skipGaps_cons_of_gap {c : Char} (h : isGap c = true) (s : List Char) :
    skipGaps (c :: s) = skipGaps s :=
  List.dropWhile_cons_of_pos h

theorem skipGaps_cons_of_not_gap {c : Char} (h : isGap c = false) (s : List Char) :
    skipGaps (c :: s) = c :: s :=
  List.dropWhile_cons_of_neg (by simp [h])

theorem skipGaps_idem (s : List Char) : skipGaps (skipGaps s) = skipGaps s := by
  induction s with
  | nil => rfl
  | cons c s ih =>
    cases hc : isGap c with
    | true => rw [skipGaps_cons_of_gap hc, ih]
    | false => rw [skipGaps_cons_of_not_gap hc, skipGaps_cons_of_not_gap hc]

/-- Text behind the first token changes nothing about the gaps before it. -/
theorem skipGaps_append_of_cons {c : Char} {s rest : List Char} (h : skipGaps s = c :: rest)
    (t : List Char) : skipGaps (s ++ t) = c :: (rest ++ t) := by
  induction s with
  | nil => cases h
  | cons d s ih =>
    cases hd : isGap d with
    | true =>
      rw [skipGaps_cons_of_gap hd] at h
      rw [List.cons_append, skipGaps_cons_of_gap hd, ih h]
    | false =>
      rw [skipGaps_cons_of_not_gap hd] at h
      obtain ⟨rfl, rfl⟩ := List.cons.inj h
      rw [List.cons_append, skipGaps_cons_of_not_gap hd]

/-- A text is gaps and what follows them. -/
theorem exists_gaps (s : List Char) : ∃ gaps, Gaps gaps ∧ s = gaps ++ skipGaps s :=
  ⟨s.takeWhile isGap, List.all_eq_true.mp List.all_takeWhile,
    List.takeWhile_append_dropWhile.symm⟩

/-- A token with the gaps before it. -/
def TokenText (sign s : List Char) : Prop := ∃ gaps, Gaps gaps ∧ s = gaps ++ sign

theorem TokenText.self (sign : List Char) : TokenText sign sign := ⟨[], Gaps.nil, rfl⟩

theorem TokenText.gaps {gaps sign s : List Char} (h : TokenText sign s) (hgaps : Gaps gaps) :
    TokenText sign (gaps ++ s) := by
  obtain ⟨gaps', hgaps', rfl⟩ := h
  refine ⟨gaps ++ gaps', hgaps.append hgaps', ?_⟩
  rw [List.append_assoc]

theorem TokenText.length_pos {c : Char} {s : List Char} (h : TokenText [c] s) : 0 < s.length := by
  obtain ⟨gaps, -, rfl⟩ := h
  rw [List.length_append, List.length_singleton]
  omega

theorem TokenText.skipGaps_append {c : Char} {s : List Char} (h : TokenText [c] s)
    (hc : isGap c = false) (rest : List Char) : skipGaps (s ++ rest) = c :: rest := by
  obtain ⟨gaps, hgaps, rfl⟩ := h
  rw [List.append_assoc, Grammar.skipGaps_append hgaps, List.singleton_append,
    skipGaps_cons_of_not_gap hc]

theorem TokenText.endsFirm {c : Char} {s : List Char} (h : TokenText [c] s)
    (hc : Text.isBlank c = false) : Text.EndsFirm s := by
  obtain ⟨gaps, -, rfl⟩ := h
  exact (Text.endsFirm_singleton hc).append gaps

/-- Squeezing keeps a token, with a space for the gaps before it. -/
theorem TokenText.squeeze {sign s : List Char} (h : TokenText sign s)
    (hsign : ∀ c ∈ sign, Text.isBlank c = false) (hne : sign ≠ []) :
    TokenText sign (Text.squeeze s) := by
  obtain ⟨gaps, hgaps, rfl⟩ := h
  induction gaps with
  | nil =>
    rw [List.nil_append, Text.squeeze_eq_self hsign]
    exact TokenText.self sign
  | cons d gaps ih =>
    have hd : Text.isBlank d = true := hgaps.isBlank d List.mem_cons_self
    have hrest := ih fun e he ↦ hgaps e (List.mem_cons_of_mem d he)
    have hspace {s : List Char} (hs : TokenText sign s) : TokenText sign (' ' :: s) := by
      obtain ⟨gaps', hgaps', rfl⟩ := hs
      exact ⟨' ' :: gaps', Gaps.cons rfl hgaps', rfl⟩
    obtain ⟨e, more, heq⟩ : ∃ e more, gaps ++ sign = e :: more :=
      List.exists_cons_of_ne_nil (List.append_ne_nil_of_right_ne_nil gaps hne)
    rw [List.cons_append, heq, Text.squeeze_cons_of_blank hd]
    rw [heq] at hrest
    split
    · exact hrest
    · exact hspace hrest

theorem TokenText.squeeze_mark {c : Char} {s : List Char} (h : TokenText [c] s)
    (hc : Text.isBlank c = false) : TokenText [c] (Text.squeeze s) :=
  h.squeeze (fun d hd ↦ by rw [List.mem_singleton.mp hd, hc]) (List.cons_ne_nil c [])

theorem Gaps.balanced {s : List Char} (h : Gaps s) : Text.Balanced s := by
  apply Text.Balanced.of_forall
  intro c hc
  have hgap := h c hc
  constructor <;> rintro rfl <;> cases hgap

theorem TokenText.balanced {c : Char} {s : List Char} (h : TokenText [c] s) (hopen : c ≠ '(')
    (hclose : c ≠ ')') : Text.Balanced s := by
  obtain ⟨gaps, hgaps, rfl⟩ := h
  exact hgaps.balanced.append (.plain hopen hclose .nil)

/-- The symbol that is read stands in front. -/
theorem oneOf_eq_some {α : Type} {table : List (String × α)} {s rest : List Char}
    {entry : String × α} (h : oneOf table s = some (entry, rest)) :
    entry ∈ table ∧ s = entry.1.toList ++ rest := by
  induction table with
  | nil => cases h
  | cons e table ih =>
    rw [oneOf] at h
    split at h
    · rename_i tail hafter
      obtain ⟨rfl, rfl⟩ := Prod.mk.inj (Option.some.inj h)
      exact ⟨List.mem_cons_self, Text.after?_eq_some_iff.mp hafter⟩
    · obtain ⟨hmem, heq⟩ := ih h
      exact ⟨List.mem_cons_of_mem e hmem, heq⟩

/-- Reading a symbol of a table takes a token off. -/
theorem symbol_eq_some {α : Type} {table : List (String × α)} {s rest : List Char} {a : α}
    (h : symbol table s = some (a, rest)) :
    ∃ sign token, (sign, a) ∈ table ∧ TokenText sign.toList token ∧ s = token ++ rest := by
  obtain ⟨gaps, hgaps, hs⟩ := exists_gaps s
  obtain ⟨⟨entry, tail⟩, hentry, heq⟩ := Option.map_eq_some_iff.mp h
  obtain ⟨rfl, rfl⟩ := Prod.mk.inj heq
  obtain ⟨hmem, hskip⟩ := oneOf_eq_some hentry
  refine ⟨entry.1, gaps ++ entry.1.toList, hmem, ⟨gaps, hgaps, rfl⟩, ?_⟩
  rw [List.append_assoc, ← hskip, ← hs]

/-- Reading a mark takes a token off. -/
theorem mark_eq_some {c : Char} {s rest : List Char} (h : mark c s = some rest) :
    ∃ token, TokenText [c] token ∧ s = token ++ rest := by
  obtain ⟨gaps, hgaps, hs⟩ := exists_gaps s
  unfold mark at h
  cases hskip : skipGaps s with
  | nil =>
    rw [hskip] at h
    cases h
  | cons d tail =>
    rw [hskip] at h hs
    dsimp only at h
    split at h
    · rename_i hd
      obtain rfl := Option.some.inj h
      exact ⟨gaps ++ [c], ⟨gaps, hgaps, rfl⟩, by rw [hs, hd, List.append_assoc]; rfl⟩
    · cases h

theorem mark_token {c : Char} {s : List Char} (h : TokenText [c] s) (hc : isGap c = false)
    (rest : List Char) : mark c (s ++ rest) = some rest := by
  rw [mark, h.skipGaps_append hc]
  exact if_pos rfl

/-- A mark is not read where another token stands. -/
theorem mark_eq_none {c d : Char} {s rest : List Char} (h : skipGaps s = d :: rest) (hne : d ≠ c) :
    mark c s = none := by
  rw [mark, h]
  exact if_neg hne

/-! ## Ends of names and numbers -/

theorem isAlpha_iff {c : Char} : c.isAlpha = true ↔
    (65 ≤ c.toNat ∧ c.toNat ≤ 90) ∨ (97 ≤ c.toNat ∧ c.toNat ≤ 122) := by
  have hranges : c.isAlpha = (decide ('A'.val ≤ c.val ∧ c.val ≤ 'Z'.val) ||
      decide ('a'.val ≤ c.val) && decide (c.val ≤ 'z'.val)) := rfl
  simp only [hranges, Bool.or_eq_true, Bool.and_eq_true, decide_eq_true_eq,
    UInt32.le_iff_toNat_le]
  exact Iff.rfl

theorem isBlank_of_isPathPart {c : Char} (h : Text.isPathPart c = true) :
    Text.isBlank c = false := by
  have hrange : (48 ≤ c.toNat ∧ c.toNat ≤ 57) ∨ (65 ≤ c.toNat ∧ c.toNat ≤ 90) ∨
      (97 ≤ c.toNat ∧ c.toNat ≤ 122) ∨ c.toNat = 95 ∨ c.toNat = 46 := by
    simp only [Text.isPathPart, Text.isNamePart, Char.isAlphanum, isAlpha_iff, Char.isDigit,
      Bool.or_eq_true, Bool.and_eq_true, decide_eq_true_eq, beq_iff_eq, ge_iff_le,
      UInt32.le_iff_toNat_le] at h
    rcases h with (((h | h) | h) | rfl) | rfl
    · exact Or.inr (Or.inl h)
    · exact Or.inr (Or.inr (Or.inl h))
    · exact Or.inl h
    · simp
    · simp
  simp only [Text.isBlank, Bool.or_eq_false_iff, Bool.and_eq_false_iff, decide_eq_false_iff_not,
    beq_eq_false_iff_ne, ne_eq]
  omega

theorem isPathPart_eq_false_of_isBlank {c : Char} (h : Text.isBlank c = true) :
    Text.isPathPart c = false := by
  cases hpart : Text.isPathPart c with
  | false => rfl
  | true =>
    rw [isBlank_of_isPathPart hpart] at h
    cases h

theorem isGap_of_isPathPart {c : Char} (h : Text.isPathPart c = true) : isGap c = false := by
  cases hgap : isGap c with
  | false => rfl
  | true =>
    have hblank := isBlank_of_isPathPart h
    rw [isBlank_of_isGap hgap] at hblank
    cases hblank

theorem ne_of_isPathPart {c d : Char} (h : Text.isPathPart c = true)
    (hd : Text.isPathPart d = false) : c ≠ d := by
  rintro rfl
  rw [h] at hd
  cases hd

theorem isPathPart_of_isDigit {c : Char} (h : c.isDigit = true) : Text.isPathPart c = true := by
  simp [Text.isPathPart, Text.isNamePart, Char.isAlphanum, h]

theorem isDigit_of_isNameStart {c : Char} (h : Text.isNameStart c = true) :
    c.isDigit = false := by
  simp only [Text.isNameStart, isAlpha_iff, Bool.or_eq_true, beq_iff_eq] at h
  have hlow : 65 ≤ c.val.toNat := by
    rcases h with (⟨hcapital, -⟩ | ⟨hsmall, -⟩) | rfl
    · exact hcapital
    · exact Nat.le_trans (by decide) hsmall
    · decide
  simp only [Char.isDigit, Bool.and_eq_false_iff, decide_eq_false_iff_not, ge_iff_le,
    UInt32.le_iff_toNat_le]
  right
  intro hle
  have hhigh : c.val.toNat ≤ 57 := hle
  omega

theorem isNameStart_of_isDigit {c : Char} (h : c.isDigit = true) : Text.isNameStart c = false := by
  cases hstart : Text.isNameStart c with
  | false => rfl
  | true =>
    rw [isDigit_of_isNameStart hstart] at h
    cases h

/-- A text before which a name or a number ends. -/
def Detached (rest : List Char) : Prop := ∀ c ∈ rest.head?, Text.isPathPart c = false

theorem detached_cons {c : Char} (h : Text.isPathPart c = false) (rest : List Char) :
    Detached (c :: rest) := by
  intro d hd
  obtain rfl := Option.some.inj hd
  exact h

theorem Detached.of_gap {c : Char} (h : isGap c = true) (rest : List Char) :
    Detached (c :: rest) := by
  apply detached_cons
  cases hpart : Text.isPathPart c with
  | false => rfl
  | true =>
    rw [isGap_of_isPathPart hpart] at h
    cases h

theorem TokenText.detached {c : Char} {s : List Char} (h : TokenText [c] s)
    (hc : Text.isPathPart c = false) (rest : List Char) : Detached (s ++ rest) := by
  obtain ⟨gaps, hgaps, rfl⟩ := h
  cases gaps with
  | nil => exact detached_cons hc rest
  | cons d gaps => exact Detached.of_gap (hgaps d List.mem_cons_self) _

/-- A text that starts with a mark after its gaps does not go on with a name. -/
theorem detached_of_skipGaps {c : Char} {s rest : List Char} (h : skipGaps s = c :: rest)
    (hc : Text.isPathPart c = false) : Detached s := by
  cases s with
  | nil => cases h
  | cons d s =>
    cases hd : isGap d with
    | true => exact Detached.of_gap hd s
    | false =>
      rw [skipGaps_cons_of_not_gap hd] at h
      obtain ⟨rfl, rfl⟩ := List.cons.inj h
      exact detached_cons hc s

theorem detached_dropWhile (s : List Char) : Detached (s.dropWhile Text.isPathPart) := by
  intro c hc
  have hstop := List.head?_dropWhile_not Text.isPathPart s
  rw [Option.mem_def.mp hc] at hstop
  simpa using hstop

section

variable {p : Char → Bool} {s rest : List Char}

/-- A text that does not go on with a name has no part of one in front. -/
theorem takeWhile_of_detached (hp : ∀ c, p c = true → Text.isPathPart c = true)
    (h : Detached rest) : rest.takeWhile p = [] ∧ rest.dropWhile p = rest := by
  cases rest with
  | nil => exact ⟨rfl, rfl⟩
  | cons c rest =>
    have hc : ¬ p c = true := by
      intro hpc
      have hpart := hp c hpc
      rw [h c rfl] at hpart
      cases hpart
    exact ⟨List.takeWhile_cons_of_neg hc, List.dropWhile_cons_of_neg hc⟩

/-- Characters of a path are taken up to where a name or a number ends. -/
theorem takeWhile_append_detached (hs : ∀ c ∈ s, p c = true)
    (hp : ∀ c, p c = true → Text.isPathPart c = true) (h : Detached rest) :
    (s ++ rest).takeWhile p = s ∧ (s ++ rest).dropWhile p = rest := by
  obtain ⟨htake, hdrop⟩ := takeWhile_of_detached hp h
  rw [List.takeWhile_append_of_pos hs, List.dropWhile_append_of_pos hs, htake, hdrop,
    List.append_nil]
  exact ⟨rfl, rfl⟩

end

/-! ## Words and numbers -/

/-- The text of a word: a name of greatest length, qualified or not. -/
structure WordText (w : List Char) : Prop where
  starts : ∃ c rest, w = c :: rest ∧ Text.isNameStart c = true
  parts : ∀ c ∈ w, Text.isPathPart c = true

/-- The text of a name that is no truth value and no temporal letter. -/
structure NameText (w : List Char) : Prop extends WordText w where
  notTruth : truthWords.find? (fun entry ↦ entry.1 = String.ofList w) = none
  notTemporal : String.ofList w ∉ temporalWords

/-- A word is taken off after gaps, up to what does not go on with it. -/
theorem word_eq_some {s w rest : List Char} (h : word s = some (w, rest)) :
    ∃ gaps, Gaps gaps ∧ s = gaps ++ (w ++ rest) ∧ WordText w ∧ Detached rest := by
  obtain ⟨gaps, hgaps, hs⟩ := exists_gaps s
  unfold word at h
  cases hskip : skipGaps s with
  | nil =>
    rw [hskip] at h
    cases h
  | cons c tail =>
    rw [hskip] at h hs
    dsimp only at h
    split at h
    · rename_i hc
      obtain ⟨rfl, rfl⟩ := Prod.mk.inj (Option.some.inj h)
      refine ⟨gaps, hgaps, ?_, ⟨⟨c, _, rfl, hc⟩, ?_⟩, detached_dropWhile tail⟩
      · rw [List.cons_append, List.takeWhile_append_dropWhile]
        exact hs
      · intro d hd
        rcases List.mem_cons.mp hd with rfl | hd
        · exact Text.isPathPart_of_isNameStart hc
        · exact List.all_eq_true.mp List.all_takeWhile d hd
    · cases h

theorem WordText.word_append {w rest : List Char} (h : WordText w) (hrest : Detached rest) :
    word (w ++ rest) = some (w, rest) := by
  obtain ⟨c, tail, rfl, hc⟩ := h.starts
  have hgap : isGap c = false := isGap_of_isPathPart (Text.isPathPart_of_isNameStart hc)
  obtain ⟨htake, hdrop⟩ := takeWhile_append_detached
    (fun d hd ↦ h.parts d (List.mem_cons_of_mem c hd)) (fun d hd ↦ hd) hrest
  rw [List.cons_append, word, skipGaps_cons_of_not_gap hgap]
  dsimp only
  rw [if_pos hc, htake, hdrop]

theorem word_eq_none {c : Char} {s rest : List Char} (h : skipGaps s = c :: rest)
    (hc : Text.isNameStart c = false) : word s = none := by
  rw [word, h]
  dsimp only
  rw [if_neg (by simp [hc])]

theorem word_of_skipGaps_nil {s : List Char} (h : skipGaps s = []) : word s = none := by
  rw [word, h]

/-- The text of a number: digits, and perhaps a point and further digits. -/
inductive NumberText : List Char → Prop where
  | whole {s : List Char} (hne : s ≠ []) (hs : ∀ c ∈ s, c.isDigit = true) : NumberText s
  | pointed {s t : List Char} (hne : s ≠ []) (hs : ∀ c ∈ s, c.isDigit = true) (hne' : t ≠ [])
      (ht : ∀ c ∈ t, c.isDigit = true) : NumberText (s ++ '.' :: t)

/-- A number consists of digits and a point. -/
theorem NumberText.isDigit_or_eq_point {s : List Char} (h : NumberText s) :
    ∀ c ∈ s, c.isDigit = true ∨ c = '.' := by
  cases h with
  | whole _ hs => exact fun c hc ↦ Or.inl (hs c hc)
  | pointed _ hs _ ht =>
    intro c hc
    rcases List.mem_append.mp hc with hc | hc
    · exact Or.inl (hs c hc)
    · exact (List.mem_cons.mp hc).symm.imp_left (ht c)

theorem NumberText.parts {s : List Char} (h : NumberText s) :
    ∀ c ∈ s, Text.isPathPart c = true := by
  intro c hc
  rcases h.isDigit_or_eq_point c hc with hc | rfl
  · exact isPathPart_of_isDigit hc
  · rfl

theorem NumberText.starts {s : List Char} (h : NumberText s) :
    ∃ c rest, s = c :: rest ∧ c.isDigit = true := by
  cases h with
  | whole hne hs =>
    obtain ⟨c, rest, rfl⟩ := List.exists_cons_of_ne_nil hne
    exact ⟨c, rest, rfl, hs c List.mem_cons_self⟩
  | pointed hne hs _ _ =>
    rename_i s t _ _
    obtain ⟨c, rest, rfl⟩ := List.exists_cons_of_ne_nil hne
    exact ⟨c, rest ++ '.' :: t, rfl, hs c List.mem_cons_self⟩

/-- What is taken off after a digit is a number. -/
theorem takeNumber_sound {c : Char} {s text rest : List Char} (hc : c.isDigit = true)
    (h : Text.takeNumber (c :: s) = (text, rest)) : c :: s = text ++ rest ∧ NumberText text := by
  have hdigits (s : List Char) : ∀ d ∈ s.takeWhile Char.isDigit, d.isDigit = true :=
    List.all_eq_true.mp List.all_takeWhile
  have hne : (c :: s).takeWhile Char.isDigit ≠ [] := by
    rw [List.takeWhile_cons_of_pos hc]
    exact List.cons_ne_nil _ _
  have hparts : (c :: s).takeWhile Char.isDigit ++ (c :: s).dropWhile Char.isDigit = c :: s :=
    List.takeWhile_append_dropWhile
  unfold Text.takeNumber at h
  dsimp only at h
  split at h
  · rename_i tail hpoint
    rw [hpoint] at hparts
    split at h
    · obtain ⟨rfl, rfl⟩ := Prod.mk.inj h
      exact ⟨hparts.symm, .whole hne (hdigits _)⟩
    · rename_i hfraction
      obtain ⟨rfl, rfl⟩ := Prod.mk.inj h
      refine ⟨?_, .pointed hne (hdigits _) (by simpa using hfraction) (hdigits _)⟩
      rw [List.append_assoc, List.cons_append, List.takeWhile_append_dropWhile]
      exact hparts.symm
  · obtain ⟨rfl, rfl⟩ := Prod.mk.inj h
    exact ⟨hparts.symm, .whole hne (hdigits _)⟩

/-- A number is taken off whatever follows that does not go on with it. -/
theorem NumberText.takeNumber_append {s rest : List Char} (h : NumberText s)
    (hrest : Detached rest) : Text.takeNumber (s ++ rest) = (s, rest) := by
  have hdigit (c : Char) (hc : c.isDigit = true) : Text.isPathPart c = true :=
    isPathPart_of_isDigit hc
  cases h with
  | whole hne hs =>
    obtain ⟨htake, hdrop⟩ := takeWhile_append_detached hs hdigit hrest
    rw [Text.takeNumber, htake, hdrop]
    split
    · -- a point would be a part of a path
      cases hrest '.' rfl
    · rfl
  | @pointed s t hne hs hne' ht =>
    have hpoint : ¬ Char.isDigit '.' = true := by decide
    obtain ⟨htake, hdrop⟩ := takeWhile_append_detached ht hdigit hrest
    rw [Text.takeNumber, List.append_assoc, List.cons_append, List.takeWhile_append_of_pos hs,
      List.dropWhile_append_of_pos hs, List.takeWhile_cons_of_neg hpoint,
      List.dropWhile_cons_of_neg hpoint, List.append_nil]
    simp only [htake, hdrop, List.isEmpty_eq_false_iff.mpr hne', Bool.false_eq_true, if_false]

end TemporalRequirements.Grammar
