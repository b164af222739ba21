import TemporalRequirements.Proofs.Grammar.PredicateText
import TemporalRequirements.Proofs.Text.Pieces
import TemporalRequirements.Proposition.Normal

/-!
# Texts without arrows

Removing the arrows of a text that has none changes blanks at the edges of groups only, so the names
of the text stay as they are.
-/

namespace TemporalRequirements

/-- A text without an arrow: no minus sign stands right before a greater sign. -/
def ArrowFree (s : List Char) : Prop := ¬ "->".toList <:+: s

theorem arrowFree_nil : ArrowFree [] := by
  intro h
  cases List.infix_nil.mp h

theorem arrowFree_cons_iff {c : Char} {s : List Char} :
    ArrowFree (c :: s) ↔ ¬ (c = '-' ∧ s.head? = some '>') ∧ ArrowFree s := by
  have hprefix : "->".toList <+: c :: s ↔ c = '-' ∧ s.head? = some '>' := by
    have harrow : "->".toList = ['-', '>'] := rfl
    rw [harrow, List.cons_prefix_cons, eq_comm]
    cases s with
    | nil => simp
    | cons d s => simp [List.cons_prefix_cons, eq_comm]
  rw [ArrowFree, List.infix_cons_iff, hprefix, not_or, ArrowFree]

theorem ArrowFree.of_infix {s t : List Char} (h : ArrowFree t) (hs : s <:+: t) : ArrowFree s :=
  fun harrow ↦ h (harrow.trans hs)

theorem arrowFree_cons {c : Char} {s : List Char} (hc : c ≠ '-') (hs : ArrowFree s) :
    ArrowFree (c :: s) :=
  arrowFree_cons_iff.mpr ⟨fun h ↦ hc h.1, hs⟩

/-- A text without minus signs starts no arrow. -/
theorem arrowFree_append {s t : List Char} (hs : ∀ c ∈ s, c ≠ '-') (ht : ArrowFree t) :
    ArrowFree (s ++ t) := by
  induction s with
  | nil => exact ht
  | cons c s ih =>
    exact arrowFree_cons (hs c List.mem_cons_self) (ih fun d hd ↦ hs d (List.mem_cons_of_mem c hd))

/-- No arrow arises between two texts of which the second does not start with a greater sign. -/
theorem ArrowFree.append {s t : List Char} (hs : ArrowFree s) (ht : ArrowFree t)
    (hhead : t.head? ≠ some '>') : ArrowFree (s ++ t) := by
  induction s with
  | nil => exact ht
  | cons c s ih =>
    obtain ⟨hc, hs⟩ := arrowFree_cons_iff.mp hs
    refine arrowFree_cons_iff.mpr ⟨fun h ↦ ?_, ih hs⟩
    cases s with
    | nil => exact hhead h.2
    | cons d s => exact hc h

/-- Where a text is cut, the operator stands. -/
theorem infix_of_cutOutside {op s : List Char} {depth : Int} {parts : List Char × List Char}
    (h : cutOutside op depth s = some parts) : op <:+: s := by
  induction s generalizing depth parts with
  | nil => cases h
  | cons c s ih =>
    have hlater {depth : Int}
        (h : (cutOutside op depth s).map (Text.consFirst c) = some parts) : op <:+: c :: s := by
      obtain ⟨parts', hparts, -⟩ := Option.map_eq_some_iff.mp h
      exact (ih hparts).trans (List.suffix_cons c s).isInfix
    unfold cutOutside at h
    split at h
    · exact hlater h
    · split at h
      · exact hlater h
      · split at h
        · rename_i after hafter
          split at hafter
          · rw [Text.after?_eq_some_iff.mp hafter]
            exact (List.prefix_append op after).isInfix
          · cases hafter
        · exact hlater h

theorem ArrowFree.cutOutside_eq_none {s : List Char} (h : ArrowFree s) (op : List Char)
    (hop : "->".toList <:+: op) (depth : Int) : cutOutside op depth s = none := by
  cases hcut : cutOutside op depth s with
  | none => rfl
  | some parts => exact absurd (hop.trans (infix_of_cutOutside hcut)) h

/-! ## Names and groups -/

theorem pathNames_blanks_append {blanks : List Char} (h : ∀ b ∈ blanks, Text.isBlank b = true)
    (s : List Char) : Text.pathNames (blanks ++ s) = Text.pathNames s := by
  induction blanks with
  | nil => rfl
  | cons b blanks ih =>
    rw [List.cons_append, Text.pathNames_cons (Grammar.isPathPart_eq_false_of_isBlank
      (h b List.mem_cons_self)), ih fun d hd ↦ h d (List.mem_cons_of_mem b hd)]

/-- Blanks behind a text hold no name. -/
theorem pathNames_append_blanks {blanks : List Char} (h : ∀ b ∈ blanks, Text.isBlank b = true)
    (s : List Char) : Text.pathNames (s ++ blanks) = Text.pathNames s := by
  cases blanks with
  | nil => rw [List.append_nil]
  | cons b blanks =>
    have hrest := pathNames_blanks_append (fun d hd ↦ h d (List.mem_cons_of_mem b hd)) []
    rw [List.append_nil] at hrest
    rw [Text.pathNames_append (Grammar.isPathPart_eq_false_of_isBlank (h b List.mem_cons_self)),
      hrest]
    exact List.append_nil _

theorem pathNames_trim (s : List Char) : Text.pathNames (Text.trim s) = Text.pathNames s := by
  obtain ⟨before, after, hs, hbefore, hafter⟩ := Text.exists_trim s
  have hnames := congrArg Text.pathNames hs
  rw [pathNames_blanks_append hbefore, pathNames_append_blanks hafter] at hnames
  exact hnames.symm

theorem ArrowFree.trim {s : List Char} (h : ArrowFree s) : ArrowFree (Text.trim s) := by
  obtain ⟨before, after, hs, -, -⟩ := Text.exists_trim s
  exact h.of_infix ⟨before, after, by rw [List.append_assoc, ← hs]⟩

theorem head?_mapGroups (f : List Char → List Char) (n : Nat) (s : List Char) :
    (mapGroups f n s).head? = s.head? := by
  fun_cases mapGroups f n s <;> simp_all

/-- What a change of arrow-free texts keeps: their names, and that they have no arrow. -/
def KeepsNames (f : List Char → List Char) : Prop :=
  ∀ s, ArrowFree s → Text.pathNames (f s) = Text.pathNames s ∧ ArrowFree (f s)

theorem keepsNames_trim : KeepsNames Text.trim := fun s hs ↦ ⟨pathNames_trim s, hs.trim⟩

/-- A change inside groups does not reach the names around them. -/
theorem KeepsNames.inGroups {f : List Char → List Char} (hf : KeepsNames f) (n : Nat) :
    KeepsNames (mapGroups f n) := by
  have hnames (s : List Char) (hs : ArrowFree s) : (∀ current,
      Text.namesFrom current (mapGroups f n s) = Text.namesFrom current s) ∧
        ArrowFree (mapGroups f n s) := by
    fun_induction mapGroups f n s with
    | case1 s => exact ⟨fun current ↦ rfl, hs⟩
    | case2 n => exact ⟨fun current ↦ rfl, hs⟩
    | case3 n rest inner after hsplit ih =>
      have hrest := Text.eq_of_splitClose hsplit
      have hinner : ArrowFree inner :=
        hs.of_infix ⟨['('], ')' :: after, by rw [hrest]; simp⟩
      have hafter : ArrowFree after :=
        hs.of_infix ⟨'(' :: (inner ++ [')']), [], by rw [hrest]; simp⟩
      obtain ⟨hkeeps, hfree⟩ := hf inner hinner
      obtain ⟨hnames, hfree'⟩ := ih hafter
      have hlater : Text.pathNames (mapGroups f n after) = Text.pathNames after := hnames []
      constructor
      · intro current
        rw [List.cons_append, Text.namesFrom_cons rfl, Text.pathNames_append rfl, hkeeps, hlater,
          hrest, Text.namesFrom_cons rfl current, Text.pathNames_append rfl]
      · rw [List.cons_append]
        exact arrowFree_cons (by decide)
          (hfree.append (arrowFree_cons (by decide) hfree') (by simp))
    | case4 n rest hsplit => exact ⟨fun current ↦ rfl, hs⟩
    | case5 n c rest hc ih =>
      obtain ⟨hhead, hrest⟩ := arrowFree_cons_iff.mp hs
      obtain ⟨hnames, hfree⟩ := ih hrest
      exact ⟨Text.namesFrom_cons_congr c hnames,
        arrowFree_cons_iff.mpr ⟨by rwa [head?_mapGroups], hfree⟩⟩
  intro s hs
  obtain ⟨hfrom, hfree⟩ := hnames s hs
  exact ⟨hfrom [], hfree⟩

/-- Without arrows there is nothing to remove. -/
theorem keepsNames_linearizeUpTo (n : Nat) : KeepsNames (linearizeUpTo n) := by
  induction n with
  | zero => exact keepsNames_trim
  | succ n ih =>
    intro s hs
    obtain ⟨hnames, hfree⟩ := ih.inGroups s.length _ hs.trim
    have hiff := hfree.cutOutside_eq_none "<->".toList (by decide) 0
    have himplies := hfree.cutOutside_eq_none "->".toList (List.infix_refl _) 0
    simp only [linearizeUpTo, hiff, himplies]
    exact ⟨hnames.trans (pathNames_trim s), hfree⟩

/-- A text without arrows has the names that it has without arrows removed. -/
theorem pathNames_linearize {s : List Char} (h : ArrowFree s) :
    Text.pathNames (linearize s) = Text.pathNames s :=
  (keepsNames_linearizeUpTo _ s h).1

/-! ## No arrow in a predicate -/

namespace Grammar

/-- A text that no arrow reaches into: it holds no greater sign and does not end in a minus
sign. -/
structure Pointless (s : List Char) : Prop where
  notGreater : '>' ∉ s
  notMinus : s.getLast? ≠ some '-'

theorem Pointless.of_forall {s : List Char} (h : ∀ c ∈ s, c ≠ '>' ∧ c ≠ '-') : Pointless s where
  notGreater hmem := (h '>' hmem).1 rfl
  notMinus hlast := (h '-' (List.mem_of_getLast? hlast)).2 rfl

/-- Texts that no arrow reaches into are so together. -/
theorem Pointless.append {s t : List Char} (hs : Pointless s) (ht : Pointless t) :
    Pointless (s ++ t) where
  notGreater hmem := (List.mem_append.mp hmem).elim hs.notGreater ht.notGreater
  notMinus := by
    rw [List.getLast?_append]
    cases hlast : t.getLast? with
    | none => exact hs.notMinus
    | some c =>
      have hne := ht.notMinus
      rw [hlast] at hne
      exact hne

theorem Pointless.append_of_ne_nil {s t : List Char} (hs : '>' ∉ s) (ht : Pointless t)
    (hne : t ≠ []) : Pointless (s ++ t) where
  notGreater hmem := (List.mem_append.mp hmem).elim hs ht.notGreater
  notMinus := by
    rw [List.getLast?_append, List.getLast?_eq_some_getLast hne, Option.some_or,
      ← List.getLast?_eq_some_getLast hne]
    exact ht.notMinus

theorem Pointless.of_isPathPart {s : List Char} (h : ∀ c ∈ s, Text.isPathPart c = true) :
    Pointless s :=
  .of_forall fun c hc ↦ ⟨ne_of_isPathPart (h c hc) rfl, ne_of_isPathPart (h c hc) rfl⟩

theorem Gaps.ne {s : List Char} (h : Gaps s) {d : Char} (hd : isGap d = false) :
    ∀ c ∈ s, c ≠ d := by
  rintro c hc rfl
  rw [h c hc] at hd
  cases hd

theorem TokenText.pointless {c : Char} {s : List Char} (h : TokenText [c] s) (hgreater : c ≠ '>')
    (hminus : c ≠ '-') : Pointless s := by
  obtain ⟨gaps, hgaps, rfl⟩ := h
  apply Pointless.of_forall
  intro d hd
  rcases List.mem_append.mp hd with hd | hd
  · exact ⟨hgaps.ne rfl d hd, hgaps.ne rfl d hd⟩
  · rw [List.mem_singleton.mp hd]
    exact ⟨hgreater, hminus⟩

theorem TokenText.greater_notMem {c : Char} {s : List Char} (h : TokenText [c] s)
    (hgreater : c ≠ '>') : '>' ∉ s := by
  obtain ⟨gaps, hgaps, rfl⟩ := h
  intro hmem
  rcases List.mem_append.mp hmem with hmem | hmem
  · exact hgaps.ne rfl _ hmem rfl
  · exact hgreater (List.mem_singleton.mp hmem).symm

theorem OperationText.exists_token {k : Nat} {op : ArithOp} {s s' : List Char}
    (h : OperationText k op s s') : ∃ c, TokenText [c] s ∧ c ∈ ['*', '/', '%', '+', '-'] := by
  cases h with
  | mul h | div h | mod h | add h | sub h _ | gapped h _ => exact ⟨_, h, by decide⟩

/-- No arrow reaches into a term. -/
theorem TermText.pointless {p : Phrase} {s : List Char} (h : TermText p s) : Pointless s := by
  induction h with
  | @gap t c s hc hs ih =>
    have hgap : '>' ∉ [c] := fun hmem ↦ (Gaps.cons hc Gaps.nil).ne rfl _ hmem rfl
    exact Pointless.append_of_ne_nil hgap ih (hs.endsFirm rfl).ne_nil
  | number hs => exact .of_isPathPart hs.parts
  | truth hw =>
    simp only [truthWords, List.mem_cons, Prod.mk.injEq, List.not_mem_nil, or_false] at hw
    rcases hw with ⟨rfl, -⟩ | ⟨rfl, -⟩ | ⟨rfl, -⟩ | ⟨rfl, -⟩ <;>
      exact .of_forall (Text.forall_mem_of_all rfl)
  | var hw => exact .of_isPathPart hw.parts
  | call hw _ ih => exact (Pointless.of_isPathPart hw.parts).append ih
  | paren _ hclose ih =>
    have hopen : Pointless ['('] := .of_forall (Text.forall_mem_of_all rfl)
    exact hopen.append (ih.append (hclose.pointless (by decide) (by decide)))
  | noArguments hopen hclose =>
    exact (hopen.pointless (by decide) (by decide)).append
      (hclose.pointless (by decide) (by decide))
  | arguments hopen _ hclose ih =>
    exact (hopen.pointless (by decide) (by decide)).append
      (ih.append (hclose.pointless (by decide) (by decide)))
  | lastItem _ ih | unsigned _ ih | factor _ ih => exact ih
  | item _ hcomma _ ih ih' =>
    exact ih.append ((hcomma.pointless (by decide) (by decide)).append ih')
  | negative hsign hs ih =>
    exact .append_of_ne_nil (hsign.greater_notMem (by decide)) ih (hs.endsFirm rfl).ne_nil
  | chain _ _ ih ih' => exact ih.append ih'
  | stop => exact .of_forall fun c hc ↦ by cases hc
  | @link k op l r t s s' s'' hop hs _ ih ih' =>
    obtain ⟨c, htoken, hc⟩ := hop.exists_token
    have hgreater : c ≠ '>' := by
      rintro rfl
      exact absurd hc (by decide)
    rw [← List.append_assoc]
    exact (Pointless.append_of_ne_nil (htoken.greater_notMem hgreater) ih
      (hs.endsFirm rfl).ne_nil).append ih'

theorem Pointless.arrowFree {s : List Char} (h : Pointless s) : ArrowFree s :=
  fun harrow ↦ h.notGreater (harrow.subset (List.mem_cons_of_mem _ List.mem_cons_self))

/-- No arrow arises after a text that does not end in a minus sign. -/
theorem Pointless.arrowFree_append {s t : List Char} (hs : Pointless s) (ht : ArrowFree t) :
    ArrowFree (s ++ t) := by
  induction s with
  | nil => exact ht
  | cons c s ih =>
    cases s with
    | nil =>
      refine arrowFree_cons ?_ ht
      rintro rfl
      exact hs.notMinus rfl
    | cons d s =>
      have hrest : Pointless (d :: s) :=
        ⟨fun hmem ↦ hs.notGreater (List.mem_cons_of_mem c hmem), fun hlast ↦ hs.notMinus hlast⟩
      refine arrowFree_cons_iff.mpr ⟨fun heq ↦ ?_, ih hrest⟩
      exact hs.notGreater (List.mem_cons_of_mem c
        (List.mem_cons.mpr (Or.inl (Option.some.inj heq.2).symm)))

theorem forall_mem_spelling {sign : String} {op : RelOp} (h : (sign, op) ∈ RelOp.spellings) :
    ∀ c ∈ sign.toList, Text.isNameStart c = false ∧ c ≠ '-' := by
  simp only [RelOp.spellings, List.mem_cons, Prod.mk.injEq, List.not_mem_nil, or_false] at h
  rcases h with ⟨rfl, -⟩ | ⟨rfl, -⟩ | ⟨rfl, -⟩ | ⟨rfl, -⟩ | ⟨rfl, -⟩ | ⟨rfl, -⟩ | ⟨rfl, -⟩ |
    ⟨rfl, -⟩ | ⟨rfl, -⟩ <;> exact Text.forall_mem_of_all rfl

/-- There is no arrow in a predicate: a comparison has no minus sign, and stands after none. -/
theorem PredicateText.arrowFree {p : Predicate} {s : List Char} (h : PredicateText p s) :
    ArrowFree s := by
  cases h with
  | holds hs => exact hs.pointless.arrowFree
  | @compare l r op s s' s'' hl hop hr =>
    obtain ⟨sign, hmem, gaps, hgaps, rfl⟩ := hop
    refine hl.pointless.arrowFree_append (arrowFree_append ?_ hr.pointless.arrowFree)
    intro c hc
    rcases List.mem_append.mp hc with hc | hc
    · exact hgaps.ne rfl c hc
    · exact (forall_mem_spelling hmem c hc).2

end Grammar

end TemporalRequirements
