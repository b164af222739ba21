import TemporalRequirements.Proofs.Monitor.Naming

/-!
# Monitors of different properties

The line of a statement that changes a variable shows the variable, and so its property.  A line
that stands in the monitors of two properties is therefore a check, and what it reads belongs to
neither of them.  So monitors of different properties can be run together.
-/

namespace TemporalRequirements

open Text

namespace Monitor

/-- The line of a statement begins with its variable, perhaps as the condition of an `if`. -/
theorem exists_text_of_target? {s : Statement} {x : String} (h : s.target? = some x) :
    (∃ rest, s.text.toList = x.toList ++ ' ' :: rest) ∨
      ∃ rest, s.text.toList = "if (".toList ++ (x.toList ++ ' ' :: rest) := by
  cases s with
  | observe flag trigger | latch flag current =>
    obtain rfl := Option.some.inj h
    exact Or.inl ⟨_, by simp only [Statement.text, String.toList_append, List.append_assoc]; rfl⟩
  | start counter trigger =>
    obtain rfl := Option.some.inj h
    obtain ⟨rest, hrest⟩ := text_start counter trigger
    exact Or.inr ⟨_, by rw [hrest]; simp only [String.toList_append, List.append_assoc]; rfl⟩
  | check trigger conclusion => cases h
  | _ =>
    obtain rfl := Option.some.inj h
    exact Or.inr ⟨_, by
      simp only [Statement.text, ifLine, String.toList_append, List.append_assoc]; rfl⟩

/-- Statements with the same line have the same variable. -/
theorem target_eq_of_text_eq {s t : Statement} {x y : String} (hs : s.target? = some x)
    (ht : t.target? = some y) (hx : IsIdentifier x ∧ capital x = true)
    (hy : IsIdentifier y ∧ capital y = true) (h : s.text = t.text) : x = y := by
  have hblank {x : String} (hx : IsIdentifier x) : ' ' ∉ x.toList := fun hmem ↦ by
    cases hx.isNamePart hmem
  have hsplit {rest rest' : List Char} (h : x.toList ++ ' ' :: rest = y.toList ++ ' ' :: rest') :
      x = y :=
    String.toList_inj.mp (append_cons_injective (hblank hx.1) (hblank hy.1) h).1
  have hif {x : String} (hx : IsIdentifier x ∧ capital x = true) {rest rest' : List Char}
      (h : x.toList ++ ' ' :: rest = "if (".toList ++ rest') : False := by
    obtain ⟨⟨c, tail, htail, -⟩, hcapital⟩ := hx
    have hopen : "if (".toList = ['i', 'f', ' ', '('] := rfl
    rw [htail, hopen] at h
    obtain ⟨rfl, -⟩ := List.cons.inj h
    rw [capital, htail, List.head?_cons, Option.any_some] at hcapital
    exact absurd hcapital (by decide)
  have hlist := congrArg String.toList h
  rcases exists_text_of_target? hs with ⟨rest, hrest⟩ | ⟨rest, hrest⟩ <;>
    rcases exists_text_of_target? ht with ⟨rest', hrest'⟩ | ⟨rest', hrest'⟩ <;>
    rw [hrest, hrest'] at hlist
  · exact hsplit hlist
  · exact (hif hx hlist).elim
  · exact (hif hy hlist.symm).elim
  · exact hsplit (List.append_cancel_left hlist)

/-- What is before the first brace of an `if` line is its condition. -/
theorem ifLine_injective {condition condition' body body' : String} (h : Plain condition)
    (h' : Plain condition') (heq : ifLine condition body = ifLine condition' body') :
    condition = condition' ∧ body = body' := by
  have hlist : "if (".toList ++ condition.toList ++ ") ".toList ++
        '\x7b' :: (" ".toList ++ body.toList ++ " \x7d".toList) =
      "if (".toList ++ condition'.toList ++ ") ".toList ++
        '\x7b' :: (" ".toList ++ body'.toList ++ " \x7d".toList) := by
    simpa [ifLine] using congrArg String.toList heq
  have hopen {condition : String} (h : Plain condition) :
      '\x7b' ∉ "if (".toList ++ condition.toList ++ ") ".toList := by
    intro hmem
    rcases List.mem_append.mp hmem with hmem | hmem
    · rcases List.mem_append.mp hmem with hmem | hmem
      · exact absurd hmem (by decide)
      · exact (h _ hmem).1 rfl
    · exact absurd hmem (by decide)
  obtain ⟨hfirst, hsecond⟩ := append_cons_injective (hopen h) (hopen h') hlist
  exact ⟨String.toList_inj.mp (List.append_cancel_left (List.append_cancel_right hfirst)),
    String.toList_inj.mp (List.append_cancel_left (List.append_cancel_right hsecond))⟩

theorem assertText_injective {condition condition' : String}
    (h : assertText condition = assertText condition') : condition = condition' :=
  String.toList_inj.mp (by simpa [assertText] using congrArg String.toList h)

theorem ifLine_ne_assertText (condition body condition' : String) :
    ifLine condition body ≠ assertText condition' := by
  intro h
  simpa [ifLine, assertText] using congrArg (fun s ↦ s.toList.head?) h

/-- Checks without a variable that have the same line read the same expressions. -/
theorem expressions_eq_of_text_eq {s t : Statement} (hs : s.target? = none) (ht : t.target? = none)
    (hplain : ∀ e ∈ s.expressions, Plain e) (hplain' : ∀ e ∈ t.expressions, Plain e)
    (h : s.text = t.text) : s.expressions = t.expressions := by
  cases s with
  | check trigger conclusion =>
    cases t with
    | check trigger' conclusion' =>
      rw [Statement.expressions] at hplain hplain' ⊢
      rw [Statement.expressions]
      rw [Statement.text, Statement.text] at h
      cases htext : trigger.text? <;> cases htext' : trigger'.text? <;> rw [htext, htext'] at h
      · rw [assertText_injective h]
      · exact absurd h.symm (ifLine_ne_assertText _ _ _)
      · exact absurd h (ifLine_ne_assertText _ _ _)
      · rw [htext] at hplain
        rw [htext'] at hplain'
        obtain ⟨htrigger, hconclusion⟩ := ifLine_injective (hplain _ List.mem_cons_self)
          (hplain' _ List.mem_cons_self) h
        rw [htrigger, assertText_injective hconclusion]
    | _ => cases ht
  | _ => cases hs

/-! ## Semicolons -/

theorem count_semicolon_eq_zero {text : String} (h : Plain text) : text.toList.count ';' = 0 :=
  List.count_eq_zero.mpr fun hmem ↦ (h ';' hmem).2 rfl

/-- A check without a variable has one semicolon. -/
theorem count_semicolon_check {s : Statement} (hs : s.target? = none)
    (hplain : ∀ e ∈ s.expressions, Plain e) : s.text.toList.count ';' = 1 := by
  cases s with
  | check trigger conclusion =>
    rw [Statement.expressions] at hplain
    have hconclusion : Plain conclusion.text :=
      hplain _ (List.mem_append_right _ List.mem_cons_self)
    rw [Statement.text]
    cases htext : trigger.text? with
    | none => simp [assertText, count_semicolon_eq_zero hconclusion]
    | some e =>
      rw [htext] at hplain
      simp [ifLine, assertText, count_semicolon_eq_zero hconclusion,
        count_semicolon_eq_zero (hplain e List.mem_cons_self)]
  | _ => cases hs

/-! ## Monitors of different properties -/

def HasName (step : String) (V : String → Prop) (m : Monitor) (name : String) : Prop :=
  (∀ c ∈ name.toList, isNamePart c = true) ∧ m.IsNamed name step V

variable {step : String} {V : String → Prop} {ms : List Monitor}

theorem IsNamed.plain {m : Monitor} {name : String} (h : m.IsNamed name step V) {s : Statement}
    (hs : s ∈ m.updates ++ m.checks) : ∀ e ∈ s.expressions, Plain e := fun e he ↦
  ((h.statements s hs).expressions e he).plain

theorem HasName.shape {m : Monitor} {name x : String} (h : HasName step V m name)
    (hx : x ∈ m.names) : IsIdentifier x ∧ capital x = true :=
  (h.2.generated x hx).shape h.1

/-- Monitors of different properties have no variable in common. -/
theorem disjoint_names {a b : Monitor} {name name' : String} (ha : HasName step V a name)
    (hb : HasName step V b name') (hne : name ≠ name') {x : String} (hx : x ∈ a.names) :
    x ∉ b.names := fun hx' ↦
  hne ((ha.2.generated x hx).name_eq (hb.2.generated x hx'))

section

variable {W : String → Prop} {a b : Monitor} {name name' : String} {s t : Statement}

/-- Statements of different properties that change variables have different lines. -/
theorem text_ne_of_targets (ha : HasName step V a name) (hb : HasName step V b name')
    (hne : name ≠ name') (hs : s ∈ a.updates ++ a.checks) (ht : t ∈ b.updates ++ b.checks)
    (hs' : s.target? ≠ none) (ht' : t.target? ≠ none) : s.text ≠ t.text := by
  obtain ⟨x, hx⟩ := Option.ne_none_iff_exists'.mp hs'
  obtain ⟨y, hy⟩ := Option.ne_none_iff_exists'.mp ht'
  have hxa := (ha.2.statements s hs).target x hx
  have hyb := (hb.2.statements t ht).target y hy
  intro htext
  obtain rfl := target_eq_of_text_eq hx hy (ha.shape hxa) (hb.shape hyb) htext
  exact disjoint_names ha hb hne hxa hyb

/-- A check that changes a variable has a line of its own. -/
theorem text_ne_of_target (ha : HasName step V a name) (hs : s ∈ a.checks) (hs' : s.target? ≠ none)
    (ht : t.target? = none) (hplain : ∀ e ∈ t.expressions, Plain e) : s.text ≠ t.text := by
  have hone := count_semicolon_check ht hplain
  rcases ha.2.markedChecks s hs hs' with hcapital | htwo
  · cases t with
    | check trigger conclusion => exact text_ne_of_capital hcapital (capital_check _ _)
    | _ => cases ht
  · intro htext
    rw [htext] at htwo
    omega

/-- A check that stands in monitors without a common variable reads none of theirs. -/
theorem repeats_of_text_eq (hs : s.target? = none) (ht : t.target? = none)
    (hs' : s.IsNamed a.names step V) (ht' : t.IsNamed b.names step V) (hstep : W step)
    (hfree : ∀ x, ¬ W x → IsIdentifier x ∧ ¬ V x ∧ (x ∈ a.names → x ∉ b.names))
    (h : s.text = t.text) : Environment.Repeats W s t := by
  have hexpressions := expressions_eq_of_text_eq hs ht
    (fun e he ↦ (hs'.expressions e he).plain) (fun e he ↦ (ht'.expressions e he).plain) h
  have hover {x : String} (hx : Among a.names V x) (hx' : Among b.names V x) : W x := by
    by_contra hW
    obtain ⟨-, hV, hdisjoint⟩ := hfree x hW
    exact hdisjoint (hx.resolve_right hV) (hx'.resolve_right hV)
  refine ⟨hs, ht, hexpressions, fun x hx ↦ ?_, fun e he ↦ ?_⟩
  · rw [hs] at hx
    cases hx
  · have hfirst := hs'.expressions e he
    have hsecond := ht'.expressions e (hexpressions ▸ he)
    refine ⟨?_, fun x hx ↦ ?_⟩
    · by_contra hW
      have hname := (hfree e hW).1
      exact hW (hover (hfirst.name hname) (hsecond.name hname))
    · rcases hfirst.identifiers x hx with rfl | hfirst
      · exact hstep
      · rcases hsecond.identifiers x hx with rfl | hsecond
        · exact hstep
        · exact hover hfirst hsecond

/-- Lines that are spelled differently do not repeat each other. -/
theorem pairwise_repeats_of_nodup {ss : List Statement} (h : (ss.map Statement.text).Nodup) :
    ss.Pairwise fun s t ↦ s.text = t.text → Environment.Repeats W s t :=
  (List.pairwise_map.mp h).imp fun hne htext ↦ absurd htext hne

/-- Checks of one monitor are repeated only if the monitor has no variable. -/
theorem HasName.pairwise_repeats (ha : HasName step V a name) (hstep : W step)
    (hfree : ∀ x, ¬ W x → IsIdentifier x ∧ ¬ V x) :
    a.checks.Pairwise fun s t ↦ s.text = t.text → Environment.Repeats W s t := by
  rcases ha.2.distinctChecks with hnodup | ⟨hnone, hchecks⟩
  · exact pairwise_repeats_of_nodup hnodup
  · refine List.pairwise_of_forall_mem_list fun s hs t ht ↦ ?_
    refine repeats_of_text_eq (hchecks s hs) (hchecks t ht)
      (ha.2.statements s (List.mem_append_right _ hs))
      (ha.2.statements t (List.mem_append_right _ ht)) hstep fun x hx ↦ ?_
    exact ⟨(hfree x hx).1, (hfree x hx).2, fun hown ↦ by
      rw [hnone] at hown
      cases hown⟩

/-- A check of one monitor that is spelled like a check of another repeats it. -/
theorem repeats_of_name_ne (ha : HasName step V a name) (hb : HasName step V b name')
    (hne : name ≠ name') (hs : s ∈ a.checks) (ht : t ∈ b.checks) (hstep : W step)
    (hfree : ∀ x, ¬ W x → IsIdentifier x ∧ ¬ V x) (h : s.text = t.text) :
    Environment.Repeats W s t := by
  have hs' := List.mem_append_right a.updates hs
  have ht' := List.mem_append_right b.updates ht
  by_cases htarget : s.target? = none
  · by_cases htarget' : t.target? = none
    · exact repeats_of_text_eq htarget htarget' (ha.2.statements s hs') (hb.2.statements t ht')
        hstep (fun x hx ↦ ⟨(hfree x hx).1, (hfree x hx).2, disjoint_names ha hb hne⟩) h
    · exact absurd h.symm (text_ne_of_target hb ht htarget' htarget (ha.2.plain hs'))
  · by_cases htarget' : t.target? = none
    · exact absurd h (text_ne_of_target ha hs htarget htarget' (hb.2.plain ht'))
    · exact absurd h (text_ne_of_targets ha hb hne hs' ht' htarget htarget')

end

/-- Monitors of different properties can be run together, if the step counter and what else they
name is no variable of theirs. -/
theorem parallel_of_hasName (hnamed : ∀ m ∈ ms, ∃ name, HasName step V m name)
    (hpairs : ms.Pairwise fun a b ↦ ∃ name name', name ≠ name' ∧ HasName step V a name ∧
      HasName step V b name')
    (hfree : ∀ x ∈ (concat ms).names, ¬ V x) (hstep : step ∉ (concat ms).names) :
    Parallel ms := by
  have hidentifier {x : String} (hx : x ∈ (concat ms).names) : IsIdentifier x := by
    obtain ⟨m, hm, hx⟩ := mem_names_concat.mp hx
    obtain ⟨name, hname⟩ := hnamed m hm
    exact (hname.shape hx).1
  have hsees {m : Monitor} {x : String} (hx : Among m.names V x) : Sees ms m x :=
    hx.imp_right fun hV hmem ↦ hfree x hmem hV
  have hapart (x : String) (hx : ¬ x ∉ (concat ms).names) : IsIdentifier x ∧ ¬ V x :=
    ⟨hidentifier (not_not.mp hx), hfree x (not_not.mp hx)⟩
  refine ⟨?_, ?_, ?_, ?_, ?_⟩
  · rw [names_concat, List.nodup_flatMap]
    refine ⟨fun m hm ↦ ?_, hpairs.imp ?_⟩
    · obtain ⟨name, hname⟩ := hnamed m hm
      exact hname.2.nodup
    · rintro a b ⟨name, name', hne, ha, hb⟩ x hx hx'
      exact disjoint_names ha hb hne hx hx'
  · intro m hm s hs
    obtain ⟨name, hname⟩ := hnamed m hm
    exact (hname.2.statements s hs).target
  · intro m hm s hs
    obtain ⟨name, hname⟩ := hnamed m hm
    obtain ⟨htarget, hexpressions⟩ := hname.2.statements s hs
    refine ⟨fun x hx ↦ Or.inl (htarget x hx), fun e he ↦ ⟨?_, fun x hx ↦ ?_⟩⟩
    · by_cases hmem : e ∈ (concat ms).names
      · exact hsees ((hexpressions e he).name (hidentifier hmem))
      · exact Or.inr hmem
    · rcases (hexpressions e he).identifiers x hx with rfl | hx
      · exact Or.inr hstep
      · exact hsees hx
  · refine List.pairwise_flatMap.mpr ⟨fun m hm ↦ ?_, hpairs.imp ?_⟩
    · obtain ⟨name, hname⟩ := hnamed m hm
      exact pairwise_repeats_of_nodup hname.2.distinctUpdates
    · rintro a b ⟨name, name', hne, ha, hb⟩ s hs t ht htext
      exact absurd htext (text_ne_of_targets ha hb hne (List.mem_append_left _ hs)
        (List.mem_append_left _ ht) (ha.2.updates s hs) (hb.2.updates t ht))
  · refine List.pairwise_flatMap.mpr ⟨fun m hm ↦ ?_, hpairs.imp ?_⟩
    · obtain ⟨name, hname⟩ := hnamed m hm
      exact hname.pairwise_repeats hstep hapart
    · rintro a b ⟨name, name', hne, ha, hb⟩ s hs t ht htext
      exact repeats_of_name_ne ha hb hne hs ht hstep hapart htext

end Monitor

end TemporalRequirements
