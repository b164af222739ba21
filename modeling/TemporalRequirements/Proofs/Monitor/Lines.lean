import TemporalRequirements.Proofs.Duplicates
import TemporalRequirements.Proofs.Monitor.Observation

/-!
# Lines of a monitor

A bundle keeps a line once.  For the monitor of a conclusion this leaves nothing out, because no two
of its statements have the same text: what observes a premise begins with the name of a flag, which
is capital, and all else with a keyword of C.
-/

namespace TemporalRequirements.Monitor

def capital (line : String) : Bool := line.toList.head?.any Char.isUpper

theorem capital_ifLine (condition body : String) : capital (ifLine condition body) = false := by
  simp [capital, ifLine]

theorem capital_check (trigger : Trigger) (conclusion : Condition) :
    capital (Statement.check trigger conclusion).text = false := by
  rw [Statement.text]
  split
  · exact capital_ifLine _ _
  · simp [capital, assertText]

theorem capital_counterCheck (counter : String) (delay : UInt32) (window : Window)
    (conclusion : Condition) :
    capital (counterCheck counter delay window conclusion).text = false := by
  cases window <;> exact capital_ifLine _ _

/-- A counter is advanced, perhaps put to rest, and started. -/
theorem counterUpdates_cases (counter : String) (delay : UInt32) (trigger : Trigger) :
    counterUpdates counter delay trigger = [.advance counter, .start counter trigger] ∨
      ∃ premise, counterUpdates counter delay trigger =
        [.advance counter, .cancel counter delay premise, .start counter trigger] := by
  unfold counterUpdates
  split
  · rename_i premise _
    by_cases hdelay : delay > 0
    · exact Or.inr ⟨premise, by rw [if_pos hdelay]; rfl⟩
    · exact Or.inl (by rw [if_neg hdelay]; rfl)
  · exact Or.inl rfl

theorem capital_counterUpdates {counter : String} {delay : UInt32} {trigger : Trigger}
    {s : Statement} (h : s ∈ counterUpdates counter delay trigger) : capital s.text = false := by
  rcases counterUpdates_cases counter delay trigger with hupdates | ⟨premise, hupdates⟩ <;>
    rw [hupdates] at h <;> simp only [List.mem_cons, List.not_mem_nil, or_false] at h
  · rcases h with rfl | rfl <;> exact capital_ifLine _ _
  · rcases h with rfl | rfl | rfl <;> exact capital_ifLine _ _

theorem text_advance_ne_cancel (counter : String) (delay : UInt32) (premise : Condition) :
    (Statement.advance counter).text ≠ (Statement.cancel counter delay premise).text := by
  intro h
  have hlist := congrArg String.toList h
  simp [Statement.text, ifLine] at hlist

/-- The line that starts a counter, up to the first comparison. -/
theorem text_start (counter : String) (trigger : Trigger) :
    ∃ rest, (Statement.start counter trigger).text = "if (" ++ counter ++ " < 0" ++ rest := by
  have hparts : ∃ more, trigger.parts [counter ++ " < 0"] = (counter ++ " < 0") :: more := by
    unfold Trigger.parts
    split
    · exact ⟨_, rfl⟩
    · exact ⟨_, rfl⟩
  obtain ⟨more, hmore⟩ := hparts
  have hjoined : ∃ rest, " && ".intercalate (trigger.parts [counter ++ " < 0"]) =
      counter ++ " < 0" ++ rest := by
    rw [hmore]
    cases more with
    | nil => exact ⟨"", by simp⟩
    | cons part more => exact ⟨_, by rw [String.intercalate_cons_cons, String.append_assoc]⟩
  obtain ⟨rest, hrest⟩ := hjoined
  exact ⟨_, by simp only [Statement.text, ifLine, hrest, String.append_assoc]; rfl⟩

theorem text_advance_ne_start (counter : String) (trigger : Trigger) :
    (Statement.advance counter).text ≠ (Statement.start counter trigger).text := by
  intro h
  obtain ⟨rest, hrest⟩ := text_start counter trigger
  have hlist := congrArg String.toList (h.trans hrest)
  simp [Statement.text, ifLine] at hlist

theorem text_cancel_ne_start (counter : String) (delay : UInt32) (premise : Condition)
    (trigger : Trigger) :
    (Statement.cancel counter delay premise).text ≠ (Statement.start counter trigger).text := by
  intro h
  obtain ⟨rest, hrest⟩ := text_start counter trigger
  have hlist := congrArg String.toList (h.trans hrest)
  simp [Statement.text, ifLine] at hlist

theorem nodup_counterUpdates (counter : String) (delay : UInt32) (trigger : Trigger) :
    ((counterUpdates counter delay trigger).map Statement.text).Nodup := by
  have hstart := text_advance_ne_start counter trigger
  rcases counterUpdates_cases counter delay trigger with hupdates | ⟨premise, hupdates⟩ <;>
    rw [hupdates]
  · simp [hstart]
  · simp [hstart, text_advance_ne_cancel, text_cancel_ne_start]

/-! ## Latches -/

/-- Latches of different expressions have different lines. -/
theorem text_latch_injective {name : String} {latched : List String} {e e' : String}
    (he : e ∈ latched)
    (h : (Statement.latch (latchName name latched e) e).text =
      (Statement.latch (latchName name latched e') e').text) : e = e' := by
  have hlist := congrArg String.toList h
  simp only [Statement.text, latchName, String.toList_append, List.append_assoc,
    List.append_cancel_left_eq, Nat.toString_eq_ofList_toDigits, String.toList_ofList] at hlist
  have hdigits := congrArg (List.takeWhile Char.isDigit) hlist
  have hblank : " = ".toList = [' ', '=', ' '] := rfl
  simp only [hblank, List.cons_append, Text.takeWhile_isDigit_toDigits] at hdigits
  have hname : latchName name latched e = latchName name latched e' := by
    simp only [latchName, Nat.toString_eq_ofList_toDigits, hdigits]
  exact latchName_injective he hname

theorem nodup_latches (i : Interface) (name : String) (p : Formula) :
    (((latched i p).map fun e ↦ Statement.latch (latchName name (latched i p) e) e).map
      Statement.text).Nodup := by
  rw [List.map_map]
  apply List.Nodup.map_on
  · intro e he e' _ h
    exact text_latch_injective he h
  · exact nodup_eraseDups _

theorem capital_latch (name : String) (latched : List String) (e : String) :
    capital (Statement.latch (latchName name latched e) e).text = true := by
  simp [capital, Statement.text, latchName]

/-! ## Whole monitors -/

/-- The lines that observe a premise are told apart by their texts, and from all other lines. -/
structure Premise.Spelled (p : Premise) : Prop where
  updates : (p.updates.map Statement.text).Nodup
  latches : (p.latches.map Statement.text).Nodup
  capitals : ∀ s ∈ p.updates ++ p.latches, capital s.text = true

/-- The trigger of a premise reads the flag that the premise sets. -/
theorem spelled_premiseOf {i : Interface} {name step : String} {scope : Scope} {c : Formula}
    {delay : UInt32} {p : Option Formula} {premise : Premise}
    (h : premiseOf i name step scope c delay p = .ok premise) : premise.Spelled := by
  rcases premiseOf_cases h with ⟨rfl, rfl⟩ | ⟨q, condition, rfl, hcondition, rfl⟩ |
    ⟨q, rfl, hdelay, hlooking⟩
  · exact ⟨List.nodup_nil, List.nodup_nil, fun s hs ↦ by cases hs⟩
  · exact ⟨List.nodup_nil, List.nodup_nil, fun s hs ↦ by cases hs⟩
  · obtain ⟨condition, -, rfl⟩ := lookingPremise_eq_ok hlooking
    refine ⟨List.nodup_singleton _, nodup_latches i name q, ?_⟩
    intro s hs
    rcases List.mem_append.mp hs with hs | hs
    · obtain rfl := List.mem_singleton.mp hs
      simp [capital, Statement.text, transitionFlag]
    · obtain ⟨e, -, rfl⟩ := List.mem_map.mp hs
      exact capital_latch name (latched i q) e

theorem text_ne_of_capital {s t : Statement} (hs : capital s.text = true)
    (ht : capital t.text = false) : s.text ≠ t.text := by
  intro h
  rw [h, ht] at hs
  cases hs

/-- The bundle keeps every line of the monitor of a conclusion. -/
theorem distinct_ofConclusion (name : String) {premise : Premise} (timed : Timed)
    (conclusion : Condition) (h : premise.Spelled) :
    (ofConclusion name premise timed conclusion).distinct =
      ofConclusion name premise timed conclusion := by
  have hchecks (s : Statement) (hs : capital s.text = false) :
      distinctLines (s :: premise.latches) = s :: premise.latches := by
    apply distinctLines_eq_self
    rw [List.map_cons, List.nodup_cons]
    refine ⟨?_, h.latches⟩
    intro hmem
    obtain ⟨t, ht, heq⟩ := List.mem_map.mp hmem
    exact text_ne_of_capital (h.capitals t (List.mem_append_right _ ht)) hs heq
  have hupdates (counter : String) (delay : UInt32) :
      distinctLines (premise.updates ++ counterUpdates counter delay premise.trigger) =
        premise.updates ++ counterUpdates counter delay premise.trigger := by
    apply distinctLines_eq_self
    rw [List.map_append, List.nodup_append]
    refine ⟨h.updates, nodup_counterUpdates counter delay premise.trigger, ?_⟩
    intro text htext text' htext'
    obtain ⟨s, hs, rfl⟩ := List.mem_map.mp htext
    obtain ⟨t, ht, rfl⟩ := List.mem_map.mp htext'
    exact text_ne_of_capital (h.capitals s (List.mem_append_left _ hs))
      (capital_counterUpdates ht)
  unfold ofConclusion
  dsimp only
  split
  · rw [distinct, hchecks _ (capital_check _ _), distinctLines_eq_self h.updates]
  · rw [distinct, hchecks _ (capital_counterCheck _ _ _ _), hupdates]

/-- The bundle keeps no line that the monitor does not have. -/
theorem distinctLines_subset (ss : List Statement) : distinctLines ss ⊆ ss := by
  cases ss with
  | nil => exact List.Subset.refl _
  | cons t ss =>
    have hrest := distinctLines_subset (ss.filter fun s ↦ (s.text == t.text) = false)
    unfold distinctLines at hrest ⊢
    rw [List.eraseDupsBy_cons]
    exact List.cons_subset_cons t (List.Subset.trans hrest (List.filter_subset_self _))
termination_by ss.length
decreasing_by exact Nat.lt_succ_of_le (List.length_filter_le _ _)

end TemporalRequirements.Monitor
