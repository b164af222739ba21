import Mathlib.Data.Finset.Dedup
import Mathlib.Data.List.Perm.Basic
import Mathlib.Logic.Relation
import TemporalRequirements.Store.Grouping

/-!
# Verification groups are connected components

Formal properties are linked by chains in which neighbours share a dependency token.  A pass takes
only properties into a group that are linked to it, and the pass that takes none leaves none that
shares a token with it.  So a finished group is all that is linked to its first property, and what
remains is linked to nothing in the group.
-/

namespace TemporalRequirements.Store

variable {s : Store} {group remaining chunks : List ChunkRef}

def chunk? (s : Store) (ref : ChunkRef) : Option Chunk :=
  (s.get? ref.requirement).bind fun e ↦ e.decomposition.chunks[ref.index]?

/-- Whether a property depends on a token. -/
def HasToken (s : Store) (c : ChunkRef) (t : String) : Prop := ∃ ts ∈ s.chunkTokens? c, t ∈ ts

/-- Formal properties that share a dependency token. -/
structure Adjacent (s : Store) (a b : ChunkRef) : Prop where
  left : a ∈ s.formalChunks
  right : b ∈ s.formalChunks
  shares : ∃ t, s.HasToken a t ∧ s.HasToken b t

/-- Properties that a chain of formal properties connects. -/
def Linked (s : Store) : ChunkRef → ChunkRef → Prop := Relation.ReflTransGen s.Adjacent

theorem Adjacent.symm {a b : ChunkRef} (h : s.Adjacent a b) : s.Adjacent b a :=
  ⟨h.right, h.left, h.shares.imp fun _ ↦ And.symm⟩

theorem Linked.symm {a b : ChunkRef} (h : s.Linked a b) : s.Linked b a := by
  induction h with
  | refl => exact Relation.ReflTransGen.refl
  | tail _ hadjacent ih => exact ih.head hadjacent.symm

/-- A property depends on a group if it shares a token with a member. -/
theorem isDependentOn_iff {c : ChunkRef} :
    s.isDependentOn c group = true ↔ ∃ m ∈ group, ∃ t, s.HasToken m t ∧ s.HasToken c t := by
  unfold isDependentOn
  cases hc : s.chunkTokens? c with
  | none => simp [HasToken, hc]
  | some tokens =>
    simp only [List.any_eq_true, HasToken, hc, Option.mem_some, exists_eq_left']
    apply exists_congr
    intro m
    cases hm : s.chunkTokens? m with
    | none => simp
    | some others => simp [and_comm]

/-- What a pass does with one property: the group takes it or it is left. -/
def sortInto (s : Store) (sorted : List ChunkRef × List ChunkRef) (c : ChunkRef) :
    List ChunkRef × List ChunkRef :=
  if s.isDependentOn c sorted.1 then (sorted.1 ++ [c], sorted.2) else (sorted.1, sorted.2 ++ [c])

theorem growOnce_eq_foldl : s.growOnce group remaining = remaining.foldl s.sortInto (group, []) :=
  rfl

theorem foldl_sortInto (rest : List ChunkRef) :
    remaining.foldl s.sortInto (group, rest) =
      ((s.growOnce group remaining).1, rest ++ (s.growOnce group remaining).2) := by
  induction remaining generalizing group rest with
  | nil => simp [growOnce_eq_foldl]
  | cons c remaining ih =>
    rw [growOnce_eq_foldl, List.foldl_cons, List.foldl_cons, sortInto, sortInto]
    split <;> rw [ih, ih] <;> simp

/-- A pass goes through the remaining properties from the left. -/
theorem growOnce_cons (c : ChunkRef) :
    s.growOnce group (c :: remaining) =
      if s.isDependentOn c group then s.growOnce (group ++ [c]) remaining
      else ((s.growOnce group remaining).1, c :: (s.growOnce group remaining).2) := by
  rw [growOnce_eq_foldl, List.foldl_cons, sortInto]
  split <;> rw [foldl_sortInto] <;> simp

/-- What passes keep of a group and the properties that remain: every property stays in one of the
two, the group is not left, what remains stays in order, and the group takes only what is linked
to it. -/
structure Grown (s : Store) (group remaining : List ChunkRef)
    (next : List ChunkRef × List ChunkRef) : Prop where
  perm : (next.1 ++ next.2).Perm (group ++ remaining)
  kept : group ⊆ next.1
  order : next.2.Sublist remaining
  linked : group ++ remaining ⊆ s.formalChunks → ∀ c ∈ next.1, ∃ m ∈ group, s.Linked m c

theorem Grown.refl : s.Grown group remaining (group, remaining) :=
  ⟨List.Perm.refl _, List.Subset.refl _, List.Sublist.refl _,
    fun _ c hc ↦ ⟨c, hc, Relation.ReflTransGen.refl⟩⟩

/-- Growing in two rounds is growing. -/
theorem Grown.trans {next last : List ChunkRef × List ChunkRef}
    (h : s.Grown group remaining next) (h' : s.Grown next.1 next.2 last) :
    s.Grown group remaining last where
  perm := h'.perm.trans h.perm
  kept := List.Subset.trans h.kept h'.kept
  order := h'.order.trans h.order
  linked hformal c hc := by
    obtain ⟨m', hm', hlinked'⟩ := h'.linked (List.Subset.trans h.perm.subset hformal) c hc
    obtain ⟨m, hm, hlinked⟩ := h.linked hformal m' hm'
    exact ⟨m, hm, hlinked.trans hlinked'⟩

/-- Taking in one property that shares a token with the group. -/
theorem Grown.take {c : ChunkRef} (h : s.isDependentOn c group = true) :
    s.Grown group (c :: remaining) (group ++ [c], remaining) where
  perm := by rw [List.append_assoc, List.singleton_append]
  kept := List.subset_append_left _ _
  order := List.sublist_cons_self _ _
  linked hformal d hd := by
    rcases List.mem_append.mp hd with hd | hd
    · exact ⟨d, hd, Relation.ReflTransGen.refl⟩
    · obtain rfl := List.mem_singleton.mp hd
      obtain ⟨m, hm, hshares⟩ := isDependentOn_iff.mp h
      have hleft : m ∈ s.formalChunks := hformal (List.mem_append_left _ hm)
      have hright : d ∈ s.formalChunks :=
        hformal (List.mem_append_right _ List.mem_cons_self)
      exact ⟨m, hm, Relation.ReflTransGen.single ⟨hleft, hright, hshares⟩⟩

/-- Leaving out a property that comes first. -/
theorem Grown.leave {next : List ChunkRef × List ChunkRef} (h : s.Grown group remaining next)
    (c : ChunkRef) : s.Grown group (c :: remaining) (next.1, c :: next.2) where
  perm := List.perm_middle.trans ((h.perm.cons c).trans List.perm_middle.symm)
  kept := h.kept
  order := h.order.cons_cons c
  linked hformal := h.linked fun d hd ↦ by
    rcases List.mem_append.mp hd with hd | hd
    · exact hformal (List.mem_append_left _ hd)
    · exact hformal (List.mem_append_right _ (List.mem_cons_of_mem c hd))

/-- One round moves linked properties into the group. -/
theorem growOnce_grown (group remaining : List ChunkRef) :
    s.Grown group remaining (s.growOnce group remaining) := by
  induction remaining generalizing group with
  | nil => exact Grown.refl
  | cons c remaining ih =>
    rw [growOnce_cons]
    split
    · rename_i hdepends
      exact (Grown.take hdepends).trans (ih (group ++ [c]))
    · exact (ih group).leave c

/-- A pass after which as much remains as before has changed nothing, and nothing that remains
shares a token with the group. -/
theorem growOnce_of_length_eq (h : (s.growOnce group remaining).2.length = remaining.length) :
    s.growOnce group remaining = (group, remaining) ∧
      ∀ c ∈ remaining, s.isDependentOn c group = false := by
  induction remaining with
  | nil => exact ⟨rfl, fun c hc ↦ by cases hc⟩
  | cons c remaining ih =>
    rw [growOnce_cons] at h ⊢
    split at h
    · have hshorter := (growOnce_grown (s := s) (group ++ [c]) remaining).order.length_le
      rw [List.length_cons] at h
      omega
    · rename_i hfree
      obtain ⟨heq, hrest⟩ := ih (Nat.succ.inj h)
      rw [if_neg hfree, heq]
      refine ⟨rfl, fun d hd ↦ ?_⟩
      rcases List.mem_cons.mp hd with rfl | hd
      · exact Bool.eq_false_of_not_eq_true hfree
      · exact hrest d hd

/-- One pass more than there are properties is enough until nothing that remains shares a token
with the group. -/
theorem grow_spec {n : Nat} (h : remaining.length < n) :
    s.Grown group remaining (s.grow n group remaining) ∧
      ∀ c ∈ (s.grow n group remaining).2,
        s.isDependentOn c (s.grow n group remaining).1 = false := by
  induction n generalizing group remaining with
  | zero => exact absurd h (Nat.not_lt_zero _)
  | succ n ih =>
    have hgrown := growOnce_grown (s := s) group remaining
    rw [grow]
    dsimp only
    split
    · rename_i hlength
      obtain ⟨heq, hfree⟩ := growOnce_of_length_eq hlength
      rw [heq]
      exact ⟨Grown.refl, hfree⟩
    · rename_i hlength
      have hle := hgrown.order.length_le
      have hshorter : (s.growOnce group remaining).2.length < n := by omega
      obtain ⟨hmore, hfree⟩ := ih hshorter
      exact ⟨hgrown.trans hmore, hfree⟩

/-! ## Components -/

/-- Formal properties that share no token with any other formal property. -/
structure Closed (s : Store) (chunks : List ChunkRef) : Prop where
  formal : chunks ⊆ s.formalChunks
  closed : ∀ a ∈ chunks, ∀ b, s.Adjacent a b → b ∈ chunks

/-- A group that grew from one property of a closed list is what is linked to it, and the rest is
closed again. -/
theorem grow_component {n : Nat} {first : ChunkRef} {others : List ChunkRef}
    (hclosed : s.Closed (first :: others)) (h : others.length < n) :
    (∀ c, c ∈ (s.grow n [first] others).1 ↔ s.Linked first c) ∧
      s.Closed (s.grow n [first] others).2 := by
  obtain ⟨hgrown, hfree⟩ : s.Grown [first] others (s.grow n [first] others) ∧ _ := grow_spec h
  have hapart {m c : ChunkRef} (hm : m ∈ (s.grow n [first] others).1)
      (hc : c ∈ (s.grow n [first] others).2) : ¬ s.Adjacent m c := by
    intro hadjacent
    have hdepends := isDependentOn_iff.mpr ⟨m, hm, hadjacent.shares⟩
    rw [hfree c hc] at hdepends
    cases hdepends
  have hsplit {c : ChunkRef} : c ∈ first :: others ↔
      c ∈ (s.grow n [first] others).1 ∨ c ∈ (s.grow n [first] others).2 := by
    rw [← List.mem_append, hgrown.perm.mem_iff, List.singleton_append]
  constructor
  · intro c
    constructor
    · intro hc
      obtain ⟨m, hm, hlinked⟩ := hgrown.linked hclosed.formal c hc
      obtain rfl := List.mem_singleton.mp hm
      exact hlinked
    · intro hlinked
      induction hlinked with
      | refl => exact hgrown.kept List.mem_cons_self
      | tail _ hadjacent ih =>
        have hmem := hclosed.closed _ (hsplit.mpr (Or.inl ih)) _ hadjacent
        exact (hsplit.mp hmem).resolve_right fun hrest ↦ hapart ih hrest hadjacent
  · constructor
    · exact fun c hc ↦ hclosed.formal (hsplit.mpr (Or.inr hc))
    · intro a ha b hadjacent
      have hmem := hclosed.closed a (hsplit.mpr (Or.inr ha)) b hadjacent
      exact (hsplit.mp hmem).resolve_left fun hgroup ↦ hapart hgroup ha hadjacent.symm

/-- Groups of a list of properties: each property is in one of them, each is what is linked to one
of its members, and each has a member that stands before all members of later groups. -/
structure Partition (s : Store) (chunks : List ChunkRef) (groups : List (List ChunkRef)) :
    Prop where
  perm : groups.flatten.Perm chunks
  component : ∀ g ∈ groups, ∃ a ∈ g, ∀ c, c ∈ g ↔ s.Linked a c
  ordered : groups.Pairwise fun g h ↦ ∃ a ∈ g, ∀ b ∈ h, [a, b].Sublist chunks

/-- As many rounds as there are properties part them into components. -/
theorem partitionUpTo_spec {n : Nat} (hclosed : s.Closed chunks) (h : chunks.length ≤ n) :
    s.Partition chunks (s.partitionUpTo n chunks) := by
  induction n generalizing chunks with
  | zero =>
    obtain rfl := List.eq_nil_of_length_eq_zero (Nat.le_zero.mp h)
    exact ⟨List.Perm.refl _, fun g hg ↦ (by cases hg), List.Pairwise.nil⟩
  | succ n ih =>
    cases chunks with
    | nil => exact ⟨List.Perm.refl _, fun g hg ↦ (by cases hg), List.Pairwise.nil⟩
    | cons first others =>
      have hfuel : others.length < others.length + 1 := Nat.lt_succ_self _
      obtain ⟨hcomponent, hrest⟩ := grow_component hclosed hfuel
      obtain ⟨hgrown, -⟩ :
          s.Grown [first] others (s.grow (others.length + 1) [first] others) ∧ _ :=
        grow_spec hfuel
      rw [partitionUpTo]
      dsimp only
      generalize s.grow (others.length + 1) [first] others = next at hcomponent hrest hgrown
      have hle := hgrown.order.length_le
      rw [List.length_cons] at h
      obtain ⟨hperm, hcomponents, hordered⟩ := ih hrest (by omega)
      have hfirst : first ∈ next.1 := hgrown.kept List.mem_cons_self
      refine ⟨?_, ?_, ?_⟩
      · rw [List.flatten_cons]
        exact (hperm.append_left next.1).trans hgrown.perm
      · intro g hg
        rcases List.mem_cons.mp hg with rfl | hg
        · exact ⟨first, hfirst, hcomponent⟩
        · exact hcomponents g hg
      · apply List.Pairwise.cons
        · intro g hg
          refine ⟨first, hfirst, fun b hb ↦ ?_⟩
          have hmem : b ∈ next.2 := hperm.subset (List.mem_flatten_of_mem hg hb)
          exact (List.singleton_sublist.mpr (hgrown.order.subset hmem)).cons_cons first
        · apply hordered.imp
          rintro g g' ⟨a, ha, hbefore⟩
          exact ⟨a, ha, fun b hb ↦ (hbefore b hb).trans (hgrown.order.cons first)⟩

/-! ## Groups of a store -/

theorem nodup_formalChunks (s : Store) : s.formalChunks.Nodup := by
  have hkeys : (s.formalProperties.map Prod.fst).Nodup :=
    s.entries.nodup_keys.sublist (List.filter_sublist.map Prod.fst)
  rw [formalChunks, List.nodup_flatMap]
  constructor
  · rintro ⟨id, e⟩ -
    exact List.nodup_range.map fun k k' heq ↦ (ChunkRef.mk.inj heq).2
  · apply (List.pairwise_map.mp hkeys).imp
    rintro ⟨id, e⟩ ⟨id', e'⟩ hne c hc hc'
    obtain ⟨k, -, rfl⟩ := List.mem_map.mp hc
    obtain ⟨k', -, heq⟩ := List.mem_map.mp hc'
    exact hne (ChunkRef.mk.inj heq).1.symm

theorem partition_groups (s : Store) : s.Partition s.formalChunks (s.groups .independent) :=
  partitionUpTo_spec ⟨List.Subset.refl _, fun _ _ _ h ↦ h.right⟩ (Nat.le_refl _)

/-- Properties are in one group exactly if they are linked. -/
theorem Partition.mem_iff {groups : List (List ChunkRef)} (h : s.Partition chunks groups)
    {a b : ChunkRef} (ha : a ∈ chunks) :
    (∃ g ∈ groups, a ∈ g ∧ b ∈ g) ↔ s.Linked a b := by
  constructor
  · rintro ⟨g, hg, hag, hbg⟩
    obtain ⟨m, -, hm⟩ := h.component g hg
    exact ((hm a).mp hag).symm.trans ((hm b).mp hbg)
  · intro hlinked
    obtain ⟨g, hg, hag⟩ := List.mem_flatten.mp (h.perm.symm.subset ha)
    obtain ⟨m, -, hm⟩ := h.component g hg
    exact ⟨g, hg, hag, (hm b).mpr (((hm a).mp hag).trans hlinked)⟩

/-- The members of each group, without their order and that of the groups. -/
def blocks (groups : List (List ChunkRef)) : Finset (Finset ChunkRef) :=
  (groups.map List.toFinset).toFinset

/-- A set of properties is a block if it is what is linked to one of them. -/
theorem Partition.mem_blocks_iff {groups : List (List ChunkRef)} (h : s.Partition chunks groups)
    {block : Finset ChunkRef} :
    block ∈ blocks groups ↔ ∃ a ∈ chunks, ∀ c, c ∈ block ↔ s.Linked a c := by
  simp only [blocks, List.mem_toFinset, List.mem_map]
  constructor
  · rintro ⟨g, hg, rfl⟩
    obtain ⟨a, ha, hcomponent⟩ := h.component g hg
    exact ⟨a, h.perm.subset (List.mem_flatten_of_mem hg ha), fun c ↦ by
      rw [List.mem_toFinset, hcomponent]⟩
  · rintro ⟨a, ha, hblock⟩
    obtain ⟨g, hg, hag, -⟩ := (h.mem_iff ha).mpr Relation.ReflTransGen.refl
    refine ⟨g, hg, Finset.ext fun c ↦ ?_⟩
    obtain ⟨m, -, hm⟩ := h.component g hg
    have hma := (hm a).mp hag
    rw [List.mem_toFinset, hm, hblock]
    exact ⟨hma.symm.trans, hma.trans⟩

section Reordered

variable {s' : Store}

theorem chunkTokens?_of_perm (h : s.entries.entries.Perm s'.entries.entries) :
    s.chunkTokens? = s'.chunkTokens? := by
  have hget (id : String) : s.entries.get? id = s'.entries.get? id := by
    apply Option.ext
    intro e
    rw [OrderedMap.get?_eq_some_iff, OrderedMap.get?_eq_some_iff, h.mem_iff]
  funext c
  rw [chunkTokens?, chunkTokens?, get?, get?, hget]

theorem formalChunks_of_perm (h : s.entries.entries.Perm s'.entries.entries) :
    s.formalChunks.Perm s'.formalChunks :=
  (h.filter _).flatMap_right _

/-- Links do not depend on the order of the requirements. -/
theorem linked_of_perm (h : s.entries.entries.Perm s'.entries.entries) :
    s.Linked = s'.Linked := by
  have hadjacent : s.Adjacent = s'.Adjacent := by
    funext a b
    have hmem (c : ChunkRef) : c ∈ s.formalChunks ↔ c ∈ s'.formalChunks :=
      (formalChunks_of_perm h).mem_iff
    have htoken (c : ChunkRef) (t : String) : s.HasToken c t ↔ s'.HasToken c t := by
      rw [HasToken, HasToken, chunkTokens?_of_perm h]
    apply propext
    constructor
    · rintro ⟨ha, hb, t, hat, hbt⟩
      exact ⟨(hmem a).mp ha, (hmem b).mp hb, t, (htoken a t).mp hat, (htoken b t).mp hbt⟩
    · rintro ⟨ha, hb, t, hat, hbt⟩
      exact ⟨(hmem a).mpr ha, (hmem b).mpr hb, t, (htoken a t).mpr hat, (htoken b t).mpr hbt⟩
  rw [Linked, Linked, hadjacent]

end Reordered

/-- Groups that are the connected components of the formal properties of a store. -/
structure AreComponents (s : Store) (groups : List (List ChunkRef)) : Prop where
  /-- The groups together hold the formal properties of the store. -/
  covers : groups.flatten.Perm s.formalChunks
  /-- No property is in two groups, or in one of them twice. -/
  once : groups.flatten.Nodup
  nonempty : ∀ g ∈ groups, g ≠ []
  linked : ∀ a ∈ s.formalChunks, ∀ b ∈ s.formalChunks,
    (∃ g ∈ groups, a ∈ g ∧ b ∈ g) ↔ s.Linked a b
  /-- A property without tokens is alone. -/
  alone : ∀ a ∈ s.formalChunks, (∀ t, ¬ s.HasToken a t) → [a] ∈ groups
  /-- The first member of a group in the order of the store comes before all later groups. -/
  ordered : groups.Pairwise fun g h ↦ ∃ a ∈ g, ∀ b ∈ h, [a, b].Sublist s.formalChunks

/-- What is linked to a property without tokens is that property. -/
theorem eq_of_linked {a c : ChunkRef} (hfree : ∀ t, ¬ s.HasToken a t) (h : s.Linked a c) :
    c = a := by
  rcases Relation.ReflTransGen.cases_head h with heq | ⟨b, hadjacent, -⟩
  · exact heq.symm
  · obtain ⟨t, ht, -⟩ := hadjacent.shares
    exact absurd ht (hfree t)

/-- The independent groups of a store are the connected components of its formal properties under
shared dependency tokens, in store order.  As sets they do not depend on that order. -/
theorem areComponents_groups (s : Store) :
    s.AreComponents (s.groups .independent) ∧
      ∀ s' : Store, s.entries.entries.Perm s'.entries.entries →
        blocks (s.groups .independent) = blocks (s'.groups .independent) := by
  have hpartition := s.partition_groups
  have honce : (s.groups .independent).flatten.Nodup :=
    hpartition.perm.nodup_iff.mpr s.nodup_formalChunks
  constructor
  · refine ⟨hpartition.perm, honce, ?_, fun a ha b _ ↦ hpartition.mem_iff ha, ?_,
      hpartition.ordered⟩
    · intro g hg
      obtain ⟨a, ha, -⟩ := hpartition.component g hg
      exact List.ne_nil_of_mem ha
    · intro a ha hfree
      obtain ⟨g, hg, hag⟩ := List.mem_flatten.mp (hpartition.perm.symm.subset ha)
      obtain ⟨m, -, hm⟩ := hpartition.component g hg
      have honly : ∀ c ∈ g, c = a := fun c hc ↦
        eq_of_linked hfree (((hm a).mp hag).symm.trans ((hm c).mp hc))
      have hnodup : g.Nodup := (List.nodup_flatten.mp honce).1 g hg
      have hsingle : g = [a] := by
        cases g with
        | nil => cases hag
        | cons c rest =>
          obtain rfl := honly c List.mem_cons_self
          cases rest with
          | nil => rfl
          | cons d rest =>
            obtain rfl := honly d (List.mem_cons_of_mem _ List.mem_cons_self)
            exact absurd List.mem_cons_self (List.nodup_cons.mp hnodup).1
      exact hsingle ▸ hg
  · intro s' hperm
    ext block
    rw [hpartition.mem_blocks_iff, s'.partition_groups.mem_blocks_iff, linked_of_perm hperm]
    exact exists_congr fun a ↦ and_congr_left' (formalChunks_of_perm hperm).mem_iff

def formalEntry (f : Formula) (tokens : List String) : Entry :=
  ⟨f.print, .property, .formal, ⟨[⟨none, f⟩], .empty, .empty, [tokens]⟩⟩

/-- Properties over `a` and over `b` that the last one links, and one over `d`. -/
def linking : Store where
  entries :=
    { entries :=
        let a : Formula := .atom (.var "a")
        let b : Formula := .atom (.var "b")
        [("A", formalEntry (.unary .always a) ["a"]),
          ("D", formalEntry (.unary .always (.atom (.var "d"))) ["d"]),
          ("B", formalEntry (.unary .always b) ["b"]),
          ("C", formalEntry (.unary .always (.binary .implies a b)) ["a", "b"])]
      nodup_keys := by decide }

/-- The same properties in the opposite order. -/
def linkingReversed : Store where
  entries := ⟨linking.entries.entries.reverse, by decide⟩

theorem areComponents_groups_linking :
    linking.groups .independent = [[⟨"A", 0⟩, ⟨"C", 0⟩, ⟨"B", 0⟩], [⟨"D", 0⟩]] ∧
      linking.AreComponents (linking.groups .independent) ∧
      linkingReversed.groups .independent = [[⟨"C", 0⟩, ⟨"B", 0⟩, ⟨"A", 0⟩], [⟨"D", 0⟩]] ∧
      linking.entries.entries.Perm linkingReversed.entries.entries ∧
      blocks (linking.groups .independent) = blocks (linkingReversed.groups .independent) := by
  obtain ⟨hcomponents, hreordered⟩ := areComponents_groups linking
  have hperm : linking.entries.entries.Perm linkingReversed.entries.entries :=
    (List.reverse_perm _).symm
  exact ⟨by decide +kernel, hcomponents, by decide +kernel, hperm, hreordered _ hperm⟩

end TemporalRequirements.Store
