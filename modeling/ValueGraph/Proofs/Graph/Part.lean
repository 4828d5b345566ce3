import ValueGraph.Graph.Part
import ValueGraph.Proofs.Graph.Agreement

namespace ValueGraph.Graph

variable {g g' : Graph} {id i p c : NodeId} {s : ValueSpec} {keep keep' : SortedSet NodeId}

section Indexes

/-- Do the graphs have the same nodes and give the same answers? -/
structure Alike (g g' : Graph) : Prop where
  nodes : g.nodes = g'.nodes
  ids : g.ids = g'.ids
  roots : g.roots = g'.roots
  dependents : ∀ id, g.dependents id = g'.dependents id
  backing : g.backing = g'.backing
  external : g.external = g'.external
  marketData : g.marketData = g'.marketData
  targets : g.targets = g'.targets

theorem Sound.alike (h : g.Sound) (h' : g'.Sound) (hnodes : g.nodes = g'.nodes)
    (hbacking : g.backing = g'.backing) (hexternal : g.external = g'.external) : g.Alike g' := by
  have hnode : g.node? = g'.node? := by
    funext id
    unfold node?
    rw [hnodes]
  have hcontains : g.contains = g'.contains := by
    funext id
    unfold contains
    rw [hnode]
  have hfeeds : g.Feeds = g'.Feeds := by
    unfold Feeds Produces Reads
    rw [hnode]
  have hdependents (id : NodeId) : g.dependents id = g'.dependents id := by
    apply congrArg SortedSet.toList
    apply SortedSet.ext_mem
    intro c
    have hc := h.agrees.dependents id c
    have hc' := h'.agrees.dependents id c
    rw [hfeeds] at hc
    exact hc.trans hc'.symm
  refine ⟨hnodes, congrArg SortedMap.keys hnodes, ?_, hdependents, hbacking, hexternal, ?_, ?_⟩
  · apply congrArg SortedSet.toList
    apply SortedSet.ext_mem
    intro id
    refine (h.roots id).trans (Iff.trans ?_ (h'.roots id).symm)
    rw [hcontains, hfeeds]
  · apply SortedSet.ext_mem
    intro s
    rw [h.indexed.marketData, h'.indexed.marketData]
    unfold Sources
    rw [hnode]
  · apply SortedSet.ext_mem
    intro t
    rw [h.agrees.targets, h'.agrees.targets, hnode]

end Indexes

section Detached

variable {left : List (NodeId × Node)}

theorem get?_backing_foldl_detach {rs : SortedSet Requirement} :
    (left.foldl (fun h (id, n) => h.detach id n) g).backing.get? s = some rs ↔
      g.backing.get? s = some rs ∧ ∀ e ∈ left, s ∉ e.2.outputs := by
  induction left generalizing g with
  | nil => simp
  | cons e left ih =>
    rw [List.foldl_cons, ih, get?_backing_detach, List.forall_mem_cons]
    grind

theorem mem_external_foldl_detach :
    s ∈ (left.foldl (fun h (id, n) => h.detach id n) g).external ↔
      s ∈ g.external ∧ ∀ e ∈ left, s ∉ e.2.outputs := by
  induction left generalizing g with
  | nil => simp
  | cons e left ih =>
    rw [List.foldl_cons, ih, mem_external_detach, List.forall_mem_cons]
    grind

end Detached

section Part

variable (h : g.Sound)
include h

theorem Sound.node?_part : (g.part keep).node? i = if i ∈ keep then g.node? i else none :=
  (h.part keep).2 i

theorem Sound.produces_part : (g.part keep).Produces i s ↔ i ∈ keep ∧ g.Produces i s := by
  unfold Produces
  simp only [h.node?_part]
  grind

theorem Sound.reads_part : (g.part keep).Reads i s ↔ i ∈ keep ∧ g.Reads i s := by
  unfold Reads
  simp only [h.node?_part]
  grind

theorem Sound.not_left_out_iff (hp : g.Produces p s) :
    (∀ e ∈ g.nodes.entries.filter fun (id, _) => id ∉ keep, s ∉ e.2.outputs) ↔ p ∈ keep := by
  constructor
  · intro hno
    apply Decidable.byContradiction
    intro hkeep
    obtain ⟨n, hn, hs⟩ := hp
    refine hno (p, n) (List.mem_filter.2 ⟨SortedMap.get?_eq_some_iff.1 hn, ?_⟩) hs
    simpa using hkeep
  · rintro hkeep ⟨id, n⟩ he hs
    obtain ⟨he, hid⟩ := List.mem_filter.1 he
    have hpid := h.indexed.unique hp ⟨n, SortedMap.get?_eq_some_iff.2 he, hs⟩
    subst hpid
    simp [hkeep] at hid

theorem Sound.get?_backing_part {rs : SortedSet Requirement} :
    (g.part keep).backing.get? s = some rs ↔
      (∃ id ∈ keep, g.Produces id s) ∧ g.backing.get? s = some rs := by
  refine get?_backing_foldl_detach.trans ?_
  constructor
  · rintro ⟨hs, hno⟩
    obtain ⟨⟨p, n, hn, hout, -⟩, -⟩ := h.indexed.backing s rs hs
    exact ⟨⟨p, (h.not_left_out_iff ⟨n, hn, hout⟩).1 hno, n, hn, hout⟩, hs⟩
  · rintro ⟨⟨p, hkeep, hp⟩, hs⟩
    exact ⟨hs, (h.not_left_out_iff hp).2 hkeep⟩

theorem Sound.mem_readOutside_iff :
    s ∈ g.readOutside keep ↔
      ∃ id ∈ keep, g.Produces id s ∧ ∃ c, c ∉ keep ∧ g.Reads c s := by
  have hread : (g.consumers s).any (· ∉ keep) = true ↔ ∃ c, c ∉ keep ∧ g.Reads c s := by
    simp only [List.any_eq_true, h.agrees.consumers, decide_eq_true_eq]
    grind
  unfold readOutside
  simp only [List.mem_flatMap, List.mem_filter, hread, SortedSet.mem_toList]
  constructor
  · rintro ⟨⟨id, n⟩, ⟨he, hid⟩, hs, hc⟩
    exact ⟨id, by simpa using hid, ⟨n, SortedMap.get?_eq_some_iff.2 he, hs⟩, hc⟩
  · rintro ⟨id, hid, ⟨n, hn, hs⟩, hc⟩
    exact ⟨(id, n), ⟨SortedMap.get?_eq_some_iff.1 hn, by simpa using hid⟩, hs, hc⟩

theorem Sound.mem_external_part :
    s ∈ (g.part keep).external ↔ (∃ id ∈ keep, g.Produces id s) ∧
      (s ∈ g.external ∨ ∃ c, c ∉ keep ∧ g.Reads c s) := by
  refine SortedSet.mem_union.trans ?_
  rw [mem_external_foldl_detach, SortedSet.mem_ofList, h.mem_readOutside_iff]
  constructor
  · rintro (⟨hs, hno⟩ | ⟨id, hid, hp, hc⟩)
    · obtain ⟨p, hp⟩ := h.indexed.external s hs
      exact ⟨⟨p, (h.not_left_out_iff hp).1 hno, hp⟩, .inl hs⟩
    · exact ⟨⟨id, hid, hp⟩, .inr hc⟩
  · rintro ⟨⟨id, hid, hp⟩, hs | hc⟩
    · exact .inl ⟨hs, (h.not_left_out_iff hp).2 hid⟩
    · exact .inr ⟨id, hid, hp, hc⟩

theorem Sound.isTerminal_part (hp : g.Produces p s) (hkeep : p ∈ keep) :
    (g.part keep).isTerminal s ↔ g.isTerminal s := by
  unfold isTerminal
  simp only [decide_eq_true_eq, SortedMap.mem_iff_isSome_get?, Option.isSome_iff_exists,
    h.get?_backing_part]
  exact exists_congr fun rs => and_iff_right ⟨p, hkeep, hp⟩

theorem Sound.isExternal_part (hp : g.Produces p s) (hkeep : p ∈ keep) :
    (g.part keep).isExternal s ↔ g.isExternal s ∨ ∃ c, c ∉ keep ∧ g.Reads c s := by
  unfold isExternal
  rw [decide_eq_true_eq, decide_eq_true_eq, h.mem_external_part]
  exact and_iff_right ⟨p, hkeep, hp⟩

/-- A part of a part is the part with the nodes that are in both. -/
theorem Sound.alike_part_part :
    ((g.part keep).part keep').Alike (g.part (keep.filter (· ∈ keep'))) := by
  have hpart : (g.part keep).Sound := (h.part keep).1
  have hboth (i : NodeId) : i ∈ keep.filter (· ∈ keep') ↔ i ∈ keep ∧ i ∈ keep' := by simp
  refine (hpart.part keep').1.alike (h.part _).1 ?_ ?_ ?_
  · apply SortedMap.ext_get?
    intro i
    show ((g.part keep).part keep').node? i = (g.part _).node? i
    rw [hpart.node?_part, h.node?_part, h.node?_part]
    simp only [hboth]
    grind
  · apply SortedMap.ext_get?
    intro s
    apply Option.ext
    intro rs
    rw [hpart.get?_backing_part, h.get?_backing_part, h.get?_backing_part]
    simp only [hboth, h.produces_part]
    grind
  · -- Who reads an output and is left out was left out at once, or later.
    apply SortedSet.ext_mem
    intro s
    rw [hpart.mem_external_part, h.mem_external_part, h.mem_external_part]
    simp only [hboth, h.produces_part, h.reads_part]
    grind

end Part

/--
Of any graph, the part with some nodes has just these, as they are. Their outputs back what they
backed, and are external if they were or if a node left out reads them. Taking a part once more
comes to the same as taking both at once.
-/
theorem part_of_after (configuration : String) (os : List Operation)
    (keep keep' : SortedSet NodeId) :
    let g := after configuration os
    (∀ id, (g.part keep).node? id = if id ∈ keep then g.node? id else none) ∧
      (∀ s rs, (g.part keep).backing.get? s = some rs ↔
        (∃ id ∈ keep, g.Produces id s) ∧ g.backing.get? s = some rs) ∧
      (∀ s, (g.part keep).isExternal s ↔ (∃ id ∈ keep, g.Produces id s) ∧
        (g.isExternal s ∨ ∃ c, c ∉ keep ∧ g.Reads c s)) ∧
      ((g.part keep).part keep').Alike (g.part (keep.filter (· ∈ keep'))) := by
  intro g
  have h : g.Sound := sound_after configuration os
  refine ⟨fun id => h.node?_part, fun s rs => h.get?_backing_part, fun s => ?_, h.alike_part_part⟩
  unfold isExternal
  rw [decide_eq_true_eq, decide_eq_true_eq]
  exact h.mem_external_part

end ValueGraph.Graph
