import ValueGraph.Proofs.Graph.Change

namespace ValueGraph.Graph

variable {g : Graph} {id i p c : NodeId} {n m : Node} {s : ValueSpec}

section Nodes

/-- Is `s` an output of the node under `id`? -/
def Produces (g : Graph) (id : NodeId) (s : ValueSpec) : Prop :=
  ∃ n, g.node? id = some n ∧ s ∈ n.outputs

/-- Is `s` an input of the node under `id`? -/
def Reads (g : Graph) (id : NodeId) (s : ValueSpec) : Prop :=
  ∃ n, g.node? id = some n ∧ s ∈ n.inputs

/-- Does `c` read an output of `p`? -/
def Feeds (g : Graph) (p c : NodeId) : Prop := ∃ s, g.Produces p s ∧ g.Reads c s

/-- Is `s` the value of a node that takes it from the market data layer? -/
def Sources (g : Graph) (s : ValueSpec) : Prop :=
  ∃ id n, g.node? id = some n ∧ n.function.isMarketData ∧ s ∈ n.outputs

/-- Does a node flag its output `s` as terminal? -/
def Flagged (g : Graph) (s : ValueSpec) : Prop :=
  ∃ id n, g.node? id = some n ∧ s ∈ n.outputs ∧ s ∈ n.terminal

def countFor (g : Graph) (t : Target) : Nat := g.nodes.entries.countP (·.2.target = t)

theorem Produces.contains (h : g.Produces id s) : g.contains id := by
  obtain ⟨n, hn, -⟩ := h
  simp [Graph.contains, hn]

theorem countFor_pos_iff {t : Target} :
    0 < g.countFor t ↔ ∃ id n, g.node? id = some n ∧ n.target = t := by
  unfold countFor node?
  rw [List.countP_pos_iff]
  constructor
  · rintro ⟨⟨id, n⟩, he, ht⟩
    exact ⟨id, n, SortedMap.get?_eq_some_iff.2 he, by simpa using ht⟩
  · rintro ⟨id, n, hn, ht⟩
    exact ⟨(id, n), SortedMap.get?_eq_some_iff.1 hn, by simpa using ht⟩

end Nodes

/-- Which ids are in use, and which are free to be used. -/
structure FreshIds (g : Graph) : Prop where
  used : ∀ id, g.contains id → id < g.unused ∧ id ∉ g.freed
  freed : ∀ id ∈ g.freed, id < g.unused
  once : g.freed.Nodup

/-- Do the indexes, but for the roots, say what the nodes say? -/
structure Indexed (g : Graph) : Prop where
  producers : ∀ s id, g.producer? s = some id ↔ g.Produces id s
  readers : ∀ s id, id ∈ g.readers.setAt s ↔ g.Reads id s
  edges : ∀ p c, (∃ s, ⟨p, c, s⟩ ∈ g.edges) ↔ g.Feeds p c
  byKey : ∀ k s, s ∈ g.byKey.setAt k ↔ s.key = k ∧ ∃ id, g.Produces id s
  marketData : ∀ s, s ∈ g.marketData ↔ g.Sources s
  targets : g.targetCounts.Tallies g.countFor
  /-- What backs a requirement is produced by a node that flags it. -/
  backing : ∀ s rs, g.backing.get? s = some rs → g.Flagged s ∧ ∃ r, r ∈ rs
  external : ∀ s ∈ g.external, ∃ id, g.Produces id s

/-- Is `id` listed as a root just if it is one? -/
def RootAt (g : Graph) (id : NodeId) : Prop :=
  id ∈ g.rootSet ↔ g.contains id ∧ ∀ c, ¬ g.Feeds id c

/-- A graph as the operations on graphs leave it. -/
structure Sound (g : Graph) : Prop where
  ids : g.FreshIds
  indexed : g.Indexed
  roots : ∀ id, g.RootAt id

section Indexes

variable (h : g.Indexed)
include h

theorem Indexed.unique (hi : g.Produces i s) (hp : g.Produces p s) : i = p := by
  have hi := (h.producers s i).2 hi
  have hp := (h.producers s p).2 hp
  simpa [hi] using hp

theorem Indexed.mem_outputs_iff (hn : g.node? id = some n) (hp : g.Produces i s) :
    s ∈ n.outputs ↔ i = id := by
  constructor
  · intro hs
    exact h.unique hp ⟨n, hn, hs⟩
  · rintro rfl
    obtain ⟨m, hm, hs⟩ := hp
    rw [hn] at hm
    cases hm
    exact hs

theorem Indexed.forall_edges_iff : (∀ e ∈ g.edges, e.supplier ≠ i) ↔ ∀ c, ¬ g.Feeds i c := by
  simp only [← h.edges]
  constructor
  · rintro hi c ⟨s, he⟩
    exact hi _ he rfl
  · rintro hi e he rfl
    exact hi e.consumer ⟨e.spec, he⟩

end Indexes

section Fresh

theorem FreshIds.not_contains_nextId (h : g.FreshIds) : ¬ g.contains g.nextId := by
  intro hc
  obtain ⟨hlt, hfreed⟩ := h.used _ hc
  unfold nextId at hlt hfreed
  cases hf : g.freed with
  | nil => simp [hf] at hlt
  | cons id freed => simp [hf] at hfreed

theorem FreshIds.node?_nextId (h : g.FreshIds) : g.node? g.nextId = none := by
  simpa [contains] using h.not_contains_nextId

theorem FreshIds.link (h : g.FreshIds) : (g.link n).FreshIds := by
  have hused : ∀ id, (g.link n).contains id → id = g.nextId ∨ g.contains id := by
    intro id hc
    simp only [contains, node?_link] at hc ⊢
    grind
  have hnext : g.nextId = g.freed.headD g.unused := rfl
  -- An id that was freed is taken before one that was never used.
  cases hf : g.freed with
  | nil =>
    simp only [hf, List.headD_nil] at hnext
    refine ⟨fun id hc => ?_, ?_, ?_⟩
    · simp only [freed_link, unused_link, hf, List.tail_nil, List.isEmpty_nil, if_true]
      refine ⟨?_, List.not_mem_nil⟩
      rcases hused id hc with rfl | hc
      · rw [hnext]
        exact Nat.lt_succ_self _
      · exact Nat.lt_succ_of_lt (h.used id hc).1
    · simp [freed_link, hf]
    · simp [freed_link, hf]
  | cons next freed =>
    simp only [hf, List.headD_cons] at hnext
    have hfreed := h.freed
    have honce := h.once
    rw [hf] at hfreed honce
    obtain ⟨hnot, honce⟩ := List.nodup_cons.1 honce
    refine ⟨fun id hc => ?_, ?_, ?_⟩
    · simp only [freed_link, unused_link, hf, List.tail_cons, List.isEmpty_cons]
      rcases hused id hc with rfl | hc
      · rw [hnext]
        exact ⟨hfreed _ List.mem_cons_self, hnot⟩
      · have hid := h.used id hc
        rw [hf, List.mem_cons, not_or] at hid
        exact ⟨hid.1, hid.2.2⟩
    · intro id hid
      simp only [freed_link, unused_link, hf, List.tail_cons, List.isEmpty_cons] at hid ⊢
      exact hfreed id (List.mem_cons_of_mem _ hid)
    · simpa [freed_link, hf] using honce

theorem FreshIds.detach (h : g.FreshIds) (hn : g.node? id = some n) :
    (g.detach id n).FreshIds := by
  have hid : id < g.unused ∧ id ∉ g.freed := h.used id (by simp [contains, hn])
  refine ⟨fun i hc => ?_, ?_, ?_⟩
  · simp only [contains, node?_detach] at hc
    have hi : id ≠ i := by
      rintro rfl
      simp at hc
    have hu := h.used i (by simpa [contains, hi] using hc)
    rw [freed_detach, unused_detach, List.mem_cons, not_or]
    exact ⟨hu.1, Ne.symm hi, hu.2⟩
  · intro i hi
    rw [freed_detach, List.mem_cons] at hi
    rw [unused_detach]
    rcases hi with rfl | hi
    · exact hid.1
    · exact h.freed i hi
  · rw [freed_detach]
    exact List.nodup_cons.2 ⟨hid.2, h.once⟩

end Fresh

section Link

variable (hf : g.FreshIds)
include hf

theorem produces_link :
    (g.link n).Produces i s ↔ i = g.nextId ∧ s ∈ n.outputs ∨ g.Produces i s := by
  have hnew := hf.node?_nextId
  unfold Produces
  simp only [node?_link]
  grind

theorem reads_link : (g.link n).Reads i s ↔ i = g.nextId ∧ s ∈ n.inputs ∨ g.Reads i s := by
  have hnew := hf.node?_nextId
  unfold Reads
  simp only [node?_link]
  grind

theorem sources_link :
    (g.link n).Sources s ↔ n.function.isMarketData ∧ s ∈ n.outputs ∨ g.Sources s := by
  have hnew := hf.node?_nextId
  unfold Sources
  simp only [node?_link]
  constructor
  · rintro ⟨id, m, hm, hs⟩
    split at hm
    · cases hm
      exact .inl hs
    · exact .inr ⟨id, m, hm, hs⟩
  · rintro (hs | ⟨id, m, hm, hs⟩)
    · exact ⟨g.nextId, n, if_pos rfl, hs⟩
    · refine ⟨id, m, ?_, hs⟩
      rw [if_neg (by rintro rfl; simp [hnew] at hm)]
      exact hm

theorem Flagged.link (h : g.Flagged s) : (g.link n).Flagged s := by
  obtain ⟨id, m, hm, hs⟩ := h
  refine ⟨id, m, ?_, hs⟩
  rw [node?_link, if_neg, hm]
  rintro rfl
  simp [hf.node?_nextId] at hm

theorem countFor_link (t : Target) :
    (g.link n).countFor t = g.countFor t + if n.target = t then 1 else 0 := by
  have hnew : g.nodes.erase g.nextId = g.nodes := SortedMap.erase_eq_self hf.node?_nextId
  unfold countFor
  rw [nodes_link, SortedMap.entries_insert_perm.countP_eq, hnew, List.countP_cons]
  simp

theorem Indexed.link (h : g.Indexed) (hn : ∀ s ∈ n.outputs, g.producer? s = none) :
    (g.link n).Indexed := by
  have hproducers : ∀ s id, (g.link n).producer? s = some id ↔ (g.link n).Produces id s := by
    intro s id
    rw [produces_link hf, producer?_link, ← h.producers]
    have hs := hn s
    grind
  refine ⟨hproducers, fun s id => ?_, fun p c => ?_, fun k s => ?_, fun s => ?_, ?_,
    fun s rs hs => ?_, fun s hs => ?_⟩
  · rw [mem_readers_link, h.readers, reads_link hf]
  · -- An edge is old, or it leads to a node that had read the value before anyone
    -- produced it, or it leads to the new node.
    have hold := h.edges p c
    simp only [mem_edges_link, h.readers, hproducers, Feeds, produces_link hf, reads_link hf]
    constructor
    · rintro ⟨s, he | ⟨hp, hs, hc⟩ | ⟨hc, hs, hp⟩⟩
      · obtain ⟨t, hp, hc⟩ := hold.1 ⟨s, he⟩
        exact ⟨t, .inr hp, .inr hc⟩
      · exact ⟨s, .inl ⟨hp, hs⟩, .inr hc⟩
      · exact ⟨s, hp, .inl ⟨hc, hs⟩⟩
    · rintro ⟨s, hp, ⟨hc, hs⟩ | hc⟩
      · exact ⟨s, .inr (.inr ⟨hc, hs, hp⟩)⟩
      · rcases hp with ⟨hp, hs⟩ | hp
        · exact ⟨s, .inr (.inl ⟨hp, hs, hc⟩)⟩
        · obtain ⟨t, ht⟩ := hold.2 ⟨s, hp, hc⟩
          exact ⟨t, .inl ht⟩
  · rw [mem_byKey_link, h.byKey]
    simp only [produces_link hf]
    grind
  · rw [mem_marketData_link, h.marketData, sources_link hf]
  · intro t
    rw [targetCounts_link, h.targets.increment n.target t, countFor_link hf]
  · rw [backing_link] at hs
    obtain ⟨hs, hr⟩ := h.backing s rs hs
    exact ⟨hs.link hf, hr⟩
  · rw [external_link] at hs
    obtain ⟨id, hp⟩ := h.external s hs
    exact ⟨id, (produces_link hf).2 (.inr hp)⟩

theorem RootAt.link (h : g.Indexed) (hn : ∀ s ∈ n.outputs, g.producer? s = none)
    (hr : g.RootAt id) : (g.link n).RootAt id := by
  have hl := h.link hf hn
  unfold RootAt
  rw [mem_rootSet_link, hl.forall_edges_iff]
  -- The new node is looked at afresh; an old one may only cease to be a root.
  by_cases hid : g.nextId = id
  · have hc : (g.link n).contains id := by simp [contains, hid]
    simp [hid, hc]
  · have hc : (g.link n).contains id = g.contains id := by simp [contains, hid]
    have hp : ∀ s, (g.link n).Produces id s ↔ g.Produces id s := fun s => by
      rw [produces_link hf]
      grind
    unfold RootAt at hr
    simp only [hid, false_and, false_or, Ne, not_false_eq_true, true_and, hr, hc, hl.producers,
      hp, Feeds, reads_link hf]
    grind

end Link

theorem Sound.link (h : g.Sound) (hn : ∀ s ∈ n.outputs, g.producer? s = none) :
    (g.link n).Sound :=
  ⟨h.ids.link, h.indexed.link h.ids hn, fun id => (h.roots id).link h.ids h.indexed hn⟩

section Detach

theorem produces_detach : (g.detach id n).Produces i s ↔ id ≠ i ∧ g.Produces i s := by
  unfold Produces
  simp only [node?_detach]
  grind

theorem reads_detach : (g.detach id n).Reads i s ↔ id ≠ i ∧ g.Reads i s := by
  unfold Reads
  simp only [node?_detach]
  grind

theorem feeds_detach : (g.detach id n).Feeds p c ↔ id ≠ p ∧ id ≠ c ∧ g.Feeds p c := by
  unfold Feeds
  simp only [produces_detach, reads_detach]
  grind

variable (hn : g.node? id = some n)
include hn

theorem Flagged.detach (h : g.Flagged s) (hs : s ∉ n.outputs) :
    (g.detach id n).Flagged s := by
  obtain ⟨i, m, hm, ho, hf⟩ := h
  refine ⟨i, m, ?_, ho, hf⟩
  rw [node?_detach, if_neg, hm]
  rintro rfl
  rw [hn] at hm
  cases hm
  exact hs ho

theorem countFor_detach (t : Target) :
    (g.detach id n).countFor t = g.countFor t - if n.target = t then 1 else 0 := by
  unfold countFor
  rw [nodes_detach, (SortedMap.entries_perm_erase hn).countP_eq, List.countP_cons]
  simp

theorem Indexed.produces_detach_iff (h : g.Indexed) :
    (g.detach id n).Produces i s ↔ g.Produces i s ∧ s ∉ n.outputs := by
  rw [produces_detach]
  constructor
  · rintro ⟨hi, hp⟩
    exact ⟨hp, fun hs => hi ((h.mem_outputs_iff hn hp).1 hs).symm⟩
  · rintro ⟨hp, hs⟩
    exact ⟨fun hi => hs ((h.mem_outputs_iff hn hp).2 hi.symm), hp⟩

theorem Indexed.sources_detach (h : g.Indexed) :
    (g.detach id n).Sources s ↔ g.Sources s ∧ s ∉ n.outputs := by
  unfold Sources
  simp only [node?_detach]
  constructor
  · rintro ⟨i, m, hm, hmd, hs⟩
    split at hm
    · cases hm
    next hi =>
      exact ⟨⟨i, m, hm, hmd, hs⟩, fun hs' => hi ((h.mem_outputs_iff hn ⟨m, hm, hs⟩).1 hs').symm⟩
  · rintro ⟨⟨i, m, hm, hmd, hs⟩, hno⟩
    refine ⟨i, m, ?_, hmd, hs⟩
    rw [if_neg (fun hi => hno ((h.mem_outputs_iff hn ⟨m, hm, hs⟩).2 hi.symm)), hm]

theorem Indexed.detach (h : g.Indexed) : (g.detach id n).Indexed := by
  refine ⟨fun s i => ?_, fun s i => ?_, fun p c => ?_, fun k s => ?_, fun s => ?_, ?_,
    fun s rs hs => ?_, fun s hs => ?_⟩
  · rw [h.produces_detach_iff hn, producer?_detach, ← h.producers]
    grind
  · have hread : g.Reads id s ↔ s ∈ n.inputs := by simp [Reads, hn]
    rw [mem_readers_detach, h.readers, reads_detach]
    grind
  · simp only [mem_edges_detach, feeds_detach, ← h.edges]
    grind
  · simp only [mem_byKey_detach, h.byKey, h.produces_detach_iff hn]
    grind
  · rw [mem_marketData_detach, h.marketData, h.sources_detach hn]
  · intro t
    rw [targetCounts_detach, h.targets.decrement n.target t, countFor_detach hn]
  · rw [get?_backing_detach] at hs
    split at hs
    · cases hs
    next hno =>
      obtain ⟨hs, hr⟩ := h.backing s rs hs
      exact ⟨hs.detach hn hno, hr⟩
  · obtain ⟨he, hno⟩ := mem_external_detach.1 hs
    obtain ⟨i, hp⟩ := h.external s he
    exact ⟨i, (h.produces_detach_iff hn).2 ⟨hp, hno⟩⟩

theorem RootAt.detach (h : g.Indexed) (hr : g.RootAt i) : (g.detach id n).RootAt i := by
  have hc : (g.detach id n).contains i ↔ id ≠ i ∧ g.contains i := by
    simp only [contains, node?_detach]
    grind
  -- Only the suppliers of the node can become roots, and these are looked at again.
  have hup : (∃ e ∈ g.edges, e.consumer = id ∧ e.supplier = i) ↔ g.Feeds i id := by
    rw [← h.edges]
    constructor
    · rintro ⟨e, he, rfl, rfl⟩
      exact ⟨e.spec, he⟩
    · rintro ⟨s, he⟩
      exact ⟨_, he, rfl, rfl⟩
  have hcon : g.Feeds i id → g.contains i := by
    rintro ⟨s, hp, -⟩
    exact hp.contains
  unfold RootAt at hr ⊢
  rw [mem_rootSet_detach, hup, (h.detach hn).forall_edges_iff, hr, hc]
  simp only [feeds_detach]
  grind

theorem Sound.detach (h : g.Sound) : (g.detach id n).Sound :=
  ⟨h.ids.detach hn, h.indexed.detach hn, fun i => (h.roots i).detach hn h.indexed⟩

end Detach

end ValueGraph.Graph
