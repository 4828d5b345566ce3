import ValueGraph.Graph.Change

namespace ValueGraph.Graph

variable {g : Graph} {id i : NodeId} {n : Node} {s : ValueSpec}

section Steps

theorem foldl_indexOutput (outputs : List ValueSpec) (b : Bool) :
    outputs.foldl (indexOutput id b) g =
      { g with
        edges := g.edges ++ outputs.flatMap fun s => (g.consumers s).map fun c => ⟨id, c, s⟩
        marketData := if b then outputs.foldl SortedSet.insert g.marketData else g.marketData
        byKey := outputs.foldl (fun m s => m.addAt s.key s) g.byKey
        producers := outputs.foldl (fun m s => m.insert s id) g.producers } := by
  induction outputs generalizing g with
  | nil => simp
  | cons s outputs ih =>
    rw [List.foldl_cons, ih]
    simp only [List.flatMap_cons, List.foldl_cons, indexOutput, List.append_assoc]
    cases b <;> rfl

theorem foldl_indexInput (inputs : List ValueSpec) :
    inputs.foldl (indexInput id) g =
      { g with
        readers := inputs.foldl (fun m s => m.addAt s id) g.readers
        edges := g.edges ++ inputs.flatMap fun s => (g.producer? s).toList.map fun p => ⟨p, id, s⟩
        rootSet :=
          (inputs.flatMap fun s => (g.producer? s).toList).foldl SortedSet.erase g.rootSet } := by
  induction inputs generalizing g with
  | nil => simp
  | cons s inputs ih =>
    rw [List.foldl_cons, ih]
    simp only [List.flatMap_cons, List.foldl_cons, List.foldl_append, indexInput,
      List.append_assoc]
    rfl

theorem foldl_retractOutput (outputs : List ValueSpec) :
    outputs.foldl retractOutput g =
      { g with
        producers := outputs.foldl SortedMap.erase g.producers
        marketData := outputs.foldl SortedSet.erase g.marketData
        external := outputs.foldl SortedSet.erase g.external
        byKey := outputs.foldl (fun m s => m.dropAt s.key s) g.byKey
        backing := outputs.foldl SortedMap.erase g.backing } := by
  induction outputs generalizing g with
  | nil => rfl
  | cons s outputs ih => rw [List.foldl_cons, ih]; rfl

theorem foldl_unindexInput (inputs : List ValueSpec) :
    inputs.foldl (unindexInput id) g =
      { g with readers := inputs.foldl (fun m s => m.dropAt s id) g.readers } := by
  induction inputs generalizing g with
  | nil => rfl
  | cons s inputs ih => rw [List.foldl_cons, ih]; rfl

theorem mem_rootSet_refreshRoot :
    i ∈ (g.refreshRoot id).rootSet ↔
      (id = i ∧ g.contains id) ∧ (∀ e ∈ g.edges, e.supplier ≠ id) ∨
      ¬ (id = i ∧ g.contains id) ∧ i ∈ g.rootSet := by
  have hany : g.edges.any (·.supplier = id) = true ↔ ∃ e ∈ g.edges, e.supplier = id := by simp
  unfold refreshRoot
  split
  next hc => simp_all
  next hc =>
    split
    next he => rw [SortedSet.mem_erase]; grind
    next he => rw [SortedSet.mem_insert]; grind

theorem foldl_refreshRoot_eq (upstream : List NodeId) :
    ∃ roots, upstream.foldl refreshRoot g = { g with rootSet := roots } := by
  induction upstream generalizing g with
  | nil => exact ⟨_, rfl⟩
  | cons id upstream ih =>
    obtain ⟨roots, h⟩ := ih (g := g.refreshRoot id)
    exact ⟨roots, h⟩

theorem mem_rootSet_foldl_refreshRoot (upstream : List NodeId) :
    i ∈ (upstream.foldl refreshRoot g).rootSet ↔
      (i ∈ upstream ∧ g.contains i) ∧ (∀ e ∈ g.edges, e.supplier ≠ i) ∨
      ¬ (i ∈ upstream ∧ g.contains i) ∧ i ∈ g.rootSet := by
  induction upstream generalizing g with
  | nil => simp
  | cons id upstream ih =>
    -- A refresh looks at nodes and edges, and changes neither, so the order does not matter.
    have hc : ∀ j, (g.refreshRoot id).contains j = g.contains j := fun _ => rfl
    have he : (g.refreshRoot id).edges = g.edges := rfl
    rw [List.foldl_cons, ih, hc, he, mem_rootSet_refreshRoot, List.mem_cons]
    grind

end Steps

section Link

@[simp] theorem node?_link : (g.link n).node? i = if g.nextId = i then some n else g.node? i := by
  simp only [link, foldl_indexOutput, foldl_indexInput]
  exact SortedMap.get?_insert

theorem nodes_link : (g.link n).nodes = g.nodes.insert g.nextId n := by
  simp only [link, foldl_indexOutput, foldl_indexInput]
  rfl

theorem freed_link : (g.link n).freed = g.freed.tail := by
  simp only [link, foldl_indexOutput, foldl_indexInput]
  rfl

theorem unused_link :
    (g.link n).unused = if g.freed.isEmpty then g.unused + 1 else g.unused := by
  simp only [link, foldl_indexOutput, foldl_indexInput]
  rfl

@[simp] theorem backing_link : (g.link n).backing = g.backing := by
  simp only [link, foldl_indexOutput, foldl_indexInput]
  rfl

@[simp] theorem external_link : (g.link n).external = g.external := by
  simp only [link, foldl_indexOutput, foldl_indexInput]
  rfl

theorem targetCounts_link : (g.link n).targetCounts = g.targetCounts.increment n.target := by
  simp only [link, foldl_indexOutput, foldl_indexInput]
  rfl

@[simp] theorem producer?_link :
    (g.link n).producer? s = if s ∈ n.outputs then some g.nextId else g.producer? s := by
  simp only [link, foldl_indexOutput, foldl_indexInput]
  exact SortedMap.get?_foldl_insert

theorem mem_readers_link :
    i ∈ (g.link n).readers.setAt s ↔ i = g.nextId ∧ s ∈ n.inputs ∨ i ∈ g.readers.setAt s := by
  simp only [link, foldl_indexOutput, foldl_indexInput]
  refine SortedMap.mem_setAt_foldl_addAt.trans (or_congr_left ⟨?_, ?_⟩)
  · rintro ⟨t, ht, rfl, rfl⟩
    exact ⟨rfl, ht⟩
  · rintro ⟨rfl, hs⟩
    exact ⟨s, hs, rfl, rfl⟩

theorem mem_byKey_link {k : ValueKey} :
    s ∈ (g.link n).byKey.setAt k ↔ s ∈ n.outputs ∧ s.key = k ∨ s ∈ g.byKey.setAt k := by
  simp only [link, foldl_indexOutput, foldl_indexInput]
  refine SortedMap.mem_setAt_foldl_addAt.trans (or_congr_left ⟨?_, ?_⟩)
  · rintro ⟨t, ht, rfl, rfl⟩
    exact ⟨ht, rfl⟩
  · rintro ⟨hs, rfl⟩
    exact ⟨s, hs, rfl, rfl⟩

theorem mem_marketData_link :
    s ∈ (g.link n).marketData ↔ n.function.isMarketData ∧ s ∈ n.outputs ∨ s ∈ g.marketData := by
  simp only [link, foldl_indexOutput, foldl_indexInput]
  show s ∈ (if n.function.isMarketData then n.outputs.toList.foldl _ g.marketData
    else g.marketData) ↔ _
  split
  next h =>
    rw [SortedSet.mem_foldl_insert, SortedSet.mem_toList]
    simp [h, or_comm]
  next h => simp [h]

theorem mem_edges_link {e : Edge} :
    e ∈ (g.link n).edges ↔
      e ∈ g.edges ∨
      e.supplier = g.nextId ∧ e.spec ∈ n.outputs ∧ e.consumer ∈ g.readers.setAt e.spec ∨
      e.consumer = g.nextId ∧ e.spec ∈ n.inputs ∧
        (g.link n).producer? e.spec = some e.supplier := by
  obtain ⟨p, c, s⟩ := e
  have hl : (g.link n).edges =
      g.edges ++ (n.outputs.toList.flatMap fun s =>
        (g.consumers s).map fun c => ⟨g.nextId, c, s⟩) ++
      n.inputs.toList.flatMap fun s =>
        ((g.link n).producer? s).toList.map fun p => ⟨p, g.nextId, s⟩ := by
    simp only [link, foldl_indexOutput, foldl_indexInput]
    rfl
  -- The two kinds of new edges apart.
  have hout : (⟨p, c, s⟩ : Edge) ∈ (n.outputs.toList.flatMap fun s =>
      (g.consumers s).map fun c => (⟨g.nextId, c, s⟩ : Edge)) ↔
      p = g.nextId ∧ s ∈ n.outputs ∧ c ∈ g.readers.setAt s := by
    simp only [List.mem_flatMap, List.mem_map, Edge.mk.injEq]
    constructor
    · rintro ⟨t, ht, d, hd, rfl, rfl, rfl⟩
      exact ⟨rfl, ht, hd⟩
    · rintro ⟨rfl, hs, hc⟩
      exact ⟨s, hs, c, hc, rfl, rfl, rfl⟩
  have hin : (⟨p, c, s⟩ : Edge) ∈ (n.inputs.toList.flatMap fun s =>
      ((g.link n).producer? s).toList.map fun p => (⟨p, g.nextId, s⟩ : Edge)) ↔
      c = g.nextId ∧ s ∈ n.inputs ∧ (g.link n).producer? s = some p := by
    simp only [List.mem_flatMap, List.mem_map, Option.mem_toList, Edge.mk.injEq]
    constructor
    · rintro ⟨t, ht, d, hd, rfl, rfl, rfl⟩
      exact ⟨rfl, ht, hd⟩
    · rintro ⟨rfl, hs, hp⟩
      exact ⟨s, hs, p, hp, rfl, rfl, rfl⟩
  rw [hl, List.mem_append, List.mem_append, hout, hin, or_assoc]

theorem mem_rootSet_link :
    i ∈ (g.link n).rootSet ↔
      g.nextId = i ∧ (∀ e ∈ (g.link n).edges, e.supplier ≠ i) ∨
      g.nextId ≠ i ∧ i ∈ g.rootSet ∧ ∀ s ∈ n.inputs, (g.link n).producer? s ≠ some i := by
  have hc : (g.link n).contains g.nextId := by simp [contains]
  have hroots : (g.link n).rootSet = (({ g.link n with
      rootSet := (n.inputs.toList.flatMap fun s =>
        ((g.link n).producer? s).toList).foldl SortedSet.erase g.rootSet } : Graph).refreshRoot
        g.nextId).rootSet := by
    simp only [link, foldl_indexOutput, foldl_indexInput]
    rfl
  have herase : i ∈ (n.inputs.toList.flatMap fun s =>
      ((g.link n).producer? s).toList).foldl SortedSet.erase g.rootSet ↔
      i ∈ g.rootSet ∧ ∀ s ∈ n.inputs, (g.link n).producer? s ≠ some i := by
    simp [SortedSet.mem_foldl_erase, SortedSet.mem_toList]
  rw [hroots, mem_rootSet_refreshRoot, herase]
  refine or_congr ⟨?_, ?_⟩ ⟨?_, ?_⟩
  · rintro ⟨⟨rfl, -⟩, he⟩
    exact ⟨rfl, he⟩
  · rintro ⟨rfl, he⟩
    exact ⟨⟨rfl, hc⟩, he⟩
  · rintro ⟨hi, h⟩
    exact ⟨fun he => hi ⟨he, hc⟩, h⟩
  · rintro ⟨hi, h⟩
    exact ⟨fun he => hi he.1, h⟩

end Link

section Detach

theorem detach_eq : ∃ roots, g.detach id n =
    { g with
      nodes := g.nodes.erase id
      freed := id :: g.freed
      edges := g.edges.filter fun e => e.supplier ≠ id && e.consumer ≠ id
      producers := n.outputs.toList.foldl SortedMap.erase g.producers
      readers := n.inputs.toList.foldl (fun m s => m.dropAt s id) g.readers
      byKey := n.outputs.toList.foldl (fun m s => m.dropAt s.key s) g.byKey
      backing := n.outputs.toList.foldl SortedMap.erase g.backing
      marketData := n.outputs.toList.foldl SortedSet.erase g.marketData
      targetCounts := g.targetCounts.decrement n.target
      external := n.outputs.toList.foldl SortedSet.erase g.external
      rootSet := roots } := by
  simp only [detach, foldl_retractOutput, foldl_unindexInput]
  exact foldl_refreshRoot_eq _

theorem nodes_detach : (g.detach id n).nodes = g.nodes.erase id := by
  obtain ⟨roots, h⟩ := detach_eq (g := g) (n := n)
  rw [h]

@[simp] theorem node?_detach : (g.detach id n).node? i = if id = i then none else g.node? i := by
  unfold node?
  rw [nodes_detach, SortedMap.get?_erase]

theorem freed_detach : (g.detach id n).freed = id :: g.freed := by
  obtain ⟨roots, h⟩ := detach_eq (g := g) (n := n)
  rw [h]

theorem unused_detach : (g.detach id n).unused = g.unused := by
  obtain ⟨roots, h⟩ := detach_eq (g := g) (n := n)
  rw [h]

theorem targetCounts_detach :
    (g.detach id n).targetCounts = g.targetCounts.decrement n.target := by
  obtain ⟨roots, h⟩ := detach_eq (g := g) (n := n)
  rw [h]

@[simp] theorem producer?_detach :
    (g.detach id n).producer? s = if s ∈ n.outputs then none else g.producer? s := by
  obtain ⟨roots, h⟩ := detach_eq (g := g) (n := n)
  unfold producer?
  rw [h]
  exact SortedMap.get?_foldl_erase

theorem get?_backing_detach :
    (g.detach id n).backing.get? s = if s ∈ n.outputs then none else g.backing.get? s := by
  obtain ⟨roots, h⟩ := detach_eq (g := g) (n := n)
  rw [h]
  exact SortedMap.get?_foldl_erase

theorem mem_external_detach : s ∈ (g.detach id n).external ↔ s ∈ g.external ∧ s ∉ n.outputs := by
  obtain ⟨roots, h⟩ := detach_eq (g := g) (n := n)
  rw [h]
  exact SortedSet.mem_foldl_erase

theorem mem_marketData_detach :
    s ∈ (g.detach id n).marketData ↔ s ∈ g.marketData ∧ s ∉ n.outputs := by
  obtain ⟨roots, h⟩ := detach_eq (g := g) (n := n)
  rw [h]
  exact SortedSet.mem_foldl_erase

theorem mem_readers_detach :
    i ∈ (g.detach id n).readers.setAt s ↔ i ∈ g.readers.setAt s ∧ ¬ (s ∈ n.inputs ∧ i = id) := by
  obtain ⟨roots, h⟩ := detach_eq (g := g) (n := n)
  rw [h]
  refine SortedMap.mem_setAt_foldl_dropAt.trans (and_congr_right fun _ => ?_)
  simp only [SortedSet.mem_toList]
  grind

theorem mem_byKey_detach {k : ValueKey} :
    s ∈ (g.detach id n).byKey.setAt k ↔ s ∈ g.byKey.setAt k ∧ ¬ (s ∈ n.outputs ∧ s.key = k) := by
  obtain ⟨roots, h⟩ := detach_eq (g := g) (n := n)
  rw [h]
  refine SortedMap.mem_setAt_foldl_dropAt.trans (and_congr_right fun _ => ?_)
  simp only [SortedSet.mem_toList]
  grind

theorem mem_edges_detach {e : Edge} :
    e ∈ (g.detach id n).edges ↔ e ∈ g.edges ∧ e.supplier ≠ id ∧ e.consumer ≠ id := by
  obtain ⟨roots, h⟩ := detach_eq (g := g) (n := n)
  rw [h]
  simp

theorem mem_rootSet_detach :
    i ∈ (g.detach id n).rootSet ↔
      i ≠ id ∧ ((∃ e ∈ g.edges, e.consumer = id ∧ e.supplier = i) ∧ g.contains i ∧
          (∀ e ∈ (g.detach id n).edges, e.supplier ≠ i) ∨
        ¬ ((∃ e ∈ g.edges, e.consumer = id ∧ e.supplier = i) ∧ g.contains i) ∧ i ∈ g.rootSet) := by
  have hc : ({ g.detach id n with rootSet := g.rootSet.erase id } : Graph).contains i ↔
      i ≠ id ∧ g.contains i := by
    show ((g.detach id n).node? i).isSome ↔ _
    simp only [contains, node?_detach]
    grind
  have hu : i ∈ (g.edges.filter (·.consumer = id)).map (·.supplier) ↔
      ∃ e ∈ g.edges, e.consumer = id ∧ e.supplier = i := by
    simp [and_assoc]
  have hroots : (g.detach id n).rootSet =
      (((g.edges.filter (·.consumer = id)).map (·.supplier)).foldl refreshRoot
        { g.detach id n with rootSet := g.rootSet.erase id }).rootSet := by
    obtain ⟨roots, h⟩ := detach_eq (g := g) (n := n)
    conv => rhs; rw [h]
    simp only [detach, foldl_retractOutput, foldl_unindexInput]
    rfl
  rw [hroots, mem_rootSet_foldl_refreshRoot, hu, hc, SortedSet.mem_erase]
  grind

end Detach

end ValueGraph.Graph
