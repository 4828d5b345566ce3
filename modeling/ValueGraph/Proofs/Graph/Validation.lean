import ValueGraph.Proofs.Graph.Backing
import ValueGraph.Graph.Validation
import ValueGraph.Proofs.Graph.Order

namespace ValueGraph.Graph

variable {g : Graph} {id : NodeId} {n : Node} {s : ValueSpec} {f : Fault}
  {order : List NodeId} {e : GraphError}

theorem mem_faults_iff : f ∈ g.faults ↔
    (∃ id n, g.node? id = some n ∧
      (g.producerFault? id n = some f ∨ g.rootFault? id n = some f)) ∨
    (∃ s ∈ g.backing.keys, g.terminalFault? s = some f) ∨ f ∈ g.orderFaults := by
  unfold faults
  simp only [List.mem_mergeSort, List.mem_append, List.mem_flatMap, List.mem_filterMap,
    Option.mem_toList, or_assoc]
  refine or_congr_left ⟨?_, ?_⟩
  · rintro ⟨⟨id, n⟩, he, hf⟩
    exact ⟨id, n, SortedMap.get?_eq_some_iff.2 he, hf⟩
  · rintro ⟨id, n, hn, hf⟩
    exact ⟨(id, n), SortedMap.get?_eq_some_iff.1 hn, hf⟩

theorem orderFaults_of_error (h : g.executionOrder = .error e) : g.orderFaults = [.noOrder e] := by
  unfold orderFaults
  rw [h]

section Faults

variable (h : g.Sound)
include h

theorem Sound.producerFault?_eq (hn : g.node? id = some n) :
    g.producerFault? id n =
      if n.outputs.isEmpty then some (.noOutputs id n.function) else none := by
  have hback : ∀ s ∈ n.outputs.toList, g.producer? s = some id := fun s hs =>
    (h.indexed.producers s id).2 ⟨n, hn, hs⟩
  unfold producerFault?
  refine if_congr .rfl rfl (List.findSome?_eq_none_iff.2 fun s hs => ?_)
  rw [hback s hs]
  exact if_pos rfl

/-- Only a node that reads its own outputs, and feeds no other, is missing from the roots. -/
theorem Sound.rootFault?_eq_some_iff (hn : g.node? id = some n) :
    g.rootFault? id n = some f ↔
      f = .unmarkedRoot id ∧ g.Feeds id id ∧ ∀ c, g.Feeds id c → c = id := by
  have hfeeds : (g.idsWhere n.feeds).any (· ≠ id) = true ↔ ∃ c, g.Feeds id c ∧ c ≠ id := by
    unfold idsWhere
    simp only [List.any_map, List.any_filter, List.any_eq_true, Function.comp_apply,
      Bool.and_eq_true, decide_eq_true_eq, Node.feeds, SortedSet.meets]
    constructor
    · rintro ⟨⟨c, m⟩, he, ⟨s, hs, hm⟩, hc⟩
      exact ⟨c, ⟨s, ⟨n, hn, hs⟩, m, SortedMap.get?_eq_some_iff.2 he, hm⟩, hc⟩
    · rintro ⟨c, ⟨s, hp, m, hm, hs⟩, hc⟩
      have hs' : s ∈ n.outputs := (h.indexed.mem_outputs_iff hn hp).2 rfl
      exact ⟨(c, m), SortedMap.get?_eq_some_iff.1 hm, ⟨s, hs', hs⟩, hc⟩
  have hroot : g.isRoot id = true ↔ ∀ c, ¬ g.Feeds id c := by
    have hcontains : g.contains id := by simp [Graph.contains, hn]
    have hid : id ∈ g.rootSet ↔ g.contains id ∧ ∀ c, ¬ g.Feeds id c := h.roots id
    unfold isRoot
    rw [decide_eq_true_eq, hid]
    exact and_iff_right hcontains
  unfold rootFault?
  cases hany : (g.idsWhere n.feeds).any (· ≠ id) with
  | true =>
    obtain ⟨c, hc, hne⟩ := hfeeds.1 hany
    have hno : g.isRoot id = false := by
      rw [Bool.eq_false_iff, Ne, hroot]
      exact fun hall => hall c hc
    rw [hno]
    exact iff_of_false (by simp) fun hf => hne (hf.2.2 c hc)
  | false =>
    have hself : ∀ c, g.Feeds id c → c = id := by
      intro c hc
      by_contra hne
      rw [hfeeds.2 ⟨c, hc, hne⟩] at hany
      cases hany
    cases hr : g.isRoot id with
    | true => exact iff_of_false (by simp) fun hf => hroot.1 hr id hf.2.1
    | false =>
      have hown : g.Feeds id id := by
        by_contra hno
        rw [hroot.2 fun c hc => hno (hself c hc ▸ hc)] at hr
        cases hr
      rw [Option.some.injEq, eq_comm]
      exact (and_iff_left ⟨hown, hself⟩).symm

theorem Sound.terminalFault?_eq_none (hs : s ∈ g.backing.keys) : g.terminalFault? s = none := by
  obtain ⟨⟨s, rs⟩, he, rfl⟩ := List.mem_map.1 hs
  obtain ⟨⟨id, n, hn, ho, ht⟩, -⟩ := h.indexed.backing s rs (SortedMap.get?_eq_some_iff.2 he)
  have hp : g.producer? s = some id := (h.indexed.producers s id).2 ⟨n, hn, ho⟩
  have hsource : g.source? s = some (id, n) := by
    unfold source?
    rw [hp, Option.bind_eq_bind, Option.bind_some, hn]
    rfl
  unfold terminalFault?
  rw [hsource, if_pos]
  simpa [Node.isTerminal] using ht

theorem Sound.orderFaults_eq_nil (ho : g.executionOrder = .ok order) : g.orderFaults = [] := by
  have hlength : order.length = g.size := by
    -- The order and the nodes are the same, each of them once.
    have hperm : order.Perm g.ids :=
      (List.perm_ext_iff_of_nodup (nodup_executionOrder ho) SortedMap.nodup_keys).2 fun id =>
        (mem_executionOrder_iff ho).trans mem_scope_iff.symm
    exact hperm.length_eq.trans (List.length_map _)
  unfold orderFaults
  rw [ho]
  dsimp only
  rw [if_pos hlength, List.nil_append, List.flatMap_eq_nil_iff]
  rintro ⟨id, i⟩ hid
  have hi : order.reverse.reverse[i]? = some id := by
    rw [List.reverse_reverse]
    exact List.mem_zipIdx_iff_getElem?.1 hid
  rw [List.map_eq_nil_iff, List.filter_eq_nil_iff]
  intro p hp
  have ⟨s, hs, _⟩ := h.indexed.mem_suppliers.1 hp
  have hscope : p ∈ g.scope none := mem_scope_iff.2 ⟨hs.contains, nofun⟩
  have hbefore := (arranged_executionOrder ho).1.mem_take hi hp hscope
  rw [List.reverse_reverse] at hbefore
  simpa using List.take_subset_take_left order (Nat.le_succ i) hbefore

theorem Sound.executionOrder_cases :
    (∃ order, g.executionOrder = .ok order) ∧ (∀ id, ¬ Relation.TransGen g.Feeds id id) ∨
      ∃ id, g.executionOrder = .error (.cycle id) ∧ Relation.TransGen g.Feeds id id := by
  rw [← feedsIn_none]
  cases ho : g.executionOrder with
  | ok order => exact .inl ⟨⟨order, rfl⟩, fun id => h.indexed.not_cycle_of_executionOrder ho⟩
  | error e =>
    obtain ⟨id, rfl, hcycle⟩ := h.indexed.cycle_of_executionOrder ho
    exact .inr ⟨id, rfl, hcycle⟩

theorem Sound.mem_orderFaults_iff :
    f ∈ g.orderFaults ↔ ∃ id, f = .noOrder (.cycle id) ∧ g.executionOrder = .error (.cycle id) := by
  rcases h.executionOrder_cases with ⟨⟨order, ho⟩, -⟩ | ⟨id, ho, -⟩
  · simp [h.orderFaults_eq_nil ho, ho]
  · simp [orderFaults_of_error ho, ho]

theorem Sound.mem_faults_iff : f ∈ g.faults ↔
    (∃ id n, g.node? id = some n ∧ n.outputs.isEmpty ∧ f = .noOutputs id n.function) ∨
    (∃ id, f = .unmarkedRoot id ∧ g.Feeds id id ∧ ∀ c, g.Feeds id c → c = id) ∨
    ∃ id, f = .noOrder (.cycle id) ∧ g.executionOrder = .error (.cycle id) := by
  rw [Graph.mem_faults_iff, h.mem_orderFaults_iff]
  constructor
  · rintro (⟨id, n, hn, hf | hf⟩ | ⟨s, hs, hf⟩ | hf)
    · rw [h.producerFault?_eq hn] at hf
      split at hf
      next hempty =>
        cases hf
        exact .inl ⟨id, n, hn, hempty, rfl⟩
      next => cases hf
    · exact .inr (.inl ⟨id, (h.rootFault?_eq_some_iff hn).1 hf⟩)
    · rw [h.terminalFault?_eq_none hs] at hf
      cases hf
    · exact .inr (.inr hf)
  · rintro (⟨id, n, hn, hempty, rfl⟩ | ⟨id, hf, hown, hself⟩ | hf)
    · refine .inl ⟨id, n, hn, .inl ?_⟩
      rw [h.producerFault?_eq hn, if_pos hempty]
    · have ⟨s, ⟨n, hn, _⟩, _⟩ := hown
      exact .inl ⟨id, n, hn, .inr ((h.rootFault?_eq_some_iff hn).2 ⟨hf, hown, hself⟩)⟩
    · exact .inr (.inr hf)

end Faults

theorem isEmpty_outputs_iff : n.outputs.isEmpty ↔ ∀ s, s ∉ n.outputs := by
  simp only [SortedSet.isEmpty, List.isEmpty_iff, List.eq_nil_iff_forall_not_mem,
    SortedSet.mem_toList]

/-- What the checks of a graph find. -/
structure ChecksExactly (g : Graph) : Prop where
  passes : g.faults = [] ↔ (∀ id n, g.node? id = some n → ∃ s, s ∈ n.outputs) ∧
    ∀ id, ¬ Relation.TransGen g.Feeds id id
  emptyNode : ∀ f, f ∈ g.faults ∧ f.rule = .emptyNode ↔
    ∃ id n, g.node? id = some n ∧ (∀ s, s ∉ n.outputs) ∧ f = .noOutputs id n.function
  /-- A node that reads its own outputs, and feeds no other, is held to be a root. -/
  rootSet : ∀ f, f ∈ g.faults ∧ f.rule = .rootSet ↔
    ∃ id, f = .unmarkedRoot id ∧ g.Feeds id id ∧ ∀ c, g.Feeds id c → c = id
  ordering : (∃ f ∈ g.faults, f.rule = .ordering) ↔ ∃ id, Relation.TransGen g.Feeds id id
  /-- The node that is blamed is on a cycle. -/
  blamed : ∀ f ∈ g.faults, f.rule = .ordering →
    ∃ id, f = .noOrder (.cycle id) ∧ Relation.TransGen g.Feeds id id
  others : ∀ f ∈ g.faults, f.rule ≠ .producerIndex ∧ f.rule ≠ .terminal

theorem Sound.checksExactly (h : g.Sound) : g.ChecksExactly := by
  have hcycle : (∃ id, g.executionOrder = .error (.cycle id)) ↔
      ∃ id, Relation.TransGen g.Feeds id id := by
    rcases h.executionOrder_cases with ⟨⟨order, ho⟩, hno⟩ | ⟨id, ho, hcycle⟩
    · simp [ho, hno]
    · exact iff_of_true ⟨id, ho⟩ ⟨id, hcycle⟩
  refine ⟨?_, fun f => ?_, fun f => ?_, ?_, fun f hf hr => ?_, fun f hf => ?_⟩
  · rw [List.eq_nil_iff_forall_not_mem]
    simp only [h.mem_faults_iff, not_or, not_exists]
    constructor
    · intro hno
      refine ⟨fun id n hn => ?_, fun id hid => ?_⟩
      · by_contra hempty
        exact (hno (.noOutputs id n.function)).1 id n
          ⟨hn, isEmpty_outputs_iff.2 (not_exists.1 hempty), rfl⟩
      · obtain ⟨i, hi⟩ := hcycle.2 ⟨id, hid⟩
        exact (hno (.noOrder (.cycle i))).2.2 i ⟨rfl, hi⟩
    · rintro ⟨houtputs, hacyclic⟩ f
      refine ⟨fun id n hn => ?_, fun id hid => ?_, fun id hid => ?_⟩
      · obtain ⟨s, hs⟩ := houtputs id n hn.1
        exact isEmpty_outputs_iff.1 hn.2.1 s hs
      · exact hacyclic id (.single hid.2.1)
      · obtain ⟨i, hi⟩ := hcycle.1 ⟨id, hid.2⟩
        exact hacyclic i hi
  · rw [h.mem_faults_iff]
    simp only [← isEmpty_outputs_iff]
    constructor
    · rintro ⟨hf | ⟨id, rfl, -⟩ | ⟨id, rfl, -⟩, hr⟩
      · exact hf
      · cases hr
      · cases hr
    · rintro ⟨id, n, hn, hempty, rfl⟩
      exact ⟨.inl ⟨id, n, hn, hempty, rfl⟩, rfl⟩
  · rw [h.mem_faults_iff]
    constructor
    · rintro ⟨⟨id, n, -, -, rfl⟩ | hf | ⟨id, rfl, -⟩, hr⟩
      · cases hr
      · exact hf
      · cases hr
    · rintro ⟨id, rfl, hf⟩
      exact ⟨.inr (.inl ⟨id, rfl, hf⟩), rfl⟩
  · rw [← hcycle]
    constructor
    · rintro ⟨f, hf, hr⟩
      rcases h.mem_faults_iff.1 hf with ⟨id, n, -, -, rfl⟩ | ⟨id, rfl, -⟩ | ⟨id, -, ho⟩
      · cases hr
      · cases hr
      · exact ⟨id, ho⟩
    · rintro ⟨id, ho⟩
      exact ⟨.noOrder (.cycle id), h.mem_faults_iff.2 (.inr (.inr ⟨id, rfl, ho⟩)), rfl⟩
  · rcases h.mem_faults_iff.1 hf with ⟨id, n, -, -, rfl⟩ | ⟨id, rfl, -⟩ | ⟨id, rfl, ho⟩
    · cases hr
    · cases hr
    · rcases h.executionOrder_cases with ⟨⟨order, ho'⟩, -⟩ | ⟨i, ho', hi⟩
      · rw [ho'] at ho
        cases ho
      · rw [ho'] at ho
        cases ho
        exact ⟨id, rfl, hi⟩
  · rcases h.mem_faults_iff.1 hf with ⟨id, n, -, -, rfl⟩ | ⟨id, rfl, -⟩ | ⟨id, rfl, -⟩ <;>
      exact ⟨nofun, nofun⟩

/-- A graph that operations have made has no faults, if its nodes have outputs and no cycles. -/
theorem Sound.faults_eq_nil (h : g.Sound) (hacyclic : ∀ i, ¬ Relation.TransGen g.Feeds i i)
    (houtputs : ∀ id n, g.node? id = some n → ∃ s, s ∈ n.outputs) : g.faults = [] :=
  h.checksExactly.passes.2 ⟨houtputs, hacyclic⟩

/-- Whatever nodes the operations put into a graph, its checks find no more and no less. -/
theorem checksExactly_after (configuration : String) (os : List Operation) :
    (after configuration os).ChecksExactly :=
  (sound_after configuration os).checksExactly

end ValueGraph.Graph
