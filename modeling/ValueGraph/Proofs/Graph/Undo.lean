import ValueGraph.Proofs.Graph.Continuity

namespace ValueGraph.Graph

variable {g g' : Graph} {id i : NodeId} {n : Node} {s : ValueSpec} {k : Nat}

section Ids

/-- The id of the node that is added after `k` others, if none is taken out before. -/
def idAfter (g : Graph) (k : Nat) : NodeId := g.freed[k]?.getD (g.unused + (k - g.freed.length))

theorem nextId_eq_idAfter : g.nextId = g.idAfter 0 := by
  unfold nextId idAfter
  cases g.freed <;> simp

theorem idAfter_link : (g.link n).idAfter k = g.idAfter (k + 1) := by
  unfold idAfter
  rw [freed_link, unused_link]
  cases g.freed with
  | nil => simp [Nat.add_comm, Nat.add_left_comm]
  | cons id freed => simp

theorem idAfter_detach : (g.detach id n).idAfter k = if k = 0 then id else g.idAfter (k - 1) := by
  unfold idAfter
  rw [freed_detach, unused_detach]
  cases k <;> simp

theorem Sound.idAfter_replace {new : Node} (h : g.Sound) (hr : g.replace id new = .ok (i, g')) :
    g'.idAfter k = g.idAfter k := by
  obtain ⟨old, hold, -⟩ := exists_of_replace hr
  have same := h.sameOutputs_replace hold hr
  have hlinked : g'.idAfter k = ((g.detach id old).link new).idAfter k := by
    unfold idAfter
    rw [same.freed, same.unused]
  rw [hlinked, idAfter_link, idAfter_detach, if_neg (Nat.succ_ne_zero k), Nat.add_sub_cancel]

end Ids

section Interchangeable

/-- Do the graphs agree in all that their answers, now and later, follow from? -/
structure Interchangeable (g g' : Graph) : Prop where
  nodes : g.nodes = g'.nodes
  backing : g.backing = g'.backing
  external : g.external = g'.external
  ids : ∀ k, g.idAfter k = g'.idAfter k

variable (same : g.Interchangeable g')
include same

theorem Interchangeable.node? : g.node? = g'.node? := by
  funext id
  unfold Graph.node?
  rw [same.nodes]

theorem Interchangeable.nextId : g.nextId = g'.nextId := by
  rw [nextId_eq_idAfter, nextId_eq_idAfter, same.ids]

theorem Interchangeable.link (n : Node) : (g.link n).Interchangeable (g'.link n) where
  nodes := by rw [nodes_link, nodes_link, same.nodes, same.nextId]
  backing := by rw [backing_link, backing_link, same.backing]
  external := by rw [external_link, external_link, same.external]
  ids k := by rw [idAfter_link, idAfter_link, same.ids]

theorem Interchangeable.detach (id : NodeId) (n : Node) :
    (g.detach id n).Interchangeable (g'.detach id n) where
  nodes := by rw [nodes_detach, nodes_detach, same.nodes]
  backing := by
    apply SortedMap.ext_get?
    intro s
    rw [get?_backing_detach, get?_backing_detach, same.backing]
  external := by
    apply SortedSet.ext_mem
    intro s
    rw [mem_external_detach, mem_external_detach, same.external]
  ids k := by rw [idAfter_detach, idAfter_detach, same.ids]

theorem Interchangeable.modifyNode (id : NodeId) (f : Node → Node) :
    (g.modifyNode id f).Interchangeable (g'.modifyNode id f) :=
  ⟨congrArg (SortedMap.modify · id f) same.nodes, same.backing, same.external, same.ids⟩

theorem Interchangeable.withBacking {backing backing' : SortedMap ValueSpec (SortedSet Requirement)}
    (hbacking : backing = backing') :
    ({ g with backing } : Graph).Interchangeable { g' with backing := backing' } :=
  ⟨same.nodes, hbacking, same.external, same.ids⟩

theorem Interchangeable.weight : g.weight = g'.weight := by
  unfold Graph.weight
  rw [same.nodes]

theorem Interchangeable.foldl_dropOutput (outputs : List ValueSpec) :
    (outputs.foldl (dropOutput id) g).Interchangeable (outputs.foldl (dropOutput id) g') := by
  induction outputs generalizing g g' with
  | nil => exact same
  | cons s outputs ih =>
    have hnodes := (same.modifyNode id (·.removeOutput s)).nodes
    exact ih ⟨hnodes, same.backing, congrArg (SortedSet.erase · s) same.external, same.ids⟩

theorem Interchangeable.foldl_detach (left : List (NodeId × Node)) :
    (left.foldl (fun h (id, n) => h.detach id n) g).Interchangeable
      (left.foldl (fun h (id, n) => h.detach id n) g') := by
  induction left generalizing g g' with
  | nil => exact same
  | cons e left ih => exact ih (same.detach e.1 e.2)

theorem Interchangeable.produces : g.Produces = g'.Produces := by
  unfold Produces
  rw [same.node?]

theorem Interchangeable.reads : g.Reads = g'.Reads := by
  unfold Reads
  rw [same.node?]

end Interchangeable

section Answers

/-- Do the graphs give the same answer to each question? -/
structure Indistinguishable (g g' : Graph) : Prop extends Alike g g' where
  producer? : ∀ s, g.producer? s = g'.producer? s
  consumers : ∀ s, g.consumers s = g'.consumers s
  find? : ∀ name target constraints,
    g.find? name target constraints = g'.find? name target constraints
  suppliers : ∀ id, g.suppliers id = g'.suppliers id
  nextId : g.nextId = g'.nextId

variable (h : g.Sound) (h' : g'.Sound) (same : g.Interchangeable g')
include h h' same

theorem Sound.producer?_eq : g.producer? = g'.producer? := by
  funext s
  apply Option.ext
  intro id
  rw [h.indexed.producers, h'.indexed.producers, same.produces]

theorem Sound.consumers_eq : g.consumers = g'.consumers := by
  funext s
  apply congrArg SortedSet.toList
  apply SortedSet.ext_mem
  intro id
  rw [h.indexed.readers, h'.indexed.readers, same.reads]

theorem Sound.isNeeded_eq : g.isNeeded = g'.isNeeded := by
  funext s
  rw [Bool.eq_iff_iff, h.indexed.isNeeded_iff, h'.indexed.isNeeded_iff]
  unfold isTerminal isExternal
  rw [same.backing, same.external, same.reads]

theorem Sound.conflict?_eq {self : Option NodeId} : g.conflict? n self = g'.conflict? n self := by
  unfold conflict?
  rw [h.producer?_eq h' same]

theorem Sound.indistinguishable : g.Indistinguishable g' where
  toAlike := h.alike h' same.nodes same.backing same.external
  producer? := congrFun (h.producer?_eq h' same)
  consumers := congrFun (h.consumers_eq h' same)
  find? name target constraints := by
    have hset : g.byKey.setAt ⟨name, target⟩ = g'.byKey.setAt ⟨name, target⟩ := by
      apply SortedSet.ext_mem
      intro s
      rw [h.indexed.byKey, h'.indexed.byKey, same.produces]
    unfold Graph.find?
    rw [hset]
  suppliers id := by
    apply congrArg SortedSet.toList
    apply SortedSet.ext_mem
    intro p
    have hp := h.agrees.suppliers p id
    have hp' := h'.agrees.suppliers p id
    unfold Feeds at hp hp'
    rw [same.produces, same.reads] at hp
    exact hp.trans hp'.symm
  nextId := same.nextId

end Answers

section Operations

variable (h : g.Sound) (h' : g'.Sound) (same : g.Interchangeable g')
include h h' same

theorem Sound.interchangeable_trim (id : NodeId) : (g.trim id).Interchangeable (g'.trim id) := by
  unfold Graph.trim
  rw [same.node?, h.isNeeded_eq h' same]
  cases g'.node? id with
  | none => exact same
  | some n =>
    dsimp only
    split
    · exact same.detach id n
    · exact same.foldl_dropOutput _

theorem Sound.interchangeable_foldl_trim (ids : List NodeId) :
    (ids.foldl Graph.trim g).Interchangeable (ids.foldl Graph.trim g') := by
  induction ids generalizing g g' with
  | nil => exact same
  | cons id ids ih => exact ih (h.trim id) (h'.trim id) (h.interchangeable_trim h' same id)

theorem Sound.interchangeable_trimAll : g.trimAll.Interchangeable g'.trimAll := by
  have hids : g.ids = g'.ids := congrArg SortedMap.keys same.nodes
  unfold trimAll
  rw [hids]
  exact h.interchangeable_foldl_trim h' same g'.ids

theorem Sound.interchangeable_prune : g.prune.Interchangeable g'.prune := by
  -- By the recursion of `prune`: as the nodes are the same, both go on or both stop.
  induction g using Graph.prune.induct generalizing g' with
  | case1 g hlt ih =>
    have hpass := h.interchangeable_trimAll h' same
    have hlt' : g'.trimAll.weight < g'.weight := by
      rwa [← hpass.weight, ← same.weight]
    have hprune : g.prune = g.trimAll.prune := by rw [Graph.prune, if_pos hlt]
    have hprune' : g'.prune = g'.trimAll.prune := by rw [Graph.prune, if_pos hlt']
    rw [hprune, hprune']
    exact ih (h.foldl_trim g.ids) (h'.foldl_trim g'.ids) hpass
  | case2 g hlt =>
    have hpass := h.interchangeable_trimAll h' same
    have hlt' : ¬ g'.trimAll.weight < g'.weight := by
      rwa [← hpass.weight, ← same.weight]
    have hprune : g.prune = g := by rw [Graph.prune, if_neg hlt]
    have hprune' : g'.prune = g' := by rw [Graph.prune, if_neg hlt']
    rw [hprune, hprune']
    exact same

theorem Sound.interchangeable_part (keep : SortedSet NodeId) :
    (g.part keep).Interchangeable (g'.part keep) := by
  have hrest := same.foldl_detach (g.nodes.entries.filter fun (id, _) => id ∉ keep)
  have hread : g.readOutside keep = g'.readOutside keep := by
    unfold readOutside
    rw [h.consumers_eq h' same, same.nodes]
  unfold Graph.part
  rw [← same.nodes, ← hread]
  exact ⟨hrest.nodes, hrest.backing, congrArg (· ∪ _) hrest.external, hrest.ids⟩

theorem Sound.interchangeable_mark (r : Requirement) (s : ValueSpec) :
    (g.apply (.mark r s)).Interchangeable (g'.apply (.mark r s)) := by
  simp only [Graph.apply, Graph.mark, h.producer?_eq h' same]
  cases g'.producer? s with
  | none => exact same
  | some id =>
    have hbacking := congrArg (SortedMap.addAllAt · s (.singleton r)) same.backing
    exact (same.withBacking hbacking).modifyNode id (·.flag s)

theorem Sound.interchangeable_unmark (rs : List Requirement) (s : ValueSpec) :
    (g.unmark rs s).Interchangeable (g'.unmark rs s) := by
  unfold Graph.unmark
  rw [same.backing]
  cases g'.backing.get? s with
  | none => exact same
  | some backed =>
    dsimp only
    split
    · have hproducer := congrFun (h.producer?_eq h' same) s
      unfold Graph.producer? at hproducer ⊢
      dsimp only
      rw [hproducer]
      cases g'.producers.get? s with
      | none => exact same.withBacking rfl
      | some id => exact (same.withBacking rfl).modifyNode id (·.unflag s)
    · exact same.withBacking rfl

theorem Sound.interchangeable_replace {id i i' : NodeId} {new : Node} {r r' : Graph}
    (hr : g.replace id new = .ok (i, r)) (hr' : g'.replace id new = .ok (i', r')) :
    r.Interchangeable r' := by
  obtain ⟨old, hold, -⟩ := exists_of_replace hr
  have hold' : g'.node? id = some old := by rw [← same.node?, hold]
  have hterminal : g.isTerminal = g'.isTerminal := by
    unfold isTerminal
    rw [same.backing]
  refine ⟨SortedMap.ext_get? fun j => ?_, ?_, SortedSet.ext_mem fun s => ?_, fun k => ?_⟩
  · show r.node? j = r'.node? j
    by_cases hj : j = id
    · subst hj
      obtain ⟨terminal, hnode⟩ := h.exists_node?_replaced hr hold
      obtain ⟨terminal', hnode'⟩ := h'.exists_node?_replaced hr' hold'
      have hflags : terminal = terminal' := by
        apply SortedSet.ext_mem
        intro t
        have ht := h.mem_terminal_replaced hr hold hnode (t := t)
        have ht' := h'.mem_terminal_replaced hr' hold' hnode' (t := t)
        rw [hterminal] at ht
        exact ht.trans ht'.symm
      rw [eq_of_replace hr] at hnode
      rw [eq_of_replace hr'] at hnode'
      rw [hnode, hnode', hflags]
    · rw [h.node?_replace hr hold hj, h'.node?_replace hr' hold' hj, same.node?]
  · refine (h.replace hr).indexed.backing_eq (h'.replace hr').indexed fun t q => ?_
    rw [(h.replaces hr hold).backing, (h'.replaces hr' hold').backing, same.backing]
  · rw [h.mem_external_replace hr hold, h'.mem_external_replace hr' hold', same.external]
  · rw [h.idAfter_replace hr, h'.idAfter_replace hr', same.ids]

theorem Sound.interchangeable_apply (o : Operation) :
    (g.apply o).Interchangeable (g'.apply o) := by
  cases o with
  | add n =>
    simp only [Graph.apply, Graph.add, h.conflict?_eq h' same]
    cases g'.conflict? n with
    | none => exact same.link n
    | some _ => exact same
  | remove id =>
    simp only [Graph.apply, Graph.remove, same.node?]
    cases g'.node? id with
    | none => exact same
    | some n => exact same.detach id n
  | replace id new =>
    have hok : (∃ x, g.replace id new = .ok x) ↔ ∃ x, g'.replace id new = .ok x := by
      rw [h.exists_replace_iff, h'.exists_replace_iff]
      unfold contains
      rw [same.node?, same.produces]
    cases hr : g.replace id new with
    | error e =>
      cases hr' : g'.replace id new with
      | error e' => simpa only [Graph.apply, hr, hr'] using same
      | ok x => simp [hr, hr'] at hok
    | ok x =>
      cases hr' : g'.replace id new with
      | error e => simp [hr, hr'] at hok
      | ok x' =>
        simp only [Graph.apply, hr, hr']
        exact h.interchangeable_replace h' same hr hr'
  | mark r s => exact h.interchangeable_mark h' same r s
  | unmark rs s => exact h.interchangeable_unmark h' same rs s
  | prune => exact h.interchangeable_prune h' same
  | part keep => exact h.interchangeable_part h' same keep

theorem Sound.interchangeable_foldl_apply (os : List Operation) :
    (os.foldl Graph.apply g).Interchangeable (os.foldl Graph.apply g') := by
  induction os generalizing g g' with
  | nil => exact same
  | cons o os ih => exact ih (h.apply o) (h'.apply o) (h.interchangeable_apply h' same o)

end Operations

section Undo

/-- If a node is added and taken out again, all that the graph is known by is as it was. -/
theorem Sound.interchangeable_detach_link (h : g.Sound)
    (hfree : ∀ s ∈ n.outputs, ∀ p, ¬ g.Produces p s) :
    ((g.link n).detach g.nextId n).Interchangeable g where
  nodes := by
    rw [nodes_detach, nodes_link]
    exact SortedMap.erase_insert h.ids.node?_nextId
  backing := by
    apply SortedMap.ext_get?
    intro s
    rw [get?_backing_detach, backing_link]
    split
    next hs =>
      -- What nobody produces backs nothing.
      cases hb : g.backing.get? s with
      | none => rfl
      | some rs =>
        obtain ⟨⟨p, m, hm, ho, -⟩, -⟩ := h.indexed.backing s rs hb
        exact absurd ⟨m, hm, ho⟩ (hfree s hs p)
    next => rfl
  external := by
    apply SortedSet.ext_mem
    intro s
    rw [mem_external_detach, external_link]
    refine and_iff_left_of_imp fun he hs => ?_
    obtain ⟨p, hp⟩ := h.indexed.external s he
    exact hfree s hs p hp
  ids k := by
    rw [idAfter_detach, idAfter_link]
    cases k with
    | zero => exact nextId_eq_idAfter
    | succ k => rfl

/--
A node that was added can be taken out again, and comes back as it was given. Then the graph answers
as if it had never been added, whatever is done next.
-/
theorem indistinguishable_after_remove_add (configuration : String) (os : List Operation) (n : Node)
    (id : NodeId) (g' : Graph) :
    let g := after configuration os
    g.add n = .ok (id, g') → ∃ g'', g'.remove id = .ok (n, g'') ∧
      ∀ next : List Operation, (next.foldl apply g'').Indistinguishable (next.foldl apply g) := by
  intro g ha
  have h : g.Sound := sound_after configuration os
  have h' : g'.Sound := h.add ha
  obtain ⟨rfl, rfl, hn⟩ := link_of_add ha
  have hnode : (g.link n).node? g.nextId = some n := by simp
  refine ⟨(g.link n).detach g.nextId n, ?_, fun next => ?_⟩
  · unfold Graph.remove
    rw [hnode]
  · have h'' := h'.detach hnode
    have hfree : ∀ s ∈ n.outputs, ∀ p, ¬ g.Produces p s := by
      intro s hs p hp
      have hproducer := (h.indexed.producers s p).2 hp
      rw [hn s hs] at hproducer
      cases hproducer
    have same := h''.interchangeable_foldl_apply h (h.interchangeable_detach_link hfree) next
    exact (h''.foldl_apply next).indistinguishable (h.foldl_apply next) same

def requotingItself : Node := { requoting with inputs := .ofList [quote, future] }

/-- The node that is read stops being a root, and is one again. -/
theorem indistinguishable_after_remove_add_requoting :
    let g := after "Default" [.add quoting, .add (pricing future)]
    ∃ g' g'', g.add requotingItself = .ok (2, g') ∧ g'.remove 2 = .ok (requotingItself, g'') ∧
      g'.roots = [1] ∧ g''.roots = [0, 1] ∧ g''.nextId = 2 := by
  intro g
  obtain ⟨g'', hremove, hsame⟩ := indistinguishable_after_remove_add "Default"
    [.add quoting, .add (pricing future)] requotingItself 2 _ rfl
  have hsame := hsame []
  refine ⟨_, g'', rfl, hremove, by decide +kernel, ?_, ?_⟩
  · exact hsame.roots.trans (by decide +kernel)
  · exact hsame.nextId.trans (by decide +kernel)

end Undo

end ValueGraph.Graph
