import ValueGraph.Graph.Part
import ValueGraph.Graph.Prune
import ValueGraph.Graph.Replace
import ValueGraph.Proofs.Graph.Indexed

namespace ValueGraph.Graph

variable {g g' g'' : Graph} {id i p c : NodeId} {n : Node} {s : ValueSpec}

section Modify

variable {f : Node → Node}

theorem node?_modifyNode :
    (g.modifyNode id f).node? i = if id = i then (g.node? i).map f else g.node? i :=
  SortedMap.get?_modify

@[simp] theorem contains_modifyNode : (g.modifyNode id f).contains i = g.contains i := by
  simp only [contains, node?_modifyNode]
  split <;> simp

theorem produces_modifyNode (hf : ∀ n, (f n).outputs = n.outputs) :
    (g.modifyNode id f).Produces i s ↔ g.Produces i s := by
  unfold Produces
  rw [node?_modifyNode]
  split
  · cases g.node? i <;> simp [hf]
  · rfl

theorem reads_modifyNode (hf : ∀ n, (f n).inputs = n.inputs) :
    (g.modifyNode id f).Reads i s ↔ g.Reads i s := by
  unfold Reads
  rw [node?_modifyNode]
  split
  · cases g.node? i <;> simp [hf]
  · rfl

theorem sources_modifyNode (hf : ∀ n, (f n).outputs = n.outputs)
    (hm : ∀ n, (f n).function = n.function) :
    (g.modifyNode id f).Sources s ↔ g.Sources s := by
  unfold Sources
  refine exists_congr fun i => ?_
  rw [node?_modifyNode]
  split
  · cases g.node? i <;> simp [hf, hm]
  · rfl

theorem Flagged.modifyNode (h : g.Flagged s)
    (hf : ∀ n, s ∈ n.outputs → s ∈ n.terminal → s ∈ (f n).outputs ∧ s ∈ (f n).terminal) :
    (g.modifyNode id f).Flagged s := by
  obtain ⟨i, n, hn, ho, ht⟩ := h
  by_cases hi : id = i
  · exact ⟨i, f n, by rw [node?_modifyNode, if_pos hi, hn, Option.map_some], hf n ho ht⟩
  · exact ⟨i, n, by rw [node?_modifyNode, if_neg hi, hn], ho, ht⟩

theorem countFor_modifyNode (hf : ∀ n, (f n).target = n.target) :
    (g.modifyNode id f).countFor = g.countFor := by
  funext t
  unfold countFor modifyNode SortedMap.modify
  cases hn : g.nodes.get? id with
  | none => rfl
  | some n =>
    rw [SortedMap.entries_insert_perm.countP_eq, (SortedMap.entries_perm_erase hn).countP_eq,
      List.countP_cons, List.countP_cons, hf]

end Modify

section Frame

/--
The graphs have nodes under the same ids, for the same targets and with the same outputs, and agree
in the indexes that say nothing of inputs, roots and flags.
-/
structure SameOutputs (g g' : Graph) : Prop where
  contains : ∀ id, g'.contains id = g.contains id
  produces : ∀ id s, g'.Produces id s ↔ g.Produces id s
  sources : ∀ s, g'.Sources s ↔ g.Sources s
  countFor : g'.countFor = g.countFor
  freed : g'.freed = g.freed
  unused : g'.unused = g.unused
  producers : g'.producers = g.producers
  byKey : g'.byKey = g.byKey
  marketData : g'.marketData = g.marketData
  targetCounts : g'.targetCounts = g.targetCounts
  external : g'.external = g.external

theorem SameOutputs.refl (g : Graph) : g.SameOutputs g :=
  ⟨fun _ => rfl, fun _ _ => .rfl, fun _ => .rfl, rfl, rfl, rfl, rfl, rfl, rfl, rfl, rfl⟩

theorem SameOutputs.trans (h : g.SameOutputs g') (h' : g'.SameOutputs g'') :
    g.SameOutputs g'' where
  contains id := (h'.contains id).trans (h.contains id)
  produces id s := (h'.produces id s).trans (h.produces id s)
  sources s := (h'.sources s).trans (h.sources s)
  countFor := h'.countFor.trans h.countFor
  freed := h'.freed.trans h.freed
  unused := h'.unused.trans h.unused
  producers := h'.producers.trans h.producers
  byKey := h'.byKey.trans h.byKey
  marketData := h'.marketData.trans h.marketData
  targetCounts := h'.targetCounts.trans h.targetCounts
  external := h'.external.trans h.external

theorem sameOutputs_modifyNode {f : Node → Node} (hf : ∀ n, (f n).outputs = n.outputs)
    (hm : ∀ n, (f n).function = n.function) (ht : ∀ n, (f n).target = n.target) :
    g.SameOutputs (g.modifyNode id f) where
  contains _ := contains_modifyNode
  produces _ _ := produces_modifyNode hf
  sources _ := sources_modifyNode hf hm
  countFor := countFor_modifyNode ht
  freed := rfl
  unused := rfl
  producers := rfl
  byKey := rfl
  marketData := rfl
  targetCounts := rfl
  external := rfl

theorem Indexed.frame (h : g.Indexed) (same : g.SameOutputs g')
    (hr : ∀ s id, id ∈ g'.readers.setAt s ↔ g'.Reads id s)
    (he : ∀ p c, (∃ s, ⟨p, c, s⟩ ∈ g'.edges) ↔ g'.Feeds p c)
    (hb : ∀ s rs, g'.backing.get? s = some rs → g'.Flagged s ∧ ∃ r, r ∈ rs) :
    g'.Indexed := by
  refine ⟨fun s id => ?_, hr, he, fun k s => ?_, fun s => ?_, ?_, fun s rs hs => ?_, fun s hs => ?_⟩
  · rw [same.produces, ← h.producers]
    unfold producer?
    rw [same.producers]
  · rw [same.byKey, h.byKey]
    simp only [same.produces]
  · rw [same.marketData, same.sources, h.marketData]
  · rw [same.targetCounts, same.countFor]
    exact h.targets
  · exact hb s rs hs
  · rw [same.external] at hs
    simp only [same.produces]
    exact h.external s hs

theorem FreshIds.frame (h : g.FreshIds) (same : g.SameOutputs g') : g'.FreshIds := by
  refine ⟨fun id hc => ?_, fun id hid => ?_, ?_⟩
  · rw [same.contains] at hc
    rw [same.unused, same.freed]
    exact h.used id hc
  · rw [same.freed] at hid
    rw [same.unused]
    exact h.freed id hid
  · rw [same.freed]
    exact h.once

structure SameLinks (g g' : Graph) : Prop extends SameOutputs g g' where
  reads : ∀ id s, g'.Reads id s ↔ g.Reads id s
  readers : g'.readers = g.readers
  edges : g'.edges = g.edges
  rootSet : g'.rootSet = g.rootSet

theorem Indexed.flags (h : g.Indexed) (same : g.SameLinks g')
    (hb : ∀ s rs, g'.backing.get? s = some rs → g'.Flagged s ∧ ∃ r, r ∈ rs) :
    g'.Indexed := by
  refine h.frame same.toSameOutputs (fun s id => ?_) (fun p c => ?_) hb
  · rw [same.readers, same.reads, h.readers]
  · rw [same.edges, h.edges]
    simp only [Feeds, same.produces, same.reads]

theorem RootAt.flags (h : g.RootAt i) (same : g.SameLinks g') : g'.RootAt i := by
  unfold RootAt Feeds
  rw [same.rootSet, same.contains]
  simp only [same.produces, same.reads]
  exact h

theorem Sound.flags (h : g.Sound) (same : g.SameLinks g')
    (hb : ∀ s rs, g'.backing.get? s = some rs → g'.Flagged s ∧ ∃ r, r ∈ rs) :
    g'.Sound :=
  ⟨h.ids.frame same.toSameOutputs, h.indexed.flags same hb, fun id => (h.roots id).flags same⟩

theorem SameLinks.refl (g : Graph) : g.SameLinks g :=
  ⟨SameOutputs.refl g, fun _ _ => .rfl, rfl, rfl, rfl⟩

theorem SameLinks.withBacking (h : g.SameLinks g')
    (backing : SortedMap ValueSpec (SortedSet Requirement)) :
    g.SameLinks { g' with backing } :=
  ⟨⟨h.contains, h.produces, h.sources, h.countFor, h.freed, h.unused, h.producers, h.byKey,
    h.marketData, h.targetCounts, h.external⟩, h.reads, h.readers, h.edges, h.rootSet⟩

theorem sameLinks_modifyNode {f : Node → Node} (hf : ∀ n, ∃ terminal, f n = { n with terminal }) :
    g.SameLinks (g.modifyNode id f) where
  toSameOutputs := by
    apply sameOutputs_modifyNode
    all_goals
      intro n
      obtain ⟨terminal, h⟩ := hf n
      rw [h]
  reads _ _ := by
    apply reads_modifyNode
    intro n
    obtain ⟨terminal, h⟩ := hf n
    rw [h]
  readers := rfl
  edges := rfl
  rootSet := rfl

end Frame

section Terminals

theorem sameLinks_flag (g : Graph) (id : NodeId) (s : ValueSpec) :
    g.SameLinks (g.modifyNode id (·.flag s)) := by
  apply sameLinks_modifyNode
  intro n
  unfold Node.flag
  split
  · exact ⟨_, rfl⟩
  · exact ⟨n.terminal, rfl⟩

theorem Indexed.flag_addBacking (h : g.Indexed) (hs : g.Produces id s) {rs : SortedSet Requirement}
    (hrs : ∃ r, r ∈ rs) :
    ((g.modifyNode id (·.flag s)).addBacking s rs).Indexed := by
  have same := (sameLinks_flag g id s).withBacking (g.backing.addAllAt s rs)
  apply h.flags same
  intro t ts ht
  rw [SortedMap.addAllAt, SortedMap.get?_insert] at ht
  split at ht
  next he =>
    subst he
    cases ht
    obtain ⟨r, hr⟩ := hrs
    obtain ⟨n, hn, hs⟩ := hs
    refine ⟨⟨id, n.flag s, ?_, ?_⟩, r, SortedSet.mem_union.2 (.inr hr)⟩
    · show (g.modifyNode id (·.flag s)).node? id = _
      rw [node?_modifyNode, if_pos rfl, hn, Option.map_some]
    · simp [Node.flag, hs]
  next =>
    obtain ⟨hf, hts⟩ := h.backing t ts ht
    refine ⟨hf.modifyNode fun n ho ht => ?_, hts⟩
    unfold Node.flag
    split
    · exact ⟨ho, SortedSet.mem_insert.2 (.inr ht)⟩
    · exact ⟨ho, ht⟩

theorem sameLinks_mark {r : Requirement} (hm : g.mark r s = .ok g') : g.SameLinks g' := by
  unfold Graph.mark at hm
  split at hm
  next id hp =>
    cases hm
    exact (sameLinks_flag g id s).withBacking (g.backing.addAllAt s (.singleton r))
  next => cases hm

theorem mem_backing_mark {q r : Requirement} {v : ValueSpec} (hm : g.mark q v = .ok g') :
    r ∈ g'.backing.setAt s ↔ v = s ∧ r = q ∨ r ∈ g.backing.setAt s := by
  unfold Graph.mark at hm
  split at hm
  next id hp =>
    cases hm
    show r ∈ (g.backing.addAllAt v (.singleton q)).setAt s ↔ _
    rw [SortedMap.mem_setAt_addAllAt, SortedSet.mem_singleton]
  next => cases hm

theorem Sound.mark (h : g.Sound) {r : Requirement} (hm : g.mark r s = .ok g') : g'.Sound := by
  have same := sameLinks_mark hm
  unfold Graph.mark at hm
  split at hm
  next id hp =>
    cases hm
    have hs : g.Produces id s := (h.indexed.producers s id).1 hp
    have hr : ∃ r', r' ∈ SortedSet.singleton r := ⟨r, by simp⟩
    exact ⟨h.ids.frame same.toSameOutputs, h.indexed.flag_addBacking hs hr,
      fun i => (h.roots i).flags same⟩
  next => cases hm

theorem Sound.unmark (h : g.Sound) (rs : List Requirement) (s : ValueSpec) :
    (g.unmark rs s).Sound := by
  -- What is left of the backing is as it was.
  have herase : ∀ t ts, (g.backing.erase s).get? t = some ts →
      t ≠ s ∧ g.Flagged t ∧ ∃ r, r ∈ ts := by
    intro t ts ht
    rw [SortedMap.get?_erase] at ht
    split at ht
    · cases ht
    next hts => exact ⟨Ne.symm hts, h.indexed.backing t ts ht⟩
  unfold Graph.unmark
  cases hb : g.backing.get? s with
  | none => exact h
  | some backed =>
    dsimp only
    split
    next =>
      -- Nothing is left that it backs: its producer, if it has one, loses the flag.
      have hp : ({ g with backing := g.backing.erase s } : Graph).producer? s = g.producer? s := rfl
      rw [hp]
      cases g.producer? s with
      | none =>
        exact h.flags ((SameLinks.refl g).withBacking _) fun t ts ht => (herase t ts ht).2
      | some id =>
        have same : g.SameLinks (g.modifyNode id (·.unflag s)) :=
          sameLinks_modifyNode fun n => ⟨_, rfl⟩
        refine h.flags (same.withBacking _) fun t ts ht => ?_
        obtain ⟨hts, hf, hr⟩ := herase t ts ht
        exact ⟨hf.modifyNode fun n ho hn => ⟨ho, SortedSet.mem_erase.2 ⟨hn, hts⟩⟩, hr⟩
    next hleft =>
      have hr : ∃ r, r ∈ backed.filter (· ∉ rs) := by
        rw [SortedSet.isEmpty, List.isEmpty_iff, List.eq_nil_iff_forall_not_mem] at hleft
        simpa [SortedSet.mem_toList] using hleft
      refine h.flags ((SameLinks.refl g).withBacking _) fun t ts ht => ?_
      rw [SortedMap.get?_insert] at ht
      split at ht
      next he =>
        subst he
        cases ht
        exact ⟨(h.indexed.backing s backed hb).1, hr⟩
      next => exact h.indexed.backing t ts ht

end Terminals

section Nodes

theorem conflict?_eq_none_iff {self : Option NodeId} :
    g.conflict? n self = none ↔
      ∀ s ∈ n.outputs, ∀ id, g.producer? s = some id → self = some id := by
  unfold conflict?
  rw [List.findSome?_eq_none_iff]
  refine forall₂_congr fun s hs => ?_
  cases g.producer? s <;> simp

theorem add_eq_link (hn : ∀ s ∈ n.outputs, g.producer? s = none) :
    g.add n = .ok (g.nextId, g.link n) := by
  have hno : g.conflict? n = none := by
    rw [conflict?_eq_none_iff]
    intro s hs id hp
    rw [hn s hs] at hp
    cases hp
  unfold Graph.add
  rw [hno]

theorem link_of_add (ha : g.add n = .ok (id, g')) :
    g' = g.link n ∧ id = g.nextId ∧ ∀ s ∈ n.outputs, g.producer? s = none := by
  unfold Graph.add at ha
  split at ha
  · cases ha
  next hno =>
    cases ha
    refine ⟨rfl, rfl, fun s hs => ?_⟩
    have hp := conflict?_eq_none_iff.1 hno s hs
    cases hs : g.producer? s with
    | none => rfl
    | some id => cases hp id hs

theorem isSome_producer?_of_add (ha : g.add n = .ok (id, g'))
    (hs : s ∈ n.outputs ∨ (g.producer? s).isSome) : (g'.producer? s).isSome := by
  obtain ⟨rfl, -⟩ := link_of_add ha
  rw [producer?_link]
  split
  next => rfl
  next hno => exact hs.resolve_left hno

theorem Sound.add (h : g.Sound) (ha : g.add n = .ok (id, g')) : g'.Sound := by
  obtain ⟨rfl, -, hn⟩ := link_of_add ha
  exact h.link hn

theorem detach_of_remove (hr : g.remove id = .ok (n, g')) :
    g.node? id = some n ∧ g' = g.detach id n := by
  unfold Graph.remove at hr
  split at hr
  next hn =>
    cases hr
    exact ⟨hn, rfl⟩
  next => cases hr

theorem Sound.remove (h : g.Sound) (hr : g.remove id = .ok (n, g')) : g'.Sound := by
  obtain ⟨hn, rfl⟩ := detach_of_remove hr
  exact h.detach hn

end Nodes

section Replace

variable {old new : ValueSpec}

theorem foldl_redirect (readers : List NodeId) :
    readers.foldl (redirect id old new) g =
      { g with
        nodes := readers.foldl (fun m r => m.modify r (·.replaceInput old new)) g.nodes
        edges := g.edges ++ readers.map fun r => ⟨id, r, new⟩ } := by
  induction readers generalizing g with
  | nil => simp
  | cons r readers ih =>
    rw [List.foldl_cons, ih]
    simp only [redirect, modifyNode, List.foldl_cons, List.map_cons, List.append_assoc,
      List.cons_append, List.nil_append]

theorem sameOutputs_redirect (r : NodeId) : g.SameOutputs (redirect id old new g r) := by
  have h : g.SameOutputs (g.modifyNode r (·.replaceInput old new)) := sameOutputs_modifyNode
    (fun n => by unfold Node.replaceInput; split <;> rfl)
    (fun n => by unfold Node.replaceInput; split <;> rfl)
    (fun n => by unfold Node.replaceInput; split <;> rfl)
  exact ⟨h.contains, h.produces, h.sources, h.countFor, rfl, rfl, rfl, rfl, rfl, rfl, rfl⟩

theorem sameOutputs_foldl_redirect (readers : List NodeId) :
    g.SameOutputs (readers.foldl (redirect id old new) g) := by
  induction readers generalizing g with
  | nil => exact SameOutputs.refl g
  | cons r readers ih => exact (sameOutputs_redirect r).trans ih

theorem SameOutputs.withReaders (h : g.SameOutputs g')
    (readers : SortedMap ValueSpec (SortedSet NodeId)) :
    g.SameOutputs { g' with readers } :=
  ⟨h.contains, h.produces, h.sources, h.countFor, h.freed, h.unused, h.producers, h.byKey,
    h.marketData, h.targetCounts, h.external⟩

theorem sameOutputs_redirectAll : g.SameOutputs (g.redirectAll id old new) := by
  unfold redirectAll
  split
  · exact SameOutputs.refl g
  next readers _ =>
    have h := (SameOutputs.refl g).withReaders (g.readers.erase old)
    exact (h.trans (sameOutputs_foldl_redirect readers.toList)).withReaders _

theorem mem_edges_redirectAll {e : Edge} :
    e ∈ (g.redirectAll id old new).edges ↔
      e ∈ g.edges ∨ e.supplier = id ∧ e.spec = new ∧ e.consumer ∈ g.readers.setAt old := by
  obtain ⟨p, c, s⟩ := e
  unfold redirectAll
  cases hr : g.readers.get? old with
  | none => simp [SortedMap.setAt, hr]
  | some readers =>
    have hset : g.readers.setAt old = readers := by simp [SortedMap.setAt, hr]
    simp only [foldl_redirect, hset, List.mem_append, List.mem_map, SortedSet.mem_toList,
      Edge.mk.injEq]
    refine or_congr_right ⟨?_, ?_⟩
    · rintro ⟨r, hr, rfl, rfl, rfl⟩
      exact ⟨rfl, rfl, hr⟩
    · rintro ⟨rfl, rfl, hc⟩
      exact ⟨c, hc, rfl, rfl, rfl⟩

theorem mem_readers_redirectAll :
    i ∈ (g.redirectAll id old new).readers.setAt s ↔
      s = new ∧ i ∈ g.readers.setAt old ∨ s ≠ old ∧ i ∈ g.readers.setAt s := by
  unfold redirectAll
  cases hr : g.readers.get? old with
  | none =>
    have hset : g.readers.setAt old = ∅ := by simp [SortedMap.setAt, hr]
    dsimp only
    by_cases hs : s = old
    · subst hs
      simp [hset]
    · simp [hset, hs]
  | some readers =>
    have hset : g.readers.setAt old = readers := by simp [SortedMap.setAt, hr]
    simp only [foldl_redirect, hset, SortedMap.mem_setAt_addAllAt, SortedMap.setAt_erase]
    by_cases hs : s = old
    · subst hs
      simp [eq_comm]
    · simp [hs, Ne.symm hs, eq_comm]

theorem rootSet_redirectAll : (g.redirectAll id old new).rootSet = g.rootSet := by
  unfold redirectAll
  split
  · rfl
  · simp only [foldl_redirect]

theorem backing_redirectAll : (g.redirectAll id old new).backing = g.backing := by
  unfold redirectAll
  split
  · rfl
  · simp only [foldl_redirect]

theorem node?_redirectAll (h : g.Indexed) :
    (g.redirectAll id old new).node? i = (g.node? i).map (·.replaceInput old new) := by
  have hsame : ∀ n, g.node? i = some n → i ∉ g.readers.setAt old → n.replaceInput old new = n := by
    intro n hn hi
    unfold Node.replaceInput
    rw [if_neg fun ho => hi ((h.readers old i).2 ⟨n, hn, ho⟩)]
  unfold redirectAll
  cases hr : g.readers.get? old with
  | none =>
    have hset : g.readers.setAt old = ∅ := by simp [SortedMap.setAt, hr]
    cases hn : g.node? i with
    | none => rfl
    | some n => rw [Option.map_some, hsame n hn (by simp [hset])]
  | some readers =>
    have hset : g.readers.setAt old = readers := by simp [SortedMap.setAt, hr]
    simp only [foldl_redirect]
    unfold node?
    rw [SortedMap.get?_foldl_modify SortedSet.nodup_toList]
    split
    next => rfl
    next hi =>
      cases hn : g.nodes.get? i with
      | none => rfl
      | some n =>
        rw [Option.map_some, hsame n hn (by rw [hset]; exact hi)]

theorem reads_redirectAll (h : g.Indexed) :
    (g.redirectAll id old new).Reads i s ↔
      s = new ∧ g.Reads i old ∨ s ≠ old ∧ g.Reads i s := by
  unfold Reads
  rw [node?_redirectAll h]
  cases g.node? i with
  | none => simp
  | some n =>
    unfold Node.replaceInput
    simp only [Option.map_some, Option.some.injEq, exists_eq_left']
    split
    next ho => simp [ho, and_comm]
    next ho =>
      simp only [ho, and_false, false_or]
      refine (and_iff_right_of_imp ?_).symm
      rintro hs rfl
      exact ho hs

/--
The old value is an output of no node but `id`, which produces the new one. Thus a reader of the old
value is fed by `id` before and after.
-/
theorem feeds_redirectAll (h : g.Indexed) (hold : ∀ p, g.Produces p old → p = id)
    (hnew : g.Produces id new) :
    (g.redirectAll id old new).Feeds p c ↔ g.Feeds p c ∨ p = id ∧ g.Reads c old := by
  unfold Feeds
  simp only [sameOutputs_redirectAll.produces, reads_redirectAll h]
  constructor
  · rintro ⟨s, hp, ⟨rfl, hc⟩ | ⟨-, hc⟩⟩
    · exact .inr ⟨h.unique hp hnew, hc⟩
    · exact .inl ⟨s, hp, hc⟩
  · rintro (⟨s, hp, hc⟩ | ⟨rfl, hc⟩)
    · by_cases hs : s = old
      · subst hs
        obtain rfl := hold p hp
        exact ⟨new, hnew, .inl ⟨rfl, hc⟩⟩
      · exact ⟨s, hp, .inr ⟨hs, hc⟩⟩
    · exact ⟨new, hnew, .inl ⟨rfl, hc⟩⟩

theorem Indexed.redirectAll (h : g.Indexed) (hold : ∀ p, g.Produces p old → p = id)
    (hnew : g.Produces id new) : (g.redirectAll id old new).Indexed := by
  refine h.frame sameOutputs_redirectAll (fun s i => ?_) (fun p c => ?_) fun s rs hs => ?_
  · rw [mem_readers_redirectAll, reads_redirectAll h, h.readers, h.readers]
  · rw [feeds_redirectAll h hold hnew, ← h.edges]
    simp only [mem_edges_redirectAll, h.readers]
    constructor
    · rintro ⟨s, he | ⟨hp, -, hc⟩⟩
      · exact .inl ⟨s, he⟩
      · exact .inr ⟨hp, hc⟩
    · rintro (⟨s, he⟩ | ⟨hp, hc⟩)
      · exact ⟨s, .inl he⟩
      · exact ⟨new, .inr ⟨hp, rfl, hc⟩⟩
  · rw [backing_redirectAll] at hs
    obtain ⟨⟨i, n, hn, ho, ht⟩, hr⟩ := h.backing s rs hs
    refine ⟨⟨i, n.replaceInput old new, ?_, ?_⟩, hr⟩
    · rw [node?_redirectAll h, hn, Option.map_some]
    · unfold Node.replaceInput
      split <;> exact ⟨ho, ht⟩

theorem RootAt.redirectAll (hi : i ≠ id) (h : g.Indexed) (hold : ∀ p, g.Produces p old → p = id)
    (hnew : g.Produces id new) (hr : g.RootAt i) : (g.redirectAll id old new).RootAt i := by
  unfold RootAt at hr ⊢
  rw [rootSet_redirectAll, sameOutputs_redirectAll.contains]
  simpa only [feeds_redirectAll h hold hnew, hi, false_and, or_false] using hr

/-- Sound, but that `id` may be listed as a root or not. -/
structure SoundBut (g : Graph) (id : NodeId) : Prop where
  ids : g.FreshIds
  indexed : g.Indexed
  roots : ∀ i, i ≠ id → g.RootAt i

theorem Sound.soundBut (h : g.Sound) : g.SoundBut id := ⟨h.ids, h.indexed, fun i _ => h.roots i⟩

theorem SoundBut.refreshRoot (h : g.SoundBut id) (hc : g.contains id) :
    (g.refreshRoot id).Sound := by
  refine ⟨⟨h.ids.used, h.ids.freed, h.ids.once⟩, ?_, fun i => ?_⟩
  · exact ⟨h.indexed.producers, h.indexed.readers, h.indexed.edges, h.indexed.byKey,
      h.indexed.marketData, h.indexed.targets, h.indexed.backing, h.indexed.external⟩
  · have hroot : (g.refreshRoot id).RootAt i ↔
        (i ∈ (g.refreshRoot id).rootSet ↔ g.contains i ∧ ∀ c, ¬ g.Feeds i c) := .rfl
    rw [hroot, mem_rootSet_refreshRoot, h.indexed.forall_edges_iff]
    by_cases hi : id = i
    · subst hi
      simp [hc]
    · simp only [hi, false_and, not_false_eq_true, true_and, false_or]
      exact h.roots i (Ne.symm hi)

theorem mem_handovers {m : Node} {h : Handover} :
    h ∈ g.handovers m n ↔
      h.old ∈ m.outputs ∧ n.counterpart? h.old = some h.new ∧ h.backed = g.backing.get? h.old := by
  unfold handovers
  rw [List.mem_filterMap]
  constructor
  · rintro ⟨s, hs, hh⟩
    obtain ⟨t, ht, rfl⟩ := Option.map_eq_some_iff.1 hh
    exact ⟨hs, ht, rfl⟩
  · rintro ⟨hs, ht, hb⟩
    exact ⟨h.old, hs, Option.map_eq_some_iff.2 ⟨h.new, ht, by rw [← hb]⟩⟩

/-- A graph in which `h` can be handed over to `id`. -/
structure Handover.Fits (h : Handover) (g : Graph) (id : NodeId) : Prop where
  old : ∀ p, g.Produces p h.old → p = id
  new : g.Produces id h.new
  backed : ∀ rs, h.backed = some rs → ∃ r, r ∈ rs

theorem Handover.Fits.of_same {h : Handover} (hfit : h.Fits g id) (same : g.SameOutputs g') :
    h.Fits g' id :=
  ⟨fun p hp => hfit.old p ((same.produces p _).1 hp), (same.produces id _).2 hfit.new, hfit.backed⟩

theorem SoundBut.redirected {h : Handover} (hg : g.SoundBut id) (hfit : h.Fits g id) :
    (if h.old = h.new then g else g.redirectAll id h.old h.new).SoundBut id ∧
      g.SameOutputs (if h.old = h.new then g else g.redirectAll id h.old h.new) := by
  split
  · exact ⟨hg, SameOutputs.refl g⟩
  · refine ⟨⟨?_, ?_, fun i hi => ?_⟩, sameOutputs_redirectAll⟩
    · exact hg.ids.frame sameOutputs_redirectAll
    · exact hg.indexed.redirectAll hfit.old hfit.new
    · exact (hg.roots i hi).redirectAll hi hg.indexed hfit.old hfit.new

theorem SoundBut.handOver {h : Handover} (hg : g.SoundBut id) (hfit : h.Fits g id) :
    (handOver id g h).SoundBut id ∧ g.SameOutputs (handOver id g h) := by
  obtain ⟨hg', same⟩ := hg.redirected hfit
  unfold Graph.handOver
  revert hg' same
  generalize (if h.old = h.new then g else g.redirectAll id h.old h.new) = g'
  intro hg' same
  cases hb : h.backed with
  | none => exact ⟨hg', same⟩
  | some rs =>
    have hlinks := (sameLinks_flag g' id h.new).withBacking (g'.backing.addAllAt h.new rs)
    refine ⟨⟨?_, ?_, fun i hi => ?_⟩, same.trans hlinks.toSameOutputs⟩
    · exact hg'.ids.frame hlinks.toSameOutputs
    · exact hg'.indexed.flag_addBacking (hfit.of_same same).new (hfit.backed rs hb)
    · exact (hg'.roots i hi).flags hlinks

theorem SoundBut.first {h : Handover} {hs : List Handover} (hg : g.SoundBut id)
    (hfit : ∀ h' ∈ h :: hs, h'.Fits g id) :
    (Graph.handOver id g h).SoundBut id ∧ ∀ h' ∈ hs, h'.Fits (Graph.handOver id g h) id := by
  obtain ⟨hg', same⟩ := hg.handOver (hfit h List.mem_cons_self)
  exact ⟨hg', fun h' hh' => (hfit h' (List.mem_cons_of_mem _ hh')).of_same same⟩

theorem SoundBut.foldl_handOver {hs : List Handover} (hg : g.SoundBut id)
    (hfit : ∀ h ∈ hs, h.Fits g id) :
    (hs.foldl (Graph.handOver id) g).SoundBut id ∧
      g.SameOutputs (hs.foldl (Graph.handOver id) g) := by
  induction hs generalizing g with
  | nil => exact ⟨hg, SameOutputs.refl g⟩
  | cons h hs ih =>
    obtain ⟨hg', hfit'⟩ := hg.first hfit
    obtain ⟨hg'', same⟩ := ih hg' hfit'
    exact ⟨hg'', (hg.handOver (hfit h List.mem_cons_self)).2.trans same⟩

theorem exists_of_replace (hr : g.replace id n = .ok (i, g')) :
    ∃ m, g.node? id = some m ∧ g.conflict? n (some id) = none ∧ i = (g.detach id m).nextId ∧
      g' = ((g.handovers m n).foldl (Graph.handOver i) ((g.detach id m).link n)).refreshRoot i := by
  unfold Graph.replace at hr
  split at hr
  · cases hr
  next m hm =>
    split at hr
    · cases hr
    next hc =>
      cases hr
      exact ⟨m, hm, hc, rfl, rfl⟩

section Replaced

variable {m : Node} (hm : g.node? id = some m)
include hm

theorem eq_of_replace_of_node? (hr : g.replace id n = .ok (i, g')) :
    g.conflict? n (some id) = none ∧ i = (g.detach id m).nextId ∧
      g' = ((g.handovers m n).foldl (Graph.handOver i) ((g.detach id m).link n)).refreshRoot i := by
  obtain ⟨m', hm', hreplaced⟩ := exists_of_replace hr
  rw [hm] at hm'
  cases hm'
  exact hreplaced

variable (h : g.Sound)
include h

/-- When the old node has gone, nobody produces what the new one is to produce. -/
theorem Sound.producer?_detach_of_conflict? (hc : g.conflict? n (some id) = none)
    (hs : s ∈ n.outputs) : (g.detach id m).producer? s = none := by
  rw [producer?_detach]
  split
  · rfl
  next hno =>
    cases hp : g.producer? s with
    | none => rfl
    | some j =>
      -- Only `id` may produce it, and that is an output of the old node.
      cases conflict?_eq_none_iff.1 hc s hs j hp
      exact absurd ((h.indexed.mem_outputs_iff hm
        ((h.indexed.producers s _).1 hp)).2 rfl) hno

theorem Sound.fits_handover {ho : Handover} (hho : ho ∈ g.handovers m n) :
    ho.Fits ((g.detach id m).link n) (g.detach id m).nextId := by
  have hrest := h.detach hm
  obtain ⟨hso, hsn, hb⟩ := mem_handovers.1 hho
  refine ⟨fun p hp => ?_, ?_, fun rs hrs => ?_⟩
  · rcases (produces_link hrest.ids).1 hp with ⟨hp, -⟩ | hp
    · exact hp
    · exact absurd hso ((h.indexed.produces_detach_iff hm).1 hp).2
  · exact (produces_link hrest.ids).2 (.inl ⟨rfl, List.mem_of_find?_eq_some hsn⟩)
  · exact (h.indexed.backing _ rs (hb.symm.trans hrs)).2

theorem Sound.soundBut_link (hc : g.conflict? n (some id) = none) :
    ((g.detach id m).link n).SoundBut (g.detach id m).nextId :=
  ((h.detach hm).link fun _ => h.producer?_detach_of_conflict? hm hc).soundBut

/-- Handing over changes no outputs, and may leave wrong only whether the new node is a root. -/
theorem Sound.foldl_handOver (hc : g.conflict? n (some id) = none) :
    ((g.handovers m n).foldl (Graph.handOver (g.detach id m).nextId)
      ((g.detach id m).link n)).SoundBut (g.detach id m).nextId ∧
    ((g.detach id m).link n).SameOutputs
      ((g.handovers m n).foldl (Graph.handOver (g.detach id m).nextId) ((g.detach id m).link n)) :=
  (h.soundBut_link hm hc).foldl_handOver fun _ => h.fits_handover hm

theorem Sound.sameOutputs_replace (hr : g.replace id n = .ok (i, g')) :
    ((g.detach id m).link n).SameOutputs g' := by
  obtain ⟨hc, rfl, rfl⟩ := eq_of_replace_of_node? hm hr
  have same := (h.foldl_handOver hm hc).2
  exact ⟨same.contains, same.produces, same.sources, same.countFor, same.freed, same.unused,
    same.producers, same.byKey, same.marketData, same.targetCounts, same.external⟩

end Replaced

theorem Sound.replace (h : g.Sound) (hr : g.replace id n = .ok (i, g')) : g'.Sound := by
  obtain ⟨m, hm, hc, rfl, rfl⟩ := exists_of_replace hr
  -- A handover may give the new node a reader; whether it is a root is looked at in the end.
  obtain ⟨hbut, same⟩ := h.foldl_handOver hm hc
  apply hbut.refreshRoot
  rw [same.contains]
  simp [contains]

end Replace

section Prune

theorem node?_dropOutput :
    (dropOutput id g s).node? i =
      if id = i then (g.node? i).map (·.removeOutput s) else g.node? i :=
  node?_modifyNode

theorem contains_dropOutput : (dropOutput id g s).contains i = g.contains i := contains_modifyNode

theorem reads_dropOutput {t : ValueSpec} : (dropOutput id g s).Reads i t ↔ g.Reads i t :=
  reads_modifyNode fun _ => rfl

theorem produces_dropOutput (h : g.Indexed) (hs : g.Produces id s) {t : ValueSpec} :
    (dropOutput id g s).Produces i t ↔ g.Produces i t ∧ t ≠ s := by
  unfold Produces
  rw [node?_dropOutput]
  by_cases hi : id = i
  · subst hi
    cases g.node? id <;> simp [Node.removeOutput]
  · rw [if_neg hi]
    refine (and_iff_left_of_imp ?_).symm
    rintro ht rfl
    exact hi (h.unique hs ht)

theorem sources_dropOutput (h : g.Indexed) (hs : g.Produces id s) {t : ValueSpec} :
    (dropOutput id g s).Sources t ↔ g.Sources t ∧ t ≠ s := by
  unfold Sources
  constructor
  · rintro ⟨i, n, hn, hm, ht⟩
    have hp := (produces_dropOutput h hs).1 ⟨n, hn, ht⟩
    rw [node?_dropOutput] at hn
    split at hn
    · obtain ⟨m, hm', rfl⟩ := Option.map_eq_some_iff.1 hn
      exact ⟨⟨i, m, hm', hm, (SortedSet.mem_erase.1 ht).1⟩, hp.2⟩
    · exact ⟨⟨i, n, hn, hm, ht⟩, hp.2⟩
  · rintro ⟨⟨i, n, hn, hm, ht⟩, hts⟩
    by_cases hi : id = i
    · refine ⟨i, n.removeOutput s, ?_, hm, SortedSet.mem_erase.2 ⟨ht, hts⟩⟩
      rw [node?_dropOutput, if_pos hi, hn, Option.map_some]
    · refine ⟨i, n, ?_, hm, ht⟩
      rw [node?_dropOutput, if_neg hi, hn]

theorem countFor_dropOutput : (dropOutput id g s).countFor = g.countFor :=
  countFor_modifyNode fun _ => rfl

theorem feeds_dropOutput (h : g.Indexed) (hs : g.Produces id s) (hr : ∀ c, ¬ g.Reads c s) :
    (dropOutput id g s).Feeds p c ↔ g.Feeds p c := by
  unfold Feeds
  simp only [produces_dropOutput h hs, reads_dropOutput]
  constructor
  · rintro ⟨t, ⟨hp, -⟩, hc⟩
    exact ⟨t, hp, hc⟩
  · rintro ⟨t, hp, hc⟩
    refine ⟨t, ⟨hp, ?_⟩, hc⟩
    rintro rfl
    exact hr c hc

theorem Indexed.dropOutput (h : g.Indexed) (hs : g.Produces id s) (hr : ∀ c, ¬ g.Reads c s)
    (hb : g.backing.get? s = none) : (dropOutput id g s).Indexed := by
  refine ⟨fun t i => ?_, fun t i => ?_, fun p c => ?_, fun k t => ?_, fun t => ?_, ?_,
    fun t rs ht => ?_, fun t ht => ?_⟩
  · rw [produces_dropOutput h hs, ← h.producers]
    show (g.producers.erase s).get? t = some i ↔ g.producers.get? t = some i ∧ t ≠ s
    rw [SortedMap.get?_erase]
    grind
  · rw [reads_dropOutput]
    exact h.readers t i
  · rw [feeds_dropOutput h hs hr]
    exact h.edges p c
  · simp only [produces_dropOutput h hs]
    show t ∈ (g.byKey.dropAt s.key s).setAt k ↔ _
    rw [SortedMap.mem_setAt_dropAt, h.byKey]
    grind
  · rw [sources_dropOutput h hs, ← h.marketData]
    exact SortedSet.mem_erase
  · rw [countFor_dropOutput]
    exact h.targets
  · obtain ⟨hf, hrs⟩ := h.backing t rs ht
    have hts : t ≠ s := by
      rintro rfl
      exact Option.some_ne_none rs (ht.symm.trans hb)
    refine ⟨hf.modifyNode fun n ho hn => ?_, hrs⟩
    exact ⟨SortedSet.mem_erase.2 ⟨ho, hts⟩, SortedSet.mem_erase.2 ⟨hn, hts⟩⟩
  · obtain ⟨ht, hts⟩ := SortedSet.mem_erase.1 ht
    obtain ⟨i, hp⟩ := h.external t ht
    exact ⟨i, (produces_dropOutput h hs).2 ⟨hp, hts⟩⟩

theorem Sound.dropOutput (h : g.Sound) (hs : g.Produces id s) (hr : ∀ c, ¬ g.Reads c s)
    (hb : g.backing.get? s = none) : (dropOutput id g s).Sound := by
  refine ⟨⟨fun i hc => ?_, h.ids.freed, h.ids.once⟩, h.indexed.dropOutput hs hr hb, fun i => ?_⟩
  · rw [contains_dropOutput] at hc
    exact h.ids.used i hc
  · unfold RootAt
    rw [contains_dropOutput]
    simp only [feeds_dropOutput h.indexed hs hr]
    exact h.roots i

theorem Sound.foldl_dropOutput {outputs : List ValueSpec} (h : g.Sound)
    (hnodup : outputs.Nodup) (hs : ∀ s ∈ outputs, g.Produces id s)
    (hr : ∀ s ∈ outputs, ∀ c, ¬ g.Reads c s) (hb : ∀ s ∈ outputs, g.backing.get? s = none) :
    (outputs.foldl (Graph.dropOutput id) g).Sound := by
  -- The outputs are all different, so the later ones are still there when the first is gone.
  induction outputs generalizing g with
  | nil => exact h
  | cons s outputs ih =>
    obtain ⟨hnot, hnodup⟩ := List.nodup_cons.1 hnodup
    have hs' := hs s List.mem_cons_self
    apply ih (h.dropOutput hs' (hr s List.mem_cons_self) (hb s List.mem_cons_self)) hnodup
    · intro t ht
      refine (produces_dropOutput h.indexed hs').2 ⟨hs t (List.mem_cons_of_mem _ ht), ?_⟩
      rintro rfl
      exact hnot ht
    · intro t ht c hc
      exact hr t (List.mem_cons_of_mem _ ht) c (reads_dropOutput.1 hc)
    · intro t ht
      exact hb t (List.mem_cons_of_mem _ ht)

theorem isNeeded_eq_false (h : g.Indexed) (hs : g.isNeeded s = false) :
    g.backing.get? s = none ∧ ∀ c, ¬ g.Reads c s := by
  unfold isNeeded isTerminal at hs
  simp only [Bool.or_eq_false_iff, decide_eq_false_iff_not, Bool.not_eq_false'] at hs
  obtain ⟨⟨hb, -⟩, hr⟩ := hs
  constructor
  · simpa [SortedMap.mem_iff_isSome_get?] using hb
  · intro c hc
    have hmem : c ∈ (g.readers.setAt s).toList := (h.readers s c).2 hc
    rw [SortedSet.isEmpty, List.isEmpty_iff] at hr
    simp [hr] at hmem

theorem Sound.trim (h : g.Sound) (id : NodeId) : (g.trim id).Sound := by
  unfold Graph.trim
  split
  · exact h
  next n hn =>
    dsimp only
    split
    · exact h.detach hn
    · apply h.foldl_dropOutput SortedSet.nodup_toList
      · intro s hs
        exact ⟨n, hn, (SortedSet.mem_filter.1 hs).1⟩
      · intro s hs
        exact (isNeeded_eq_false h.indexed (by simpa using (SortedSet.mem_filter.1 hs).2)).2
      · intro s hs
        exact (isNeeded_eq_false h.indexed (by simpa using (SortedSet.mem_filter.1 hs).2)).1

theorem Sound.foldl_trim (h : g.Sound) (ids : List NodeId) : (ids.foldl Graph.trim g).Sound := by
  induction ids generalizing g with
  | nil => exact h
  | cons id ids ih => exact ih (h.trim id)

theorem Sound.prune (h : g.Sound) : g.prune.Sound := by
  -- By the recursion of `prune`: passes, as long as one removes a node.
  induction g using Graph.prune.induct with
  | case1 g hlt ih =>
    rw [Graph.prune, if_pos hlt]
    exact ih (h.foldl_trim g.ids)
  | case2 g hlt =>
    rw [Graph.prune, if_neg hlt]
    exact h

end Prune

section Part

theorem Sound.foldl_detach {left : List (NodeId × Node)} (h : g.Sound)
    (hnodup : (left.map (·.1)).Nodup) (hleft : ∀ e ∈ left, g.node? e.1 = some e.2) :
    (left.foldl (fun h (id, n) => h.detach id n) g).Sound ∧
      ∀ i, (left.foldl (fun h (id, n) => h.detach id n) g).node? i =
        if i ∈ left.map (·.1) then none else g.node? i := by
  induction left generalizing g with
  | nil => exact ⟨h, fun i => by simp⟩
  | cons e left ih =>
    obtain ⟨id, n⟩ := e
    obtain ⟨hnot, hnodup⟩ := List.nodup_cons.1 hnodup
    have hid : g.node? id = some n := hleft _ List.mem_cons_self
    have hleft' : ∀ e ∈ left, (g.detach id n).node? e.1 = some e.2 := by
      intro e he
      rw [node?_detach, if_neg, hleft e (List.mem_cons_of_mem _ he)]
      intro hid
      exact hnot (List.mem_map.2 ⟨e, he, hid.symm⟩)
    obtain ⟨hsound, hnode⟩ := ih (h.detach hid) hnodup hleft'
    refine ⟨hsound, fun i => ?_⟩
    rw [List.foldl_cons, hnode, node?_detach]
    simp only [List.map_cons, List.mem_cons]
    grind

theorem mem_readOutside {keep : SortedSet NodeId} (hs : s ∈ g.readOutside keep) :
    ∃ id ∈ keep, g.Produces id s := by
  unfold readOutside at hs
  obtain ⟨⟨id, n⟩, he, hs⟩ := List.mem_flatMap.1 hs
  obtain ⟨he, hid⟩ := List.mem_filter.1 he
  exact ⟨id, by simpa using hid, n, SortedMap.get?_eq_some_iff.2 he, (List.mem_filter.1 hs).1⟩

theorem Sound.part (h : g.Sound) (keep : SortedSet NodeId) :
    (g.part keep).Sound ∧
      ∀ i, (g.part keep).node? i = if i ∈ keep then g.node? i else none := by
  -- A part is what taking out the other nodes leaves, with more outputs counting as external.
  have hleft : ∀ e ∈ g.nodes.entries.filter fun (id, _) => id ∉ keep, g.node? e.1 = some e.2 := by
    intro e he
    exact SortedMap.get?_eq_some_iff.2 (List.mem_filter.1 he).1
  have hnodup : ((g.nodes.entries.filter fun (id, _) => id ∉ keep).map (·.1)).Nodup := by
    have hkeys : g.nodes.keys.Nodup := SortedSet.nodup_toList (s := g.nodes.keySet)
    exact hkeys.sublist (List.filter_sublist.map _)
  obtain ⟨hrest, hnode⟩ := h.foldl_detach hnodup hleft
  have hpart : ∀ i, (g.part keep).node? i = if i ∈ keep then g.node? i else none := by
    intro i
    refine (hnode i).trans ?_
    by_cases hi : i ∈ keep
    · rw [if_pos hi, if_neg]
      intro hmem
      obtain ⟨e, he, rfl⟩ := List.mem_map.1 hmem
      simpa [hi] using (List.mem_filter.1 he).2
    · rw [if_neg hi]
      cases hn : g.node? i with
      | none => split <;> rfl
      | some n =>
        rw [if_pos]
        refine List.mem_map.2 ⟨(i, n), List.mem_filter.2 ⟨SortedMap.get?_eq_some_iff.1 hn, ?_⟩, rfl⟩
        simpa using hi
  refine ⟨⟨⟨hrest.ids.used, hrest.ids.freed, hrest.ids.once⟩, ?_, hrest.roots⟩, hpart⟩
  refine ⟨hrest.indexed.producers, hrest.indexed.readers, hrest.indexed.edges, hrest.indexed.byKey,
    hrest.indexed.marketData, hrest.indexed.targets, hrest.indexed.backing, fun s hs => ?_⟩
  rcases SortedSet.mem_union.1 hs with hs | hs
  · exact hrest.indexed.external s hs
  · obtain ⟨id, hid, n, hn, hs⟩ := mem_readOutside (SortedSet.mem_ofList.1 hs)
    refine ⟨id, n, ?_, hs⟩
    rw [hpart, if_pos hid]
    exact hn

end Part

end ValueGraph.Graph
