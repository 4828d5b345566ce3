import ValueGraph.Proofs.Graph.Continuity

namespace ValueGraph.Graph

variable {g : Graph} {id : NodeId} {keep : SortedSet NodeId}

section Unchanged

theorem trim_of_neededAt (h : g.NeededAt id) : g.trim id = g := by
  rcases g.trim_eq id with ⟨-, hsame⟩ | ⟨n, hn, ⟨hspare, -⟩ | ⟨-, htrim⟩⟩
  · exact hsame
  · obtain ⟨⟨s, hs⟩, hall⟩ := h n hn
    have hno := isNeeded_of_isSpare hspare hn hs
    rw [hall s hs] at hno
    cases hno
  · have hnone : (n.outputs.filter fun s => !g.isNeeded s).toList = [] := by
      rw [List.eq_nil_iff_forall_not_mem]
      intro s hs
      obtain ⟨hout, hno⟩ := SortedSet.mem_filter.1 (SortedSet.mem_toList.1 hs)
      rw [(h n hn).2 s hout] at hno
      cases hno
    rw [htrim, hnone, List.foldl_nil]

theorem foldl_trim_of_neededAt (h : ∀ id, g.NeededAt id) (ids : List NodeId) :
    ids.foldl trim g = g := by
  induction ids with
  | nil => rfl
  | cons id ids ih => rw [List.foldl_cons, trim_of_neededAt (h id), ih]

theorem prune_eq_self_iff (g : Graph) : g.prune = g ↔ ∀ id, g.NeededAt id := by
  constructor
  · intro h
    rw [← h]
    exact g.neededAt_prune
  · intro h
    have hsame : g.trimAll = g := foldl_trim_of_neededAt h g.ids
    rw [prune, hsame, if_neg (Nat.lt_irrefl _)]

theorem pruned_of_prune_eq_self (h : g.prune = g) : g.pruned = 0 := by
  rw [← h]
  exact g.pruned_prune

end Unchanged

section Part

variable {nodes : NodeId → Prop} {outputs : NodeId → ValueSpec → Prop}

/--
What is in the part of a choice that justifies itself does so there. A reader of the choice is in
the part, too, or it is left out and makes the output external.
-/
theorem Sound.justified_part (h : g.Sound) (keep : SortedSet NodeId)
    (hj : g.Justified nodes outputs) :
    (g.part keep).Justified (fun id => id ∈ keep ∧ nodes id)
      fun id s => id ∈ keep ∧ outputs id s where
  output := by
    rintro id s ⟨hid, hs⟩
    obtain ⟨hnode, hp⟩ := hj.output id s hs
    exact ⟨⟨hid, hnode⟩, h.produces_part.2 ⟨hid, hp⟩⟩
  needed := by
    rintro id s ⟨hid, hs⟩
    have hp := (hj.output id s hs).2
    rw [h.isTerminal_part hp hid, h.isExternal_part hp hid]
    rcases hj.needed id s hs with hterminal | hexternal | ⟨c, hc, hr⟩
    · exact .inl hterminal
    · exact .inr (.inl (.inl hexternal))
    · by_cases hin : c ∈ keep
      · exact .inr (.inr ⟨c, ⟨hin, hc⟩, h.reads_part.2 ⟨hin, hr⟩⟩)
      · exact .inr (.inl (.inr ⟨c, hin, hr⟩))
  node := by
    rintro id ⟨hid, hnode⟩
    obtain ⟨s, hs⟩ := hj.node id hnode
    exact ⟨s, hid, hs⟩

theorem Sound.produces_prune_part (h : g.Sound) {s : ValueSpec} (hid : id ∈ keep)
    (hs : g.prune.Produces id s) : (g.part keep).prune.Produces id s := by
  have hpart : (g.part keep).Sound := (h.part keep).1
  have hj := h.justified_part keep h.prunesTo_prune.justified
  exact (hpart.prunesTo_prune.largest _ _ hj).2 id s ⟨hid, hs⟩

theorem Sound.neededAt_part (h : g.Sound) (hall : ∀ id, g.NeededAt id) (id : NodeId) :
    (g.part keep).NeededAt id := by
  have hpart : (g.part keep).Sound := (h.part keep).1
  have hj := h.justified_part keep (h.indexed.justified_self hall)
  intro n hn
  have hcontains : (g.part keep).contains id := by simp [Graph.contains, hn]
  rw [h.node?_part] at hn
  split at hn
  next hid =>
    obtain ⟨hout, -⟩ := hall id n hn
    exact ⟨hout, fun s hs => hj.isNeeded hpart.indexed ⟨hid, n, hn, hs⟩⟩
  next => cases hn

end Part

/--
Where pruning changes nothing in a graph, it changes nothing in any part of it, and no node goes.
Whatever pruning does to the whole, an output that it leaves is left of each part with its node.
-/
theorem prune_part_after (configuration : String) (os : List Operation)
    (keep : SortedSet NodeId) :
    let g := after configuration os
    (g.prune = g → (g.part keep).prune = g.part keep ∧ (g.part keep).pruned = 0) ∧
      ∀ id ∈ keep, ∀ s, g.prune.Produces id s → (g.part keep).prune.Produces id s := by
  intro g
  have h : g.Sound := sound_after configuration os
  refine ⟨fun hsame => ?_, fun id hid s hs => h.produces_prune_part hid hs⟩
  have hpart : (g.part keep).prune = g.part keep :=
    (prune_eq_self_iff _).2 (h.neededAt_part ((prune_eq_self_iff g).1 hsame))
  exact ⟨hpart, pruned_of_prune_eq_self hpart⟩

def askedForPrice : List Operation :=
  [.add quoting, .add (pricing quote),
    .mark ⟨"Price", quote.target, ∅⟩ { quote with name := "Price" }]

/-- The part without the node that reads the quote. -/
theorem prune_part_after_price :
    let g := after "Default" askedForPrice
    g.prune = g ∧ 0 ∈ SortedSet.singleton 0 ∧ g.prune.Produces 0 quote ∧
      (g.part (.singleton 0)).prune = g.part (.singleton 0) ∧
      (g.part (.singleton 0)).pruned = 0 ∧ (g.part (.singleton 0)).prune.Produces 0 quote := by
  intro g
  have hsame : g.prune = g := by decide +kernel
  have hzero : (0 : NodeId) ∈ SortedSet.singleton (0 : NodeId) := by decide
  have hquote : g.prune.Produces 0 quote := ⟨quoting, by decide +kernel, by decide +kernel⟩
  obtain ⟨hunchanged, hleft⟩ := prune_part_after "Default" askedForPrice (.singleton 0)
  obtain ⟨hpart, hpruned⟩ := hunchanged hsame
  exact ⟨hsame, hzero, hquote, hpart, hpruned, hleft 0 hzero quote hquote⟩

end ValueGraph.Graph
