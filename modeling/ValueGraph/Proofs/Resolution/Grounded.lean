import ValueGraph.Proofs.Graph.Growth
import ValueGraph.Proofs.Resolution.Wiring

namespace ValueGraph

section Tasks

variable {σ : Type} {c : Collaborators σ} {g : Graph} {t : Task} {n : Node} {v : ValueSpec}

theorem Adds.fresh (h : Adds c g t n) : ∀ s ∈ n.outputs, g.producer? s = none := by
  intro s hs
  cases h with
  | source hp ha hn =>
    rcases SortedSet.mem_insert.1 hs with rfl | hs
    · exact hn
    · exact absurd hs SortedSet.not_mem_empty
  | relabel hp ha hsome hq hn =>
    rcases SortedSet.mem_insert.1 hs with rfl | hs
    · exact hn
    · exact absurd hs SortedSet.not_mem_empty
  | commit hp ho hn =>
    rcases List.mem_cons.1 (SortedSet.mem_ofList.1 hs) with rfl | hs
    · exact hn
    · simpa using (List.mem_filter.1 hs).2

theorem Ends.produced (h : Ends c g t (.ok v)) (hg : g.Indexed) : (g.producer? v).isSome := by
  cases h with
  | reuse hp hf =>
    obtain ⟨⟨hv, -⟩, -⟩ := hg.find?_eq_some_iff.1 hf
    exact hg.isSome_producer?_iff.2 hv
  | source hp ha hs => exact hs
  | relabel hp ha hq hs => exact hs
  | present hp hc hq hs => exact hs
  | committed hp ho hs => exact hs

end Tasks

/-- What was resolved is produced, and the graph has refused nothing. -/
structure Grounded (m : Moment) : Prop where
  sound : m.resolution.graph.Sound
  resolved : ∀ q v, m.resolution.Resolved q v → (m.resolution.graph.producer? v).isSome
  whole : ∀ e, m.activity ≠ .broken e

section Changes

variable {σ : Type} {c : Collaborators σ} {maxDepth : Nat} {m m' : Moment} {r : Resolution}
  {id : TaskId} {t : Task} {s : Search} {a : Attempt} {q : Requirement} {v : ValueSpec}

/-- Nodes are added, and outputs marked, and nothing else is done to the graph. -/
theorem Change.graph_cases (hc : Change c maxDepth m m') :
    (∃ (id : TaskId) (t : Task) (n : Node) (i : NodeId), m.activity = .turn id ∧
      m.resolution.tasks[id]? = some t ∧ Adds c m.resolution.graph t n ∧
      m.resolution.graph.add n = .ok (i, m'.resolution.graph)) ∨
    (∃ q v, m.resolution.graph.mark q v = .ok m'.resolution.graph) ∨
    m'.resolution.graph = m.resolution.graph := by
  cases hc with
  | @add r id t n i graph ht ha hg => exact .inl ⟨id, t, n, i, rfl, ht, ha, hg⟩
  | mark hs hg => exact .inr (.inl ⟨_, _, hg⟩)
  | submitKnown hs hg => exact .inr (.inl ⟨_, _, hg⟩)
  | take | again | block | park | pass | resume | cancel | found | move | takeUp | known | join
  | spawn | giveUp | asked | refuseNode | settle | stale | fill | fillLast | fail | lost
  | refuseMark | note | told | submitRefused | submitFailed | submitJoin | submitSpawn =>
    exact .inr (.inr rfl)

theorem Change.produced (hc : Change c maxDepth m m')
    (h : (m.resolution.graph.producer? v).isSome) : (m'.resolution.graph.producer? v).isSome := by
  rcases hc.graph_cases with ⟨id, t, n, i, -, -, -, hg⟩ | ⟨q, s, hg⟩ | hg
  · exact Graph.isSome_producer?_of_add hg (.inr h)
  · rw [Graph.producer?_of_mark hg]
    exact h
  · rw [hg]
    exact h

/-- A requirement that is resolved in a change is one whose task ends just then. -/
theorem Change.resolved_before (hc : Change c maxDepth m m') (h : m'.resolution.Resolved q v) :
    m.resolution.Resolved q v ∨ ∃ (id : TaskId) (t : Task), m.resolution.tasks[id]? = some t ∧
      t.requirement = q ∧ Ends c m.resolution.graph t (.ok v) := by
  rcases hc.settled_before rfl h with h | ⟨id, t, o, ht, hq, he, ho⟩
  · exact .inl h
  · rw [Claim.ofOutcome?_eq_resolved] at ho
    exact .inr ⟨id, t, ht, hq, ho ▸ he⟩

theorem Change.whole (hc : Change c maxDepth m m') (hw : Wired m) (h : Grounded m)
    (e : GraphError) : m'.activity ≠ .broken e := by
  cases hc with
  | @refuseNode r id t n e' ht ha hg =>
    rw [Graph.add_eq_link ha.fresh] at hg
    cases hg
  | @refuseMark r u v index s e' ws hs hg =>
    obtain ⟨t, -, hv⟩ := hw.told u v _ rfl
    obtain ⟨g', hm⟩ := Graph.exists_mark (r := s.requirement) (h.resolved _ v hv)
    rw [hm] at hg
    cases hg
  | @submitRefused r q v e' hq hg =>
    obtain ⟨g', hm⟩ := Graph.exists_mark (r := q) (h.resolved q v hq)
    rw [hm] at hg
    cases hg
  | take | again | block | park | pass | resume | cancel | found | move | takeUp | known | join
  | spawn | giveUp | asked | add | settle | stale | fill | fillLast | fail | lost | mark | note
  | told | submitKnown | submitFailed | submitJoin | submitSpawn => exact nofun

theorem Change.grounded (hc : Change c maxDepth m m') (hw : Wired m) (h : Grounded m) :
    Grounded m' := by
  refine ⟨?_, fun q v hq => ?_, hc.whole hw h⟩
  · rcases hc.graph_cases with ⟨id, t, n, i, -, -, -, hg⟩ | ⟨q, v, hg⟩ | hg
    · exact h.sound.add hg
    · exact h.sound.mark hg
    · rw [hg]
      exact h.sound
  · -- A value that is remembered from now on is that of a task that ends, and produced as such.
    apply hc.produced
    rcases hc.resolved_before hq with hq | ⟨id, t, -, -, he⟩
    · exact h.resolved q v hq
    · exact he.produced h.sound.indexed

end Changes

end ValueGraph
