import ValueGraph.Proofs.Resolution.Quiescence

namespace ValueGraph

variable {σ : Type} {c : Collaborators σ} {maxDepth : Nat}

theorem Adds.inputs_produced {r : Resolution} {id : TaskId} {t : Task} {n : Node} {b : Activity}
    (h : Adds c r.graph t n) (hw : Wired ⟨r, b⟩) (hg : Grounded ⟨r, b⟩)
    (ht : r.tasks[id]? = some t) : ∀ v ∈ n.inputs, (r.graph.producer? v).isSome := by
  intro v hv
  cases h with
  | source => exact absurd hv SortedSet.not_mem_empty
  | relabel hp ha hs =>
    rcases SortedSet.mem_insert.1 hv with rfl | hv
    · exact hs
    · exact absurd hv SortedSet.not_mem_empty
  | @commit s a hp =>
    -- Each input fills a slot, and a slot is filled with what was resolved.
    obtain ⟨o, ho, rfl⟩ := List.mem_filterMap.1 (SortedSet.mem_ofList.1 hv)
    obtain ⟨i, hi⟩ := List.mem_iff_getElem?.1 ho
    obtain ⟨q, -, hq⟩ := (hw.tasks id t ht).filled s a i v hp hi
    exact hg.resolved q v hq

theorem Change.grown {m m' : Moment} {configuration : String} (hc : Change c maxDepth m m')
    (hw : Wired m) (hg : Grounded m) (h : Graph.Grown configuration m.resolution.graph) :
    Graph.Grown configuration m'.resolution.graph := by
  rcases hc.graph_cases with ⟨id, t, n, i, -, ht, ha, hadd⟩ | ⟨q, v, hm⟩ | hsame
  · exact h.add (ha.inputs_produced hw hg ht) hadd
  · exact h.mark hm
  · rw [hsame]
    exact h

namespace Resolution

variable (c maxDepth)

theorem kept_grown (configuration : String) :
    Kept (Change c maxDepth) fun m => Steady m ∧ Graph.Grown configuration m.resolution.graph where
  change hc h := ⟨(kept_steady c maxDepth).change hc h.1, hc.grown h.1.wired h.1.grounded h.2⟩
  sound h := (kept_steady c maxDepth).sound h.1

/--
A resolution that starts with an empty graph meets no objection of the graph in any call. It adds
each node after those that supply it, so that the graph can be executed between any two calls.
-/
theorem grown_afterCalls (configuration : String) (calls : List (Call σ)) :
    let r := afterCalls c maxDepth { graph := { configuration } } calls
    (∀ x : Call σ, (r.call c maxDepth x).1 = none) ∧
      Graph.Grown configuration r.graph ∧
      (∀ id s, r.graph.Reads id s → ∃ p, r.graph.Produces p s ∧ p < id) ∧
      (∀ id, ¬ Relation.TransGen r.graph.Feeds id id) ∧
      ∀ view, ∃ order, r.graph.executionOrder view = .ok order := by
  intro r
  have hkept := kept_grown c maxDepth configuration
  have hr : Steady ⟨r, .idle⟩ ∧ Graph.Grown configuration r.graph :=
    hkept.afterCalls ⟨steady_initial (Graph.sound_empty configuration), .empty⟩ calls
  refine ⟨fun x => (hkept.call hr x).1, hr.2, fun id s hs => hr.2.older hs, hr.2.acyclic, ?_⟩
  intro view
  exact hr.2.sound.indexed.exists_executionOrder hr.2.acyclic view

end Resolution

end ValueGraph
