import ValueGraph.Proofs.Graph.Order

namespace ValueGraph.Graph

variable {g g' : Graph} {n : Node} {r : Requirement} {s : ValueSpec} {id p c : NodeId}

theorem exists_mark (hs : (g.producer? s).isSome) : ∃ g', g.mark r s = .ok g' := by
  obtain ⟨id, hp⟩ := Option.isSome_iff_exists.1 hs
  unfold mark
  rw [hp]
  exact ⟨_, rfl⟩

theorem producer?_of_mark {s' : ValueSpec} (hm : g.mark r s = .ok g') :
    g'.producer? s' = g.producer? s' := by
  unfold producer?
  rw [(sameLinks_mark hm).producers]

theorem Indexed.isSome_producer?_iff (h : g.Indexed) :
    (g.producer? s).isSome ↔ ∃ id, g.Produces id s := by
  rw [Option.isSome_iff_exists]
  exact exists_congr fun id => h.producers s id

/-- The graphs made of an empty one by adding nodes, their inputs first, and marking outputs. -/
inductive Grown (configuration : String) : Graph → Prop
  | empty : Grown configuration { configuration }
  | add {g g' : Graph} {n id} (h : Grown configuration g)
    (hin : ∀ s ∈ n.inputs, (g.producer? s).isSome) (ha : g.add n = .ok (id, g')) :
    Grown configuration g'
  | mark {g g' : Graph} {r s} (h : Grown configuration g) (hm : g.mark r s = .ok g') :
    Grown configuration g'

variable {configuration : String}

theorem Grown.sound (h : Grown configuration g) : g.Sound := by
  induction h with
  | empty => exact sound_empty configuration
  | add _ _ ha ih => exact ih.add ha
  | mark _ hm ih => exact ih.mark hm

theorem Grown.freed (h : Grown configuration g) : g.freed = [] := by
  induction h with
  | empty => rfl
  | add _ _ ha ih =>
    obtain ⟨rfl, -⟩ := link_of_add ha
    rw [freed_link, ih]
    rfl
  | mark _ hm ih => rw [(sameLinks_mark hm).freed, ih]

theorem Grown.nextId (h : Grown configuration g) : g.nextId = g.unused := by
  unfold Graph.nextId
  rw [h.freed]
  rfl

/-- Each input of a node is an output of an older node. -/
theorem Grown.older (h : Grown configuration g) (hc : g.Reads c s) :
    ∃ p, g.Produces p s ∧ p < c := by
  induction h generalizing c s with
  | empty =>
    obtain ⟨n, hn, -⟩ := hc
    cases hn
  | @add g g' n id h hin ha ih =>
    obtain ⟨rfl, -⟩ := link_of_add ha
    -- What the new node reads is produced by a node in use, and its own id is larger than those.
    rcases (reads_link h.sound.ids).1 hc with ⟨rfl, hs⟩ | hc
    · obtain ⟨p, hp⟩ := h.sound.indexed.isSome_producer?_iff.1 (hin s hs)
      refine ⟨p, (produces_link h.sound.ids).2 (.inr hp), ?_⟩
      rw [h.nextId]
      exact (h.sound.ids.used p hp.contains).1
    · obtain ⟨p, hp, hlt⟩ := ih hc
      exact ⟨p, (produces_link h.sound.ids).2 (.inr hp), hlt⟩
  | mark h hm ih =>
    have same := sameLinks_mark hm
    obtain ⟨p, hp, hlt⟩ := ih ((same.reads _ _).1 hc)
    exact ⟨p, (same.produces _ _).2 hp, hlt⟩

theorem Grown.lt_of_feeds (h : Grown configuration g) (hpc : g.Feeds p c) : p < c := by
  obtain ⟨s, hp, hc⟩ := hpc
  obtain ⟨p', hp', hlt⟩ := h.older hc
  rw [h.sound.indexed.unique hp hp']
  exact hlt

theorem Grown.acyclic (h : Grown configuration g) (id : NodeId) :
    ¬ Relation.TransGen g.Feeds id id := by
  have hlt : ∀ a b, Relation.TransGen g.Feeds a b → a < b := by
    intro a b hab
    induction hab with
    | single hab => exact h.lt_of_feeds hab
    | tail _ hbc ih => exact Nat.lt_trans ih (h.lt_of_feeds hbc)
  intro hid
  exact Nat.lt_irrefl id (hlt id id hid)

end ValueGraph.Graph
