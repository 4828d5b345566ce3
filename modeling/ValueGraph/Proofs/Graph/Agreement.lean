import ValueGraph.Proofs.Graph.Operations

namespace ValueGraph.Graph

variable {g : Graph} {id i p c : NodeId} {s : ValueSpec}

section Runs

inductive Operation
  | add (n : Node)
  | remove (id : NodeId)
  | replace (id : NodeId) (n : Node)
  | mark (r : Requirement) (s : ValueSpec)
  | unmark (rs : List Requirement) (s : ValueSpec)
  | prune
  | part (keep : SortedSet NodeId)

/-- The graph is left as it was if the change is refused. -/
def apply (g : Graph) : Operation → Graph
  | .add n => match g.add n with
    | .ok (_, g') => g'
    | .error _ => g
  | .remove id => match g.remove id with
    | .ok (_, g') => g'
    | .error _ => g
  | .replace id n => match g.replace id n with
    | .ok (_, g') => g'
    | .error _ => g
  | .mark r s => match g.mark r s with
    | .ok g' => g'
    | .error _ => g
  | .unmark rs s => g.unmark rs s
  | .prune => g.prune
  | .part keep => g.part keep

/-- The graph that the changes make of an empty one. -/
def after (configuration : String) (os : List Operation) : Graph :=
  os.foldl apply { configuration }

theorem sound_empty (configuration : String) : ({ configuration } : Graph).Sound := by
  have hnode : ∀ id, ({ configuration } : Graph).node? id = none := fun _ => rfl
  have hp : ∀ id s, ¬ ({ configuration } : Graph).Produces id s := by
    rintro id s ⟨n, hn, -⟩
    simp [hnode] at hn
  have hr : ∀ id s, ¬ ({ configuration } : Graph).Reads id s := by
    rintro id s ⟨n, hn, -⟩
    simp [hnode] at hn
  refine ⟨⟨fun id hc => ?_, fun id hid => ?_, List.nodup_nil⟩, ?_, fun id => ?_⟩
  · simp [contains, hnode] at hc
  · cases hid
  · refine ⟨fun s id => ?_, fun s id => ?_, fun p c => ?_, fun k s => ?_, fun s => ?_, fun t => rfl,
      fun s rs hs => ?_, fun s hs => ?_⟩
    · refine iff_of_false (fun h => ?_) (hp id s)
      cases h
    · exact iff_of_false SortedSet.not_mem_empty (hr id s)
    · refine iff_of_false ?_ ?_
      · rintro ⟨s, he⟩
        cases he
      · rintro ⟨s, hs, -⟩
        exact hp p s hs
    · refine iff_of_false SortedSet.not_mem_empty ?_
      rintro ⟨-, id, hs⟩
      exact hp id s hs
    · refine iff_of_false SortedSet.not_mem_empty ?_
      rintro ⟨id, n, hn, -⟩
      simp [hnode] at hn
    · cases hs
    · cases hs
  · refine iff_of_false SortedSet.not_mem_empty ?_
    rintro ⟨hc, -⟩
    simp [contains, hnode] at hc

theorem Sound.apply (h : g.Sound) (o : Operation) : (g.apply o).Sound := by
  cases o with
  | add n =>
    simp only [Graph.apply]
    split
    next ha => exact h.add ha
    next => exact h
  | remove id =>
    simp only [Graph.apply]
    split
    next hr => exact h.remove hr
    next => exact h
  | replace id n =>
    simp only [Graph.apply]
    split
    next hr => exact h.replace hr
    next => exact h
  | mark r s =>
    simp only [Graph.apply]
    split
    next hm => exact h.mark hm
    next => exact h
  | unmark rs s => exact h.unmark rs s
  | prune => exact h.prune
  | part keep => exact (h.part keep).1

theorem Sound.foldl_apply (h : g.Sound) (os : List Operation) :
    (os.foldl Graph.apply g).Sound := by
  induction os generalizing g with
  | nil => exact h
  | cons o os ih => exact ih (h.apply o)

theorem sound_after (configuration : String) (os : List Operation) :
    (after configuration os).Sound :=
  (sound_empty configuration).foldl_apply os

end Runs

section Answers

/-- Is `s` produced, and does it have that name and target and meet the constraints? -/
def Matches (g : Graph) (name : String) (target : Target) (constraints : Properties)
    (s : ValueSpec) : Prop :=
  (∃ id, g.Produces id s) ∧ s.name = name ∧ s.target = target ∧
    constraints.satisfiedBy s.properties

/--
Each question that a graph answers from an index, and what its nodes say to it: nothing but `node?`
stands on the right.
-/
structure Agrees (g : Graph) : Prop where
  one_producer : ∀ s p p', g.Produces p s → g.Produces p' s → p = p'
  producer : ∀ s p, g.producer? s = some p ↔ g.Produces p s
  no_producer : ∀ s, g.producer? s = none ↔ ∀ p, ¬ g.Produces p s
  produced : ∀ s, s ∈ g.produced ↔ ∃ p, g.Produces p s
  consumers : ∀ s c, c ∈ g.consumers s ↔ g.Reads c s
  dependents : ∀ p c, c ∈ g.dependents p ↔ g.Feeds p c
  suppliers : ∀ p c, p ∈ g.suppliers c ↔ g.Feeds p c
  roots : ∀ id, id ∈ g.roots ↔ g.contains id ∧ g.dependents id = []
  find : ∀ name target constraints s, g.find? name target constraints = some s ↔
    g.Matches name target constraints s ∧
      ∀ t, g.Matches name target constraints t → (compare s t).isLE
  find_none : ∀ name target constraints, g.find? name target constraints = none ↔
    ∀ s, ¬ g.Matches name target constraints s
  marketData : ∀ s, s ∈ g.marketData ↔ g.Sources s
  targets : ∀ t, t ∈ g.targets ↔ ∃ id n, g.node? id = some n ∧ n.target = t
  /-- What is terminal is produced by a node that flags it, and backs a requirement. -/
  terminal : ∀ s, g.isTerminal s → g.Flagged s ∧ ∃ r, r ∈ g.backing.setAt s
  external : ∀ s, g.isExternal s → ∃ p, g.Produces p s

variable (h : g.Indexed)
include h

theorem Indexed.mem_dependents : c ∈ g.dependents p ↔ g.Feeds p c := by
  unfold dependents
  rw [SortedSet.mem_toList, SortedSet.mem_ofList, ← h.edges]
  simp only [List.mem_map, List.mem_filter, decide_eq_true_eq]
  constructor
  · rintro ⟨e, ⟨he, rfl⟩, rfl⟩
    exact ⟨e.spec, he⟩
  · rintro ⟨s, he⟩
    exact ⟨_, ⟨he, rfl⟩, rfl⟩

theorem Indexed.mem_suppliers : p ∈ g.suppliers c ↔ g.Feeds p c := by
  unfold suppliers
  rw [SortedSet.mem_toList, SortedSet.mem_ofList, ← h.edges]
  simp only [List.mem_map, List.mem_filter, decide_eq_true_eq]
  constructor
  · rintro ⟨e, ⟨he, rfl⟩, rfl⟩
    exact ⟨e.spec, he⟩
  · rintro ⟨s, he⟩
    exact ⟨_, ⟨he, rfl⟩, rfl⟩

theorem Indexed.mem_byKey {name : String} {target : Target} {constraints : Properties} :
    s ∈ g.byKey.setAt ⟨name, target⟩ ∧ constraints.satisfiedBy s.properties ↔
      g.Matches name target constraints s := by
  rw [h.byKey, ValueSpec.key, ValueKey.mk.injEq]
  unfold Matches
  constructor
  · rintro ⟨⟨⟨hn, ht⟩, hp⟩, hq⟩
    exact ⟨hp, hn, ht, hq⟩
  · rintro ⟨hp, hn, ht, hq⟩
    exact ⟨⟨⟨hn, ht⟩, hp⟩, hq⟩

theorem Indexed.find?_eq_some_iff {name : String} {target : Target} {constraints : Properties} :
    g.find? name target constraints = some s ↔
      g.Matches name target constraints s ∧
        ∀ t, g.Matches name target constraints t → (compare s t).isLE := by
  unfold find?
  rw [SortedSet.find?_toList_eq_some_iff]
  simp only [← h.mem_byKey]

theorem Indexed.find?_eq_none_iff {name : String} {target : Target} {constraints : Properties} :
    g.find? name target constraints = none ↔ ∀ s, ¬ g.Matches name target constraints s := by
  unfold find?
  rw [List.find?_eq_none]
  simp only [← h.mem_byKey, SortedSet.mem_toList, not_and]

end Answers

theorem Sound.agrees (h : g.Sound) : g.Agrees where
  one_producer _ _ _ := h.indexed.unique
  producer := h.indexed.producers
  no_producer s := by
    simp only [Option.eq_none_iff_forall_ne_some, ne_eq, h.indexed.producers]
  produced s := by
    show s ∈ g.producers.keySet ↔ _
    simp only [← h.indexed.producers, producer?]
    rw [SortedMap.mem_keySet, SortedMap.mem_iff_isSome_get?, Option.isSome_iff_exists]
  consumers := h.indexed.readers
  dependents _ _ := h.indexed.mem_dependents
  suppliers _ _ := h.indexed.mem_suppliers
  roots id := by
    rw [List.eq_nil_iff_forall_not_mem]
    simp only [h.indexed.mem_dependents]
    exact h.roots id
  find _ _ _ _ := h.indexed.find?_eq_some_iff
  find_none _ _ _ := h.indexed.find?_eq_none_iff
  marketData := h.indexed.marketData
  targets t := by
    rw [← countFor_pos_iff, ← h.indexed.targets.mem_iff]
    exact SortedMap.mem_keySet
  -- The sets that the backing maps to are never empty, so a key tells the same as its set.
  terminal s hs := by
    obtain ⟨rs, hrs⟩ := Option.isSome_iff_exists.1 (of_decide_eq_true hs)
    have hset : g.backing.setAt s = rs := by simp [SortedMap.setAt, hrs]
    rw [hset]
    exact h.indexed.backing s rs hrs
  external s hs := h.indexed.external s (of_decide_eq_true hs)

/-- After any changes, each index says what the nodes alone say. -/
theorem after_agrees (configuration : String) (os : List Operation) :
    (after configuration os).Agrees :=
  (sound_after configuration os).agrees

end ValueGraph.Graph
