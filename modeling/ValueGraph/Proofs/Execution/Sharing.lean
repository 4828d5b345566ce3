import Mathlib.Logic.Basic
import Mathlib.Logic.ExistsUnique
import ValueGraph.Execution.Job
import ValueGraph.Proofs.Graph.Order
import ValueGraph.Proofs.Graph.Part

namespace ValueGraph

namespace CacheSelection

/-- Does `c` list those of the outputs that are shared or the others, whichever are fewer? -/
def Declares (c : CacheSelection) (outputs : SortedSet ValueSpec) : Prop :=
  let shared := outputs.filter c.isShared
  let unshared := outputs.filter fun s => !c.isShared s
  (c = .shared shared ∨ c = .unshared unshared) ∧ c.declared = min shared.size unshared.size

end CacheSelection

namespace Graph

variable {g : Graph} {p : NodeId} {s : ValueSpec} {keep : SortedSet NodeId} {id : JobId} {job : Job}

/-- Is each node of the graph in just one of the parts? -/
def SplitBy (g : Graph) (parts : List (SortedSet NodeId)) : Prop :=
  ∀ id, g.contains id → ∃! keep, keep ∈ parts ∧ id ∈ keep

section Selection

theorem isShared_cacheSelection (hs : s ∈ g.produced) :
    g.cacheSelection.isShared s = !g.isUnshared s := by
  unfold cacheSelection
  dsimp only
  split
  all_goals
    simp only [CacheSelection.isShared, SortedSet.mem_filter, hs, true_and]
    cases g.isUnshared s <;> rfl

theorem declares_cacheSelection (g : Graph) : g.cacheSelection.Declares g.produced := by
  have hshared : g.produced.filter g.cacheSelection.isShared =
      g.produced.filter fun s => !g.isUnshared s := by
    apply SortedSet.ext_mem
    intro s
    simp only [SortedSet.mem_filter]
    exact and_congr_right fun hs => by rw [isShared_cacheSelection hs]
  have hunshared : (g.produced.filter fun s => !g.cacheSelection.isShared s) =
      g.produced.filter g.isUnshared := by
    apply SortedSet.ext_mem
    intro s
    simp only [SortedSet.mem_filter]
    exact and_congr_right fun hs => by rw [isShared_cacheSelection hs, Bool.not_not]
  unfold CacheSelection.Declares
  rw [hshared, hunshared]
  unfold cacheSelection
  dsimp only
  split
  next hlt => exact ⟨.inl rfl, (Nat.min_eq_left (Nat.le_of_lt hlt)).symm⟩
  next hle => exact ⟨.inr rfl, (Nat.min_eq_right (Nat.le_of_not_lt hle)).symm⟩

end Selection

section Jobs

theorem cache_job (hjob : g.job id = .ok job) : job.cache = g.cacheSelection := by
  obtain ⟨order, -, rfl⟩ := job_eq_ok_iff.1 hjob
  rfl

theorem Indexed.exists_job (h : g.Indexed) (hacyclic : ∀ i, ¬ Relation.TransGen g.Feeds i i)
    (id : JobId) : ∃ job, g.job id = .ok job := by
  obtain ⟨order, ho⟩ := h.exists_executionOrder hacyclic none
  exact ⟨_, job_eq_ok_iff.2 ⟨order, ho, rfl⟩⟩

variable (h : g.Sound)
include h

theorem Sound.mem_produced : s ∈ g.produced ↔ ∃ p, g.Produces p s := h.agrees.produced s

theorem Sound.isUnshared_eq_false_iff :
    g.isUnshared s = false ↔ g.isTerminal s ∨ g.isExternal s ∨ ∀ c, ¬ g.Reads c s := by
  have hread : (g.consumers s).isEmpty ↔ ∀ c, ¬ g.Reads c s := by
    rw [List.isEmpty_iff, List.eq_nil_iff_forall_not_mem]
    simp only [h.agrees.consumers]
  unfold isUnshared
  rw [← hread]
  simp only [Bool.and_eq_false_iff, Bool.not_eq_false', or_assoc]

theorem Sound.mem_produced_part :
    s ∈ (g.part keep).produced ↔ ∃ p ∈ keep, g.Produces p s := by
  rw [(h.part keep).1.mem_produced]
  simp only [h.produces_part]

/-- What a part shares of its outputs: all but what is read, and by nodes of the part only. -/
theorem Sound.isShared_part (hp : g.Produces p s) (hkeep : p ∈ keep) :
    (g.part keep).cacheSelection.isShared s ↔
      g.isTerminal s ∨ g.isExternal s ∨ (∃ c, c ∉ keep ∧ g.Reads c s) ∨ ∀ c, ¬ g.Reads c s := by
  have hpart : (g.part keep).Sound := (h.part keep).1
  rw [isShared_cacheSelection (h.mem_produced_part.2 ⟨p, hkeep, hp⟩), Bool.not_eq_true',
    hpart.isUnshared_eq_false_iff, h.isTerminal_part hp hkeep, h.isExternal_part hp hkeep, or_assoc]
  simp only [h.reads_part]
  -- Where no other node reads it, its readers are those in the part.
  by_cases hout : ∃ c, c ∉ keep ∧ g.Reads c s
  · simp [hout]
  · have hin (c : NodeId) : c ∈ keep ∧ g.Reads c s ↔ g.Reads c s := by
      refine and_iff_right_of_imp fun hc => ?_
      apply Decidable.byContradiction
      intro hno
      exact hout ⟨c, hno, hc⟩
    simp only [hin]

theorem Sound.acyclic_part (hacyclic : ∀ i, ¬ Relation.TransGen g.Feeds i i) (i : NodeId) :
    ¬ Relation.TransGen (g.part keep).Feeds i i := by
  intro hi
  refine hacyclic i (Relation.TransGen.mono (fun p c hpc => ?_) i i hi)
  obtain ⟨s, hp, hc⟩ := hpc
  exact ⟨s, (h.produces_part.1 hp).2, (h.reads_part.1 hc).2⟩

theorem Sound.isShared_of_flow {parts : List (SortedSet NodeId)} {keep' : SortedSet NodeId}
    {c : NodeId} (hparts : g.SplitBy parts) (hmem : keep ∈ parts) (hmem' : keep' ∈ parts)
    (hne : keep ≠ keep') (hp : g.Produces p s) (hkeep : p ∈ keep) (hc : g.Reads c s)
    (hkeep' : c ∈ keep') : (g.part keep).cacheSelection.isShared s := by
  have hout : c ∉ keep := by
    intro hin
    obtain ⟨n, hn, -⟩ := hc
    have hcontains : g.contains c := by simp [Graph.contains, hn]
    exact hne ((hparts c hcontains).unique ⟨hmem, hin⟩ ⟨hmem', hkeep'⟩)
  exact (h.isShared_part hp hkeep).2 (.inr (.inr (.inl ⟨c, hout, hc⟩)))

end Jobs

/--
A job for some nodes of a graph shares an output of theirs just if it is terminal or external, or
read by another node, or by none. So where the nodes are dealt out to jobs, what a node of one job
reads of another job is shared. A job lists its shared or its other outputs, whichever are fewer.
In a graph without circles there is a job for any nodes.
-/
theorem isShared_job_part (configuration : String) (os : List Operation) :
    let g := after configuration os
    (∀ keep id job, (g.part keep).job id = .ok job →
      (∀ p ∈ keep, ∀ s, g.Produces p s → (job.cache.isShared s ↔
        g.isTerminal s ∨ g.isExternal s ∨ (∃ c, c ∉ keep ∧ g.Reads c s) ∨ ∀ c, ¬ g.Reads c s)) ∧
      job.cache.Declares (g.part keep).produced ∧
      ∀ s, s ∈ (g.part keep).produced ↔ ∃ p ∈ keep, g.Produces p s) ∧
    (∀ parts, g.SplitBy parts → ∀ keep ∈ parts, ∀ keep' ∈ parts, keep ≠ keep' →
      ∀ p ∈ keep, ∀ c ∈ keep', ∀ s, g.Produces p s → g.Reads c s →
        ∀ id job, (g.part keep).job id = .ok job → job.cache.isShared s) ∧
    ((∀ i, ¬ Relation.TransGen g.Feeds i i) → ∀ keep id, ∃ job, (g.part keep).job id = .ok job) := by
  intro g
  have h : g.Sound := sound_after configuration os
  refine ⟨fun keep id job hjob => ⟨fun p hkeep s hp => ?_, ?_, fun s => h.mem_produced_part⟩,
    fun parts hparts keep hmem keep' hmem' hne p hkeep c hkeep' s hp hc id job hjob => ?_,
    fun hacyclic keep id => ?_⟩
  · rw [cache_job hjob]
    exact h.isShared_part hp hkeep
  · rw [cache_job hjob]
    exact (g.part keep).declares_cacheSelection
  · rw [cache_job hjob]
    exact h.isShared_of_flow hparts hmem hmem' hne hp hkeep hc hkeep'
  · exact (h.part keep).1.indexed.exists_job (h.acyclic_part hacyclic) id

end Graph

end ValueGraph
