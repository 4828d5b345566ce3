import Mathlib
import ValueGraph.Proofs.Execution.Records

namespace ValueGraph

section Lists

def ExecutionResult.nodes (r : ExecutionResult) : List NodeId := r.executed ++ r.failed.map (·.1)

/-- How often the result mentions the node. -/
def JobResult.mentions (r : JobResult) (i : NodeId) : Nat := r.items.countP (·.node = i)

variable {job : PendingJob} {r : JobResult} {items : List ItemOutcome} {i : NodeId}
  {reason : String} {state : NodeState}

theorem perm_executed_append_failed (os : List ItemOutcome) :
    (os.filterMap (·.executed?) ++ (os.filterMap (·.failed?)).map (·.1)).Perm (os.map (·.node)) := by
  induction os with
  | nil => rfl
  | cons o os ih =>
    cases hs : o.status with
    | success =>
      simp only [List.filterMap_cons, ItemOutcome.executed?, ItemOutcome.failed?, hs, List.map_cons,
        List.cons_append]
      exact ih.cons o.node
    | failure reason =>
      simp only [List.filterMap_cons, ItemOutcome.executed?, ItemOutcome.failed?, hs, List.map_cons]
      exact List.perm_middle.trans (ih.cons o.node)

namespace PendingJob

theorem perm_nodes_result : (job.result r).nodes.Perm ((job.outcomes r.items).map (·.node)) :=
  perm_executed_append_failed (job.outcomes r.items)

theorem mem_nodes_result_iff :
    i ∈ (job.result r).nodes ↔ ∃ o ∈ job.outcomes r.items, o.node = i := by
  rw [perm_nodes_result.mem_iff, List.mem_map]

theorem mem_of_mem_nodes_result (h : i ∈ (job.result r).nodes) : i ∈ job.nodes := by
  obtain ⟨o, ho, rfl⟩ := mem_nodes_result_iff.1 h
  simpa using (List.mem_filter.1 ho).2

theorem filter_outcomes : (job.outcomes items).filter (·.node = i) =
    if i ∈ job.nodes then items.filter (·.node = i) else [] := by
  unfold outcomes
  rw [List.filter_filter]
  split
  next hi =>
    refine List.filter_congr fun o _ => ?_
    by_cases ho : o.node = i
    · simp [ho, hi]
    · simp [ho]
  next hi =>
    rw [List.filter_eq_nil_iff]
    intro o _
    by_cases ho : o.node = i
    · simp [ho, hi]
    · simp [ho]

/-- The lists have no repetitions, and no common node, if no node of the job is mentioned twice. -/
theorem nodup_nodes_result_iff :
    (job.result r).nodes.Nodup ↔ ∀ i ∈ job.nodes, r.mentions i ≤ 1 := by
  rw [perm_nodes_result.nodup_iff, List.nodup_iff_count_le_one]
  refine forall_congr' fun i => ?_
  have hcount : ((job.outcomes r.items).map (·.node)).count i =
      ((job.outcomes r.items).filter (·.node = i)).length := by
    rw [List.count_eq_countP, List.countP_map, List.countP_eq_length_filter]
    rfl
  rw [hcount, filter_outcomes]
  split
  next hi =>
    rw [← List.countP_eq_length_filter]
    exact ⟨fun h _ => h, fun h => h hi⟩
  next hi => exact iff_of_true (Nat.zero_le _) fun h => absurd h hi

theorem mem_executed_result_iff : i ∈ (job.result r).executed ↔
    ∃ o ∈ (job.outcomes r.items).filter (·.node = i), o.status.state = .executed := by
  simp only [result, List.mem_filterMap, List.mem_filter, decide_eq_true_eq, and_assoc]
  refine exists_congr fun o => and_congr_right fun _ => ?_
  unfold ItemOutcome.executed?
  cases o.status <;> simp [ItemStatus.state]

theorem mem_failed_result_iff : (i, reason) ∈ (job.result r).failed ↔
    ∃ o ∈ (job.outcomes r.items).filter (·.node = i), o.status.state = .failed reason := by
  simp only [result, List.mem_filterMap, List.mem_filter, decide_eq_true_eq, and_assoc]
  refine exists_congr fun o => and_congr_right fun _ => ?_
  unfold ItemOutcome.failed?
  cases o.status <;> simp [ItemStatus.state]

theorem state?_eq : job.state? items job.configuration i =
    ((job.outcomes items).filter (·.node = i)).getLast?.map (·.status.state) := if_pos rfl

theorem isSome_state?_iff :
    (job.state? r.items job.configuration i).isSome ↔ i ∈ (job.result r).nodes := by
  rw [state?_eq, Option.isSome_map, List.getLast?_isSome, mem_nodes_result_iff]
  simp

theorem exists_of_state? (h : job.state? r.items job.configuration i = some state) :
    ∃ o ∈ (job.outcomes r.items).filter (·.node = i), o.status.state = state := by
  rw [state?_eq] at h
  obtain ⟨o, ho, hstate⟩ := Option.map_eq_some_iff.1 h
  exact ⟨o, List.mem_of_getLast? ho, hstate⟩

theorem state?_of_mentions (h : r.mentions i ≤ 1) {o : ItemOutcome}
    (ho : o ∈ (job.outcomes r.items).filter (·.node = i)) :
    job.state? r.items job.configuration i = some o.status.state := by
  have hlength : ((job.outcomes r.items).filter (·.node = i)).length ≤ 1 := by
    rw [filter_outcomes]
    split
    · rwa [← List.countP_eq_length_filter]
    · exact Nat.zero_le _
  have hsingle : (job.outcomes r.items).filter (·.node = i) = [o] := by
    obtain ⟨o', ho'⟩ := List.length_eq_one_iff.1
      (Nat.le_antisymm hlength (List.length_pos_of_mem ho))
    rw [ho', List.mem_singleton] at ho
    rw [ho', ho]
  rw [state?_eq, hsingle]
  rfl

theorem state?_eq_some_iff (h : r.mentions i ≤ 1) :
    job.state? r.items job.configuration i = some state ↔
      ∃ o ∈ (job.outcomes r.items).filter (·.node = i), o.status.state = state := by
  refine ⟨exists_of_state?, ?_⟩
  rintro ⟨o, ho, hstate⟩
  rw [state?_of_mentions h ho, hstate]

end PendingJob

theorem ExecutionResult.nodeCount_eq (r : ExecutionResult) : r.nodeCount = r.nodes.length := by
  unfold nodeCount nodes
  rw [List.length_append, List.length_map]

theorem Job.nodeCount_le {job : Job} (h : (job.pending.result r).nodes.Nodup) :
    (job.pending.result r).nodeCount ≤ job.items.length := by
  have hsub : (job.pending.result r).nodes ⊆ job.items.map (·.node) := fun i hi =>
    SortedSet.mem_ofList.1 (PendingJob.mem_of_mem_nodes_result hi)
  have hle := (h.subperm hsub).length_le
  rwa [List.length_map, ← ExecutionResult.nodeCount_eq] at hle

end Lists

namespace Executor

variable {l : Ledger} {s : Statistics} {J : List Entry} {e : Executor} {job : Job} {d : Delivery}

/--
What caller, ledger and statistics say of the nodes of `job` when the result `r` has made `e'` of
`e`, and the caller is told `result`. The state that the result leaves a node in is that of the last
outcome for it.
-/
structure Consistent (e : Executor) (job : Job) (r : JobResult) (result : ExecutionResult)
    (e' : Executor) : Prop where
  told : (e'.collect job.id).1 = some (.ok result)
  within : ∀ i ∈ result.nodes, i ∈ job.items.map (·.node)
  /-- The ledger is as before, but for the nodes that the result leaves in a state. -/
  ledger : ∀ c i, e'.ledger.get? c i = (job.pending.state? r.items c i).or (e.ledger.get? c i)
  graphs : e'.statistics.graphs = e.statistics.graphs + 1
  executed : e'.statistics.executed = e.statistics.executed + result.executed.length
  failed : e'.statistics.failed = e.statistics.failed + result.failed.length
  /-- The caller is told of the nodes with a state in the ledger due to the result, and of it. -/
  written : ∀ i, i ∈ result.nodes ↔ (job.pending.state? r.items job.configuration i).isSome
  mem_executed : ∀ i, job.pending.state? r.items job.configuration i = some .executed →
    i ∈ result.executed
  mem_failed : ∀ i reason,
    job.pending.state? r.items job.configuration i = some (.failed reason) →
      (i, reason) ∈ result.failed
  /-- Of a node that is mentioned once nothing else is told. -/
  exact : ∀ i, r.mentions i ≤ 1 →
    (i ∈ result.executed ↔ job.pending.state? r.items job.configuration i = some .executed) ∧
    ∀ reason, (i, reason) ∈ result.failed ↔
      job.pending.state? r.items job.configuration i = some (.failed reason)
  /-- The lists are free of repetitions and disjoint if no node of the job is mentioned twice. -/
  nodup : (result.executed.Nodup ∧ (result.failed.map (·.1)).Nodup ∧
    result.executed.Disjoint (result.failed.map (·.1))) ↔
      ∀ i ∈ job.items.map (·.node), r.mentions i ≤ 1
  nodeCount : (∀ i ∈ job.items.map (·.node), r.mentions i ≤ 1) →
    result.nodeCount ≤ job.items.length

theorem Recorded.isSome_handle?_of_openJob? (h : Recorded l s J e) {id : JobId}
    (hopen : openJob? J id = some job) : (handle? J id).isSome := by
  obtain ⟨hj, rfl⟩ := submitted_of_openJob? hopen
  have hwithdraw : .withdraw job.id ∉ J := fun hw => h.not_spent_of_openJob? hopen (.inl hw)
  unfold handle?
  rw [if_pos ⟨List.mem_map.2 ⟨job, hj, rfl⟩, hwithdraw⟩]
  rfl

theorem Recorded.collect_deliver (h : Recorded l s J e)
    (hopen : openJob? J d.result.job = some job) :
    ((e.deliver d).collect job.id).1 = some (.ok (job.pending.result d.result)) := by
  have hnext : Recorded l s (.report d :: J) (e.deliver d) := h.enter (x := .report d) trivial
  obtain ⟨-, hid⟩ := submitted_of_openJob? hopen
  have hreceipt : receipt? J (.report d) = some ⟨job, d⟩ := by simp [receipt?, hopen]
  refine hnext.collect_eq_some_iff.2 ⟨?_, ending?_cons_of_receipt hreceipt⟩
  rw [hnext.handle, hid, handle?_report hopen, Option.isSome_map]
  exact h.isSome_handle?_of_openJob? hopen

theorem Recorded.consistent_deliver (h : Recorded l s J e)
    (hopen : openJob? J d.result.job = some job) :
    e.Consistent job d.result (job.pending.result d.result) (e.deliver d) := by
  have hp : e.pending.get? d.result.job = some job.pending := by
    rw [h.pending, hopen]
    rfl
  have hdeliver := deliver_of_pending hp
  have hnodes (i : NodeId) : i ∈ job.pending.nodes ↔ i ∈ job.items.map (·.node) :=
    SortedSet.mem_ofList
  have hnodup : (job.pending.result d.result).nodes.Nodup ↔
      ∀ i ∈ job.pending.nodes, d.result.mentions i ≤ 1 := PendingJob.nodup_nodes_result_iff
  simp only [hnodes] at hnodup
  exact {
    told := h.collect_deliver hopen
    within := fun i hi => (hnodes i).1 (PendingJob.mem_of_mem_nodes_result hi)
    ledger := fun c i => by
      rw [hdeliver]
      exact PendingJob.get?_recordIn d.result.items
    graphs := by rw [hdeliver]; rfl
    executed := by rw [hdeliver]; rfl
    failed := by rw [hdeliver]; rfl
    written := fun i => PendingJob.isSome_state?_iff.symm
    mem_executed := fun i hi =>
      PendingJob.mem_executed_result_iff.2 (PendingJob.exists_of_state? hi)
    mem_failed := fun i reason hi =>
      PendingJob.mem_failed_result_iff.2 (PendingJob.exists_of_state? hi)
    exact := fun i hi =>
      ⟨PendingJob.mem_executed_result_iff.trans (PendingJob.state?_eq_some_iff hi).symm,
        fun reason => PendingJob.mem_failed_result_iff.trans (PendingJob.state?_eq_some_iff hi).symm⟩
    nodup := by
      rw [← hnodup, ExecutionResult.nodes, List.nodup_append']
    nodeCount := fun hi => Job.nodeCount_le (hnodup.2 hi) }

/--
Whatever result comes for a pending job, at whatever time, the caller is told of the nodes of the
job for which the ledger has a state due to it, and the statistics count what the caller is told.
The lists are free of repetitions and disjoint just if the result mentions no node of the job twice.
-/
theorem consistent_of_pending (h : Recorded l s J e) (hp : d.result.job ∈ e.pending) :
    ∃ job ∈ submissions J, job.id = d.result.job ∧
      ∃ result, e.Consistent job d.result result (e.deliver d) := by
  obtain ⟨job, hopen⟩ := Option.isSome_iff_exists.1 (h.mem_pending_iff.1 hp)
  obtain ⟨hj, hid⟩ := submitted_of_openJob? hopen
  exact ⟨job, hj, hid, _, h.consistent_deliver hopen⟩

def outcomesOfSingle (items : List ItemOutcome) : Delivery := { result := { job := ⟨1⟩, items } }

/--
A node that succeeds and then fails is told of as executed and as failed, though the ledger says
that it failed; one that succeeds twice is told of and counted twice.
-/
theorem deliver_repeated :
    let e := after {} {} [.execute single fun _ => {}]
    let both := e.deliver (outcomesOfSingle [⟨0, .success⟩, ⟨0, .failure "no data"⟩])
    let twice := e.deliver (outcomesOfSingle [⟨0, .success⟩, ⟨0, .success⟩])
    (both.collect ⟨1⟩).1.map Except.toOption =
      some (some { job := ⟨1⟩, configuration := "Default", executed := [0],
                   failed := [(0, "no data")] }) ∧
    both.ledger.get? "Default" 0 = some (.failed "no data") ∧
    both.statistics.executed = 1 ∧ both.statistics.failed = 1 ∧
    (twice.collect ⟨1⟩).1.map Except.toOption =
      some (some { job := ⟨1⟩, configuration := "Default", executed := [0, 0] }) ∧
    twice.ledger.get? "Default" 0 = some .executed ∧ twice.statistics.executed = 2 :=
  ⟨by cbv, by cbv, by cbv, by cbv, by cbv, by cbv, by cbv⟩

/-- The node fails, and something is said of a node that the job has not. -/
theorem consistent_of_pending_single :
    let e := after {} {} [.execute single fun _ => {}]
    let d := outcomesOfSingle [⟨0, .failure "no data"⟩, ⟨7, .success⟩]
    Recorded {} {} ((start {} {}).journal [.execute single fun _ => {}]) e ∧
    d.result.job ∈ e.pending ∧
    (∃ job ∈ submissions ((start {} {}).journal [.execute single fun _ => {}]),
      job.id = d.result.job ∧ ∃ result, e.Consistent job d.result result (e.deliver d)) ∧
    (e.deliver d).statistics.failed = 1 := by
  have h := recorded_after {} {} [.execute single fun _ => {}]
  have hp : (outcomesOfSingle [⟨0, .failure "no data"⟩, ⟨7, .success⟩]).result.job ∈
      (after {} {} [.execute single fun _ => {}]).pending := by
    rw [SortedMap.mem_iff_isSome_get?]
    cbv
  exact ⟨h, hp, consistent_of_pending h hp, by cbv⟩

end Executor

end ValueGraph
