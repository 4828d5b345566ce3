import Mathlib.Data.List.Induction
import ValueGraph.Execution.Executor

namespace ValueGraph

section Outcomes

def ItemStatus.state : ItemStatus → NodeState
  | success => .executed
  | failure reason => .failed reason

namespace ItemOutcome

def executed? (o : ItemOutcome) : Option NodeId :=
  match o.status with
  | .success => some o.node
  | .failure _ => none

def failed? (o : ItemOutcome) : Option (NodeId × String) :=
  match o.status with
  | .success => none
  | .failure reason => some (o.node, reason)

end ItemOutcome

namespace PendingJob

variable (job : PendingJob)

/-- The outcomes that count. -/
def outcomes (items : List ItemOutcome) : List ItemOutcome := items.filter (·.node ∈ job.nodes)

def result (r : JobResult) : ExecutionResult :=
  { job := r.job, configuration := job.configuration
    executed := (job.outcomes r.items).filterMap (·.executed?)
    failed := (job.outcomes r.items).filterMap (·.failed?) }

/-- The state in which the outcomes leave a node, by the last one for it. -/
def state? (items : List ItemOutcome) (configuration : String) (id : NodeId) : Option NodeState :=
  if job.configuration = configuration then
    ((job.outcomes items).filter (·.node = id)).getLast?.map (·.status.state)
  else none

def recordIn (l : Ledger) (items : List ItemOutcome) : Ledger :=
  (job.outcomes items).foldl (fun l o => l.record job.configuration o.node o.status.state) l

end PendingJob

end Outcomes

section Ledger

variable {l : Ledger} {c configuration : String} {id i : NodeId} {state : NodeState}

theorem Ledger.get?_record : (l.record configuration id state).get? c i =
    if configuration = c ∧ id = i then some state else l.get? c i := by
  unfold Ledger.get? Ledger.record Ledger.ofConfiguration
  rw [SortedMap.get?_insert]
  by_cases hc : configuration = c
  · subst hc
    simp only [if_true, Option.getD_some, SortedMap.get?_insert, true_and]
  · simp only [hc, if_false, false_and]

theorem PendingJob.get?_recordIn {job : PendingJob} (items : List ItemOutcome) :
    (job.recordIn l items).get? c i = (job.state? items c i).or (l.get? c i) := by
  unfold PendingJob.recordIn PendingJob.state?
  induction job.outcomes items using List.reverseRecOn with
  | nil => simp
  | append_singleton os o ih =>
    rw [List.foldl_append, List.foldl_cons, List.foldl_nil, Ledger.get?_record, ih,
      List.filter_append]
    by_cases hc : job.configuration = c
    · by_cases hi : o.node = i
      · simp [hc, hi]
      · simp [hc, hi]
    · simp [hc]

theorem PendingJob.of_state?_eq_some {job : PendingJob} {items : List ItemOutcome}
    (h : job.state? items c i = some state) : job.configuration = c ∧ i ∈ job.nodes := by
  unfold PendingJob.state? at h
  split at h
  next hc =>
    obtain ⟨o, ho, -⟩ := Option.map_eq_some_iff.1 h
    have ho := List.mem_filter.1 (List.mem_of_getLast? ho)
    obtain rfl : o.node = i := by simpa using ho.2
    exact ⟨hc, by simpa using (List.mem_filter.1 ho.1).2⟩
  next => cases h

end Ledger

namespace Executor

variable {e : Executor} {id : JobId} {d : Delivery} {job : PendingJob}

theorem foldl_add (items : List ItemOutcome) (a : Applied) :
    items.foldl (Applied.add job) a =
      { ledger := job.recordIn a.ledger items
        executed := a.executed ++ (job.outcomes items).filterMap (·.executed?)
        failed := a.failed ++ (job.outcomes items).filterMap (·.failed?) } := by
  induction items generalizing a with
  | nil => simp [PendingJob.recordIn, PendingJob.outcomes]
  | cons o items ih =>
    rw [List.foldl_cons, ih]
    unfold Applied.add PendingJob.recordIn PendingJob.outcomes ItemOutcome.executed?
      ItemOutcome.failed?
    by_cases ho : o.node ∈ job.nodes
    · cases hs : o.status <;> simp [ho, hs, ItemStatus.state]
    · simp [ho]

theorem modifyHandle_eq {f : Handle → Handle} :
    e.modifyHandle id f = { e with handles := e.handles.modify id f } := by
  unfold modifyHandle SortedMap.modify
  cases e.handles.get? id <;> rfl

theorem finish_eq {outcome : ExecutionOutcome} :
    e.finish id outcome =
      { e with
        pending := e.pending.erase id
        handles := e.handles.modify id fun h => { h with completion := .ended outcome } } :=
  modifyHandle_eq

theorem deliver_of_not_pending (h : e.pending.get? d.result.job = none) : e.deliver d = e := by
  unfold deliver
  rw [h]

theorem deliver_of_pending (h : e.pending.get? d.result.job = some job) :
    e.deliver d =
      { e with
        pending := e.pending.erase d.result.job
        handles := e.handles.modify d.result.job fun h =>
          { h with completion := .ended (.ok (job.result d.result)) }
        ledger := job.recordIn e.ledger d.result.items
        statistics := e.statistics.record (job.result d.result).executed.length
          (job.result d.result).failed.length d.time } := by
  unfold deliver
  rw [h]
  simp only [foldl_add, List.nil_append, finish_eq]
  rfl

theorem pending_deliver : (e.deliver d).pending = e.pending.erase d.result.job := by
  cases hp : e.pending.get? d.result.job with
  | none => rw [deliver_of_not_pending hp, SortedMap.erase_eq_self hp]
  | some job => rw [deliver_of_pending hp]

theorem nextJob_deliver : (e.deliver d).nextJob = e.nextJob := by
  cases hp : e.pending.get? d.result.job with
  | none => rw [deliver_of_not_pending hp]
  | some job => rw [deliver_of_pending hp]

theorem get?_handles_deliver : (e.deliver d).handles.get? id =
    if d.result.job = id then
      (e.handles.get? id).map fun h =>
        { h with completion := (e.pending.get? id).elim h.completion fun job =>
            .ended (.ok (job.result d.result)) }
    else e.handles.get? id := by
  split
  next hid =>
    subst hid
    cases hp : e.pending.get? d.result.job with
    | none =>
      rw [deliver_of_not_pending hp]
      exact Option.map_id'.symm
    | some job => rw [deliver_of_pending hp, SortedMap.get?_modify, if_pos rfl]; rfl
  next hid =>
    cases hp : e.pending.get? d.result.job with
    | none => rw [deliver_of_not_pending hp]
    | some job => rw [deliver_of_pending hp, SortedMap.get?_modify, if_neg hid]

end Executor

end ValueGraph
