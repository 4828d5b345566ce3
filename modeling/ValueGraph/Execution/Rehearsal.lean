import ValueGraph.Execution.Executor

namespace ValueGraph

inductive DispatchMode
  /-- Reports the result at once. -/
  | reply
  | hold
  | reject
  | unavailable
  /-- Reports the result and rejects the job nevertheless. -/
  | replyReject
deriving DecidableEq, Inhabited

namespace DispatchMode

def reports : DispatchMode → Bool
  | reply | replyReject => true
  | hold | reject | unavailable => false

def refusal : DispatchMode → Option Refusal
  | reply | hold => none
  | reject | replyReject => some (.rejected "full queue")
  | unavailable => some .unavailable

end DispatchMode

/-- A dispatcher that computes nothing: what becomes of each node is laid down beforehand. -/
structure Rehearsal where
  mode : DispatchMode := .reply
  /-- The functions that fail, with the reasons. -/
  failing : SortedMap String String := ∅
  /-- The functions of which nothing is reported. -/
  skipped : List String := []
  /-- What is reported besides. -/
  extra : List ItemOutcome := []
deriving Inhabited

namespace Rehearsal

variable (r : Rehearsal)

def outcome? (item : JobItem) : Option ItemOutcome :=
  if item.function.id ∈ r.skipped then none
  else
    match r.failing.get? item.function.id with
    | some reason => some { node := item.node, status := .failure reason }
    | none => some { node := item.node, status := .success }

def result (job : Job) : JobResult :=
  { job := job.id, items := job.items.filterMap r.outcome? ++ r.extra }

def dispatch (job : Job) : DispatchReply :=
  { reports := if r.mode.reports then [{ result := r.result job }] else []
    refusal := r.mode.refusal }

end Rehearsal

end ValueGraph
