import ValueGraph.Execution.Job
import ValueGraph.Execution.Ledger
import ValueGraph.Execution.Statistics

namespace ValueGraph

inductive Refusal
  | rejected (reason : String)
  | unavailable
deriving DecidableEq, Inhabited

def Refusal.message : Refusal → String
  | rejected reason => s!"Dispatcher rejected the job: {reason}"
  | unavailable => "No execution capacity is available"

inductive ExecutionError
  | graph (error : GraphError)
  | refused (refusal : Refusal)
  | cancelled
  /-- The outcome was collected before. -/
  | abandoned
deriving DecidableEq, Inhabited

def ExecutionError.message : ExecutionError → String
  | graph error =>
    let text := error.message
    s!"Cannot build job: {text}"
  | refused refusal => refusal.message
  | cancelled => "Execution was cancelled"
  | abandoned => "Execution ended without a result"

/-- The nodes of one job by what became of them; failed nodes do not make it an error. -/
structure ExecutionResult where
  job : JobId
  configuration : String
  executed : List NodeId := []
  failed : List (NodeId × String) := []
deriving DecidableEq, Inhabited

namespace ExecutionResult

def isSuccess (r : ExecutionResult) : Bool := r.failed.isEmpty

def nodeCount (r : ExecutionResult) : Nat := r.executed.length + r.failed.length

end ExecutionResult

abbrev ExecutionOutcome := Except ExecutionError ExecutionResult

structure PendingJob where
  configuration : String
  nodes : SortedSet NodeId
deriving DecidableEq, Inhabited

/-- The outcome on its way to the caller, who can collect it once. -/
inductive Completion
  | waiting
  | ended (outcome : ExecutionOutcome)
  | collected

structure Handle where
  completion : Completion := .waiting
  cancelled : Bool := false

def Handle.isDone (h : Handle) : Bool :=
  match h.completion with
  | .waiting => false
  | _ => true

structure Delivery where
  result : JobResult
  time : Nat := 0

/-- What a dispatcher does with a job: results it reports at once, and whether it takes the job. -/
structure DispatchReply where
  reports : List Delivery := []
  refusal : Option Refusal := none

/-- What a dispatcher does when asked to stop a job; `true` says that it did. -/
structure CancelReply where
  reports : List Delivery := []
  answer : Bool

/--
Hands graphs to a dispatcher as jobs. A job is pending from its dispatch to its first result or its
cancellation; anything later is dropped.
-/
structure Executor where
  nextJob : Nat := 1
  pending : SortedMap JobId PendingJob := ∅
  handles : SortedMap JobId Handle := ∅
  ledger : Ledger := {}
  statistics : Statistics := {}

namespace Executor

variable (e : Executor)

/-- What a job has brought so far, while its outcomes are applied one after another. -/
structure Applied where
  ledger : Ledger
  executed : List NodeId := []
  failed : List (NodeId × String) := []

/-- Outcomes of nodes outside the job are dropped. -/
def Applied.add (job : PendingJob) (a : Applied) (o : ItemOutcome) : Applied :=
  if o.node ∈ job.nodes then
    match o.status with
    | .success =>
      { a with
        ledger := a.ledger.record job.configuration o.node .executed
        executed := a.executed ++ [o.node] }
    | .failure reason =>
      { a with
        ledger := a.ledger.record job.configuration o.node (.failed reason)
        failed := a.failed ++ [(o.node, reason)] }
  else a

def modifyHandle (id : JobId) (f : Handle → Handle) : Executor :=
  match e.handles.get? id with
  | some h => { e with handles := e.handles.insert id (f h) }
  | none => e

def finish (id : JobId) (outcome : ExecutionOutcome) : Executor :=
  { e with pending := e.pending.erase id }.modifyHandle id
    fun h => { h with completion := .ended outcome }

/-- Applies the result of a pending job; any other result is dropped. -/
def deliver (d : Delivery) : Executor :=
  match e.pending.get? d.result.job with
  | none => e
  | some job =>
    let applied := d.result.items.foldl (Applied.add job) { ledger := e.ledger }
    let e := { e with
      ledger := applied.ledger
      statistics := e.statistics.record applied.executed.length applied.failed.length d.time }
    e.finish d.result.job (.ok
      { job := d.result.job, configuration := job.configuration,
        executed := applied.executed, failed := applied.failed })

/-- Makes the job known before it is dispatched: a result may arrive at once. -/
def register (job : Job) : Executor :=
  { e with
    pending := e.pending.insert job.id
      { configuration := job.configuration, nodes := .ofList (job.items.map (·.node)) }
    handles := e.handles.insert job.id {} }

/-- Takes back what `register` has done, but for a result that has arrived. -/
def forget (id : JobId) : Executor :=
  { e with pending := e.pending.erase id, handles := e.handles.erase id }

def execute (g : Graph) (dispatch : Job → DispatchReply) : Except ExecutionError JobId × Executor :=
  let id : JobId := ⟨e.nextJob⟩
  let e := { e with nextJob := e.nextJob + 1 }
  match g.job id with
  | .error error => (.error (.graph error), e)
  | .ok job =>
    let reply := dispatch job
    let e := reply.reports.foldl deliver (e.register job)
    match reply.refusal with
    | none => (.ok id, e)
    | some refusal => (.error (.refused refusal), e.forget id)

/-- Asks the dispatcher to stop a job that is neither done nor cancelled. -/
def cancel (id : JobId) (reply : CancelReply) : Bool × Executor :=
  match e.handles.get? id with
  | none => (false, e)
  | some h =>
    if h.isDone || h.cancelled then (false, e)
    else
      let e := reply.reports.foldl deliver e
      if reply.answer then
        let e := e.modifyHandle id fun h => { h with cancelled := true }
        (true, if id ∈ e.pending then e.finish id (.error .cancelled) else e)
      else (false, e)

/-- The outcome of a job that is done; there is none to collect a second time. -/
def collect (id : JobId) : Option ExecutionOutcome × Executor :=
  match e.handles.get? id with
  | none => (none, e)
  | some h =>
    match h.completion with
    | .waiting => (none, e)
    | .ended outcome =>
      (some outcome, e.modifyHandle id fun h => { h with completion := .collected })
    | .collected => (some (.error .abandoned), e)

end Executor

end ValueGraph
