import ValueGraph.Graph.Change
import ValueGraph.Graph.Order
import ValueGraph.Ratio
import ValueGraph.Resolution.Task

namespace ValueGraph

/-- What is known of a requirement that was asked for before. -/
inductive Claim
  | pending (task : TaskId)
  | resolved (spec : ValueSpec)
  | failed (failure : Failure)
deriving Inhabited

def Claim.isPending : Claim → Bool
  | pending _ => true
  | _ => false

structure Submission where
  requirement : Requirement
  outcome : Option Outcome := none
deriving Inhabited

structure Progress where
  started : Nat := 0
  finished : Nat := 0
deriving DecidableEq, Inhabited

def Progress.fraction (p : Progress) : Float := min (ratio p.finished p.started) 1

/--
Turns requirements into nodes of its graph. Each requirement has one task at a time, whoever asks
for it; a task that needs others waits until it is told their outcomes.
-/
structure Resolution where
  graph : Graph
  tasks : Array Task := #[]
  claims : SortedMap Requirement Claim := ∅
  /-- Tasks that can go on, the next one first. -/
  ready : List TaskId := []
  /-- Tasks whose last lookup would have had to wait. -/
  suspended : List TaskId := []
  submissions : Array Submission := #[]
  progress : Progress := {}
deriving Inhabited

inductive Attachment
  | resolved (spec : ValueSpec)
  | failed (failure : Failure)
  | waiting (task : TaskId)

namespace Resolution

variable (r : Resolution)

def isFinished : Bool := r.ready.isEmpty && r.suspended.isEmpty

/-- Every submitted requirement with its outcome, in the order of submission. -/
def outcomes : List (Requirement × Option Outcome) :=
  r.submissions.toList.map fun s => (s.requirement, s.outcome)

/-- The outcome of the first submission of the requirement. -/
def outcomeOf (q : Requirement) : Option Outcome :=
  (r.submissions.toList.find? (·.requirement = q)).bind (·.outcome)

def modifyTask (id : TaskId) (f : Task → Task) : Resolution :=
  { r with tasks := r.tasks.modify id f }

def setPhase (id : TaskId) (phase : Phase) : Resolution :=
  r.modifyTask id fun t => { t with phase }

def waitingOn (id : TaskId) : List TaskId :=
  match r.tasks[id]? with
  | some t => t.waitingOn.toList
  | none => []

/-- Is `target` waited for by a task in `todo`, or by one that such a task waits for? -/
def leadsTo (target : TaskId) (seen : SortedSet TaskId) : (todo : List TaskId) → Bool
  | [] => false
  | id :: todo =>
    if _h : id < r.tasks.size ∧ id ∉ seen then
      target ∈ r.waitingOn id || leadsTo target (seen.insert id) (r.waitingOn id ++ todo)
    else leadsTo target seen todo
termination_by todo => (((List.range r.tasks.size).filter (· ∉ seen)).length, todo.length)
decreasing_by
  · exact Prod.Lex.left _ _ (SortedSet.length_filter_insert_lt (List.mem_range.2 _h.1) _h.2)
  · exact Prod.Lex.right _ (by simp)

def waitsOn (id target : TaskId) : Bool := r.leadsTo target ∅ [id]

/-- Would the waiter wait for itself if it waited for `id`? -/
def closesCircle (id : TaskId) : Waiter → Bool
  | .submission _ => false
  | .input task .. => id = task || r.waitsOn id task

/-- Starts a task for a requirement that has none. -/
def spawn (q : Requirement) (w : Waiter) (depth : Nat) : Resolution :=
  let id := r.tasks.size
  { r with
    tasks := r.tasks.push { requirement := q, depth, waiters := [w] }
    claims := r.claims.insert q (.pending id)
    ready := r.ready ++ [id]
    progress := { r.progress with started := r.progress.started + 1 } }

/-- Asks for a requirement on behalf of `w`. -/
def attach (maxDepth : Nat) (q : Requirement) (w : Waiter) (depth : Nat) :
    Attachment × Resolution :=
  match r.claims.get? q with
  | some (.resolved s) => (.resolved s, r)
  | some (.failed f) => (.failed f, r)
  | some (.pending id) =>
    if r.closesCircle id w then (.failed (.ofKind .recursionDetected q), r)
    else (.waiting id, r.modifyTask id fun t => { t with waiters := t.waiters ++ [w] })
  | none =>
    if maxDepth < depth then
      (.failed (.tooDeep q maxDepth), r)
    else (.waiting r.tasks.size, r.spawn q w depth)

/-- Notes how a submission ended; the value that meets it becomes terminal. -/
def finishSubmission (index : Nat) (outcome : Outcome) : Option GraphError × Resolution :=
  match r.submissions[index]? with
  | none => (none, r)
  | some s =>
    let noted := { r with submissions := r.submissions.modify index fun s => { s with outcome } }
    match outcome with
    | .error _ => (none, noted)
    | .ok spec =>
      match r.graph.mark s.requirement spec with
      | .ok graph => (none, { noted with graph })
      | .error e => (some e, r)

/-- Tells the candidate of a task how `sender`, which was to find one of its inputs, has ended. -/
def deliverInput (sender task : TaskId) (slot generation : Nat) (outcome : Outcome) : Resolution :=
  match r.tasks[task]? with
  | none => r
  | some t =>
    if t.generation ≠ generation then r
    else
      match t.phase with
      | .resolveInputs search attempt =>
        match outcome with
        | .ok spec =>
          let attempt := attempt.fill slot spec
          let r := r.modifyTask task fun t =>
            { t with phase := .resolveInputs search attempt, waitingOn := t.waitingOn.erase sender }
          if attempt.outstanding = 0 then { r with ready := r.ready ++ [task] } else r
        | .error cause =>
          let r := r.modifyTask task fun t => t.abandon search attempt.candidate cause
          { r with ready := r.ready ++ [task] }
      | _ => r

/-- Tells the waiters one after another, unless the graph objects. -/
def deliver (sender : TaskId) (outcome : Outcome) :
    List Waiter → Resolution → Option GraphError × Resolution
  | [], r => (none, r)
  | .input task slot generation :: ws, r =>
    deliver sender outcome ws (r.deliverInput sender task slot generation outcome)
  | .submission index :: ws, r =>
    match r.finishSubmission index outcome with
    | (some e, r) => (some e, r)
    | (none, r) => deliver sender outcome ws r

/-- What is to be remembered of an outcome: not a failure that hangs on what else was going on. -/
def settleClaim (q : Requirement) : Outcome → SortedMap Requirement Claim
  | .ok s => r.claims.insert q (.resolved s)
  | .error f => if f.involvesRecursion then r.claims.erase q else r.claims.insert q (.failed f)

def complete (id : TaskId) (outcome : Outcome) : Option GraphError × Resolution :=
  match r.tasks[id]? with
  | none => (none, r)
  | some t =>
    let phase := Phase.ofOutcome outcome
    let done := { r.modifyTask id fun t => { t with phase, waiters := [], waitingOn := ∅ } with
      claims := r.settleClaim t.requirement outcome
      progress := { r.progress with finished := r.progress.finished + 1 } }
    deliver id outcome t.waiters done

/-- Submits a requirement. One that was resolved before has its outcome at once. -/
def add (maxDepth : Nat) (q : Requirement) : Option GraphError × Resolution :=
  let index := r.submissions.size
  let r := { r with submissions := r.submissions.push { requirement := q } }
  match r.attach maxDepth q (.submission index) 0 with
  | (.resolved s, r) => r.finishSubmission index (.ok s)
  | (.failed f, r) => r.finishSubmission index (.error f)
  | (.waiting _, r) => (none, r)

/-- Lets the suspended tasks try again. -/
def resume : Resolution := { r with ready := r.ready ++ r.suspended, suspended := [] }

/-- Fails everything that is not finished. -/
def cancel : Resolution :=
  { r with
    tasks := r.tasks.map fun t =>
      if t.isFinished then t
      else
        let phase := .failed (.ofKind .cancelled t.requirement)
        { t with phase, waiters := [], waitingOn := ∅ }
    claims := r.claims.filter fun _ c => !c.isPending
    ready := []
    suspended := []
    submissions := r.submissions.map fun s =>
      if s.outcome.isSome then s
      else { s with outcome := some (.error (.ofKind .cancelled s.requirement)) } }

end Resolution

end ValueGraph
