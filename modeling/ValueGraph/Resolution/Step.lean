import ValueGraph.Graph.Change
import ValueGraph.Resolution.State

namespace ValueGraph

inductive Turn
  /-- The same task goes on. -/
  | again
  /-- The task will be told when it can go on. -/
  | waiting
  /-- A lookup would have to wait. -/
  | blocked
  | done
  /-- The graph objected. -/
  | failed (error : GraphError)

namespace Graph

/-- Adds a node for `s`, unless `s` is produced already. -/
def supply (g : Graph) (s : ValueSpec) (n : Node) : Except GraphError Graph :=
  if (g.producer? s).isSome then .ok g else (g.add (n.addOutput s)).map (·.2)

/-- Market data that is available as `s` for the requirement, relabelled if need be. -/
def supplyMarketData (g : Graph) (p : Policy) (q : Requirement) (t : Target) (s : ValueSpec) :
    Except GraphError (ValueSpec × Graph) := do
  let g ← g.supply s { function := .marketData, target := s.target }
  if q.satisfiedBy t s then return (s, g)
  let relabelled : ValueSpec := { name := q.name, target := t, properties := p.reconcile q s }
  let node : Node := { function := .relabel, target := t }
  return (relabelled, ← g.supply relabelled (node.addInput s))

end Graph

/-- The node that a candidate becomes; of its extra outputs, those that nobody produces yet. -/
def Candidate.node (c : Candidate) (g : Graph) (t : Target) (inputs : List ValueSpec) : Node :=
  { function := c.function, target := t, inputs := .ofList inputs
    outputs := .ofList (c.output :: c.extra.filter fun s => (g.producer? s).isNone) }

namespace Resolution

variable {σ : Type} (c : Collaborators σ) (maxDepth : Nat) (r : Resolution)

def finish (id : TaskId) (outcome : Outcome) : Turn × Resolution :=
  match r.complete id outcome with
  | (none, r) => (.done, r)
  | (some e, r) => (.failed e, r)

def resolveTarget (id : TaskId) (q : Requirement) : Ask σ (Turn × Resolution) := fun w =>
  match c.target q.target w with
  | (.resolved target, w) =>
    let (digest, w) := c.digest target w
    let phase := .checkLiveData { target, digest }
    ((.again, r.modifyTask id fun t => { t with target := some target, phase }), w)
  | (.notFound, w) => (r.finish id (.error (.noTarget q)), w)
  | (.wouldBlock, w) => ((.blocked, r), w)

def takeMarketData (p : Policy) (id : TaskId) (q : Requirement) (s : Search) :
    MarketAnswer → Turn × Resolution
  | .available spec =>
    match r.graph.supplyMarketData p q s.target.target spec with
    | .ok (spec, graph) => { r with graph }.finish id (.ok spec)
    | .error e => (.failed e, r)
  | .missing => r.finish id (.error (.ofKind .missingMarketData q))
  | .wouldBlock => (.blocked, r)
  | .notAvailable => (.again, r.setPhase id (.enumerate s))

/-- A value that the graph has is taken; else market data are asked for. -/
def checkLiveData (id : TaskId) (q : Requirement) (s : Search) : Ask σ (Turn × Resolution) :=
  fun w =>
    match r.graph.find? q.name s.target.target q.constraints with
    | some spec => (r.finish id (.ok spec), w)
    | none =>
      let (answer, w) := c.market s.target q w
      (r.takeMarketData c.policy id q s answer, w)

/-- Goes on with the candidates of the catalog, but for those of functions that were tried. -/
def takeCandidates (id : TaskId) (q : Requirement) (s : Search) (tried : SortedSet String)
    (all : List Candidate) : Turn × Resolution :=
  let candidates := all.filter (·.function.id ∉ tried)
  if candidates.isEmpty && tried.isEmpty then r.finish id (.error (.ofKind .noFunctions q))
  else (.again, r.setPhase id (.nextCandidate { s with tried := none, candidates }))

def takeRemembered (id : TaskId) (s : Search) (candidates : List Candidate) : Turn × Resolution :=
  let tried := some (SortedSet.ofList (candidates.map (·.function.id)))
  (.again, r.setPhase id (.nextCandidate { s with tried, candidates }))

/-- Functions that are remembered for the requirement come first, then all others. -/
def enumerate (id : TaskId) (q : Requirement) (s : Search) : Ask σ (Turn × Resolution) := fun w =>
  match s.tried with
  | some tried =>
    let (all, w) := c.functions q.name s.target q.constraints w
    (r.takeCandidates id q s tried all, w)
  | none =>
    match c.remembered s.digest q s.target w with
    | ([], w) =>
      let (all, w) := c.functions q.name s.target q.constraints w
      (r.takeCandidates id q s ∅ all, w)
    | (candidates, w) => (r.takeRemembered id s candidates, w)

def awaitTask (id u : TaskId) : Resolution :=
  r.modifyTask id fun t => { t with waitingOn := t.waitingOn.insert u }

/-- Asks for the inputs of a candidate in order, up to the first that has failed. -/
def attachInputs (id : TaskId) (generation depth : Nat) :
    List Requirement → Attempt → Resolution → Except Failure Attempt × Resolution
  | [], a, r => (.ok a, r)
  | q :: qs, a, r =>
    match r.attach maxDepth q (.input id a.slots.length generation) depth with
    | (.resolved s, r) => attachInputs id generation depth qs (a.push (some s)) r
    | (.waiting u, r) => attachInputs id generation depth qs (a.push none) (r.awaitTask id u)
    | (.failed f, r) => (.error f, r)

/-- Takes a candidate up, if its output is what is wanted and not there already. -/
def tryCandidate (id : TaskId) (t : Task) (s : Search) (candidate : Candidate) :
    Turn × Resolution :=
  if !t.requirement.satisfiedBy s.target.target candidate.output then
    let failure := Failure.mismatch t.requirement candidate.function.id candidate.output
    (.again, r.setPhase id (.nextCandidate { s with failures := s.failures ++ [failure] }))
  else if (r.graph.producer? candidate.output).isSome then r.finish id (.ok candidate.output)
  else
    match attachInputs maxDepth id t.generation (t.depth + 1) candidate.inputs { candidate } r with
    | (.error cause, r) => (.again, r.modifyTask id fun t => t.abandon s candidate cause)
    | (.ok attempt, r) =>
      let turn := if attempt.outstanding = 0 then .again else .waiting
      (turn, r.setPhase id (.resolveInputs s attempt))

/-- Goes to the next candidate; after those that are remembered, to all others. -/
def nextCandidate (id : TaskId) (t : Task) (s : Search) : Turn × Resolution :=
  match s.candidates with
  | candidate :: candidates => r.tryCandidate maxDepth id t { s with candidates } candidate
  | [] =>
    if s.tried.isSome then (.again, r.setPhase id (.enumerate s))
    else r.finish id (.error (.exhausted t.requirement s.failures))

/-- Adds the node of a candidate that has its inputs, unless its output is there by now. -/
def commit (id : TaskId) (q : Requirement) (s : Search) (a : Attempt) :
    Ask σ (Turn × Resolution) := fun w =>
  if (r.graph.producer? a.candidate.output).isSome then (r.finish id (.ok a.candidate.output), w)
  else
    match r.graph.add (a.candidate.node r.graph s.target.target a.inputs) with
    | .error e => ((.failed e, r), w)
    | .ok (_, graph) =>
      ({ r with graph }.finish id (.ok a.candidate.output),
        c.remember s.digest q a.candidate.function w)

def step (id : TaskId) : Ask σ (Turn × Resolution) := fun w =>
  match r.tasks[id]? with
  | none => ((.done, r), w)
  | some t =>
    match t.phase with
    | .resolveTarget => r.resolveTarget c id t.requirement w
    | .checkLiveData s => r.checkLiveData c id t.requirement s w
    | .enumerate s => r.enumerate c id t.requirement s w
    | .nextCandidate s => (r.nextCandidate maxDepth id t s, w)
    | .resolveInputs s a =>
      if a.outstanding = 0 then r.commit c id t.requirement s a w else ((.waiting, r), w)
    | .committed _ | .failed _ => ((.done, r), w)

end Resolution

end ValueGraph
