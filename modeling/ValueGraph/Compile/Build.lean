import ValueGraph.Compile.Config
import ValueGraph.Compile.Report
import ValueGraph.Graph.Prune
import ValueGraph.Graph.Validation
import ValueGraph.Resolution.Pump

namespace ValueGraph

/-- Why a compilation brings no graphs. Requirements that cannot be met are no such reason. -/
inductive CompileError
  | cancelled
  | graph (configuration : String) (error : GraphError)
  | invalid (configuration : String) (faults : List Fault)

def CompileError.message : CompileError → String
  | cancelled => "Compilation was cancelled"
  | graph configuration error =>
    let text := error.message
    s!"Graph invariant violated while building '{configuration}': {text}"
  | invalid configuration faults =>
    let count := faults.length
    s!"Graph for '{configuration}' failed validation with {count} error(s)"

inductive BuildStatus
  /-- Every requirement has an outcome. -/
  | complete
  /-- Only lookups that would have to wait are left; they are tried again next time. -/
  | blocked
deriving DecidableEq, Inhabited

structure CompiledGraph where
  graph : Graph
  report : FailureReport
deriving Inhabited

structure Build where
  config : CompilerConfig
  resolution : Resolution
deriving Inhabited

namespace Build

variable (b : Build)

def start (configuration : String) (config : CompilerConfig) : Build :=
  { config, resolution := { graph := { configuration } } }

def graph : Graph := b.resolution.graph

def violated (e : GraphError) : CompileError := .graph b.graph.configuration e

def add (q : Requirement) : Except CompileError Unit × Build :=
  match b.resolution.add b.config.maxDepth q with
  | (none, resolution) => (.ok (), { b with resolution })
  | (some e, resolution) => (.error (b.violated e), { b with resolution })

/-- Resolves what can be resolved without waiting. -/
def advance {σ : Type} (c : Collaborators σ) (flag : Ask σ Bool) :
    Ask σ (Except CompileError BuildStatus × Build) := fun w =>
  let ((status, resolution), w) := b.resolution.pump c b.config.maxDepth flag w
  let b := { b with resolution }
  match status with
  | .ok .finished => ((.ok .complete, b), w)
  | .ok .blocked => ((.ok .blocked, { b with resolution := resolution.resume }), w)
  | .ok .cancelled => ((.error .cancelled, b), w)
  | .error e => ((.error (b.violated e), b), w)

def report : FailureReport :=
  b.resolution.outcomes.foldl (fun r (q, outcome) =>
    match outcome with
    | some (.error f) => r.record q f
    | _ => r) { configuration := b.graph.configuration }

/-- The pruned graph with the report, unless faults were looked for and found. -/
def finish : Except CompileError CompiledGraph :=
  let graph := b.graph.prune
  let faults := if b.config.validate then graph.faults else []
  if faults.isEmpty then .ok { graph, report := b.report }
  else .error (.invalid graph.configuration faults)

end Build

end ValueGraph
