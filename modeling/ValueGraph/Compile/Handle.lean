import ValueGraph.Compile.Compiler

namespace ValueGraph

inductive CompilePhase
  | running
  | cancelled
  | completed
deriving DecidableEq, Inhabited

/-- The shared state. Each of the functions that change it is one step that nothing interrupts. -/
structure CompileState where
  phase : CompilePhase := .running
  /-- Raised once cancellation has won; the build looks at it from time to time. -/
  raised : Bool := false
  done : Bool := false
deriving DecidableEq, Inhabited

namespace CompileState

variable (s : CompileState)

/-- Leaves the running phase; `false` says that it was left before. -/
def leave (phase : CompilePhase) : Bool × CompileState :=
  if s.phase = .running then (true, { s with phase }) else (false, s)

def raise : CompileState := { s with raised := true }

def setDone : CompileState := { s with done := true }

def isCancelled : Bool := s.phase = .cancelled

/-- Asks for cancellation; `true` says that the compilation will end as cancelled. -/
def cancel : Bool × CompileState :=
  match s.leave .cancelled with
  | (true, s) => (true, s.raise)
  | (false, s) => (false, s)

/-- How the compilation ends: as built, unless it was cancelled before. -/
def settle {α : Type} (result : Except CompileError α) : Except CompileError α × CompileState :=
  match s.leave .completed with
  | (true, s) => (result, s.setDone)
  | (false, s) => (.error .cancelled, s.setDone)

def completion (progress : Progress) : Float := if s.done then 1 else progress.fraction

end CompileState

end ValueGraph
