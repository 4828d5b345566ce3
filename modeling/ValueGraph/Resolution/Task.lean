import ValueGraph.Resolution.Collaborators
import ValueGraph.Resolution.Failure

namespace ValueGraph

abbrev TaskId := Nat

/-- How a requirement ends: with the value that meets it, or a failure. -/
abbrev Outcome := Except Failure ValueSpec

inductive Waiter
  /-- The requirement submitted at that position. -/
  | submission (index : Nat)
  /-- An input of the candidate that `task` tries for the time being. -/
  | input (task : TaskId) (slot : Nat) (generation : Nat)
deriving DecidableEq, Inhabited

structure Attempt where
  candidate : Candidate
  /-- One slot for each input asked for so far, filled once the input is resolved. -/
  slots : List (Option ValueSpec) := []
  /-- How many slots are still to be filled. -/
  outstanding : Nat := 0
deriving DecidableEq, Inhabited

namespace Attempt

variable (a : Attempt)

/-- Asks for one more input, which is there already or still to come. -/
def push : Option ValueSpec → Attempt
  | some s => { a with slots := a.slots ++ [some s] }
  | none => { a with slots := a.slots ++ [none], outstanding := a.outstanding + 1 }

def fill (slot : Nat) (s : ValueSpec) : Attempt :=
  match a.slots[slot]? with
  | some none => { a with slots := a.slots.set slot (some s), outstanding := a.outstanding - 1 }
  | _ => a

def inputs : List ValueSpec := a.slots.filterMap id

end Attempt

structure Search where
  target : NamedTarget
  digest : Option String
  /-- The functions tried from memory; nothing once the catalog was asked for all. -/
  tried : Option (SortedSet String) := none
  /-- What is left to try. -/
  candidates : List Candidate := []
  /-- Why candidates were given up. -/
  failures : List Failure := []
deriving Inhabited

inductive Phase
  | resolveTarget
  | checkLiveData (search : Search)
  | enumerate (search : Search)
  | nextCandidate (search : Search)
  | resolveInputs (search : Search) (attempt : Attempt)
  | committed (spec : ValueSpec)
  | failed (failure : Failure)
deriving Inhabited

def Phase.ofOutcome : Outcome → Phase
  | .ok spec => committed spec
  | .error failure => failed failure

/--
Resolves one requirement: looks up the target, then asks for market data, then tries the candidates
of the catalog one after another, each with the inputs it needs.
-/
structure Task where
  requirement : Requirement
  /-- How many candidates have led here. -/
  depth : Nat
  phase : Phase := .resolveTarget
  /-- What the requirement's target has turned out to be. -/
  target : Option NamedTarget := none
  waiters : List Waiter := []
  /-- The tasks that find the inputs of the candidate being tried. -/
  waitingOn : SortedSet TaskId := ∅
  /-- Grows with every candidate given up; waiters of an earlier generation are not told. -/
  generation : Nat := 0
deriving Inhabited

namespace Task

variable (t : Task)

def isFinished : Bool :=
  match t.phase with
  | .committed _ | .failed _ => true
  | _ => false

/-- Gives the candidate up and goes on to the next. -/
def abandon (search : Search) (candidate : Candidate) (cause : Failure) : Task :=
  let failure := Failure.ofCandidate t.requirement candidate.function.id cause
  { t with
    phase := .nextCandidate { search with failures := search.failures ++ [failure] }
    waitingOn := ∅
    generation := t.generation + 1 }

end Task

end ValueGraph
