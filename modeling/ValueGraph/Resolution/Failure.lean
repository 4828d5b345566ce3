import ValueGraph.Value.Encoding

namespace ValueGraph

inductive FailureKind
  /-- The catalog has no function for the value. -/
  | noFunctions
  /-- The value is market data that is known to be missing. -/
  | missingMarketData
  /-- There is no target for the reference. -/
  | unresolvedTarget
  /-- Meeting the requirement would take the requirement itself. -/
  | recursionDetected
  /-- Every candidate was tried in vain. -/
  | couldNotResolve
  | cancelled
deriving DecidableEq, Inhabited

namespace FailureKind

def name : FailureKind → String
  | noFunctions => "NoFunctions"
  | missingMarketData => "MissingMarketData"
  | unresolvedTarget => "UnresolvedTarget"
  | recursionDetected => "RecursionDetected"
  | couldNotResolve => "CouldNotResolve"
  | cancelled => "Cancelled"

instance : ToString FailureKind where
  toString
    | noFunctions => "no functions"
    | missingMarketData => "missing market data"
    | unresolvedTarget => "unresolved target"
    | recursionDetected => "recursion detected"
    | couldNotResolve => "could not resolve"
    | cancelled => "cancelled"

def all : List FailureKind :=
  [noFunctions, missingMarketData, unresolvedTarget, recursionDetected, couldNotResolve, cancelled]

def ofName? (s : String) : Option FailureKind := all.find? (·.name = s)

/-- The higher, the more a kind tells about what went wrong. -/
def rank : FailureKind → Nat
  | noFunctions => 5
  | missingMarketData => 4
  | unresolvedTarget => 3
  | recursionDetected => 2
  | couldNotResolve => 1
  | cancelled => 0

def richer (a b : FailureKind) : FailureKind := if a.rank < b.rank then b else a

end FailureKind

/-- Why a requirement could not be met, with the failures that led to this. -/
structure Failure where
  requirement : Requirement
  kind : FailureKind
  /-- The function of the candidate that was given up. -/
  function : Option String := none
  detail : Option String := none
  causes : List Failure := []
deriving Inhabited

namespace Failure

mutual

def richestKind : Failure → FailureKind
  | ⟨_, kind, _, _, causes⟩ => richestOf kind causes

/-- The richest of `kind` and of all kinds in the chains. -/
def richestOf (kind : FailureKind) : List Failure → FailureKind
  | [] => kind
  | f :: fs => richestOf (kind.richer f.richestKind) fs

end

mutual

/-- Is recursion anywhere in the chain? Then the failure hangs on what else was being resolved. -/
def involvesRecursion : Failure → Bool
  | ⟨_, kind, _, _, causes⟩ => kind = .recursionDetected || anyInvolvesRecursion causes

def anyInvolvesRecursion : List Failure → Bool
  | [] => false
  | f :: fs => f.involvesRecursion || anyInvolvesRecursion fs

end

def ofKind (kind : FailureKind) (requirement : Requirement) : Failure := { requirement, kind }

def noTarget (requirement : Requirement) : Failure :=
  let detail := s!"no target for {requirement.target}"
  { requirement, kind := .unresolvedTarget, detail := some detail }

def tooDeep (requirement : Requirement) (maxDepth : Nat) : Failure :=
  let detail := s!"resolution depth exceeds {maxDepth}"
  { requirement, kind := .recursionDetected, detail := some detail }

def mismatch (requirement : Requirement) (function : String) (output : ValueSpec) : Failure :=
  let detail := s!"output {output} does not satisfy the requirement"
  { requirement, kind := .couldNotResolve, function := some function, detail := some detail }

/-- A requirement that ran out of candidates fails for the richest of their reasons. -/
def exhausted (requirement : Requirement) (causes : List Failure) : Failure :=
  let kind :=
    match causes with
    | [] => .couldNotResolve
    | f :: fs => richestOf f.richestKind fs
  { requirement, kind, causes }

def ofCandidate (requirement : Requirement) (function : String) (cause : Failure) : Failure :=
  { requirement, kind := .couldNotResolve, function := some function, causes := [cause] }

/-- What failures are counted by: the kind with the detail, or else with the value's name. -/
def identity (f : Failure) : String :=
  match f.detail with
  | some detail => s!"{f.kind}: {detail}"
  | none => s!"{f.kind} for {f.requirement.name}"

instance : ToString Failure := ⟨fun f => s!"{f.requirement}: {f.kind}"⟩

mutual

/-- One line per failure of the chain, causes under what they caused. -/
def describeAt (depth : Nat) : Failure → String
  | ⟨requirement, kind, function, detail, causes⟩ =>
    let indent := String.ofList (List.replicate (2 * depth) ' ')
    let via := match function with
      | some f => s!" (via {f})"
      | none => ""
    let because := match detail with
      | some d => s!" - {d}"
      | none => ""
    s!"{indent}{requirement}: {kind}{via}{because}\n" ++ describeAll (depth + 1) causes

def describeAll (depth : Nat) : List Failure → String
  | [] => ""
  | f :: fs => f.describeAt depth ++ describeAll depth fs

end

def describe (f : Failure) : String := f.describeAt 0

def render (f : Failure) : String :=
  let kind := f.richestKind
  s!"RESOLUTION FAILURE for {f.requirement} ({kind}):\n" ++
    "--------------------------------------------------\n" ++ f.describe

mutual

def toJson : Failure → Json
  | ⟨requirement, kind, function, detail, causes⟩ => Json.record
    [("requirement", Codec.encode requirement), ("kind", Json.string kind.name),
      ("function", Codec.encode function), ("detail", Codec.encode detail),
      ("causes", .array (allToJson causes))]

def allToJson : List Failure → List Json
  | [] => []
  | f :: fs => f.toJson :: allToJson fs

end

end Failure

end ValueGraph
