import ValueGraph.Resolution.Failure

namespace ValueGraph

open Json Codec

structure FailureGroup where
  identity : String
  kind : FailureKind
  occurrences : Nat
  /-- The failure that was recorded first. -/
  first : Failure
deriving Inhabited

namespace FailureGroup

def ofFailure (f : Failure) : FailureGroup :=
  { identity := f.identity, kind := f.kind, occurrences := 1, first := f }

def increment (g : FailureGroup) : FailureGroup := { g with occurrences := g.occurrences + 1 }

/-- More occurrences come first, then the smaller identity. -/
def precedes (g h : FailureGroup) : Bool :=
  h.occurrences < g.occurrences || g.occurrences = h.occurrences && g.identity ≤ h.identity

def toJson (g : FailureGroup) : Json := record
  [("identity", encode g.identity), ("kind", Json.string g.kind.name),
    ("occurrences", Json.nat g.occurrences), ("example", g.first.toJson)]

end FailureGroup

structure FailureReport where
  configuration : String
  /-- In the order of submission. -/
  failures : List (Requirement × Failure) := []
deriving Inhabited

namespace FailureReport

variable (r : FailureReport)

def record (q : Requirement) (f : Failure) : FailureReport :=
  { r with failures := r.failures ++ [(q, f)] }

def size : Nat := r.failures.length

def isEmpty : Bool := r.failures.isEmpty

def failureFor (q : Requirement) : Option Failure :=
  (r.failures.find? (·.1 = q)).map (·.2)

def count (groups : SortedMap String FailureGroup) (f : Failure) : SortedMap String FailureGroup :=
  match groups.get? f.identity with
  | some g => groups.insert f.identity g.increment
  | none => groups.insert f.identity (.ofFailure f)

def groups : SortedMap String FailureGroup := (r.failures.map (·.2)).foldl count ∅

def summary : List FailureGroup := r.groups.values.mergeSort FailureGroup.precedes

def toJson : Json := Json.record
  [("calculation_configuration", encode r.configuration),
    ("failures", .array (r.failures.map fun (q, f) => .array [encode q, f.toJson]))]

end FailureReport

end ValueGraph
