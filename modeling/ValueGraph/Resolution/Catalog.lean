import ValueGraph.Resolution.Collaborators

namespace ValueGraph

/-- Targets by the references that stand for them; a known target stands for itself. -/
structure TargetTable where
  external : SortedMap TargetRef NamedTarget := ∅
deriving Inhabited

namespace TargetTable

def withExternal (table : TargetTable) (id : String) (t : NamedTarget) : TargetTable :=
  ⟨table.external.insert (.external t.target.kind id) t⟩

def resolve (table : TargetTable) : TargetRef → TargetAnswer
  | .known target => .resolved { target }
  | ref =>
    match table.external.get? ref with
    | some t => .resolved t
    | none => .notFound

end TargetTable

/-- Which market data there are, and which are known to be missing. -/
structure MarketTable where
  available : SortedMap ValueKey ValueSpec := ∅
  missing : SortedSet ValueKey := ∅
deriving Inhabited

/-- What is available goes before what is missing. -/
def MarketTable.lookup (table : MarketTable) (t : Target) (q : Requirement) : MarketAnswer :=
  match table.available.get? ⟨q.name, t⟩ with
  | some spec => .available spec
  | none => if ⟨q.name, t⟩ ∈ table.missing then .missing else .notAvailable

/-- A function that produces one value from inputs on the same target. -/
structure CatalogEntry where
  function : NodeFunction
  name : String
  /-- The only kind of target that the function is for, if it is not for all. -/
  kind : Option TargetKind := none
  properties : Properties := ∅
  inputs : List (String × Properties) := []
  extra : List (String × Properties) := []
  priority : Int := 0
deriving Inhabited

namespace CatalogEntry

variable (e : CatalogEntry)

/-- What the function produces says which function it was. -/
def produce (t : Target) (name : String) (properties : Properties) : ValueSpec :=
  { name, target := t, properties := properties.withValue functionProperty e.function.id }

def candidate (t : Target) : Candidate :=
  { function := e.function
    output := e.produce t e.name e.properties
    extra := e.extra.map fun (name, properties) => e.produce t name properties
    inputs := e.inputs.map fun (name, constraints) => { name, target := t, constraints } }

def isFor (name : String) (t : Target) : Bool := e.name = name && e.kind.all (· = t.kind)

end CatalogEntry

structure Catalog where
  entries : List CatalogEntry := []
deriving Inhabited

namespace Catalog

variable (c : Catalog)

/-- The candidates that meet the constraints, by falling priority and then by registration. -/
def candidates (name : String) (t : Target) (constraints : Properties) : List Candidate :=
  let ranked := (c.entries.filter (·.isFor name t)).mergeSort fun a b => b.priority ≤ a.priority
  (ranked.map (·.candidate t)).filter (constraints.satisfiedBy ·.output.properties)

/-- The candidate of that function that was registered first, whatever its priority. -/
def candidateById (id name : String) (t : Target) (constraints : Properties) : Option Candidate :=
  let own := c.entries.filter fun e => e.function.id = id && e.isFor name t
  (own.map (·.candidate t)).find? (constraints.satisfiedBy ·.output.properties)

end Catalog

structure Precedent where
  digest : String
  name : String
  constraints : Properties
  function : String
deriving DecidableEq, Inhabited

/-- The precedents so far, each of them once, the first one first. -/
structure Memory where
  precedents : List Precedent := []
deriving DecidableEq, Inhabited

namespace Memory

/-- Targets of one kind count as alike. -/
def digest (t : Target) : String := t.kind.name

def prior (m : Memory) (digest name : String) : List (Properties × String) :=
  (m.precedents.filter fun p => p.digest = digest && p.name = name).map fun p =>
    (p.constraints, p.function)

def record (m : Memory) (p : Precedent) : Memory :=
  if p ∈ m.precedents then m else ⟨m.precedents ++ [p]⟩

end Memory

end ValueGraph
