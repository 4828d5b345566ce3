import ValueGraph.Collection.Total
import ValueGraph.Resolution.Catalog

namespace ValueGraph

/-- How many more lookups are put off. -/
inductive Delay
  | lookups (count : Nat)
  | forever
deriving DecidableEq

namespace Delay

instance : Inhabited Delay := ⟨lookups 0⟩

/-- Is the next lookup put off, and what is left of the delay? -/
def next : Delay → Bool × Delay
  | lookups 0 => (false, lookups 0)
  | lookups (n + 1) => (true, lookups n)
  | forever => (true, forever)

/-- How many lookups it takes until one is answered; nothing can be said of a delay forever. -/
def count : Delay → Nat
  | lookups n => n
  | forever => 0

end Delay

structure Delays where
  general : Delay := default
  special : SortedMap String Delay := ∅
deriving Inhabited

namespace Delays

/-- A special delay counts for lookups only that the general one does not put off. -/
def next (d : Delays) (key : String) : Bool × Delays :=
  match d.general.next with
  | (true, general) => (true, { d with general })
  | (false, _) =>
    match d.special.get? key with
    | none => (false, d)
    | some delay =>
      let (putOff, delay) := delay.next
      (putOff, { d with special := d.special.insert key delay })

def count (d : Delays) : Nat := d.general.count + total Delay.count d.special.values

end Delays

inductive Query
  | target (ref : TargetRef)
  | market (q : Requirement) (t : Target)
  | functions (name : String) (t : Target) (constraints : Properties)
  | function (id name : String) (t : Target) (constraints : Properties)
  | record (p : Precedent)
deriving DecidableEq, Inhabited

instance : ToString Query where
  toString
    | .target ref => s!"target {ref}"
    | .market q t => s!"market {q} on {t}"
    | .functions name t constraints => s!"functions {name} on {t} {constraints}"
    | .function id name t constraints => s!"function {id} for {name} on {t} {constraints}"
    | .record ⟨digest, name, constraints, function⟩ =>
      s!"record {digest} {name} {constraints} {function}"

structure World where
  targetDelays : Delays := {}
  marketDelays : Delays := {}
  memory : Memory := {}
  queries : Array Query := #[]
deriving Inhabited

namespace World

def note (w : World) (q : Query) : World := { w with queries := w.queries.push q }

def delays (w : World) : Nat := w.targetDelays.count + w.marketDelays.count

end World

inductive FunctionSource
  /-- A catalog that looks a function up by its id. -/
  | indexed (catalog : Catalog)
  /-- A catalog that can only list candidates. -/
  | listed (catalog : Catalog)
  /-- The same candidates for every target, whatever the constraints. -/
  | fixed (candidates : SortedMap String (List Candidate))
deriving Inhabited

namespace FunctionSource

def candidates (source : FunctionSource) (name : String) (t : Target) (constraints : Properties) :
    List Candidate :=
  match source with
  | indexed catalog | listed catalog => catalog.candidates name t constraints
  | fixed all => (all.get? name).getD []

end FunctionSource

inductive MemoryMode
  | learning
  /-- Nothing is added to the memory. -/
  | frozen
  /-- Nothing is added, and no target has a digest. -/
  | blank
deriving DecidableEq, Inhabited

/-- Collaborators made of tables, whose first lookups can be put off. -/
structure Services where
  targets : TargetTable := {}
  market : MarketTable := {}
  source : FunctionSource := .indexed {}
  memory : Option MemoryMode := none
  policy : Policy := .lowest

namespace Services

variable (s : Services)

def target (ref : TargetRef) : Ask World TargetAnswer := fun w =>
  let (putOff, targetDelays) := w.targetDelays.next (toString ref)
  let w := { w.note (.target ref) with targetDelays }
  (if putOff then .wouldBlock else s.targets.resolve ref, w)

def marketData (t : NamedTarget) (q : Requirement) : Ask World MarketAnswer := fun w =>
  let (putOff, marketDelays) := w.marketDelays.next q.name
  let w := { w.note (.market q t.target) with marketDelays }
  (if putOff then .wouldBlock else s.market.lookup t.target q, w)

def functions (name : String) (t : NamedTarget) (constraints : Properties) :
    Ask World (List Candidate) := fun w =>
  (s.source.candidates name t.target constraints, w.note (.functions name t.target constraints))

def functionById (id name : String) (t : NamedTarget) (constraints : Properties) :
    Ask World (Option Candidate) := fun w =>
  match s.source with
  | .indexed catalog =>
    (catalog.candidateById id name t.target constraints,
      w.note (.function id name t.target constraints))
  | _ => Collaborators.firstWithId s.functions id name t constraints w

def digests (mode : MemoryMode) : DigestMemory World where
  digest t w := (if mode = .blank then none else some (Memory.digest t.target), w)
  prior digest name w := (w.memory.prior digest name, w)
  record digest name constraints function w :=
    if mode = .learning then
      let p : Precedent := { digest, name, constraints, function }
      { w.note (.record p) with memory := w.memory.record p }
    else w

def collaborators : Collaborators World where
  target := s.target
  market := s.marketData
  functions := s.functions
  functionById := s.functionById
  digests := s.memory.map digests
  policy := s.policy

end Services

end ValueGraph
