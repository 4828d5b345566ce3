import ValueGraph.Collection.SetMap
import ValueGraph.Collection.Tally
import ValueGraph.Graph.Node

namespace ValueGraph

/-- The consumer reads what the supplier produces. -/
structure Edge where
  supplier : NodeId
  consumer : NodeId
  /-- The value that was read when the edge was drawn. -/
  spec : ValueSpec
deriving DecidableEq, Inhabited

/--
The nodes of one calculation configuration under ids, and indexes that answer questions about them
without a walk over the nodes.
-/
structure Graph where
  configuration : String
  nodes : SortedMap NodeId Node := ∅
  /-- Two nodes may be linked more than once. -/
  edges : List Edge := []
  /-- Ids of removed nodes, the one freed last first. -/
  freed : List NodeId := []
  /-- No id from here on was ever used. -/
  unused : NodeId := 0
  producers : SortedMap ValueSpec NodeId := ∅
  /-- The nodes that read a value, whether or not it is produced here. -/
  readers : SortedMap ValueSpec (SortedSet NodeId) := ∅
  /-- What is produced, by name and target. -/
  byKey : SortedMap ValueKey (SortedSet ValueSpec) := ∅
  /-- The terminal outputs, with the requirements that each of them backs. -/
  backing : SortedMap ValueSpec (SortedSet Requirement) := ∅
  /-- The nodes that feed no node. -/
  rootSet : SortedSet NodeId := ∅
  /-- The values taken from the market data layer. -/
  marketData : SortedSet ValueSpec := ∅
  /-- How many nodes there are for a target. -/
  targetCounts : SortedMap Target Nat := ∅
  /-- Outputs that are read outside of this graph. -/
  external : SortedSet ValueSpec := ∅
deriving DecidableEq, Inhabited

inductive GraphError
  | duplicateProducer (spec : ValueSpec) (existing : NodeId)
  | noProducer (spec : ValueSpec)
  | replaceUnknownNode (id : NodeId)
  | unknownNode (id : NodeId)
  | cycle (id : NodeId)
deriving DecidableEq, Inhabited

def NodeId.text (id : NodeId) : String := s!"NodeIndex({id})"

namespace GraphError

def message : GraphError → String
  | duplicateProducer spec existing =>
    let id := NodeId.text existing
    s!"Duplicate producer for {spec}: already produced by node {id}"
  | noProducer spec => s!"No node produces {spec}"
  | replaceUnknownNode id =>
    let id := NodeId.text id
    s!"Cannot replace node {id}: it is not part of the graph"
  | unknownNode id =>
    let id := NodeId.text id
    s!"Node {id} is not part of the graph"
  | cycle id =>
    let id := NodeId.text id
    s!"Cycle detected involving node {id}"

end GraphError

namespace Graph

variable (g : Graph)

def size : Nat := g.nodes.size

def isEmpty : Bool := g.nodes.isEmpty

def ids : List NodeId := g.nodes.keys

def idSet : SortedSet NodeId := g.nodes.keySet

def node? (id : NodeId) : Option Node := g.nodes.get? id

def contains (id : NodeId) : Bool := (g.node? id).isSome

def idsWhere (p : Node → Bool) : List NodeId :=
  (g.nodes.entries.filter fun (_, n) => p n).map (·.1)

def producer? (s : ValueSpec) : Option NodeId := g.producers.get? s

def source? (s : ValueSpec) : Option (NodeId × Node) := do
  let id ← g.producer? s
  return (id, ← g.node? id)

/-- The nodes that read `s`, whether or not it is produced here. -/
def consumers (s : ValueSpec) : List NodeId := (g.readers.setAt s).toList

def dependents (id : NodeId) : List NodeId :=
  (SortedSet.ofList ((g.edges.filter (·.supplier = id)).map (·.consumer))).toList

def suppliers (id : NodeId) : List NodeId :=
  (SortedSet.ofList ((g.edges.filter (·.consumer = id)).map (·.supplier))).toList

/-- A root feeds no node. -/
def isRoot (id : NodeId) : Bool := id ∈ g.rootSet

def roots : List NodeId := g.rootSet.toList

def produced : SortedSet ValueSpec := g.producers.keySet

/-- The least produced value of that name and target that meets the constraints. -/
def find? (name : String) (target : Target) (constraints : Properties) : Option ValueSpec :=
  (g.byKey.setAt ⟨name, target⟩).toList.find? fun s => constraints.satisfiedBy s.properties

def isTerminal (s : ValueSpec) : Bool := s ∈ g.backing

def isExternal (s : ValueSpec) : Bool := s ∈ g.external

def targets : SortedSet Target := g.targetCounts.keySet

def idsForTarget (t : Target) : List NodeId := g.idsWhere (·.target = t)

def nextId : NodeId := g.freed.headD g.unused

variable {g}

theorem mem_ids_of_source? {s : ValueSpec} {id : NodeId} {n : Node}
    (h : g.source? s = some (id, n)) :
    id ∈ g.ids := by
  have hn : g.node? id = some n := by
    simp only [source?, Option.bind_eq_bind, Option.bind_eq_some_iff] at h
    obtain ⟨i, -, m, hm, h⟩ := h
    cases h
    exact hm
  exact List.mem_map.2 ⟨(id, n), SortedMap.get?_eq_some_iff.1 hn, rfl⟩

end Graph

end ValueGraph
