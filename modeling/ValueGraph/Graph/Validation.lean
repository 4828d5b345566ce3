import ValueGraph.Graph.Order

namespace ValueGraph

inductive Fault
  | noOutputs (id : NodeId) (function : NodeFunction)
  | otherProducer (id : NodeId) (spec : ValueSpec) (indexed : NodeId)
  | lostProducer (id : NodeId) (spec : ValueSpec)
  | rootWithConsumers (id : NodeId)
  | unmarkedRoot (id : NodeId)
  | unflaggedTerminal (spec : ValueSpec)
  | noOrder (error : GraphError)
  | partialOrder (covered size : Nat)
  | beforeInput (id producer : NodeId)
deriving DecidableEq

namespace Fault

def node? : Fault → Option NodeId
  | noOutputs id _ | otherProducer id .. | lostProducer id _ | rootWithConsumers id
  | unmarkedRoot id | beforeInput id _ => some id
  | unflaggedTerminal _ | noOrder _ | partialOrder .. => none

inductive Rule
  | producerIndex | emptyNode | rootSet | terminal | ordering
deriving DecidableEq

def Rule.name : Rule → String
  | producerIndex => "ProducerIndex"
  | emptyNode => "EmptyNode"
  | rootSet => "RootSet"
  | terminal => "Terminal"
  | ordering => "Ordering"

def rule : Fault → Rule
  | noOutputs .. => .emptyNode
  | otherProducer .. | lostProducer .. => .producerIndex
  | rootWithConsumers _ | unmarkedRoot _ => .rootSet
  | unflaggedTerminal _ => .terminal
  | noOrder _ | partialOrder .. | beforeInput .. => .ordering

def message : Fault → String
  | noOutputs id function =>
    let id := NodeId.text id
    s!"Node {id} ({function}) has no outputs"
  | otherProducer id spec indexed =>
    let id := NodeId.text id
    let indexed := NodeId.text indexed
    s!"{spec} is produced by {id} but indexed to {indexed}"
  | lostProducer id spec =>
    let id := NodeId.text id
    s!"{spec} produced by {id} is missing from the index"
  | rootWithConsumers id =>
    let id := NodeId.text id
    s!"Node {id} is marked root but has consumers"
  | unmarkedRoot id =>
    let id := NodeId.text id
    s!"Node {id} has no consumers but is not marked root"
  | unflaggedTerminal spec => s!"Terminal output {spec} has no flagged producer"
  | noOrder error => error.message
  | partialOrder covered size => s!"Execution order covers {covered} of {size} nodes"
  | beforeInput id producer =>
    let id := NodeId.text id
    let producer := NodeId.text producer
    s!"Node {id} is ordered before its input {producer}"

/-- Faults of the whole graph come first, then those of each node, by rule and message. -/
def compare (a b : Fault) : Ordering :=
  compareLex (compareOn node?) (compareLex (compareOn (·.rule.name)) (compareOn message)) a b

end Fault

namespace Graph

variable (g : Graph)

/-- A node has outputs, and each of them leads back to it; the first failure counts. -/
def producerFault? (id : NodeId) (n : Node) : Option Fault :=
  if n.outputs.isEmpty then some (.noOutputs id n.function)
  else n.outputs.toList.findSome? fun s =>
    match g.producer? s with
    | some other => if other = id then none else some (.otherProducer id s other)
    | none => some (.lostProducer id s)

def rootFault? (id : NodeId) (n : Node) : Option Fault :=
  match (g.idsWhere n.feeds).any (· ≠ id), g.isRoot id with
  | true, true => some (.rootWithConsumers id)
  | false, false => some (.unmarkedRoot id)
  | _, _ => none

def terminalFault? (s : ValueSpec) : Option Fault :=
  if (g.source? s).any fun (_, n) => n.isTerminal s then none else some (.unflaggedTerminal s)

/-- There is an execution order, it covers the graph, and suppliers come first in it. -/
def orderFaults : List Fault :=
  match g.executionOrder with
  | .error e => [.noOrder e]
  | .ok order =>
    let covers := if order.length = g.size then [] else [.partialOrder order.length g.size]
    covers ++ order.zipIdx.flatMap fun (id, i) =>
      ((g.suppliers id).filter fun p => p ∉ order.take (i + 1)).map (.beforeInput id)

def faults : List Fault :=
  let atNodes := g.nodes.entries.flatMap fun (id, n) =>
    (g.producerFault? id n).toList ++ (g.rootFault? id n).toList
  let found := atNodes ++ g.backing.keys.filterMap g.terminalFault? ++ g.orderFaults
  found.mergeSort fun a b => (a.compare b).isLE

end Graph

end ValueGraph
