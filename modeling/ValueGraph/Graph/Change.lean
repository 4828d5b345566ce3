import ValueGraph.Graph.Basic

namespace ValueGraph.Graph

variable (g : Graph)

section Indexes

/-- Whether a node is a root is looked up anew; ids of no node are left alone. -/
def refreshRoot (id : NodeId) : Graph :=
  { g with
    rootSet :=
      if !g.contains id then g.rootSet
      else if g.edges.any (·.supplier = id) then g.rootSet.erase id
      else g.rootSet.insert id }

/-- Puts `n` under the next id; no index knows of it yet. -/
def place (n : Node) : Graph :=
  { g with
    nodes := g.nodes.insert g.nextId n
    freed := g.freed.tail
    unused := if g.freed.isEmpty then g.unused + 1 else g.unused }

def modifyNode (id : NodeId) (f : Node → Node) : Graph := { g with nodes := g.nodes.modify id f }

def indexOutput (id : NodeId) (isMarketData : Bool) (g : Graph) (s : ValueSpec) : Graph :=
  { g with
    edges := g.edges ++ (g.consumers s).map fun consumer => ⟨id, consumer, s⟩
    marketData := if isMarketData then g.marketData.insert s else g.marketData
    byKey := g.byKey.addAt s.key s
    producers := g.producers.insert s id }

def indexInput (id : NodeId) (g : Graph) (s : ValueSpec) : Graph :=
  let supplier := (g.producer? s).toList
  { g with
    readers := g.readers.addAt s id
    edges := g.edges ++ supplier.map fun p => ⟨p, id, s⟩
    rootSet := supplier.foldl SortedSet.erase g.rootSet }

def unindexOutput (s : ValueSpec) : Graph :=
  { g with
    producers := g.producers.erase s
    marketData := g.marketData.erase s
    external := g.external.erase s
    byKey := g.byKey.dropAt s.key s }

def unindexInput (id : NodeId) (g : Graph) (s : ValueSpec) : Graph :=
  { g with readers := g.readers.dropAt s id }

/-- Takes back an output: it backs nothing any more. -/
def retractOutput (s : ValueSpec) : Graph :=
  { g.unindexOutput s with backing := g.backing.erase s }

end Indexes

section Nodes

/-- Puts `n` under the next id, whatever its outputs. -/
def link (n : Node) : Graph :=
  let id := g.nextId
  let g := { g with targetCounts := g.targetCounts.increment n.target }.place n
  let g := n.outputs.toList.foldl (indexOutput id n.function.isMarketData) g
  let g := n.inputs.toList.foldl (indexInput id) g
  g.refreshRoot id

/-- Takes out the node under `id` with its edges; no index knows that it is gone. -/
def displace (id : NodeId) : Graph :=
  { g with
    nodes := g.nodes.erase id
    freed := id :: g.freed
    edges := g.edges.filter fun e => e.supplier ≠ id && e.consumer ≠ id }

/--
Takes out the node `n` under `id`; its outputs lose their backing and their outside readers. Its
suppliers may become roots.
-/
def detach (id : NodeId) (n : Node) : Graph :=
  let upstream := (g.edges.filter (·.consumer = id)).map (·.supplier)
  let g := n.outputs.toList.foldl retractOutput (g.displace id)
  let g := n.inputs.toList.foldl (unindexInput id) g
  let g := { g with
    targetCounts := g.targetCounts.decrement n.target
    rootSet := g.rootSet.erase id }
  upstream.foldl refreshRoot g

/-- The first output of `n` that a node other than `self` already produces, with that node. -/
def conflict? (n : Node) (self : Option NodeId := none) : Option (ValueSpec × NodeId) :=
  n.outputs.toList.findSome? fun s =>
    match g.producer? s with
    | some id => if self = some id then none else some (s, id)
    | none => none

def add (n : Node) : Except GraphError (NodeId × Graph) :=
  match g.conflict? n with
  | some (s, id) => .error (.duplicateProducer s id)
  | none => .ok (g.nextId, g.link n)

def remove (id : NodeId) : Except GraphError (Node × Graph) :=
  match g.node? id with
  | some n => .ok (n, g.detach id n)
  | none => .error (.unknownNode id)

end Nodes

section Terminals

def addBacking (s : ValueSpec) (rs : SortedSet Requirement) : Graph :=
  { g with backing := g.backing.addAllAt s rs }

def mark (r : Requirement) (s : ValueSpec) : Except GraphError Graph :=
  match g.producer? s with
  | some id => .ok ((g.addBacking s (.singleton r)).modifyNode id (·.flag s))
  | none => .error (.noProducer s)

/-- Lets `s` back none of the requirements; it is terminal as long as it backs another. -/
def unmark (rs : List Requirement) (s : ValueSpec) : Graph :=
  match g.backing.get? s with
  | none => g
  | some backed =>
    let left := backed.filter (· ∉ rs)
    if left.isEmpty then
      let g := { g with backing := g.backing.erase s }
      match g.producer? s with
      | some id => g.modifyNode id (·.unflag s)
      | none => g
    else { g with backing := g.backing.insert s left }

end Terminals

end ValueGraph.Graph
