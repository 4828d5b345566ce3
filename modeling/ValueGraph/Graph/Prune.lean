import ValueGraph.Collection.Total
import ValueGraph.Graph.Change

namespace ValueGraph.Graph

variable (g : Graph)

/-- An output is needed if it is terminal, read outside, or read by a node of the graph. -/
def isNeeded (s : ValueSpec) : Bool :=
  g.isTerminal s || g.isExternal s || !(g.readers.setAt s).isEmpty

def dropOutput (id : NodeId) (g : Graph) (s : ValueSpec) : Graph :=
  (g.modifyNode id (·.removeOutput s)).unindexOutput s

/-- Drops what nobody needs of one node; the node goes with its last output. -/
def trim (id : NodeId) : Graph :=
  match g.node? id with
  | none => g
  | some n =>
    let unneeded := n.outputs.filter fun s => !g.isNeeded s
    if unneeded.size = n.outputs.size then g.detach id n
    else unneeded.toList.foldl (dropOutput id) g

def trimAll : Graph := g.ids.foldl trim g

def weight : Nat := total (fun n : Node => n.outputs.size + 1) g.nodes.values

def prune (g : Graph) : Graph :=
  if g.trimAll.weight < g.weight then prune g.trimAll else g
termination_by g.weight

def isSpare (id : NodeId) : Bool :=
  match g.node? id with
  | none => false
  | some n => n.outputs.toList.all fun s => !g.isNeeded s

/-- How many nodes go as those under the ids are trimmed, one after another. -/
def removals : List NodeId → Graph → Nat
  | [], _ => 0
  | id :: ids, g => (if g.isSpare id then 1 else 0) + removals ids (g.trim id)

def pruned (g : Graph) : Nat :=
  if g.trimAll.weight < g.weight then removals g.ids g + pruned g.trimAll else 0
termination_by g.weight

end ValueGraph.Graph
