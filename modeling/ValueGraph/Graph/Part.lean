import ValueGraph.Graph.Change

namespace ValueGraph.Graph

variable (g : Graph)

def readOutside (keep : SortedSet NodeId) : List ValueSpec :=
  (g.nodes.entries.filter fun (id, _) => id ∈ keep).flatMap fun (_, n) =>
    n.outputs.toList.filter fun s => (g.consumers s).any (· ∉ keep)

/-- The graph with the nodes in `keep` only; the others are taken out in ascending order. -/
def part (keep : SortedSet NodeId) : Graph :=
  let left := g.nodes.entries.filter fun (id, _) => id ∉ keep
  let rest := left.foldl (fun h (id, n) => h.detach id n) g
  { rest with external := rest.external ∪ .ofList (g.readOutside keep) }

def partWhere (p : Node → Bool) : Graph := g.part (.ofList (g.idsWhere p))

end ValueGraph.Graph
