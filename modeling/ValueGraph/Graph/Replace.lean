import ValueGraph.Graph.Change

namespace ValueGraph.Graph

variable (g : Graph)

structure Handover where
  old : ValueSpec
  new : ValueSpec
  /-- The requirements that the old output backs. -/
  backed : Option (SortedSet Requirement)

def handovers (old new : Node) : List Handover :=
  old.outputs.toList.filterMap fun s =>
    (new.counterpart? s).map fun t => ⟨s, t, g.backing.get? s⟩

/-- Lets a reader of `old` read `new` instead, which `id` produces. -/
def redirect (id : NodeId) (old new : ValueSpec) (g : Graph) (reader : NodeId) : Graph :=
  let g := g.modifyNode reader (·.replaceInput old new)
  { g with edges := g.edges ++ [⟨id, reader, new⟩] }

def redirectAll (id : NodeId) (old new : ValueSpec) : Graph :=
  match g.readers.get? old with
  | none => g
  | some readers =>
    let g := { g with readers := g.readers.erase old }
    let g := readers.toList.foldl (redirect id old new) g
    { g with readers := g.readers.addAllAt new readers }

def handOver (id : NodeId) (g : Graph) (h : Handover) : Graph :=
  let g := if h.old = h.new then g else g.redirectAll id h.old h.new
  match h.backed with
  | none => g
  | some rs => (g.modifyNode id (·.flag h.new)).addBacking h.new rs

/-- Puts `new` in the place of the node under `id`; the result names the id that it has got. -/
def replace (id : NodeId) (new : Node) : Except GraphError (NodeId × Graph) :=
  match g.node? id with
  | none => .error (.replaceUnknownNode id)
  | some old =>
    match g.conflict? new (some id) with
    | some (s, other) => .error (.duplicateProducer s other)
    | none =>
      let rest := g.detach id old
      let id := rest.nextId
      .ok (id, ((g.handovers old new).foldl (handOver id) (rest.link new)).refreshRoot id)

end ValueGraph.Graph
