import ValueGraph.Graph.Basic

namespace ValueGraph

inductive Visit
  | enter (id : NodeId)
  | leave (id : NodeId)

namespace Visit

/--
Walks over the nodes in `scope`. A node in `entered` but not in `order` is being visited; to come
upon it again closes a cycle. The result lists the nodes as they were left, the last one first.
-/
def walk (suppliers : NodeId → List NodeId) (scope : List NodeId) (entered : SortedSet NodeId)
    (order : List NodeId) : List Visit → Except NodeId (List NodeId)
  | [] => .ok order
  | leave id :: todo => walk suppliers scope entered (id :: order) todo
  | enter id :: todo =>
    if id ∈ order then walk suppliers scope entered order todo
    else if _hid : id ∈ scope then
      if _h : id ∈ entered then .error id
      else walk suppliers scope (entered.insert id) order
        ((suppliers id).map enter ++ leave id :: todo)
    else walk suppliers scope entered order todo
termination_by todo => ((scope.filter (· ∉ entered)).length, todo.length)
decreasing_by
  · exact Prod.Lex.right _ (by simp)
  · exact Prod.Lex.right _ (by simp)
  · exact Prod.Lex.left _ _ (SortedSet.length_filter_insert_lt _hid _h)
  · exact Prod.Lex.right _ (by simp)

end Visit

namespace Graph

variable (g : Graph)

def scope (view : Option (SortedSet NodeId)) : List NodeId :=
  match view with
  | none => g.ids
  | some v => g.ids.filter (· ∈ v)

def starts (view : Option (SortedSet NodeId)) : List NodeId :=
  match view with
  | none => g.roots
  | some _ => (g.scope view).filter fun id => (g.dependents id).all (· ∉ g.scope view)

/-- Starts at the nodes of the scope that feed no other of it, then covers the rest. -/
def executionOrder (view : Option (SortedSet NodeId) := none) : Except GraphError (List NodeId) :=
  let scope := g.scope view
  match Visit.walk g.suppliers scope ∅ [] ((g.starts view ++ scope).map .enter) with
  | .ok order => .ok order.reverse
  | .error id => .error (.cycle id)

end Graph

end ValueGraph
