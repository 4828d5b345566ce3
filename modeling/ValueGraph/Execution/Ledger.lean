import ValueGraph.Graph.Node

namespace ValueGraph

inductive NodeState
  | executed
  | failed (reason : String)
deriving DecidableEq, Inhabited

structure Ledger where
  states : SortedMap String (SortedMap NodeId NodeState) := ∅
deriving DecidableEq, Inhabited

namespace Ledger

variable (l : Ledger)

def ofConfiguration (configuration : String) : SortedMap NodeId NodeState :=
  (l.states.get? configuration).getD ∅

def get? (configuration : String) (id : NodeId) : Option NodeState :=
  (l.ofConfiguration configuration).get? id

def record (configuration : String) (id : NodeId) (state : NodeState) : Ledger :=
  ⟨l.states.insert configuration ((l.ofConfiguration configuration).insert id state)⟩

/-- Forgets the given nodes, as before they are executed again. -/
def invalidate (configuration : String) (ids : List NodeId) : Ledger :=
  ⟨l.states.mapValues fun c states =>
    if c = configuration then states.filter fun id _ => id ∉ ids else states⟩

def executedCount (configuration : String) : Nat :=
  (l.ofConfiguration configuration).values.countP (· = .executed)

def failedCount (configuration : String) : Nat :=
  (l.ofConfiguration configuration).values.countP (· ≠ .executed)

end Ledger

end ValueGraph
