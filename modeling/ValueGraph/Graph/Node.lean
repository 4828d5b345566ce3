import ValueGraph.Value.NodeFunction
import ValueGraph.Value.Requirement

namespace ValueGraph

abbrev NodeId := Nat

/--
One use of a function for a target. Which node is linked to which follows from the names of the
values that they read and produce.
-/
structure Node where
  function : NodeFunction
  target : Target
  inputs : SortedSet ValueSpec := ∅
  outputs : SortedSet ValueSpec := ∅
  /-- Values marked as backing a requirement. -/
  terminal : SortedSet ValueSpec := ∅
deriving DecidableEq, Inhabited

namespace Node

def reads (n : Node) (s : ValueSpec) : Bool := s ∈ n.inputs

def produces (n : Node) (s : ValueSpec) : Bool := s ∈ n.outputs

def isTerminal (n : Node) (s : ValueSpec) : Bool := s ∈ n.terminal

def addInput (n : Node) (s : ValueSpec) : Node := { n with inputs := n.inputs.insert s }

def addOutput (n : Node) (s : ValueSpec) : Node := { n with outputs := n.outputs.insert s }

/-- Only an output can be flagged. -/
def flag (n : Node) (s : ValueSpec) : Node :=
  if s ∈ n.outputs then { n with terminal := n.terminal.insert s } else n

def unflag (n : Node) (s : ValueSpec) : Node := { n with terminal := n.terminal.erase s }

def feeds (n consumer : Node) : Bool := n.outputs.meets consumer.inputs

def removeOutput (n : Node) (s : ValueSpec) : Node :=
  { n with outputs := n.outputs.erase s, terminal := n.terminal.erase s }

def replaceInput (n : Node) (old new : ValueSpec) : Node :=
  if old ∈ n.inputs then { n with inputs := (n.inputs.erase old).insert new } else n

/-- The first output that agrees with `s` in all but the target. -/
def counterpart? (n : Node) (s : ValueSpec) : Option ValueSpec :=
  n.outputs.toList.find? fun t => t.name = s.name && t.properties = s.properties

end Node

end ValueGraph
