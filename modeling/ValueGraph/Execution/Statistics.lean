import ValueGraph.Ratio

namespace ValueGraph

/-- Counts and times of executed graphs, the times in nanoseconds. -/
structure Statistics where
  graphs : Nat := 0
  executed : Nat := 0
  failed : Nat := 0
  total : Nat := 0
  /-- The time of the graph recorded last. -/
  last : Option Nat := none
deriving DecidableEq, Inhabited

namespace Statistics

def record (s : Statistics) (executed failed time : Nat) : Statistics :=
  { graphs := s.graphs + 1, executed := s.executed + executed, failed := s.failed + failed,
    total := s.total + time, last := some time }

/-- The average rounds down; a number of graphs beyond 32 bits has none. -/
def average (s : Statistics) : Option Nat :=
  if 0 < s.graphs ∧ s.graphs < UInt32.size then some (s.total / s.graphs) else none

def failureRatio (s : Statistics) : Float := ratio s.failed (s.executed + s.failed)

end Statistics

end ValueGraph
