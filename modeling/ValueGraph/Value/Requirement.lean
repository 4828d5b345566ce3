import ValueGraph.Value.Properties
import ValueGraph.Value.Target

namespace ValueGraph

/-- A value that a node produces: its name, the target it is for, and what it offers. -/
structure ValueSpec where
  name : String
  target : Target
  properties : Properties
deriving DecidableEq, Inhabited

namespace ValueSpec

instance : ToString ValueSpec := ⟨fun s => s!"{s.name}[{s.target}]{s.properties}"⟩

instance : Ord ValueSpec :=
  ⟨compareLex (compareOn name) (compareLex (compareOn target) (compareOn properties))⟩

instance : Std.TransOrd ValueSpec := inferInstanceAs (Std.TransCmp
  (compareLex (compareOn name) (compareLex (compareOn target) (compareOn properties))))

instance : Std.LawfulEqOrd ValueSpec :=
  lawfulEqCmp_of_three_keys fun ⟨_, _, _⟩ ⟨_, _, _⟩ hn ht hp => by
    cases hn; cases ht; cases hp; rfl

end ValueSpec

structure ValueKey where
  name : String
  target : Target
deriving DecidableEq, Inhabited

namespace ValueKey

instance : Ord ValueKey := ⟨compareLex (compareOn name) (compareOn target)⟩

instance : Std.TransOrd ValueKey :=
  inferInstanceAs (Std.TransCmp (compareLex (compareOn name) (compareOn target)))

instance : Std.LawfulEqOrd ValueKey :=
  lawfulEqCmp_of_keys fun ⟨_, _⟩ ⟨_, _⟩ hn ht => by cases hn; cases ht; rfl

end ValueKey

/-- What a value is asked for by, its properties aside. -/
def ValueSpec.key (s : ValueSpec) : ValueKey := ⟨s.name, s.target⟩

structure Requirement where
  name : String
  target : TargetRef
  constraints : Properties
deriving DecidableEq, Inhabited

namespace Requirement

/-- Is `s` the wanted value, given that the reference stands for `target`? -/
def satisfiedBy (r : Requirement) (target : Target) (s : ValueSpec) : Bool :=
  r.name = s.name && s.target = target && r.constraints.satisfiedBy s.properties

instance : ToString Requirement := ⟨fun r => s!"{r.name}[{r.target}]{r.constraints}"⟩

instance : Ord Requirement :=
  ⟨compareLex (compareOn name) (compareLex (compareOn target) (compareOn constraints))⟩

instance : Std.TransOrd Requirement := inferInstanceAs (Std.TransCmp
  (compareLex (compareOn name) (compareLex (compareOn target) (compareOn constraints))))

instance : Std.LawfulEqOrd Requirement :=
  lawfulEqCmp_of_three_keys fun ⟨_, _, _⟩ ⟨_, _, _⟩ hn ht hc => by
    cases hn; cases ht; cases hc; rfl

end Requirement

end ValueGraph
