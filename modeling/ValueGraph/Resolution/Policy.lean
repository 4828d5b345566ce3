import ValueGraph.Value.NodeFunction
import ValueGraph.Value.Requirement

namespace ValueGraph

/-- Chooses one of the values allowed for the named property. -/
abbrev Choice := String → SortedSet String → Option String

namespace Choice

variable (choose : Choice)

/-- The chosen value, or the wildcard if there is no choice. -/
def pick (name : String) (values : SortedSet String) : PropertyValues :=
  match choose name values with
  | some v => .single v
  | none => .any

/-- The values of a constrained property: as available where that will do, else as chosen. -/
def fit (available : Properties) (name : String) : PropertyValues → PropertyValues
  | .any => (available.get? name).getD .any
  | .among values =>
    match available.get? name with
    | some offered =>
      if offered.serves (.ofList values.toList) then offered else choose.pick name values
    | none => choose.pick name values

/-- The function is the market data marker unless the requirement names functions. -/
def fitFunction : Option PropertyValues → PropertyValues
  | none | some .any => .single NodeFunction.marketDataId
  | some (.among values) =>
    if values.size = 1 then .among values else choose.pick functionProperty values

def reconcile (r : Requirement) (available : ValueSpec) : Properties :=
  let fitted := r.constraints.values.entries.foldl (fun properties (name, wanted) =>
    if name = functionProperty then properties
    else properties.set name (choose.fit available.properties name wanted)) available.properties
  fitted.set functionProperty (choose.fitFunction (r.constraints.get? functionProperty))

end Choice

/--
Fits market data to requirements that they do not meet. A policy that only chooses has the rest
done for it, and any other may do all of it its own way.
-/
structure Policy where
  choose : Choice
  /-- The properties of a copy of what is available that is to meet the requirement. -/
  reconcile : Requirement → ValueSpec → Properties := choose.reconcile

namespace Policy

def lowest : Policy where
  choose _ values := values.toList.head?

def highest : Policy where
  choose _ values := values.toList.getLast?

/-- Makes no choice, so that the wildcard is left. -/
def never : Policy where
  choose _ _ := none

end Policy

end ValueGraph
