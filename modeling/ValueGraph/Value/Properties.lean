import ValueGraph.Collection.Order
import ValueGraph.Collection.SortedMap

namespace ValueGraph

/-- The values that one property may take. -/
inductive PropertyValues
  | any
  | among (values : SortedSet String)
deriving DecidableEq, Inhabited

namespace PropertyValues

def single (v : String) : PropertyValues := among (.singleton v)

/-- No values listed means that any will do. -/
def ofList (l : List String) : PropertyValues := if l = [] then any else among (.ofList l)

def single? : PropertyValues → Option String
  | among ⟨[v], _⟩ => some v
  | _ => none

/-- Can a producer that offers `offered` serve a consumer that wants `wanted`? -/
def serves (offered wanted : PropertyValues) : Bool :=
  match wanted, offered with
  | any, _ => true
  | _, any => true
  | among w, among o => w.meets o

def isListed : PropertyValues → Bool
  | any => false
  | among _ => true

def listed : PropertyValues → SortedSet String
  | any => ∅
  | among s => s

instance : ToString PropertyValues where
  toString
    | any => "*"
    | among s => "|".intercalate s.toList

/-- The wildcard comes before every list of values. -/
instance : Ord PropertyValues := ⟨compareLex (compareOn isListed) (compareOn listed)⟩

instance : Std.TransOrd PropertyValues :=
  inferInstanceAs (Std.TransCmp (compareLex (compareOn isListed) (compareOn listed)))

instance : Std.LawfulEqOrd PropertyValues :=
  lawfulEqCmp_of_keys fun a b hx hl => by
    cases a <;> cases b <;> simp_all [isListed, listed]

end PropertyValues

/-- The name of the property that tells which function produced a value. -/
def functionProperty : String := "Function"

/-- On a requirement they are constraints; on a value they say what it offers. -/
structure Properties where
  values : SortedMap String PropertyValues := ∅
deriving DecidableEq, Inhabited

namespace Properties

instance : EmptyCollection Properties := ⟨⟨∅⟩⟩

def get? (p : Properties) (name : String) : Option PropertyValues := p.values.get? name

def single? (p : Properties) (name : String) : Option String := (p.get? name).bind (·.single?)

def names (p : Properties) : List String := p.values.keys

def isEmpty (p : Properties) : Bool := p.values.isEmpty

def set (p : Properties) (name : String) (v : PropertyValues) : Properties :=
  ⟨p.values.insert name v⟩

def withValue (p : Properties) (name value : String) : Properties := p.set name (.single value)

def withValues (p : Properties) (name : String) (values : List String) : Properties :=
  p.set name (.ofList values)

def withAny (p : Properties) (name : String) : Properties := p.set name .any

/-- Does `offer` define every constrained name with values that serve the constraint? -/
def satisfiedBy (constraints offer : Properties) : Bool :=
  constraints.values.entries.all fun (name, wanted) =>
    (offer.get? name).any fun offered => offered.serves wanted

instance : ToString Properties where
  toString p :=
    "\x7b" ++ ", ".intercalate (p.values.entries.map fun (name, v) => s!"{name}={v}") ++ "\x7d"

instance : Ord Properties := ⟨compareOn values⟩

instance : Std.TransOrd Properties := inferInstanceAs (Std.TransCmp (compareOn values))

instance : Std.LawfulEqOrd Properties := lawfulEqCmp_of_key fun ⟨_⟩ ⟨_⟩ h => by cases h; rfl

theorem get?_set {p : Properties} {name other : String} {v : PropertyValues} :
    (p.set name v).get? other = if name = other then some v else p.get? other :=
  SortedMap.get?_insert

end Properties

end ValueGraph
