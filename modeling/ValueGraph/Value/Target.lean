import ValueGraph.Collection.Order

namespace ValueGraph

inductive TargetKind
  | portfolioNode
  | position
  | trade
  | security
  | primitive
deriving DecidableEq, Inhabited

namespace TargetKind

def name : TargetKind → String
  | portfolioNode => "PortfolioNode"
  | position => "Position"
  | trade => "Trade"
  | security => "Security"
  | primitive => "Primitive"

instance : ToString TargetKind := ⟨name⟩

def all : List TargetKind := [portfolioNode, position, trade, security, primitive]

def ofName? (s : String) : Option TargetKind := all.find? (·.name = s)

theorem ofName?_name (k : TargetKind) : ofName? k.name = some k := by
  cases k <;> decide

def rank : TargetKind → Nat
  | portfolioNode => 0
  | position => 1
  | trade => 2
  | security => 3
  | primitive => 4

instance : Ord TargetKind := ⟨compareOn rank⟩

instance : Std.TransOrd TargetKind := inferInstanceAs (Std.TransCmp (compareOn rank))

instance : Std.LawfulEqOrd TargetKind :=
  lawfulEqCmp_of_key fun a b => by cases a <;> cases b <;> simp [rank]

end TargetKind

structure Target where
  kind : TargetKind
  id : String
deriving DecidableEq, Inhabited

namespace Target

instance : ToString Target := ⟨fun t => s!"{t.kind}~{t.id}"⟩

instance : Ord Target := ⟨compareLex (compareOn kind) (compareOn id)⟩

instance : Std.TransOrd Target :=
  inferInstanceAs (Std.TransCmp (compareLex (compareOn kind) (compareOn id)))

instance : Std.LawfulEqOrd Target :=
  lawfulEqCmp_of_keys fun ⟨_, _⟩ ⟨_, _⟩ hk hi => by cases hk; cases hi; rfl

end Target

/-- The name of a target, or an external id that still has to be looked up. -/
inductive TargetRef
  | known (target : Target)
  | external (kind : TargetKind) (externalId : String)
deriving DecidableEq, Inhabited

namespace TargetRef

instance : Coe Target TargetRef := ⟨known⟩

def kind : TargetRef → TargetKind
  | known t => t.kind
  | external k _ => k

def id : TargetRef → String
  | known t => t.id
  | external _ i => i

def isExternal : TargetRef → Bool
  | known _ => false
  | external .. => true

instance : ToString TargetRef where
  toString
    | known t => toString t
    | external k i => s!"{k}?{i}"

/-- Known targets come before external ids. -/
instance : Ord TargetRef :=
  ⟨compareLex (compareOn isExternal) (compareLex (compareOn kind) (compareOn id))⟩

instance : Std.TransOrd TargetRef := inferInstanceAs (Std.TransCmp
  (compareLex (compareOn isExternal) (compareLex (compareOn kind) (compareOn id))))

instance : Std.LawfulEqOrd TargetRef :=
  lawfulEqCmp_of_three_keys fun a b hx hk hi => by
    cases a <;> cases b <;> simp_all [isExternal, kind, id]
    next t u => cases t; cases u; simp_all

end TargetRef

/-- A target as a lookup answers it; the name is for people to read. -/
structure NamedTarget where
  target : Target
  name : Option String := none
deriving DecidableEq, Inhabited

end ValueGraph
