import ValueGraph.Graph.Order

namespace ValueGraph

structure JobId where
  number : Nat
deriving DecidableEq, Inhabited

namespace JobId

instance : ToString JobId := ⟨fun id => s!"job#{id.number}"⟩

instance : Ord JobId := ⟨compareOn number⟩

instance : Std.TransOrd JobId := inferInstanceAs (Std.TransCmp (compareOn number))

instance : Std.LawfulEqOrd JobId := lawfulEqCmp_of_key fun ⟨_⟩ ⟨_⟩ h => by cases h; rfl

end JobId

structure JobItem where
  node : NodeId
  function : NodeFunction
  target : Target
  inputs : List ValueSpec
  outputs : List ValueSpec
deriving DecidableEq, Inhabited

/-- Which values of a job are shared, given by the values that are or by those that are not. -/
inductive CacheSelection
  | shared (values : SortedSet ValueSpec)
  | unshared (values : SortedSet ValueSpec)
deriving DecidableEq, Inhabited

namespace CacheSelection

def isShared (c : CacheSelection) (s : ValueSpec) : Bool :=
  match c with
  | shared values => s ∈ values
  | unshared values => s ∉ values

def declared : CacheSelection → Nat
  | shared values | unshared values => values.size

end CacheSelection

structure Job where
  id : JobId
  configuration : String
  /-- In execution order. -/
  items : List JobItem
  cache : CacheSelection
deriving DecidableEq, Inhabited

inductive ItemStatus
  | success
  | failure (reason : String)
deriving DecidableEq, Inhabited

structure ItemOutcome where
  node : NodeId
  status : ItemStatus
deriving DecidableEq, Inhabited

structure JobResult where
  job : JobId
  items : List ItemOutcome
deriving DecidableEq, Inhabited

namespace Graph

variable (g : Graph)

/-- A value stays with the job if only nodes of the job read it. -/
def isUnshared (s : ValueSpec) : Bool :=
  !g.isTerminal s && !g.isExternal s && !(g.consumers s).isEmpty

/-- Lists the shared or the unshared values, whichever are fewer. -/
def cacheSelection : CacheSelection :=
  let unshared := g.produced.filter g.isUnshared
  let shared := g.produced.filter fun s => !g.isUnshared s
  if shared.size < unshared.size then .shared shared else .unshared unshared

def jobItem (id : NodeId) (n : Node) : JobItem :=
  { node := id, function := n.function, target := n.target,
    inputs := n.inputs.toList, outputs := n.outputs.toList }

def job (id : JobId) : Except GraphError Job := do
  let order ← g.executionOrder
  return { id, configuration := g.configuration
           items := order.filterMap fun id => (g.node? id).map (jobItem id)
           cache := g.cacheSelection }

variable {g} {id : JobId} {job : Job}

theorem job_eq_ok_iff : g.job id = .ok job ↔ ∃ order, g.executionOrder = .ok order ∧
    job = { id, configuration := g.configuration
            items := order.filterMap fun id => (g.node? id).map (jobItem id)
            cache := g.cacheSelection } := by
  unfold Graph.job
  cases g.executionOrder with
  | error e => exact ⟨nofun, nofun⟩
  | ok order =>
    constructor
    · intro h
      cases h
      exact ⟨order, rfl, rfl⟩
    · rintro ⟨_, ho, rfl⟩
      cases ho
      rfl

theorem job_eq_error_iff {e : GraphError} :
    g.job id = .error e ↔ g.executionOrder = .error e := by
  unfold Graph.job
  cases g.executionOrder with
  | error e' =>
    constructor <;> (intro h; cases h; rfl)
  | ok order => exact ⟨nofun, nofun⟩

end Graph

end ValueGraph
