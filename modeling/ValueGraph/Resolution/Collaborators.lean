import ValueGraph.Resolution.Policy

namespace ValueGraph

inductive TargetAnswer
  | resolved (target : NamedTarget)
  | notFound
  | wouldBlock
deriving DecidableEq, Inhabited

inductive MarketAnswer
  /-- There are live data under that specification. -/
  | available (spec : ValueSpec)
  /-- The value is no market data; functions have to produce it. -/
  | notAvailable
  /-- The value is market data that cannot be had. -/
  | missing
  | wouldBlock
deriving DecidableEq, Inhabited

/-- A function that can produce a value, with what it needs for that. -/
structure Candidate where
  function : NodeFunction
  output : ValueSpec
  /-- What the same call produces besides. -/
  extra : List ValueSpec := []
  inputs : List Requirement := []
deriving DecidableEq, Inhabited

/-- A question: the answer may depend on the state of the world, and asking may change it. -/
abbrev Ask (σ α : Type) := σ → α × σ

/-- Remembers which functions met which requirements, for targets with the same digest. -/
structure DigestMemory (σ : Type) where
  digest : NamedTarget → Ask σ (Option String)
  /-- The constraints and functions remembered for a digest and a value's name. -/
  prior : (digest name : String) → Ask σ (List (Properties × String))
  record : (digest name : String) → Properties → (function : String) → σ → σ

/--
What a resolution asks of its surroundings. A lookup that would have to wait says so instead, and is
asked again later.
-/
structure Collaborators (σ : Type) where
  target : TargetRef → Ask σ TargetAnswer
  market : NamedTarget → Requirement → Ask σ MarketAnswer
  /-- The candidates for a value, the preferred one first. -/
  functions : (name : String) → NamedTarget → Properties → Ask σ (List Candidate)
  /-- What the function with that id offers for a value. -/
  functionById : (id name : String) → NamedTarget → Properties → Ask σ (Option Candidate)
  digests : Option (DigestMemory σ) := none
  policy : Policy := .lowest

namespace Collaborators

variable {σ : Type} (c : Collaborators σ)

/-- Looks a function up among all candidates, for want of a direct way. -/
def firstWithId (functions : (name : String) → NamedTarget → Properties → Ask σ (List Candidate))
    (id name : String) (t : NamedTarget) (constraints : Properties) : Ask σ (Option Candidate) :=
  fun w =>
    let (candidates, w) := functions name t constraints w
    (candidates.find? (·.function.id = id), w)

def digest (t : NamedTarget) : Ask σ (Option String) := fun w =>
  match c.digests with
  | some memory => memory.digest t w
  | none => (none, w)

def functionsById (q : Requirement) (t : NamedTarget) : List String → Ask σ (List Candidate)
  | [], w => ([], w)
  | id :: ids, w =>
    let (found, w) := c.functionById id q.name t q.constraints w
    let (rest, w) := functionsById q t ids w
    (found.toList ++ rest, w)

/-- The candidates of the functions remembered for just this requirement, each function once. -/
def remembered (digest : Option String) (q : Requirement) (t : NamedTarget) :
    Ask σ (List Candidate) := fun w =>
  match c.digests, digest with
  | some memory, some digest =>
    let (prior, w) := memory.prior digest q.name w
    c.functionsById q t ((prior.filter (·.1 = q.constraints)).map (·.2)).eraseDups w
  | _, _ => ([], w)

theorem remembered_eq_nil (h : c.digests = none) (digest : Option String) (q : Requirement)
    (t : NamedTarget) (w : σ) : c.remembered digest q t w = ([], w) := by
  unfold remembered
  rw [h]

/-- Remembers that the function met the requirement; built-in functions are not remembered. -/
def remember (digest : Option String) (q : Requirement) (f : NodeFunction) (w : σ) : σ :=
  match c.digests, digest, f with
  | some memory, some digest, .computation id _ => memory.record digest q.name q.constraints id w
  | _, _, _ => w

end Collaborators

end ValueGraph
