import Mathlib.Logic.Relation
import ValueGraph.Resolution.Step

namespace ValueGraph

namespace Task

/-- Can the task go on without being told anything? -/
def CanGoOn (t : Task) : Prop :=
  match t.phase with
  | .committed _ | .failed _ => False
  | .resolveInputs _ a => a.outstanding = 0
  | _ => True

end Task

namespace Attempt

def next? (a : Attempt) : Option Requirement := a.candidate.inputs[a.slots.length]?

end Attempt

/-- What a resolution is in the midst of. -/
inductive Activity
  | idle
  | turn (id : TaskId)
  /-- The inputs of the candidate that the task has just taken up are being asked for. -/
  | asking (id : TaskId)
  /-- Of those who wait for the task, `due` are still to be told how it has ended. -/
  | telling (id : TaskId) (outcome : Outcome) (due : List Waiter)
  /-- The graph has refused a change. -/
  | broken (error : GraphError)

/-- A resolution amid a call. -/
structure Moment where
  resolution : Resolution
  activity : Activity

section Tasks

variable {σ : Type} (c : Collaborators σ) (g : Graph) (t : Task)

/-- The copy of `spec` under the name and target that the task asks for. -/
def Task.relabelled (s : Search) (spec : ValueSpec) : ValueSpec :=
  { name := t.requirement.name, target := s.target.target
    properties := c.policy.reconcile t.requirement spec }

/-- The phases that a task may take, on an answer of the collaborators, without regard to others. -/
inductive Moves : Phase → Prop
  | seek {s w} (hp : t.phase = .checkLiveData s)
    (ha : (c.market s.target t.requirement w).1 = .notAvailable) : Moves (.enumerate s)
  | askAll {s w} (hp : t.phase = .enumerate s) :
    Moves (.nextCandidate { s with
      tried := none
      candidates := (c.functions t.requirement.name s.target t.requirement.constraints w).1.filter
        (·.function.id ∉ s.tried.getD ∅) })
  | remembered {s w candidates} (hp : t.phase = .enumerate s) (ht : s.tried = none)
    (ha : (c.remembered s.digest t.requirement s.target w).1 = candidates) :
    Moves (.nextCandidate { s with
      tried := some (.ofList (candidates.map (·.function.id))), candidates })
  | exhaust {s} (hp : t.phase = .nextCandidate s) (hc : s.candidates = [])
    (ht : s.tried.isSome) : Moves (.enumerate s)
  | skip {s candidate candidates} (hp : t.phase = .nextCandidate s)
    (hc : s.candidates = candidate :: candidates)
    (hn : ¬ t.requirement.satisfiedBy s.target.target candidate.output) :
    Moves (.nextCandidate { s with
      candidates
      failures := s.failures ++
        [.mismatch t.requirement candidate.function.id candidate.output] })

inductive Adds : Node → Prop
  | source {s w spec} (hp : t.phase = .checkLiveData s)
    (ha : (c.market s.target t.requirement w).1 = .available spec)
    (hn : g.producer? spec = none) :
    Adds (({ function := .marketData, target := spec.target } : Node).addOutput spec)
  | relabel {s w spec} (hp : t.phase = .checkLiveData s)
    (ha : (c.market s.target t.requirement w).1 = .available spec)
    (hs : (g.producer? spec).isSome)
    (hq : ¬ t.requirement.satisfiedBy s.target.target spec)
    (hn : g.producer? (t.relabelled c s spec) = none) :
    Adds ((({ function := .relabel, target := s.target.target } : Node).addInput spec).addOutput
      (t.relabelled c s spec))
  | commit {s a} (hp : t.phase = .resolveInputs s a) (ho : a.outstanding = 0)
    (hn : g.producer? a.candidate.output = none) :
    Adds (a.candidate.node g s.target.target a.inputs)

inductive Ends : Outcome → Prop
  | noTarget {w} (hp : t.phase = .resolveTarget)
    (ha : (c.target t.requirement.target w).1 = .notFound) :
    Ends (.error (.noTarget t.requirement))
  | reuse {s spec} (hp : t.phase = .checkLiveData s)
    (hf : g.find? t.requirement.name s.target.target t.requirement.constraints = some spec) :
    Ends (.ok spec)
  | missing {s w} (hp : t.phase = .checkLiveData s)
    (ha : (c.market s.target t.requirement w).1 = .missing) :
    Ends (.error (.ofKind .missingMarketData t.requirement))
  | source {s w spec} (hp : t.phase = .checkLiveData s)
    (ha : (c.market s.target t.requirement w).1 = .available spec)
    (hs : (g.producer? spec).isSome)
    (hq : t.requirement.satisfiedBy s.target.target spec) : Ends (.ok spec)
  | relabel {s w spec} (hp : t.phase = .checkLiveData s)
    (ha : (c.market s.target t.requirement w).1 = .available spec)
    (hq : ¬ t.requirement.satisfiedBy s.target.target spec)
    (hs : (g.producer? (t.relabelled c s spec)).isSome) : Ends (.ok (t.relabelled c s spec))
  | noFunctions {s w} (hp : t.phase = .enumerate s)
    (ha : (c.functions t.requirement.name s.target t.requirement.constraints w).1 = []) :
    Ends (.error (.ofKind .noFunctions t.requirement))
  | present {s candidate candidates} (hp : t.phase = .nextCandidate s)
    (hc : s.candidates = candidate :: candidates)
    (hq : t.requirement.satisfiedBy s.target.target candidate.output)
    (hs : (g.producer? candidate.output).isSome) : Ends (.ok candidate.output)
  | exhausted {s} (hp : t.phase = .nextCandidate s) (hc : s.candidates = [])
    (ht : s.tried = none) : Ends (.error (.exhausted t.requirement s.failures))
  | committed {s a} (hp : t.phase = .resolveInputs s a) (ho : a.outstanding = 0)
    (hs : (g.producer? a.candidate.output).isSome) : Ends (.ok a.candidate.output)

end Tasks

namespace Resolution

/-- The task has ended, but nobody has been told. -/
def settle (r : Resolution) (id : TaskId) (t : Task) (outcome : Outcome) : Resolution :=
  { r.modifyTask id fun t =>
      { t with phase := .ofOutcome outcome, waiters := [], waitingOn := ∅ } with
    claims := r.settleClaim t.requirement outcome
    progress := { r.progress with finished := r.progress.finished + 1 } }

def addWaiter (r : Resolution) (id : TaskId) (w : Waiter) : Resolution :=
  r.modifyTask id fun t => { t with waiters := t.waiters ++ [w] }

def fillSlot (r : Resolution) (sender task : TaskId) (search : Search) (a : Attempt) (slot : Nat)
    (s : ValueSpec) : Resolution :=
  r.modifyTask task fun t =>
    { t with
      phase := .resolveInputs search (a.fill slot s)
      waitingOn := t.waitingOn.erase sender }

def note (r : Resolution) (index : Nat) (outcome : Outcome) : Resolution :=
  { r with submissions := r.submissions.modify index fun s => { s with outcome } }

def submit (r : Resolution) (q : Requirement) (outcome : Option Outcome := none) : Resolution :=
  { r with submissions := r.submissions.push { requirement := q, outcome } }

end Resolution

section Changes

variable {σ : Type} (c : Collaborators σ) (maxDepth : Nat)

/--
What a resolution does, in changes so small that each of them touches one thing. A call is a run of
such changes, so what every change keeps all calls keep.
-/
inductive Change : Moment → Moment → Prop
  -- The queue.
  | take {r : Resolution} {id ready} (hr : r.ready = id :: ready) :
    Change ⟨r, .idle⟩ ⟨{ r with ready }, .turn id⟩
  | again {r : Resolution} {id t} (ht : r.tasks[id]? = some t) (hc : t.CanGoOn) :
    Change ⟨r, .turn id⟩ ⟨{ r with ready := id :: r.ready }, .idle⟩
  | block {r : Resolution} {id t} (ht : r.tasks[id]? = some t) (hc : t.CanGoOn) :
    Change ⟨r, .turn id⟩ ⟨{ r with suspended := r.suspended ++ [id] }, .idle⟩
  | park {r : Resolution} {id t s a} (ht : r.tasks[id]? = some t)
    (hp : t.phase = .resolveInputs s a) (ho : a.outstanding ≠ 0) :
    Change ⟨r, .turn id⟩ ⟨r, .idle⟩
  | pass {r : Resolution} {id} (ht : ∀ t, r.tasks[id]? = some t → t.isFinished) :
    Change ⟨r, .turn id⟩ ⟨r, .idle⟩
  | resume {r : Resolution} : Change ⟨r, .idle⟩ ⟨r.resume, .idle⟩
  | cancel {r : Resolution} : Change ⟨r, .idle⟩ ⟨r.cancel, .idle⟩
  -- The phases of a task.
  | found {r : Resolution} {id t w target digest} (ht : r.tasks[id]? = some t)
    (hp : t.phase = .resolveTarget)
    (ha : (c.target t.requirement.target w).1 = .resolved target) :
    Change ⟨r, .turn id⟩
      ⟨r.modifyTask id fun t =>
        { t with target := some target, phase := .checkLiveData { target, digest } }, .turn id⟩
  | move {r : Resolution} {id t p} (ht : r.tasks[id]? = some t) (hm : Moves c t p) :
    Change ⟨r, .turn id⟩ ⟨r.setPhase id p, .turn id⟩
  | takeUp {r : Resolution} {id t s candidate candidates} (ht : r.tasks[id]? = some t)
    (hp : t.phase = .nextCandidate s) (hc : s.candidates = candidate :: candidates)
    (hq : t.requirement.satisfiedBy s.target.target candidate.output)
    (hn : r.graph.producer? candidate.output = none) :
    Change ⟨r, .turn id⟩
      ⟨r.setPhase id (.resolveInputs { s with candidates } { candidate }), .asking id⟩
  -- The inputs of a candidate.
  | known {r : Resolution} {id t s a q spec} (ht : r.tasks[id]? = some t)
    (hp : t.phase = .resolveInputs s a) (hq : a.next? = some q)
    (hc : r.claims.get? q = some (.resolved spec)) :
    Change ⟨r, .asking id⟩ ⟨r.setPhase id (.resolveInputs s (a.push (some spec))), .asking id⟩
  | join {r : Resolution} {id t s a q u} (ht : r.tasks[id]? = some t)
    (hp : t.phase = .resolveInputs s a) (hq : a.next? = some q)
    (hc : r.claims.get? q = some (.pending u))
    (hn : r.closesCircle u (.input id a.slots.length t.generation) = false) :
    Change ⟨r, .asking id⟩
      ⟨((r.addWaiter u (.input id a.slots.length t.generation)).awaitTask id u).setPhase id
        (.resolveInputs s (a.push none)), .asking id⟩
  | spawn {r : Resolution} {id t s a q} (ht : r.tasks[id]? = some t)
    (hp : t.phase = .resolveInputs s a) (hq : a.next? = some q)
    (hc : r.claims.get? q = none) (hd : t.depth + 1 ≤ maxDepth) :
    Change ⟨r, .asking id⟩
      ⟨((r.spawn q (.input id a.slots.length t.generation) (t.depth + 1)).awaitTask id
        r.tasks.size).setPhase id (.resolveInputs s (a.push none)), .asking id⟩
  | giveUp {r : Resolution} {id t s a q cause} (ht : r.tasks[id]? = some t)
    (hp : t.phase = .resolveInputs s a) (hq : a.next? = some q)
    (hf : r.attach maxDepth q (.input id a.slots.length t.generation) (t.depth + 1) =
      (.failed cause, r)) :
    Change ⟨r, .asking id⟩
      ⟨r.modifyTask id fun t => t.abandon s a.candidate cause, .turn id⟩
  | asked {r : Resolution} {id t s a} (ht : r.tasks[id]? = some t)
    (hp : t.phase = .resolveInputs s a) (hn : a.next? = none) :
    Change ⟨r, .asking id⟩ ⟨r, .turn id⟩
  -- The graph, and the end of a task.
  | add {r : Resolution} {id t n i graph} (ht : r.tasks[id]? = some t) (ha : Adds c r.graph t n)
    (hg : r.graph.add n = .ok (i, graph)) :
    Change ⟨r, .turn id⟩ ⟨{ r with graph }, .turn id⟩
  | refuseNode {r : Resolution} {id t n e} (ht : r.tasks[id]? = some t)
    (ha : Adds c r.graph t n) (hg : r.graph.add n = .error e) :
    Change ⟨r, .turn id⟩ ⟨r, .broken e⟩
  | settle {r : Resolution} {id t outcome} (ht : r.tasks[id]? = some t)
    (he : Ends c r.graph t outcome) :
    Change ⟨r, .turn id⟩ ⟨r.settle id t outcome, .telling id outcome t.waiters⟩
  -- The waiters of a task that has ended.
  | stale {r : Resolution} {u outcome id slot generation ws}
    (hs : ∀ t, r.tasks[id]? = some t → t.generation = generation →
      ∀ s a, t.phase ≠ .resolveInputs s a) :
    Change ⟨r, .telling u outcome (.input id slot generation :: ws)⟩ ⟨r, .telling u outcome ws⟩
  | fill {r : Resolution} {u spec id t s a slot ws} (ht : r.tasks[id]? = some t)
    (hp : t.phase = .resolveInputs s a) (ho : (a.fill slot spec).outstanding ≠ 0) :
    Change ⟨r, .telling u (.ok spec) (.input id slot t.generation :: ws)⟩
      ⟨r.fillSlot u id s a slot spec, .telling u (.ok spec) ws⟩
  | fillLast {r : Resolution} {u spec id t s a slot ws} (ht : r.tasks[id]? = some t)
    (hp : t.phase = .resolveInputs s a) (ho : (a.fill slot spec).outstanding = 0) :
    Change ⟨r, .telling u (.ok spec) (.input id slot t.generation :: ws)⟩
      ⟨{ r.fillSlot u id s a slot spec with ready := r.ready ++ [id] }, .telling u (.ok spec) ws⟩
  | fail {r : Resolution} {u cause id t s a slot ws} (ht : r.tasks[id]? = some t)
    (hp : t.phase = .resolveInputs s a) :
    Change ⟨r, .telling u (.error cause) (.input id slot t.generation :: ws)⟩
      ⟨{ r.modifyTask id fun t => t.abandon s a.candidate cause with ready := r.ready ++ [id] },
        .telling u (.error cause) ws⟩
  | lost {r : Resolution} {u outcome index ws} (hs : r.submissions[index]? = none) :
    Change ⟨r, .telling u outcome (.submission index :: ws)⟩ ⟨r, .telling u outcome ws⟩
  | mark {r : Resolution} {u spec index s graph ws} (hs : r.submissions[index]? = some s)
    (hg : r.graph.mark s.requirement spec = .ok graph) :
    Change ⟨r, .telling u (.ok spec) (.submission index :: ws)⟩
      ⟨{ r.note index (.ok spec) with graph }, .telling u (.ok spec) ws⟩
  | refuseMark {r : Resolution} {u spec index s e ws} (hs : r.submissions[index]? = some s)
    (hg : r.graph.mark s.requirement spec = .error e) :
    Change ⟨r, .telling u (.ok spec) (.submission index :: ws)⟩ ⟨r, .broken e⟩
  | note {r : Resolution} {u failure index s ws} (hs : r.submissions[index]? = some s) :
    Change ⟨r, .telling u (.error failure) (.submission index :: ws)⟩
      ⟨r.note index (.error failure), .telling u (.error failure) ws⟩
  | told {r : Resolution} {u outcome} : Change ⟨r, .telling u outcome []⟩ ⟨r, .idle⟩
  -- A requirement is submitted.
  | submitKnown {r : Resolution} {q spec graph} (hc : r.claims.get? q = some (.resolved spec))
    (hg : r.graph.mark q spec = .ok graph) :
    Change ⟨r, .idle⟩ ⟨{ r.submit q (some (.ok spec)) with graph }, .idle⟩
  | submitRefused {r : Resolution} {q spec e} (hc : r.claims.get? q = some (.resolved spec))
    (hg : r.graph.mark q spec = .error e) : Change ⟨r, .idle⟩ ⟨r, .broken e⟩
  | submitFailed {r : Resolution} {q failure} (hc : r.claims.get? q = some (.failed failure)) :
    Change ⟨r, .idle⟩ ⟨r.submit q (some (.error failure)), .idle⟩
  | submitJoin {r : Resolution} {q u} (hc : r.claims.get? q = some (.pending u)) :
    Change ⟨r, .idle⟩ ⟨(r.submit q).addWaiter u (.submission r.submissions.size), .idle⟩
  | submitSpawn {r : Resolution} {q} (hc : r.claims.get? q = none) :
    Change ⟨r, .idle⟩ ⟨(r.submit q).spawn q (.submission r.submissions.size) 0, .idle⟩

/-- A change amid a call that suspends no task. -/
structure Works (m m' : Moment) : Prop where
  busy : m.activity ≠ .idle
  change : Change c maxDepth m m'
  suspended : m'.resolution.suspended = m.resolution.suspended

abbrev Course : Moment → Moment → Prop := Relation.ReflTransGen (Works c maxDepth)

/-- A change that tasks make as they take turns: amid a call, or at its beginning. -/
inductive Acts : Moment → Moment → Prop
  | amid {m m'} (hm : m.activity ≠ .idle) (hc : Change c maxDepth m m') : Acts m m'
  | take {r : Resolution} {id ready} (hr : r.ready = id :: ready) :
    Acts ⟨r, .idle⟩ ⟨{ r with ready }, .turn id⟩

inductive Calm : Moment → Moment → Prop
  | acts {m m'} (h : Acts c maxDepth m m') : Calm m m'
  | resume {r : Resolution} : Calm ⟨r, .idle⟩ ⟨r.resume, .idle⟩
  | submit {r : Resolution} {m'} (hc : Change c maxDepth ⟨r, .idle⟩ m')
    (hm : m' ≠ ⟨r.cancel, .idle⟩) : Calm ⟨r, .idle⟩ m'

variable {c maxDepth} {m m' : Moment}

theorem Works.acts (h : Works c maxDepth m m') : Acts c maxDepth m m' :=
  .amid h.busy h.change

theorem Acts.change (h : Acts c maxDepth m m') : Change c maxDepth m m' := by
  cases h with
  | amid hm hc => exact hc
  | take hr => exact .take hr

theorem Calm.change (h : Calm c maxDepth m m') : Change c maxDepth m m' := by
  cases h with
  | acts h => exact h.change
  | resume => exact .resume
  | submit hc hm => exact hc

theorem Calm.resume_or_change (h : Calm c maxDepth m m') :
    (∃ r : Resolution, m = ⟨r, .idle⟩ ∧ m' = ⟨r.resume, .idle⟩) ∨
      Change c maxDepth m m' ∧ (m.activity = .idle → m' ≠ ⟨m.resolution.cancel, .idle⟩) := by
  cases h with
  | acts h =>
    refine .inr ⟨h.change, fun hidle => ?_⟩
    cases h with
    | amid hm hc => exact absurd hidle hm
    | take hr => exact fun he => by cases congrArg Moment.activity he
  | resume => exact .inl ⟨_, rfl, rfl⟩
  | submit hc hm => exact .inr ⟨hc, fun _ => hm⟩

end Changes

end ValueGraph
