import Mathlib.Data.List.Forall2
import ValueGraph.Proofs.Resolution.Fidelity
import ValueGraph.Proofs.Resolution.Memory
import ValueGraph.Proofs.Resolution.Quiescence
import ValueGraph.Resolution.Services

namespace ValueGraph

namespace Graph

variable {g g' g'' : Graph} {r : Requirement} {s : ValueSpec}

def SameButFlags (g g' : Graph) : Prop :=
  ∀ id, ∃ terminal, g'.node? id = (g.node? id).map fun n => { n with terminal }

theorem SameButFlags.refl (g : Graph) : g.SameButFlags g := by
  intro id
  cases hn : g.node? id with
  | none => exact ⟨∅, rfl⟩
  | some n => exact ⟨n.terminal, rfl⟩

theorem SameButFlags.trans (h : g.SameButFlags g') (h' : g'.SameButFlags g'') :
    g.SameButFlags g'' := by
  intro id
  obtain ⟨t, ht⟩ := h id
  obtain ⟨t', ht'⟩ := h' id
  refine ⟨t', ?_⟩
  rw [ht', ht, Option.map_map]
  rfl

theorem sameButFlags_mark (hm : g.mark r s = .ok g') : g.SameButFlags g' := by
  unfold mark at hm
  split at hm
  next p hp =>
    cases hm
    intro id
    have hnode : ((g.addBacking s (.singleton r)).modifyNode p (·.flag s)).node? id =
        if p = id then (g.node? id).map (·.flag s) else g.node? id := node?_modifyNode
    rw [hnode]
    split
    · cases g.node? id with
      | none => exact ⟨∅, rfl⟩
      | some n =>
        unfold Node.flag
        rw [Option.map_some]
        split
        · exact ⟨_, rfl⟩
        · exact ⟨n.terminal, rfl⟩
    · exact SameButFlags.refl g id
  next => cases hm

end Graph

theorem eq_map_some_of_count {α : Type} [DecidableEq α] {l : List (Option α)}
    (h : l.count none = 0) : l = (l.filterMap id).map some := by
  induction l with
  | nil => rfl
  | cons o l ih =>
    cases o with
    | none => simp at h
    | some v =>
      have h : l.count none = 0 := by simpa using h
      show some v :: l = some v :: (l.filterMap id).map some
      rw [← ih h]

namespace Resolution

section Delivery

variable {r : Resolution} {u : TaskId} {o : Outcome}

theorem graph_deliverInput {id : TaskId} {slot generation : Nat} :
    (r.deliverInput u id slot generation o).graph = r.graph := by
  unfold deliverInput
  split
  · rfl
  split
  · rfl
  split
  · split
    · dsimp only
      split <;> rfl
    · rfl
  · rfl

theorem sameButFlags_finishSubmission (r : Resolution) (index : Nat) (o : Outcome) :
    r.graph.SameButFlags (r.finishSubmission index o).2.graph := by
  unfold finishSubmission
  split
  · exact .refl _
  · dsimp only
    split
    · exact .refl _
    · split
      next hm => exact Graph.sameButFlags_mark hm
      next => exact .refl _

/-- Those who are told may mark an output as terminal, and do nothing else to the graph. -/
theorem sameButFlags_deliver {ws : List Waiter} :
    r.graph.SameButFlags (deliver u o ws r).2.graph := by
  induction ws generalizing r with
  | nil => exact .refl _
  | cons w ws ih =>
    cases w with
    | input id slot generation =>
      have h := ih (r := r.deliverInput u id slot generation o)
      rw [graph_deliverInput] at h
      exact h
    | submission index =>
      have h := sameButFlags_finishSubmission r index o
      unfold deliver
      split
      next e r' hr' =>
        rw [hr'] at h
        exact h
      next r' hr' =>
        rw [hr'] at h
        exact h.trans ih

theorem sameButFlags_finish {id : TaskId} : r.graph.SameButFlags (r.finish id o).2.graph := by
  have hcomplete : r.graph.SameButFlags (r.complete id o).2.graph := by
    unfold complete
    split
    · exact .refl _
    · exact sameButFlags_deliver
  unfold finish
  split
  next r' hr' =>
    rw [hr'] at hcomplete
    exact hcomplete
  next e r' hr' =>
    rw [hr'] at hcomplete
    exact hcomplete

end Delivery

section Commit

variable {σ : Type} {c : Collaborators σ} {maxDepth : Nat} {r : Resolution} {id : TaskId}
  {t : Task} {s : Search} {a : Attempt} {flag : Ask σ Bool} {w : σ}

/-- Is it the turn of a task that has all inputs of its candidate, whose output is not there yet? -/
structure Committing (r : Resolution) (id : TaskId) (t : Task) (s : Search) (a : Attempt) :
    Prop where
  ready : r.ready.head? = some id
  task : r.tasks[id]? = some t
  phase : t.phase = .resolveInputs s a
  full : a.outstanding = 0
  absent : r.graph.producer? a.candidate.output = none

/-- The graph of `r'` has one node more than that of `r`, for a candidate that was offered. -/
structure Installs (c : Collaborators σ) (r r' : Resolution) (t : Task) (s : Search) (a : Attempt)
    (values : List ValueSpec) (n : Node) : Prop where
  offered : c.Offers t.requirement s.target a.candidate
  /-- The inputs in order, and what each of them was resolved with. -/
  resolved : List.Forall₂ r.Resolved a.candidate.inputs values
  function : n.function = a.candidate.function
  target : n.target = s.target.target
  inputs : ∀ v, v ∈ n.inputs ↔ v ∈ values
  outputs : ∀ v, v ∈ n.outputs ↔
    v = a.candidate.output ∨ v ∈ a.candidate.extra ∧ ∀ p, ¬ r.graph.Produces p v
  fresh : ¬ r.graph.contains r.graph.nextId
  added : r'.graph.node? r.graph.nextId = some n
  others : ∀ i, i ≠ r.graph.nextId →
    ∃ terminal, r'.graph.node? i = (r.graph.node? i).map fun n => { n with terminal }

theorem forall₂_resolved {m : Moment} (hw : Wired m) (ha : Awaited m)
    (hasked : m.activity ≠ .asking id) (ht : m.resolution.tasks[id]? = some t)
    (hp : t.phase = .resolveInputs s a) (ho : a.outstanding = 0) :
    List.Forall₂ m.resolution.Resolved a.candidate.inputs a.inputs := by
  -- It waits for nothing, so all slots are filled; and there are as many as inputs.
  have hcount : a.slots.count none = 0 := by
    rw [← (ha.tasks id t ht).outstanding s a hp]
    exact ho
  have hslots : a.slots = a.inputs.map some := eq_map_some_of_count hcount
  have hwires := hw.tasks id t ht
  have hlength : a.slots.length = a.candidate.inputs.length := (hwires.length s a hp).2 hasked
  rw [hslots, List.length_map] at hlength
  rw [List.forall₂_iff_get]
  refine ⟨hlength.symm, fun i h₁ h₂ => ?_⟩
  have hslot : a.slots[i]? = some (some a.inputs[i]) := by
    rw [hslots, List.getElem?_map, List.getElem?_eq_getElem h₂]
    rfl
  obtain ⟨q, hq, hv⟩ := hwires.filled s a i _ hp hslot
  rw [List.getElem?_eq_getElem h₁] at hq
  cases hq
  exact hv

theorem graph_left_requeue {ready : List TaskId} (hr : r.ready = id :: ready)
    {x : Turn × Resolution} (h : Advances maxDepth { r with ready } x) :
    (requeue hr x h).left.2.graph = x.2.graph := by
  obtain ⟨turn, r'⟩ := x
  cases turn <;> rfl

theorem Committing.sameButFlags (c : Collaborators σ) (maxDepth : Nat)
    (h : r.Committing id t s a) (hflag : (flag w).1 = false) :
    (r.graph.link (a.candidate.node r.graph s.target.target a.inputs)).SameButFlags
      (r.round c maxDepth flag w).1.left.2.graph := by
  have hadd : r.graph.add (a.candidate.node r.graph s.target.target a.inputs) = _ :=
    Graph.add_eq_link (Adds.commit (c := c) h.phase h.full h.absent).fresh
  -- The round is the turn of this task, and its step commits.
  unfold round
  dsimp only
  split
  next hr =>
    have hready := h.ready
    rw [hr] at hready
    cases hready
  next i ready hr =>
    have hready := h.ready
    rw [hr] at hready
    cases hready
    rw [if_neg (by simp [hflag]), graph_left_requeue]
    unfold step
    simp only [h.task, h.phase, h.full, if_true]
    unfold commit
    simp only [h.absent, Option.isSome_none, Bool.false_eq_true, if_false, hadd]
    exact sameButFlags_finish

theorem Committing.installs (h : r.Committing id t s a) (hflag : (flag w).1 = false)
    (hr : Steady ⟨r, .idle⟩) (ht : t.Faithful c) :
    ∃ values n, Installs c r (r.round c maxDepth flag w).1.left.2 t s a values n := by
  have hphase := ht.phase
  rw [h.phase] at hphase
  obtain ⟨-, -, hoffered, -⟩ := hphase
  have hsame := h.sameButFlags c maxDepth hflag
  have hindexed := hr.grounded.sound.indexed
  obtain ⟨terminal, hnode⟩ := hsame r.graph.nextId
  rw [Graph.node?_link, if_pos rfl, Option.map_some] at hnode
  refine ⟨a.inputs, _, hoffered,
    forall₂_resolved hr.wired hr.awaited nofun h.task h.phase h.full, rfl, rfl, fun v => ?_,
    fun v => ?_, hr.grounded.sound.ids.not_contains_nextId, hnode, fun i hi => ?_⟩
  · exact SortedSet.mem_ofList
  · show v ∈ SortedSet.ofList _ ↔ _
    rw [SortedSet.mem_ofList, List.mem_cons, List.mem_filter]
    refine or_congr_right (and_congr_right fun _ => ?_)
    simp only [Option.isNone_iff_eq_none, Option.eq_none_iff_forall_ne_some, ne_eq,
      hindexed.producers]
  · obtain ⟨terminal, hnode⟩ := hsame i
    rw [Graph.node?_link, if_neg (Ne.symm hi)] at hnode
    exact ⟨terminal, hnode⟩

end Commit

section Calls

variable {σ : Type} (c : Collaborators σ) (maxDepth : Nat)

theorem kept_faithful (hc : c.policy.Chooses) : Kept (Change c maxDepth) fun m =>
    Steady m ∧ m.resolution.All (·.Faithful c) ∧ m.resolution.Remembers where
  change hm h := ⟨(kept_steady c maxDepth).change hm h.1, hm.faithful hc h.1.grounded h.2.1,
    hm.remembers h.1.claimed h.2.2⟩
  sound h := (kept_steady c maxDepth).sound h.1

theorem faithful_initial (g : Graph) :
    ({ graph := g } : Resolution).All (·.Faithful c) ∧ ({ graph := g } : Resolution).Remembers := by
  refine ⟨fun i t ht => ?_, fun q v => iff_of_false (fun h => ?_) ?_⟩
  · cases ht
  · cases h
  · rintro ⟨i, t, ht, -⟩
    cases ht

/--
After any calls: a task that has committed to a value was told what its target is, and the value is
what was asked for there; and a task whose turn it is to commit to its candidate adds one node,
which reads what the candidate's inputs were resolved with, and produces the candidate's output with
those of its extra outputs that nobody produces.
-/
theorem sound_afterCalls (configuration : String) (os : List Graph.Operation)
    (calls : List (Call σ)) (hc : c.policy.Chooses) :
    let r := afterCalls c maxDepth { graph := .after configuration os } calls
    (∀ q v, r.Resolved q v ↔ r.Committed q v) ∧
      (∀ (id : TaskId) t v, r.tasks[id]? = some t → t.phase = .committed v →
        t.requirement.constraints.Satisfiable →
        ∃ target w, t.target = some target ∧
          (c.target t.requirement.target w).1 = .resolved target ∧
          v.name = t.requirement.name ∧ v.target = target.target ∧
          t.requirement.constraints.satisfiedBy v.properties) ∧
      ∀ id t s a flag w, r.Committing id t s a → (flag w).1 = false →
        ∃ values n, Installs c r (r.round c maxDepth flag w).1.left.2 t s a values n := by
  intro r
  have hinit : Steady ⟨{ graph := .after configuration os }, .idle⟩ :=
    steady_initial (Graph.sound_after configuration os)
  obtain ⟨hsteady, hfaithful, hremembers⟩ :=
    (kept_faithful c maxDepth hc).afterCalls ⟨hinit, faithful_initial c _⟩ calls
  refine ⟨hremembers, fun id t v ht hv hsat => ?_, fun id t s a flag w h hflag => ?_⟩
  · have hphase := (hfaithful id t ht).phase
    rw [hv] at hphase
    obtain ⟨target, htarget, hmeets⟩ := hphase
    obtain ⟨w, hw⟩ := (hfaithful id t ht).target target htarget
    have hmeets := hmeets hsat
    unfold Requirement.satisfiedBy at hmeets
    simp only [Bool.and_eq_true, decide_eq_true_eq] at hmeets
    obtain ⟨⟨hname, hon⟩, hprops⟩ := hmeets
    exact ⟨target, w, htarget, hw, hname.symm, hon, hprops⟩
  · exact h.installs hflag hsteady (hfaithful id t h.task)

end Calls

section Example

def bond : Target := ⟨.security, "Bond"⟩

/-- One quote, and a function that makes a price of it. -/
def quoted : Services where
  market := { available := SortedMap.insert ∅ ⟨"Quote", bond⟩ ⟨"Quote", bond, ∅⟩ }
  source := .fixed (SortedMap.insert ∅ "Price" [{
    function := .computation "Pricer" ∅
    output := ⟨"Price", bond, ∅⟩
    inputs := [⟨"Quote", bond, ∅⟩] }])

def pricing : List (Call World) :=
  .add ⟨"Price", bond, ∅⟩ :: List.replicate 6 (.round (fun w => (false, w)) {})

def priced : Resolution :=
  afterCalls quoted.collaborators 1 { graph := .after "Default" [] } pricing

theorem priced_quote : ∃ t, priced.tasks[1]? = some t ∧ t.phase = .committed ⟨"Quote", bond, ∅⟩ ∧
    t.requirement = ⟨"Quote", bond, ∅⟩ := ⟨_, rfl, rfl, rfl⟩

theorem priced_turn : ∃ t s a, priced.Committing 0 t s a := ⟨_, _, _, rfl, rfl, rfl, rfl, rfl⟩

theorem sound_afterCalls_priced :
    let c := quoted.collaborators
    c.policy.Chooses ∧
      (∃ t v target w, priced.tasks[1]? = some t ∧ t.phase = .committed v ∧
        t.requirement.constraints.Satisfiable ∧
        (c.target t.requirement.target w).1 = .resolved target ∧ v.target = target.target) ∧
      ∃ t s a values n, priced.Committing 0 t s a ∧
        Installs c priced (priced.round c 1 (fun w => (false, w)) {}).1.left.2 t s a values n := by
  intro c
  have hc : c.policy.Chooses := Policy.chooses_lowest
  obtain ⟨-, hcommitted, hcommits⟩ := sound_afterCalls c 1 "Default" [] pricing hc
  refine ⟨hc, ?_, ?_⟩
  · obtain ⟨t, ht, hv, hq⟩ := priced_quote
    have hsat : t.requirement.constraints.Satisfiable := by
      rw [hq]
      intro name values hv
      cases hv
    obtain ⟨target, w, -, hw, -, htarget, -⟩ := hcommitted 1 t _ ht hv hsat
    exact ⟨t, _, target, w, ht, hv, hsat, hw, htarget⟩
  · obtain ⟨t, s, a, hturn⟩ := priced_turn
    obtain ⟨values, n, hn⟩ := hcommits 0 t s a (fun w => (false, w)) {} hturn rfl
    exact ⟨t, s, a, values, n, hturn, hn⟩

end Example

end Resolution

end ValueGraph
