import Mathlib.Data.List.Forall2
import ValueGraph.Proofs.Resolution.SingleFlight

namespace ValueGraph

namespace Failure

variable {q : Requirement} {f : Failure}

/-- Does the failure have nothing to do with candidates? -/
def Plain (q : Requirement) (f : Failure) : Prop :=
  f = .ofKind .cancelled q ∨ f = .noTarget q ∨ f = .ofKind .missingMarketData q ∨
    f = .ofKind .noFunctions q

theorem Plain.causes (h : f.Plain q) : f.causes = [] := by
  rcases h with rfl | rfl | rfl | rfl <;> rfl

theorem Plain.ne_exhausted {fs : List Failure} (h : f.Plain q) : f ≠ .exhausted q fs := by
  intro he
  have hnil : fs = [] := (congrArg Failure.causes he).symm.trans h.causes
  subst hnil
  rcases h with rfl | rfl | rfl | rfl <;> cases congrArg Failure.kind he

end Failure

namespace Resolution

def Ended (r : Resolution) (q : Requirement) (f : Failure) : Prop :=
  ∃ (id : TaskId) (t : Task), r.tasks[id]? = some t ∧ t.requirement = q ∧ t.phase = .failed f

/-- Is that how a task for the requirement has failed, or how one is refused? -/
def Fails (maxDepth : Nat) (r : Resolution) (q : Requirement) (f : Failure) : Prop :=
  r.Ended q f ∨ f = .ofKind .recursionDetected q ∨ f = .tooDeep q maxDepth

/-- Why a candidate of a requirement whose target is `n` was given up. -/
inductive Rejects (maxDepth : Nat) (r : Resolution) (q : Requirement) (n : NamedTarget)
    (x : Candidate) : Failure → Prop
  | mismatch (hs : ¬ q.satisfiedBy n.target x.output) :
    Rejects maxDepth r q n x (.mismatch q x.function.id x.output)
  | input {p cause} (hs : q.satisfiedBy n.target x.output) (hp : p ∈ x.inputs)
    (hf : r.Fails maxDepth p cause) : Rejects maxDepth r q n x (.ofCandidate q x.function.id cause)

theorem Rejects.mono {maxDepth : Nat} {r r' : Resolution} {q : Requirement} {n : NamedTarget}
    {x : Candidate} {f : Failure} (h : r.Rejects maxDepth q n x f)
    (hended : ∀ q f, r.Ended q f → r'.Ended q f) : r'.Rejects maxDepth q n x f := by
  cases h with
  | mismatch hs => exact .mismatch hs
  | input hs hp hf => exact .input hs hp (hf.imp_left (hended _ _))

end Resolution

section Phases

variable {σ : Type} {c : Collaborators σ} {g : Graph} {t : Task} {q : Requirement}
  {rejects rejects' : NamedTarget → Candidate → Failure → Prop} {target : Option NamedTarget}
  {offered xs : List Candidate} {p : Phase} {s : Search} {a a' : Attempt} {x : Candidate}
  {f : Failure}

structure Search.Fresh (target : Option NamedTarget) (s : Search) : Prop where
  target : target = some s.target
  tried : ∀ f, f ∉ s.tried.getD ∅
  failures : s.failures = []

/-- Were the candidates but for `rest` given up, one after another? -/
def Search.Spent (rejects : NamedTarget → Candidate → Failure → Prop) (offered : List Candidate)
    (s : Search) (rest : List Candidate) : Prop :=
  ∃ done, offered = done ++ rest ∧ List.Forall₂ (rejects s.target) done s.failures

/-- Is `v` what the first candidate that was not given up produces? -/
def Prevails (rejects : NamedTarget → Candidate → Failure → Prop) (q : Requirement)
    (n : NamedTarget) (offered : List Candidate) (v : ValueSpec) : Prop :=
  ∃ done x rest fs, offered = done ++ x :: rest ∧ x.output = v ∧ q.satisfiedBy n.target v ∧
    List.Forall₂ (rejects n) done fs

/-- Is what a task has come to right for the candidates that were offered to it? -/
def Phase.Accounts (rejects : NamedTarget → Candidate → Failure → Prop) (q : Requirement)
    (target : Option NamedTarget) (offered : List Candidate) : Phase → Prop
  | .resolveTarget => offered = []
  | .checkLiveData s | .enumerate s => offered = [] ∧ s.Fresh target
  | .nextCandidate s =>
    target = some s.target ∧ (∀ f, f ∉ s.tried.getD ∅) ∧ (s.tried.isSome → offered = []) ∧
      s.Spent rejects offered s.candidates
  | .resolveInputs s a =>
    target = some s.target ∧ s.tried = none ∧ q.satisfiedBy s.target.target a.candidate.output ∧
      s.Spent rejects offered (a.candidate :: s.candidates)
  | .committed v => offered = [] ∨ ∃ n, target = some n ∧ Prevails rejects q n offered v
  | .failed f =>
    f.Plain q ∨ f = .exhausted q f.causes ∧
      ∃ n, target = some n ∧ List.Forall₂ (rejects n) offered f.causes

theorem Search.Spent.mono {rest : List Candidate} (h : s.Spent rejects offered rest)
    (hr : ∀ n x f, rejects n x f → rejects' n x f) : s.Spent rejects' offered rest := by
  obtain ⟨done, hoffered, hdone⟩ := h
  exact ⟨done, hoffered, hdone.imp fun _ _ => hr _ _ _⟩

theorem Phase.Accounts.mono (h : p.Accounts rejects q target offered)
    (hr : ∀ n x f, rejects n x f → rejects' n x f) : p.Accounts rejects' q target offered := by
  cases p with
  | resolveTarget | checkLiveData | enumerate => exact h
  | nextCandidate s => exact ⟨h.1, h.2.1, h.2.2.1, h.2.2.2.mono hr⟩
  | resolveInputs s a => exact ⟨h.1, h.2.1, h.2.2.1, h.2.2.2.mono hr⟩
  | committed v =>
    refine h.imp_right ?_
    rintro ⟨n, hn, done, x, rest, fs, hoffered, hx, hs, hdone⟩
    exact ⟨n, hn, done, x, rest, fs, hoffered, hx, hs, hdone.imp fun _ _ => hr _ _ _⟩
  | failed f =>
    refine h.imp_right ?_
    rintro ⟨hf, n, hn, hall⟩
    exact ⟨hf, n, hn, hall.imp fun _ _ => hr _ _ _⟩

theorem Search.Spent.reject (h : s.Spent rejects offered (x :: xs)) (hf : rejects s.target x f) :
    ({ s with candidates := xs, failures := s.failures ++ [f] } : Search).Spent rejects offered
      xs := by
  obtain ⟨done, hoffered, hdone⟩ := h
  refine ⟨done ++ [x], ?_, List.rel_append hdone (.cons hf .nil)⟩
  rw [hoffered, List.append_assoc, List.singleton_append]

theorem Phase.Accounts.attempt (h : (Phase.resolveInputs s a).Accounts rejects q target offered)
    (ha : a'.candidate = a.candidate) :
    (Phase.resolveInputs s a').Accounts rejects q target offered := by
  obtain ⟨htarget, htried, hs, hspent⟩ := h
  refine ⟨htarget, htried, ?_⟩
  rw [ha]
  exact ⟨hs, hspent⟩

theorem Phase.Accounts.takeUp (h : (Phase.nextCandidate s).Accounts rejects q target offered)
    (hx : s.candidates = x :: xs) (hq : q.satisfiedBy s.target.target x.output) :
    (Phase.resolveInputs { s with candidates := xs } { candidate := x }).Accounts rejects q target
      offered := by
  obtain ⟨htarget, -, hnone, hspent⟩ := h
  rw [hx] at hspent
  refine ⟨htarget, ?_, hq, hspent⟩
  -- Nothing is offered to one that goes by memory.
  cases ht : s.tried with
  | none => rfl
  | some tried =>
    obtain ⟨done, hoffered, -⟩ := hspent
    rw [hnone (by rw [ht]; rfl)] at hoffered
    cases done <;> cases hoffered

theorem Phase.Accounts.abandon (h : (Phase.resolveInputs s a).Accounts rejects q target offered)
    (hf : rejects s.target a.candidate f) :
    (Phase.nextCandidate { s with failures := s.failures ++ [f] }).Accounts rejects q target
      offered := by
  obtain ⟨htarget, htried, -, hspent⟩ := h
  refine ⟨htarget, ?_, ?_, hspent.reject hf⟩
  · rw [htried]
    exact fun _ => SortedSet.not_mem_empty
  · rw [htried]
    exact nofun

/-- Does the catalog have no candidates, and is nothing remembered of functions? -/
structure Collaborators.Bare (c : Collaborators σ) : Prop where
  functions : ∀ name n constraints w, (c.functions name n constraints w).1 = []
  digests : c.digests = none

theorem Moves.accounts (h : Moves c t p) (hc : c.Bare)
    (hm : ∀ n x, ¬ t.requirement.satisfiedBy n.target x.output →
      rejects n x (.mismatch t.requirement x.function.id x.output))
    (ht : t.phase.Accounts rejects t.requirement t.target offered) :
    p.Accounts rejects t.requirement t.target offered := by
  cases h with
  | seek hp =>
    rw [hp] at ht
    exact ht
  | askAll hp =>
    rw [hp] at ht
    obtain ⟨rfl, hfresh⟩ := ht
    refine ⟨hfresh.target, fun _ => SortedSet.not_mem_empty, nofun, [], ?_, ?_⟩
    · simp [hc.functions]
    · rw [hfresh.failures]
      exact .nil
  | @remembered s w candidates hp _ ha =>
    rw [hp] at ht
    obtain ⟨rfl, hfresh⟩ := ht
    rw [c.remembered_eq_nil hc.digests] at ha
    subst ha
    refine ⟨hfresh.target, fun f hf => ?_, fun _ => rfl, [], rfl, ?_⟩
    · exact List.not_mem_nil (SortedSet.mem_ofList.1 hf)
    · rw [hfresh.failures]
      exact .nil
  | exhaust hp hx hsome =>
    rw [hp] at ht
    obtain ⟨htarget, htried, hnone, done, hoffered, hdone⟩ := ht
    have hnil := hnone hsome
    rw [hnil, hx, List.append_nil] at hoffered
    rw [← hoffered, List.forall₂_nil_left_iff] at hdone
    exact ⟨hnil, htarget, htried, hdone⟩
  | skip hp hx hn =>
    rw [hp] at ht
    obtain ⟨htarget, htried, hnone, hspent⟩ := ht
    rw [hx] at hspent
    exact ⟨htarget, htried, hnone, hspent.reject (hm _ _ hn)⟩

theorem Ends.accounts {o : Outcome} (h : Ends c g t o)
    (ht : t.phase.Accounts rejects t.requirement t.target offered) :
    (Phase.ofOutcome o).Accounts rejects t.requirement t.target offered := by
  cases h with
  | noTarget => exact .inl (.inr (.inl rfl))
  | missing => exact .inl (.inr (.inr (.inl rfl)))
  | noFunctions => exact .inl (.inr (.inr (.inr rfl)))
  | reuse hp | source hp | relabel hp =>
    rw [hp] at ht
    exact .inl ht.1
  | @present s x xs hp hx hq =>
    rw [hp] at ht
    obtain ⟨htarget, -, -, done, hoffered, hdone⟩ := ht
    rw [hx] at hoffered
    exact .inr ⟨_, htarget, done, x, xs, _, hoffered, rfl, hq, hdone⟩
  | @committed s a hp =>
    rw [hp] at ht
    obtain ⟨htarget, -, hq, done, hoffered, hdone⟩ := ht
    exact .inr ⟨_, htarget, done, a.candidate, s.candidates, _, hoffered, rfl, hq, hdone⟩
  | exhausted hp hx =>
    rw [hp] at ht
    obtain ⟨htarget, -, -, done, hoffered, hdone⟩ := ht
    rw [hx, List.append_nil] at hoffered
    subst hoffered
    exact .inr ⟨rfl, _, htarget, hdone⟩

end Phases

section Changes

variable {σ : Type} {c : Collaborators σ} {maxDepth : Nat} {m m' : Moment} {id : TaskId} {t : Task}
  {q : Requirement} {f : Failure} {offered : TaskId → List Candidate}

theorem Task.Becomes.of_isFinished {target : Option NamedTarget} {p : Phase}
    (h : t.Becomes c maxDepth m m' id target p) (hf : t.isFinished = true) : p = t.phase := by
  have hno : t.isFinished ≠ false := by rw [hf]; exact nofun
  cases h with
  | same => rfl
  | cancelled hf' => exact absurd hf' hno
  | found hp | tookUp hp => exact absurd (by simp [Task.isFinished, hp]) hno
  | moved hm => exact absurd hm.not_isFinished.1 hno
  | wentOn hp | gaveUp _ hp | failed _ hp => exact absurd (isFinished_of_resolveInputs hp) hno
  | ended he => exact absurd he.not_isFinished hno

theorem Change.failed (hc : Change c maxDepth m m') (ht : m.resolution.tasks[id]? = some t)
    (hf : t.phase = .failed f) : ∃ t', m'.resolution.tasks[id]? = some t' ∧
      t'.requirement = t.requirement ∧ t'.phase = .failed f := by
  have hlt : id < m'.resolution.tasks.size :=
    Nat.lt_of_lt_of_le (Array.getElem?_eq_some_iff.1 ht).1 hc.size_le
  have ht' := Array.getElem?_eq_getElem hlt
  refine ⟨_, ht', ?_⟩
  rcases hc.becomes ht' with ⟨t₀, ht₀, hq, hbecomes⟩ | ⟨hnone, -⟩
  · rw [ht] at ht₀
    cases ht₀
    exact ⟨hq, (hbecomes.of_isFinished (by simp [Task.isFinished, hf])).trans hf⟩
  · rw [ht] at hnone
    cases hnone

theorem Change.ended (hc : Change c maxDepth m m') (h : m.resolution.Ended q f) :
    m'.resolution.Ended q f := by
  obtain ⟨id, t, ht, hq, hf⟩ := h
  obtain ⟨t', ht', hq', hf'⟩ := hc.failed ht hf
  exact ⟨id, t', ht', hq'.trans hq, hf'⟩

/-- Has each task tried what it was offered in turn, and are failures those of tasks? -/
structure Tried (maxDepth : Nat) (offered : TaskId → List Candidate) (m : Moment) : Prop where
  tasks : ∀ (id : TaskId) t, m.resolution.tasks[id]? = some t →
    t.phase.Accounts (m.resolution.Rejects maxDepth t.requirement) t.requirement t.target
      (offered id)
  unborn : ∀ id : TaskId, m.resolution.tasks[id]? = none → offered id = []
  claims : ∀ q f, m.resolution.claims.get? q = some (.failed f) → m.resolution.Ended q f
  told : ∀ u f ws, m.activity = .telling u (.error f) ws →
    ∃ t, m.resolution.tasks[u]? = some t ∧ t.phase = .failed f
  outcomes : ∀ (i : Nat) s f, m.resolution.submissions[i]? = some s →
    s.outcome = some (.error f) →
      f = .ofKind .cancelled s.requirement ∨ m.resolution.Ended s.requirement f

theorem Task.Becomes.accounts {target : Option NamedTarget} {p : Phase}
    (hb : t.Becomes c maxDepth m m' id target p) (hc : c.Bare) (hw : Wired m)
    (h : Tried maxDepth offered m) (ht : m.resolution.tasks[id]? = some t) :
    p.Accounts (m.resolution.Rejects maxDepth t.requirement) t.requirement target
      (offered id) := by
  have hi := h.tasks id t ht
  cases hb with
  | same => exact hi
  | cancelled => exact .inl (.inl rfl)
  | found hp =>
    rw [hp] at hi
    exact ⟨hi, rfl, fun _ => SortedSet.not_mem_empty, rfl⟩
  | moved hm => exact hm.accounts hc (fun _ _ => .mismatch) hi
  | tookUp hp hx hq =>
    rw [hp] at hi
    exact hi.takeUp hx hq
  | wentOn hp ha =>
    rw [hp] at hi
    exact hi.attempt ha
  | @gaveUp s a q cause ha hp hq hf =>
    rw [hp] at hi
    refine hi.abandon (.input hi.2.2.1 (List.mem_of_getElem? hq) ?_)
    rcases Resolution.attach_failed hf with hf | ⟨hf, -⟩ | ⟨hf, -⟩
    · exact .inl (h.claims q cause hf)
    · exact .inr (.inl hf)
    · exact .inr (.inr hf)
  | @failed s a u slot ws cause ha hp =>
    obtain ⟨tu, hu, hf⟩ := h.told u cause _ ha
    rw [hp] at hi
    have hinput := hw.input_of_telling ha hu ht hp
    exact hi.abandon (.input hi.2.2.1 (List.mem_of_getElem? hinput) (.inl ⟨u, tu, hu, rfl, hf⟩))
  | ended he => exact he.accounts hi

theorem Change.tried_tasks (hc : Change c maxDepth m m') (hbare : c.Bare) (hw : Wired m)
    (h : Tried maxDepth offered m) {t' : Task} (ht' : m'.resolution.tasks[id]? = some t') :
    t'.phase.Accounts (m'.resolution.Rejects maxDepth t'.requirement) t'.requirement t'.target
      (offered id) := by
  rcases hc.becomes ht' with ⟨t, ht, hq, hbecomes⟩ | ⟨hnone, -, hphase⟩
  · rw [hq]
    exact (hbecomes.accounts hbare hw h ht).mono fun _ _ _ hr => hr.mono fun _ _ => hc.ended
  · rw [hphase]
    exact h.unborn id hnone

theorem Change.tried_claims (hc : Change c maxDepth m m') (h : Tried maxDepth offered m)
    (hq : m'.resolution.claims.get? q = some (.failed f)) : m'.resolution.Ended q f := by
  rcases hc.settled_cases rfl hq with hq | ⟨id, t, o, hm, ht, hq, -, ho⟩
  · exact hc.ended (h.claims q f hq)
  · obtain ⟨rfl, -⟩ := Claim.ofOutcome?_eq_failed.1 ho
    rw [hm]
    exact ⟨id, _, (Resolution.puts_settle ht).self, hq, rfl⟩

theorem Change.tried_told (hc : Change c maxDepth m m') (h : Tried maxDepth offered m)
    {u : TaskId} {ws : List Waiter} (ha : m'.activity = .telling u (.error f) ws) :
    ∃ t, m'.resolution.tasks[u]? = some t ∧ t.phase = .failed f := by
  rcases hc.telling ha with ⟨w, ha⟩ | ⟨t, -, ht, -, -, hm⟩
  · obtain ⟨t, ht, hf⟩ := h.told u f _ ha
    obtain ⟨t', ht', -, hf'⟩ := hc.failed ht hf
    exact ⟨t', ht', hf'⟩
  · rw [hm]
    exact ⟨_, (Resolution.puts_settle ht).self, rfl⟩

theorem Change.tried_outcomes (hc : Change c maxDepth m m') (haddressed : Addressed m)
    (h : Tried maxDepth offered m) {i : Nat} {s : Submission}
    (hs : m'.resolution.submissions[i]? = some s) (hf : s.outcome = some (.error f)) :
    f = .ofKind .cancelled s.requirement ∨ m'.resolution.Ended s.requirement f := by
  rcases hc.outcome_before haddressed hs hf with hs | ⟨u, ws, ha, hq⟩ | hx | ⟨-, -, ho⟩
  · exact (h.outcomes i s f hs hf).imp_right hc.ended
  · obtain ⟨t, ht, hf⟩ := h.told u f ws ha
    exact .inr (hc.ended ⟨u, t, ht, (hq t ht).symm, hf⟩)
  · exact .inr (hc.ended (h.claims _ f hx))
  · cases ho
    exact .inl rfl

theorem Change.tried (hc : Change c maxDepth m m') (hbare : c.Bare) (hw : Wired m)
    (haddressed : Addressed m) (h : Tried maxDepth offered m) : Tried maxDepth offered m' where
  tasks _ _ := hc.tried_tasks hbare hw h
  unborn id hnone := by
    refine h.unborn id (Array.getElem?_eq_none ?_)
    exact Nat.le_trans hc.size_le (Array.getElem?_eq_none_iff.1 hnone)
  claims _ _ := hc.tried_claims h
  told _ _ _ := hc.tried_told h
  outcomes _ _ _ := hc.tried_outcomes haddressed h

namespace Resolution

theorem kept_tried (hbare : c.Bare) (maxDepth : Nat) (offered : TaskId → List Candidate) :
    Kept (Change c maxDepth) fun m => InFlight m ∧ Tried maxDepth offered m where
  change hc h := ⟨(kept_inFlight c maxDepth).change hc h.1,
    hc.tried hbare h.1.steady.wired h.1.addressed h.2⟩
  sound h := (kept_inFlight c maxDepth).sound h.1

end Resolution

end Changes

end ValueGraph
