import ValueGraph.Proofs.Resolution.Failure
import ValueGraph.Proofs.Resolution.Fidelity
import ValueGraph.Proofs.Resolution.Outcomes

namespace ValueGraph

section Failures

def Phase.causes : Phase → List Failure
  | .checkLiveData s | .enumerate s | .nextCandidate s | .resolveInputs s _ => s.failures
  | .resolveTarget | .committed _ | .failed _ => []

variable {σ : Type} {c : Collaborators σ} {maxDepth : Nat} {g : Graph} {t : Task} {p : Phase}
  {f cause : Failure} {m m' : Moment}

def Phase.Uncancelled (p : Phase) : Prop := ∀ f ∈ p.causes, ¬ f.Involves .cancelled

theorem Phase.Uncancelled.append {s : Search} (h : (Phase.nextCandidate s).Uncancelled)
    (hf : ¬ f.Involves .cancelled) (candidates : List Candidate) :
    (Phase.nextCandidate { s with candidates, failures := s.failures ++ [f] }).Uncancelled := by
  intro f' hf'
  rcases List.mem_append.1 hf' with hf' | hf'
  · exact h f' hf'
  · rw [List.mem_singleton.1 hf']
    exact hf

theorem Moves.uncancelled (h : Moves c t p) (ht : t.phase.Uncancelled) : p.Uncancelled := by
  cases h with
  | seek hp | askAll hp | remembered hp | exhaust hp =>
    rw [hp] at ht
    exact ht
  | skip hp =>
    rw [hp] at ht
    exact ht.append (by simp) _

theorem Ends.uncancelled (h : Ends c g t (.error f)) (ht : t.phase.Uncancelled) :
    ¬ f.Involves .cancelled := by
  cases h with
  | noTarget | missing | noFunctions => simp
  | exhausted hp =>
    rw [hp] at ht
    rw [Failure.involves_exhausted]
    rintro (⟨-, hk⟩ | ⟨f, hf, hk⟩)
    · cases hk
    · exact ht f hf hk

/-- Has nothing that was cancelled found its way into what is remembered, or is passed on? -/
structure Uncancelled (m : Moment) : Prop where
  tasks : m.resolution.All (·.phase.Uncancelled)
  claims : ∀ q f, m.resolution.claims.get? q = some (.failed f) → ¬ f.Involves .cancelled
  told : ∀ u f ws, m.activity = .telling u (.error f) ws → ¬ f.Involves .cancelled

theorem uncancelled_initial : Uncancelled ⟨{ graph := g }, .idle⟩ := by
  refine ⟨fun id t ht => ?_, nofun, nofun⟩
  cases ht

theorem Task.Becomes.uncancelled {id : TaskId} {target : Option NamedTarget}
    (hb : t.Becomes c maxDepth m m' id target p) (h : Uncancelled m)
    (ht : m.resolution.tasks[id]? = some t) : p.Uncancelled := by
  have hphase : t.phase.Uncancelled := h.tasks id t ht
  cases hb with
  | same => exact hphase
  | cancelled | found => exact nofun
  | moved hm => exact hm.uncancelled hphase
  | tookUp hp | wentOn hp =>
    rw [hp] at hphase
    exact hphase
  | @gaveUp s a q cause ha hp hq hf =>
    have hcause : ¬ cause.Involves .cancelled := by
      rcases Resolution.attach_failed hf with hf | ⟨rfl, -⟩ | ⟨rfl, -⟩
      · exact h.claims q cause hf
      · simp
      · simp
    rw [hp] at hphase
    exact Phase.Uncancelled.append (s := s) hphase (by simp [hcause]) _
  | @failed s a u slot ws cause ha hp =>
    have hcause := h.told u cause _ ha
    rw [hp] at hphase
    exact Phase.Uncancelled.append (s := s) hphase (by simp [hcause]) _
  | @ended o he => cases o <;> exact nofun

theorem Change.uncancelled_tasks (hc : Change c maxDepth m m') (h : Uncancelled m) :
    m'.resolution.All (·.phase.Uncancelled) := by
  intro id t' ht'
  rcases hc.becomes ht' with ⟨t, ht, -, hbecomes⟩ | ⟨-, -, hphase⟩
  · exact hbecomes.uncancelled h ht
  · show t'.phase.Uncancelled
    rw [hphase]
    exact nofun

theorem Change.uncancelled (hc : Change c maxDepth m m') (h : Uncancelled m) : Uncancelled m' := by
  refine ⟨hc.uncancelled_tasks h, fun q f hq => ?_, fun u f ws ha => ?_⟩
  · rcases hc.settled_before rfl hq with hq | ⟨id, t, o, ht, -, he, ho⟩
    · exact h.claims q f hq
    · obtain ⟨rfl, -⟩ := Claim.ofOutcome?_eq_failed.1 ho
      exact he.uncancelled (h.tasks id t ht)
  · rcases hc.telling ha with ⟨w, ha⟩ | ⟨t, -, ht, -, he, -⟩
    · exact h.told u f _ ha
    · exact he.uncancelled (h.tasks u t ht)

theorem Change.unrecursive (hc : Change c maxDepth m m')
    (h : ∀ q f, m.resolution.claims.get? q = some (.failed f) → f.involvesRecursion = false)
    {q : Requirement} (hq : m'.resolution.claims.get? q = some (.failed f)) :
    f.involvesRecursion = false := by
  rcases hc.settled_before rfl hq with hq | ⟨id, t, o, -, -, -, ho⟩
  · exact h q f hq
  · exact (Claim.ofOutcome?_eq_failed.1 ho).2

end Failures

namespace Resolution

variable {r r' : Resolution} {q : Requirement} {i j : Nat} {s : Submission}

section Flights

/--
Is each requirement worked on by one task at most, and is its claim right? A submission without an
outcome has one waiter, at the task for its requirement; one with an outcome has none.
-/
structure SingleFlight (r : Resolution) : Prop where
  pending : ∀ q id, r.claims.get? q = some (.pending id) ↔ r.WorksOn id q
  unique : ∀ q i u, r.WorksOn i q → r.WorksOn u q → i = u
  resolved : ∀ q v, r.claims.get? q = some (.resolved v) → (r.graph.producer? v).isSome
  failed : ∀ q f, r.claims.get? q = some (.failed f) →
    ¬ f.Involves .recursionDetected ∧ ¬ f.Involves .cancelled
  waiters : ∀ (i : Nat) s, r.submissions[i]? = some s →
    r.waiters.count (.submission i) = if s.outcome.isNone then 1 else 0
  waits : ∀ (i : Nat) s, r.submissions[i]? = some s → s.outcome = none → ∃ (u : TaskId) (t : Task),
    r.tasks[u]? = some t ∧ t.requirement = s.requirement ∧ t.isFinished = false ∧
      .submission i ∈ t.waiters

/-- Is what is settled in `r` the same in `r'`? -/
structure Settles (r r' : Resolution) : Prop where
  claims : ∀ q x, r.claims.get? q = some x → x.isPending = false → r'.claims.get? q = some x
  outcomes : ∀ (i : Nat) s, r.submissions[i]? = some s → s.outcome.isSome →
    r'.submissions[i]? = some s

/-- All that holds of claims and of submissions, at any moment. -/
structure InFlight (m : Moment) : Prop where
  steady : Steady m
  addressed : Addressed m
  recorded : Recorded m
  uncancelled : Uncancelled m
  unrecursive : ∀ q f, m.resolution.claims.get? q = some (.failed f) → f.involvesRecursion = false

variable {σ : Type} (c : Collaborators σ) (maxDepth : Nat)

theorem kept_inFlight : Kept (Change c maxDepth) InFlight where
  change hc h := by
    have hclaimed := h.steady.claimed
    exact ⟨(kept_steady c maxDepth).change hc h.steady, hc.addressed hclaimed h.addressed,
      hc.recorded hclaimed h.addressed h.recorded, hc.uncancelled h.uncancelled,
      fun q f hq => hc.unrecursive h.unrecursive hq⟩
  sound h := (kept_steady c maxDepth).sound h.steady

theorem inFlight_initial {g : Graph} (h : g.Sound) : InFlight ⟨{ graph := g }, .idle⟩ :=
  ⟨steady_initial h, addressed_initial, recorded_initial, uncancelled_initial, nofun⟩

theorem kept_settled (r : Resolution) : Kept (Change c maxDepth) fun m => InFlight m ∧
    (∀ q x, r.claims.get? q = some x → x.isPending = false →
      m.resolution.claims.get? q = some x) ∧
    ∀ i o, (⟨r, .idle⟩ : Moment).Comes i o → m.Comes i o where
  change hc h := by
    have hm := (kept_inFlight c maxDepth).change hc h.1
    exact ⟨hm, fun q x hq hx => hc.settled h.1.steady.claimed hx (h.2.1 q x hq hx),
      fun i o ho => hc.comes h.1.steady.awaited hm.steady.grounded.whole (h.2.2 i o ho)⟩
  sound h := (kept_inFlight c maxDepth).sound h.1

section Waits

variable (hw : Awaited ⟨r, .idle⟩) (hs : r.submissions[i]? = some s)
include hw hs

theorem count_waiters_submission :
    r.waiters.count (.submission i) = if s.outcome.isNone then 1 else 0 := by
  rw [count_waiters fun i t ht => (hw.tasks i t ht).waiters]
  exact hw.submissions i s hs

theorem exists_waits (haddressed : Addressed ⟨r, .idle⟩) (ho : s.outcome = none) :
    ∃ (u : TaskId) (t : Task), r.tasks[u]? = some t ∧ t.requirement = s.requirement ∧
      t.isFinished = false ∧ .submission i ∈ t.waiters := by
  have hmem : .submission i ∈ r.waiters := by
    rw [← List.count_pos_iff, count_waiters_submission hw hs, ho]
    exact Nat.one_pos
  obtain ⟨u, t, hu, hf, hi⟩ := exists_of_mem_waiters hmem
  have hq : r.requirements[i]? = some t.requirement := haddressed i _ ⟨u, t, hu, rfl, .inl hi⟩
  have hq : s.requirement = t.requirement := by
    simpa [requirements, hs] using hq
  exact ⟨u, t, hu, hq.symm, hf, hi⟩

end Waits

variable {c maxDepth}

/-- Who asks for what is being worked on waits for the same task. -/
theorem twins_add_of_waits (h : InFlight ⟨r, .idle⟩) (hs : r.submissions[i]? = some s)
    (ho : s.outcome = none) :
    (⟨(r.add maxDepth s.requirement).2, .idle⟩ : Moment).Twins i r.submissions.size := by
  obtain ⟨u, t, hu, hq, hf, hi⟩ := exists_waits h.steady.awaited hs h.addressed ho
  have hclaim : r.claims.get? s.requirement = some (.pending u) :=
    (h.steady.claimed _ u).2 ⟨t, hu, hq, hf⟩
  obtain ⟨v, hc, -⟩ | ⟨f, hc, -⟩ | ⟨u', hc, ha⟩ | ⟨hc, -⟩ := r.add_cases maxDepth s.requirement
  · cases hclaim.symm.trans hc
  · cases hclaim.symm.trans hc
  · cases hclaim.symm.trans hc
    have hputs := puts_addWaiter (r := r.submit s.requirement)
      (w := .submission r.submissions.size) hu
    rw [ha]
    exact .inl ⟨u, _, hputs.self, List.mem_append_left _ hi, List.mem_append_right _ (by simp)⟩
  · cases hclaim.symm.trans hc

/-- Who asks for what is remembered is told the same at once. -/
theorem twins_add_of_remembered {o : Outcome} {x : Claim} (h : InFlight ⟨r, .idle⟩)
    (hs : r.submissions[i]? = some s) (ho : s.outcome = some o)
    (hx : Claim.ofOutcome? o = some x) (hclaim : r.claims.get? s.requirement = some x) :
    (⟨(r.add maxDepth s.requirement).2, .idle⟩ : Moment).Twins i r.submissions.size := by
  have hcomes : ∀ r' : Resolution,
      r'.submissions = r.submissions.push { requirement := s.requirement, outcome := some o } →
      (⟨r', .idle⟩ : Moment).Twins i r.submissions.size := by
    intro r' hpush
    have hi : (⟨r, .idle⟩ : Moment).Comes i o := .inr ⟨s, hs, ho⟩
    refine .inr ⟨o, hi.submit hpush,
      .inr ⟨{ requirement := s.requirement, outcome := some o }, ?_, rfl⟩⟩
    show r'.submissions[r.submissions.size]? = _
    rw [hpush, Array.getElem?_push_size]
  obtain ⟨v, hc, ha⟩ | ⟨f, hc, ha⟩ | ⟨u, hc, -⟩ | ⟨hc, -⟩ := r.add_cases maxDepth s.requirement
  · cases hclaim.symm.trans hc
    cases Claim.ofOutcome?_eq_resolved.1 hx
    obtain ⟨graph, hg⟩ := Graph.exists_mark (r := s.requirement)
      (h.steady.grounded.resolved _ v hclaim)
    rw [ha, hg]
    exact hcomes _ rfl
  · cases hclaim.symm.trans hc
    cases (Claim.ofOutcome?_eq_failed.1 hx).1
    rw [ha]
    exact hcomes _ rfl
  · cases hclaim.symm.trans hc
    cases Claim.isPending_of_ofOutcome? hx
  · cases hclaim.symm.trans hc

/-- Who asks again fares as who asked before, unless that has come to something that is forgotten. -/
theorem twins_add (h : InFlight ⟨r, .idle⟩) (hs : r.submissions[i]? = some s)
    (hlasting : ∀ f, s.outcome = some (.error f) → ¬ f.Passing) :
    (⟨(r.add maxDepth s.requirement).2, .idle⟩ : Moment).Twins i r.submissions.size := by
  cases ho : s.outcome with
  | none => exact twins_add_of_waits h hs ho
  | some o =>
    obtain ⟨x, hx⟩ : ∃ x, Claim.ofOutcome? o = some x := by
      cases o with
      | ok v => exact ⟨_, rfl⟩
      | error f =>
        have hno : ¬ f.Involves .recursionDetected := fun hf => hlasting f ho (.inr hf)
        rw [← Failure.involvesRecursion_iff, Bool.not_eq_true] at hno
        exact ⟨_, Claim.ofOutcome?_eq_failed.2 ⟨rfl, hno⟩⟩
    rcases h.recorded.outcomes i s o hs ho with he | hr
    · exact absurd (.inl rfl) (hlasting _ (he ▸ ho))
    · exact twins_add_of_remembered h hs ho hx (hr x hx)

end Flights

section Calls

variable {σ : Type} {c : Collaborators σ} {maxDepth : Nat}

theorem InFlight.singleFlight (h : InFlight ⟨r, .idle⟩) : r.SingleFlight where
  pending := h.steady.claimed
  unique q i u := h.steady.claimed.unique
  resolved := h.steady.grounded.resolved
  failed q f hq := by
    refine ⟨?_, h.uncancelled.claims q f hq⟩
    rw [← Failure.involvesRecursion_iff, Bool.not_eq_true]
    exact h.unrecursive q f hq
  waiters i s hs := count_waiters_submission h.steady.awaited hs
  waits i s hs := exists_waits h.steady.awaited hs h.addressed

theorem InFlight.settles (h : InFlight ⟨r, .idle⟩) (calls : List (Call σ)) :
    r.Settles (r.afterCalls c maxDepth calls) := by
  obtain ⟨-, hclaims, hcomes⟩ := (kept_settled c maxDepth r).afterCalls
    ⟨h, fun q x hq _ => hq, fun i o ho => ho⟩ calls
  refine ⟨hclaims, fun i s hs ho => ?_⟩
  obtain ⟨o, ho⟩ := Option.isSome_iff_exists.1 ho
  obtain ⟨s', hs', hq⟩ := exists_after c maxDepth h.steady calls hs
  have ho' : s'.outcome = some o := outcome_of_comes (hcomes i o (.inr ⟨s, hs, ho⟩)) hs'
  have he : s' = s := by
    cases s
    cases s'
    exact congrArg₂ Submission.mk hq (ho'.trans ho.symm)
  exact he ▸ hs'

theorem isSome_of_cancel (r : Resolution) : ∀ x ∈ r.cancel.outcomes, x.2.isSome := by
  intro x hx
  obtain ⟨s, hs, rfl⟩ := List.mem_map.1 hx
  simp only [Resolution.cancel, Array.toList_map, List.mem_map] at hs
  obtain ⟨s₀, -, rfl⟩ := hs
  split
  next h => exact h
  next => rfl

theorem isSome_of_pump {flag : Ask σ Bool} {w : σ} {status : PumpStatus} {s : Resolution}
    (hr : Steady ⟨r, .idle⟩) (h : (r.pump c maxDepth flag w).1 = (.ok status, s))
    (hstatus : status ≠ .blocked) : ∀ x ∈ s.outcomes, x.2.isSome := by
  cases status with
  | finished => exact (done_of_pump hr h).outcomes
  | blocked => exact absurd rfl hstatus
  | cancelled =>
    obtain ⟨r', w', h⟩ := exists_round_of_pump h
    rw [round_cancelled h]
    exact isSome_of_cancel r'

theorem InFlight.untold {m : Moment} (h : InFlight m) {u : TaskId} {o : Outcome} {ws : List Waiter}
    (ha : m.activity = .telling u o (.submission i :: ws)) :
    ∃ s, m.resolution.submissions[i]? = some s ∧ s.outcome = none := by
  obtain ⟨r, a⟩ := m
  cases ha
  cases hs : r.submissions[i]? with
  | none =>
    have hzero := h.steady.awaited.noSubmission i hs
    rw [copies_telling, if_pos rfl] at hzero
    omega
  | some s => exact ⟨s, rfl, h.steady.awaited.outcome_eq_none hs⟩

theorem InFlight.same_outcome (h : InFlight ⟨r, .idle⟩) (hs : r.submissions[i]? = some s)
    (hlasting : ∀ f, s.outcome = some (.error f) → ¬ f.Passing) (more : List (Call σ)) :
    let r' := r.afterCalls c maxDepth (.add s.requirement :: more)
    ∃ s₁ s₂, r'.submissions[i]? = some s₁ ∧ r'.submissions[r.submissions.size]? = some s₂ ∧
      s₁.requirement = s.requirement ∧ s₂.requirement = s.requirement ∧
        s₁.outcome = s₂.outcome := by
  intro r'
  have hadd : InFlight ⟨(r.add maxDepth s.requirement).2, .idle⟩ :=
    ((kept_inFlight c maxDepth).call h (.add s.requirement)).2
  obtain ⟨⟨hsteady, -⟩, htwins⟩ := (kept_twins c maxDepth fun x y =>
    x = i ∧ y = r.submissions.size).afterCalls ⟨⟨hadd.steady, hadd.addressed⟩, by
      rintro x y ⟨rfl, rfl⟩
      exact twins_add h hs hlasting⟩ more
  have hstay : ∀ {j : Nat} {s₀ : Submission},
      (r.add maxDepth s.requirement).2.submissions[j]? = some s₀ →
      ∃ s', r'.submissions[j]? = some s' ∧ s'.requirement = s₀.requirement :=
    exists_after c maxDepth hadd.steady more
  obtain ⟨s₀, hs₀, hq₀⟩ := exists_after c maxDepth h.steady [.add s.requirement] hs
  obtain ⟨s₁, hs₁, hq₁⟩ := hstay hs₀
  obtain ⟨s', hs', hq'⟩ := exists_added maxDepth r s.requirement
  obtain ⟨s₂, hs₂, hq₂⟩ := hstay hs'
  exact ⟨s₁, s₂, hs₁, hs₂, hq₁.trans hq₀, hq₂.trans hq',
    outcome_eq_of_twins hsteady.awaited (htwins i _ ⟨rfl, rfl⟩) hs₁ hs₂⟩

/--
Between any calls, whatever the collaborators have answered: one task at a time works on a
requirement, and what is settled is final. Each submission is told once; it has been told when a
pump is not blocked, or everything is cancelled. Who asks again fares as who asked before, unless
that had been cancelled by then, or had failed for recursion.
-/
theorem singleFlight_afterCalls (configuration : String) (os : List Graph.Operation)
    (calls : List (Call σ)) :
    let r := afterCalls c maxDepth { graph := Graph.after configuration os } calls
    r.SingleFlight ∧ (∀ more, r.Settles (r.afterCalls c maxDepth more)) ∧
    (∀ m u o i ws, Relation.ReflTransGen (Change c maxDepth) ⟨r, .idle⟩ m →
      m.activity = .telling u o (.submission i :: ws) →
      ∃ s, m.resolution.submissions[i]? = some s ∧ s.outcome = none) ∧
    (∀ flag w status s, (r.pump c maxDepth flag w).1 = (.ok status, s) → status ≠ .blocked →
      ∀ x ∈ s.outcomes, x.2.isSome) ∧
    (∀ x ∈ r.cancel.outcomes, x.2.isSome) ∧
    ∀ (i : Nat) s, r.submissions[i]? = some s →
      (∀ f, s.outcome = some (.error f) → ¬ f.Passing) →
      ∀ more, let r' := r.afterCalls c maxDepth (.add s.requirement :: more)
        ∃ s₁ s₂, r'.submissions[i]? = some s₁ ∧ r'.submissions[r.submissions.size]? = some s₂ ∧
          s₁.requirement = s.requirement ∧ s₂.requirement = s.requirement ∧
            s₁.outcome = s₂.outcome := by
  intro r
  have h : InFlight ⟨r, .idle⟩ := (kept_inFlight c maxDepth).afterCalls
    (inFlight_initial (Graph.sound_after configuration os)) calls
  refine ⟨h.singleFlight, h.settles, fun m u o i ws hm ha => ?_,
    fun flag w status s hp => isSome_of_pump h.steady hp, isSome_of_cancel r,
    fun i s hs hlasting more => h.same_outcome hs hlasting more⟩
  exact ((kept_inFlight c maxDepth).run hm h).untold ha

end Calls

end Resolution

end ValueGraph
