import Mathlib.Logic.Function.Basic
import ValueGraph.Compile.Handle

namespace ValueGraph

/-- A build, as it shows to those who may cancel it. -/
structure Builder (α : Type) where
  /-- What it comes to if its looks at the flag are answered so; `none` if it looks once more. -/
  result? : List Bool → Option (Except CompileError α)
  /-- It says that it was cancelled only if it saw the flag raised. -/
  honest : ∀ looks, true ∉ looks → result? looks ≠ some (.error .cancelled)
  /-- So many looks at a raised flag are enough for it to end. -/
  bound : Nat
  prompt : ∀ looks, (result? (looks ++ List.replicate bound true)).isSome

inductive CancelCall
  | pending
  /-- It has left the running phase, and will raise the flag. -/
  | won
  | answered (accepted : Bool)
deriving DecidableEq

inductive CompileStage (α : Type)
  | building
  /-- The phase is not running any more, and this is how the compilation ends. -/
  | settled (outcome : Except CompileError α)
  | done (outcome : Except CompileError α)
  /-- Those who wait for the compilation have its outcome. -/
  | told (outcome : Except CompileError α)

def CompileStage.outcome? {α : Type} : CompileStage α → Option (Except CompileError α)
  | building => none
  | settled o | done o | told o => some o

structure Race (α : Type) where
  state : CompileState := {}
  /-- What the build saw of the flag so far. -/
  looks : List Bool := []
  stage : CompileStage α := .building
  calls : Nat → CancelCall := fun _ => .pending

/-- Who takes the next step. -/
inductive Move
  | call (i : Nat)
  | compile
deriving DecidableEq

namespace Race

variable {α : Type}

/-- A call takes one step: it tries to leave the running phase, or it raises the flag. -/
def stepCall (r : Race α) (i : Nat) : Race α :=
  match r.calls i with
  | .pending =>
    match r.state.leave .cancelled with
    | (true, state) => { r with state, calls := Function.update r.calls i .won }
    | (false, state) => { r with state, calls := Function.update r.calls i (.answered false) }
  | .won =>
    { r with state := r.state.raise, calls := Function.update r.calls i (.answered true) }
  | .answered _ => r

/--
The compilation takes one step: the build looks at the flag and goes on from there, or it has come
to its end, which settles the outcome unless the compilation was cancelled.
-/
def stepCompile (b : Builder α) (r : Race α) : Race α :=
  match r.stage with
  | .building =>
    match b.result? r.looks with
    | none => { r with looks := r.looks ++ [r.state.raised] }
    | some result =>
      match r.state.leave .completed with
      | (true, state) => { r with state, stage := .settled result }
      | (false, state) => { r with state, stage := .settled (.error .cancelled) }
  | .settled o => { r with state := r.state.setDone, stage := .done o }
  | .done o => { r with stage := .told o }
  | .told _ => r

def step (b : Builder α) (r : Race α) : Move → Race α
  | .call i => r.stepCall i
  | .compile => r.stepCompile b

def run (b : Builder α) (r : Race α) : List Move → Race α
  | [] => r
  | m :: moves => run b (r.step b m) moves

variable {b : Builder α} {r : Race α} {i j : Nat}

section Steps

theorem stepCall_pending (hc : r.calls i = .pending) (hp : r.state.phase = .running) :
    r.stepCall i = { r with
      state := { r.state with phase := .cancelled }
      calls := Function.update r.calls i .won } := by
  simp [stepCall, hc, CompileState.leave, hp]

theorem stepCall_late (hc : r.calls i = .pending) (hp : r.state.phase ≠ .running) :
    r.stepCall i = { r with calls := Function.update r.calls i (.answered false) } := by
  simp [stepCall, hc, CompileState.leave, hp]

theorem stepCall_won (hc : r.calls i = .won) :
    r.stepCall i = { r with
      state := r.state.raise
      calls := Function.update r.calls i (.answered true) } := by
  simp [stepCall, hc]

theorem stepCall_answered {accepted : Bool} (hc : r.calls i = .answered accepted) :
    r.stepCall i = r := by
  simp [stepCall, hc]

theorem stepCompile_look (hs : r.stage = .building) (hresult : b.result? r.looks = none) :
    r.stepCompile b = { r with looks := r.looks ++ [r.state.raised] } := by
  simp [stepCompile, hs, hresult]

theorem stepCompile_end {result : Except CompileError α} (hs : r.stage = .building)
    (hresult : b.result? r.looks = some result) (hp : r.state.phase = .running) :
    r.stepCompile b = { r with
      state := { r.state with phase := .completed }
      stage := .settled result } := by
  simp [stepCompile, hs, hresult, CompileState.leave, hp]

theorem stepCompile_late {result : Except CompileError α} (hs : r.stage = .building)
    (hresult : b.result? r.looks = some result) (hp : r.state.phase ≠ .running) :
    r.stepCompile b = { r with stage := .settled (.error .cancelled) } := by
  simp [stepCompile, hs, hresult, CompileState.leave, hp]

@[simp] theorem stage_stepCall : (r.stepCall i).stage = r.stage := by
  unfold stepCall
  split
  · split <;> rfl
  · rfl
  · rfl

@[simp] theorem looks_stepCall : (r.stepCall i).looks = r.looks := by
  unfold stepCall
  split
  · split <;> rfl
  · rfl
  · rfl

theorem raised_stepCall (h : r.state.raised) : (r.stepCall i).state.raised := by
  unfold stepCall CompileState.leave
  split
  · split <;> rename_i hl <;> split at hl <;> cases hl <;> exact h
  · rfl
  · exact h

theorem calls_stepCall_of_ne (h : j ≠ i) : (r.stepCall i).calls j = r.calls j := by
  unfold stepCall
  split
  · split <;> simp [h]
  · simp [h]
  · rfl

@[simp] theorem calls_stepCompile : (r.stepCompile b).calls = r.calls := by
  unfold stepCompile
  split
  · split
    · rfl
    · split <;> rfl
  · rfl
  · rfl
  · rfl

theorem stepCompile_settled {o : Except CompileError α} (h : r.stage.outcome? = some o) :
    (r.stepCompile b).stage.outcome? = some o ∧
      (r.stepCompile b).looks = r.looks ∧
      (r.stepCompile b).state.phase = r.state.phase ∧
      (r.stepCompile b).state.raised = r.state.raised := by
  unfold stepCompile
  cases hs : r.stage with
  | building => simp [CompileStage.outcome?, hs] at h
  | settled | done =>
    rw [hs] at h
    exact ⟨h, rfl, rfl, rfl⟩
  | told => exact ⟨h, rfl, rfl, rfl⟩

theorem phase_stepCall (hp : r.state.phase ≠ .running) :
    (r.stepCall i).state.phase = r.state.phase := by
  cases hc : r.calls i with
  | pending => rw [stepCall_late hc hp]
  | won => rw [stepCall_won hc]; rfl
  | answered => rw [stepCall_answered hc]

theorem phase_stepCompile (hp : r.state.phase ≠ .running) :
    (r.stepCompile b).state.phase = r.state.phase := by
  cases hs : r.stage with
  | building =>
    cases hresult : b.result? r.looks with
    | none => rw [stepCompile_look hs hresult]
    | some result => rw [stepCompile_late hs hresult hp]
  | settled | done | told =>
    exact (stepCompile_settled (by rw [hs]; rfl)).2.2.1

theorem phase_run (hp : r.state.phase ≠ .running) (moves : List Move) :
    (r.run b moves).state.phase = r.state.phase := by
  induction moves generalizing r with
  | nil => rfl
  | cons m moves ih =>
    have hm : (r.step b m).state.phase = r.state.phase := by
      cases m with
      | call i => exact phase_stepCall hp
      | compile => exact phase_stepCompile hp
    exact (ih (by rwa [hm])).trans hm

theorem outcome?_run {o : Except CompileError α} (h : r.stage.outcome? = some o)
    (moves : List Move) : (r.run b moves).stage.outcome? = some o := by
  induction moves generalizing r with
  | nil => exact h
  | cons m moves ih =>
    refine ih ?_
    cases m with
    | call i => exact (congrArg _ stage_stepCall).trans h
    | compile => exact (stepCompile_settled h).1

theorem calls_run_of_answered {accepted : Bool} (h : r.calls i = .answered accepted)
    (moves : List Move) : (r.run b moves).calls i = .answered accepted := by
  induction moves generalizing r with
  | nil => exact h
  | cons m moves ih =>
    refine ih ?_
    cases m with
    | call j =>
      by_cases hij : i = j
      · subst hij
        exact (congrArg (·.calls i) (stepCall_answered h)).trans h
      · exact (calls_stepCall_of_ne hij).trans h
    | compile => exact (congrFun calls_stepCompile i).trans h

theorem stepCall_twice (h : r.calls i = .pending) :
    ((r.stepCall i).stepCall i).state = r.state.cancel.2 ∧
      ((r.stepCall i).stepCall i).calls i = .answered r.state.cancel.1 := by
  by_cases hp : r.state.phase = .running
  · rw [stepCall_pending h hp, stepCall_won (by simp)]
    simp [CompileState.cancel, CompileState.leave, hp]
  · rw [stepCall_late h hp, stepCall_answered (by simp : _ = CancelCall.answered false)]
    simp [CompileState.cancel, CompileState.leave, hp]

theorem stepCompile_twice {result : Except CompileError α} (h : r.stage = .building)
    (hresult : b.result? r.looks = some result) :
    ((r.stepCompile b).stepCompile b).state = (r.state.settle result).2 ∧
      ((r.stepCompile b).stepCompile b).stage = .done (r.state.settle result).1 := by
  by_cases hp : r.state.phase = .running
  · rw [stepCompile_end h hresult hp]
    simp [CompileState.settle, CompileState.leave, hp, stepCompile]
  · rw [stepCompile_late h hresult hp]
    simp [CompileState.settle, CompileState.leave, hp, stepCompile]

end Steps

section Fits

/-- What is so after any moves, by the phase that they lead to. -/
inductive Fits (b : Builder α) (r : Race α) : Prop
  | running (phase : r.state.phase = .running) (raised : r.state.raised = false)
      (looks : true ∉ r.looks) (stage : r.stage = .building) (calls : ∀ i, r.calls i = .pending)
  | cancelled (i : Nat) (phase : r.state.phase = .cancelled)
      (stage : ∀ o, r.stage.outcome? = some o → o = .error .cancelled)
      (winner : r.calls i = .won ∨ r.calls i = .answered true ∧ r.state.raised)
      (others : ∀ j, j ≠ i → r.calls j = .pending ∨ r.calls j = .answered false)
  | completed (o : Except CompileError α) (phase : r.state.phase = .completed)
      (looks : true ∉ r.looks) (result : b.result? r.looks = some o)
      (stage : r.stage.outcome? = some o)
      (calls : ∀ i, r.calls i = .pending ∨ r.calls i = .answered false)

theorem fits_initial : Fits b {} := .running rfl rfl (by simp) rfl fun _ => rfl

theorem Fits.stepCall (h : Fits b r) (i : Nat) : Fits b (r.stepCall i) := by
  cases h with
  | running hp hraised hlooks hs hcalls =>
    -- The call is the first to leave the running phase.
    rw [stepCall_pending (hcalls i) hp]
    refine .cancelled i rfl (fun o ho => ?_) (.inl (by simp)) fun j hj => .inl ?_
    · simp [hs, CompileStage.outcome?] at ho
    · simp [hj, hcalls]
  | cancelled k hp hs hwinner hothers =>
    by_cases hik : i = k
    · subst hik
      rcases hwinner with hwon | ⟨hanswered, hraised⟩
      · rw [stepCall_won hwon]
        exact .cancelled i hp hs (.inr ⟨by simp, rfl⟩) fun j hj => by simpa [hj] using hothers j hj
      · rw [stepCall_answered hanswered]
        exact .cancelled i hp hs (.inr ⟨hanswered, hraised⟩) hothers
    · rcases hothers i hik with hc | hc
      · rw [stepCall_late hc (by simp [hp])]
        refine .cancelled k hp hs (by simpa [Ne.symm hik] using hwinner) fun j hj => ?_
        by_cases hij : j = i
        · simp [hij]
        · simpa [hij] using hothers j hj
      · rw [stepCall_answered hc]
        exact .cancelled k hp hs hwinner hothers
  | completed o hp hlooks hresult hs hcalls =>
    rcases hcalls i with hc | hc
    · rw [stepCall_late hc (by simp [hp])]
      refine .completed o hp hlooks hresult hs fun j => ?_
      by_cases hij : j = i
      · simp [hij]
      · simpa [hij] using hcalls j
    · rw [stepCall_answered hc]
      exact .completed o hp hlooks hresult hs hcalls

theorem Fits.stepCompile (h : Fits b r) : Fits b (r.stepCompile b) := by
  cases h with
  | running hp hraised hlooks hs hcalls =>
    cases hresult : b.result? r.looks with
    | none =>
      rw [stepCompile_look hs hresult]
      exact .running hp hraised (by simp [hlooks, hraised]) hs hcalls
    | some o =>
      rw [stepCompile_end hs hresult hp]
      exact .completed o rfl hlooks hresult rfl fun i => .inl (hcalls i)
  | cancelled k hp hs hwinner hothers =>
    cases ho : r.stage.outcome? with
    | some o =>
      obtain ⟨ho', -, hphase, hraised⟩ := stepCompile_settled (b := b) ho
      refine .cancelled k (hphase.trans hp) (fun o' h => ?_) (by simpa [hraised] using hwinner)
        (by simpa using hothers)
      rw [ho'] at h
      exact hs o' (ho.trans h)
    | none =>
      have hbuilding : r.stage = .building := by
        cases hstage : r.stage <;> simp_all [CompileStage.outcome?]
      cases hresult : b.result? r.looks with
      | none =>
        rw [stepCompile_look hbuilding hresult]
        exact .cancelled k hp hs hwinner hothers
      | some result =>
        rw [stepCompile_late hbuilding hresult (by simp [hp])]
        exact .cancelled k hp (fun o h => (Option.some.inj h).symm) hwinner hothers
  | completed o hp hlooks hresult hs hcalls =>
    obtain ⟨hs', hlooks', hphase, -⟩ := stepCompile_settled (b := b) hs
    exact .completed o (hphase.trans hp) (by rwa [hlooks']) (by rwa [hlooks']) hs'
      (by simpa using hcalls)

theorem Fits.run (h : Fits b r) (moves : List Move) : Fits b (r.run b moves) := by
  induction moves generalizing r with
  | nil => exact h
  | cons m moves ih =>
    cases m with
    | call i => exact ih (h.stepCall i)
    | compile => exact ih h.stepCompile

end Fits

section Ends

def EndsWithin (b : Builder α) (r : Race α) (steps : Nat) : Prop :=
  match r.stage with
  | .building => r.state.raised ∧
      ∃ n, (b.result? (r.looks ++ List.replicate n true)).isSome ∧ n + 3 ≤ steps
  | .settled _ => 2 ≤ steps
  | .done _ => 1 ≤ steps
  | .told _ => True

theorem EndsWithin.stepCall {steps : Nat} (h : EndsWithin b r steps) (i : Nat) :
    EndsWithin b (r.stepCall i) steps := by
  unfold EndsWithin at h ⊢
  rw [stage_stepCall, looks_stepCall]
  cases hs : r.stage with
  | building =>
    rw [hs] at h
    exact ⟨raised_stepCall h.1, h.2⟩
  | settled | done | told => rwa [hs] at h

theorem EndsWithin.stepCompile {steps : Nat} (h : EndsWithin b r (steps + 1)) :
    EndsWithin b (r.stepCompile b) steps := by
  unfold EndsWithin at h
  cases hs : r.stage with
  | building =>
    simp only [hs] at h
    obtain ⟨hraised, n, hn, hsteps⟩ := h
    cases hresult : b.result? r.looks with
    | none =>
      -- A look at the raised flag is one of those that lead to the end.
      rw [stepCompile_look hs hresult, hraised]
      cases n with
      | zero => simp [hresult] at hn
      | succ n =>
        simp only [EndsWithin, hs]
        refine ⟨hraised, n, ?_, by omega⟩
        rwa [List.append_assoc, List.singleton_append, ← List.replicate_succ]
    | some result =>
      by_cases hp : r.state.phase = .running
      · rw [stepCompile_end hs hresult hp]
        exact Nat.le_of_add_left_le (show n + 2 ≤ steps by omega)
      · rw [stepCompile_late hs hresult hp]
        exact Nat.le_of_add_left_le (show n + 2 ≤ steps by omega)
  | settled o =>
    simp only [hs] at h
    simp only [Race.stepCompile, hs, EndsWithin]
    exact Nat.le_of_succ_le_succ h
  | done o | told o => simp [Race.stepCompile, hs, EndsWithin]

theorem EndsWithin.run {moves : List Move} {steps : Nat}
    (h : EndsWithin b r (moves.count .compile + steps)) : EndsWithin b (r.run b moves) steps := by
  induction moves generalizing r with
  | nil => simpa [Race.run] using h
  | cons m moves ih =>
    cases m with
    | call i =>
      rw [List.count_cons_of_ne (by simp)] at h
      exact ih (h.stepCall i)
    | compile =>
      rw [List.count_cons_self, Nat.add_right_comm] at h
      exact ih h.stepCompile

theorem EndsWithin.mono {steps steps' : Nat} (h : EndsWithin b r steps) (hle : steps ≤ steps') :
    EndsWithin b r steps' := by
  unfold EndsWithin at h ⊢
  split at h
  · obtain ⟨hraised, n, hn, hsteps⟩ := h
    exact ⟨hraised, n, hn, Nat.le_trans hsteps hle⟩
  · exact Nat.le_trans h hle
  · exact Nat.le_trans h hle
  · trivial

theorem EndsWithin.stage_eq {moves : List Move} {o : Except CompileError α}
    (h : EndsWithin b r (moves.count .compile))
    (ho : ∀ o', (r.run b moves).stage.outcome? = some o' → o' = o) :
    (r.run b moves).stage = .told o := by
  have hzero : EndsWithin b (r.run b moves) 0 := EndsWithin.run (by simpa using h)
  unfold EndsWithin at hzero
  split at hzero
  next => simp at hzero
  next => simp at hzero
  next => simp at hzero
  next o' hs =>
    rw [hs] at ho ⊢
    rw [ho o' rfl]

def stepsLeft : CancelCall → Nat
  | .pending => 2
  | .won => 1
  | .answered _ => 0

theorem stepsLeft_stepCall {steps : Nat} (h : stepsLeft (r.calls i) ≤ steps + 1) :
    stepsLeft ((r.stepCall i).calls i) ≤ steps := by
  cases hc : r.calls i with
  | pending =>
    rw [hc] at h
    by_cases hp : r.state.phase = .running
    · simpa [stepCall_pending hc hp, stepsLeft] using h
    · simp [stepCall_late hc hp, stepsLeft]
  | won => simp [stepCall_won hc, stepsLeft]
  | answered accepted => simp [stepCall_answered hc, hc, stepsLeft]

theorem stepsLeft_run {moves : List Move} {steps : Nat}
    (h : stepsLeft (r.calls i) ≤ moves.count (.call i) + steps) :
    stepsLeft ((r.run b moves).calls i) ≤ steps := by
  induction moves generalizing r with
  | nil => simpa [Race.run] using h
  | cons m moves ih =>
    cases m with
    | call j =>
      by_cases hij : j = i
      · subst hij
        rw [List.count_cons_self, Nat.add_right_comm] at h
        exact ih (stepsLeft_stepCall h)
      · rw [List.count_cons_of_ne (by simpa using hij)] at h
        refine ih ?_
        show stepsLeft ((r.stepCall j).calls i) ≤ _
        rwa [calls_stepCall_of_ne (Ne.symm hij)]
    | compile =>
      rw [List.count_cons_of_ne (by simp)] at h
      refine ih ?_
      show stepsLeft ((r.stepCompile b).calls i) ≤ _
      rwa [calls_stepCompile]

theorem exists_answer {moves : List Move} (h : 2 ≤ moves.count (.call i)) :
    ∃ accepted, (r.run b moves).calls i = .answered accepted := by
  have hle : stepsLeft (r.calls i) ≤ 2 := by cases r.calls i <;> simp [stepsLeft]
  have hzero : stepsLeft ((r.run b moves).calls i) ≤ 0 := stepsLeft_run (Nat.le_trans hle h)
  cases hc : (r.run b moves).calls i <;> simp_all [stepsLeft]

end Ends

section Exclusion

/--
Cancellation and completion exclude each other, at this point of a race and from there on, whatever
moves follow.
-/
structure Excludes (b : Builder α) (r : Race α) : Prop where
  /-- At most one call is told that it has cancelled the compilation. -/
  once : ∀ i j, r.calls i = .answered true → r.calls j = .answered true → i = j
  /-- If one is, then the compilation stays cancelled, and it will end as such. -/
  cancelled : ∀ i, r.calls i = .answered true → ∀ moves,
    (r.run b moves).state.isCancelled ∧
      (∀ o, (r.run b moves).stage.outcome? = some o → o = .error .cancelled) ∧
      (b.bound + 3 ≤ moves.count .compile → (r.run b moves).stage = .told (.error .cancelled))
  /-- If the compilation has completed, then it will end as built, and no call is accepted. -/
  completed : r.state.phase = .completed →
    ∃ o, b.result? r.looks = some o ∧ o ≠ .error .cancelled ∧ ∀ moves,
      (r.run b moves).state.isCancelled = false ∧
      (∀ o', (r.run b moves).stage.outcome? = some o' → o' = o) ∧
      (2 ≤ moves.count .compile → (r.run b moves).stage = .told o) ∧
      (∀ i, (r.run b moves).calls i ≠ .answered true) ∧
      ∀ i, 2 ≤ moves.count (.call i) → (r.run b moves).calls i = .answered false
  /-- There is no other way to end. -/
  ends : ∀ o, r.stage.outcome? = some o →
    r.state.phase = .completed ∨
      r.state.phase = .cancelled ∧ ∃ i, r.calls i = .won ∨ r.calls i = .answered true
  /-- A call is refused only if the compilation has completed, or was cancelled by another. -/
  refused : ∀ i, r.calls i = .answered false →
    r.state.phase = .completed ∨
      r.state.phase = .cancelled ∧ ∃ j, j ≠ i ∧ (r.calls j = .won ∨ r.calls j = .answered true)
  /-- Every call is answered. -/
  answered : ∀ i moves, 2 ≤ moves.count (.call i) →
    ∃ accepted, (r.run b moves).calls i = .answered accepted

/-- A call that was accepted has raised the flag, and no other has left the running phase. -/
theorem Fits.of_accepted (h : Fits b r) (hi : r.calls i = .answered true) :
    r.state.phase = .cancelled ∧ r.state.raised ∧
      (∀ o, r.stage.outcome? = some o → o = .error .cancelled) ∧
      ∀ j, j ≠ i → r.calls j = .pending ∨ r.calls j = .answered false := by
  cases h with
  | running _ _ _ _ hcalls => simp [hcalls] at hi
  | cancelled k hp hs hwinner hothers =>
    have hik : i = k := by
      by_contra hik
      have hlost := hothers i hik
      simp [hi] at hlost
    subst hik
    exact ⟨hp, by simpa [hi] using hwinner, hs, hothers⟩
  | completed _ _ _ _ _ hcalls =>
    have hlost := hcalls i
    simp [hi] at hlost

theorem Fits.of_completed (h : Fits b r) (hp : r.state.phase = .completed) :
    ∃ o, b.result? r.looks = some o ∧ o ≠ .error .cancelled ∧ r.stage.outcome? = some o ∧
      ∀ i, r.calls i = .pending ∨ r.calls i = .answered false := by
  cases h with
  | running hp' => simp [hp] at hp'
  | cancelled _ hp' => simp [hp] at hp'
  | completed o _ hlooks hresult hs hcalls =>
    refine ⟨o, hresult, ?_, hs, hcalls⟩
    rintro rfl
    exact b.honest _ hlooks hresult

theorem Fits.cancelled_forever (h : Fits b r) (hi : r.calls i = .answered true)
    (moves : List Move) :
    (r.run b moves).state.isCancelled ∧
      (∀ o, (r.run b moves).stage.outcome? = some o → o = .error .cancelled) ∧
      (b.bound + 3 ≤ moves.count .compile →
        (r.run b moves).stage = .told (.error .cancelled)) := by
  obtain ⟨hp, hraised, -, -⟩ := h.of_accepted hi
  obtain ⟨hp', -, hs', -⟩ := (h.run moves).of_accepted (calls_run_of_answered hi moves)
  refine ⟨by simp [CompileState.isCancelled, hp'], hs', fun hcount => ?_⟩
  refine EndsWithin.stage_eq (EndsWithin.mono ?_ hcount) hs'
  unfold EndsWithin
  split
  · exact ⟨hraised, b.bound, b.prompt _, Nat.le_refl _⟩
  all_goals simp

theorem Fits.completed_forever (h : Fits b r) (hp : r.state.phase = .completed) :
    ∃ o, b.result? r.looks = some o ∧ o ≠ .error .cancelled ∧ ∀ moves,
      (r.run b moves).state.isCancelled = false ∧
      (∀ o', (r.run b moves).stage.outcome? = some o' → o' = o) ∧
      (2 ≤ moves.count .compile → (r.run b moves).stage = .told o) ∧
      (∀ i, (r.run b moves).calls i ≠ .answered true) ∧
      ∀ i, 2 ≤ moves.count (.call i) → (r.run b moves).calls i = .answered false := by
  obtain ⟨o, hresult, hne, hs, -⟩ := h.of_completed hp
  refine ⟨o, hresult, hne, fun moves => ?_⟩
  have hp' : (r.run b moves).state.phase = .completed := by
    rw [phase_run (by simp [hp]), hp]
  have hs' := outcome?_run (b := b) hs moves
  have ho : ∀ o', (r.run b moves).stage.outcome? = some o' → o' = o := by
    intro o' ho'
    rw [hs'] at ho'
    exact (Option.some.inj ho').symm
  obtain ⟨-, -, -, -, hcalls⟩ := (h.run moves).of_completed hp'
  have hrefused : ∀ i, (r.run b moves).calls i ≠ .answered true := by
    intro i hi
    have hlost := hcalls i
    simp [hi] at hlost
  refine ⟨by simp [CompileState.isCancelled, hp'], ho, fun hcount => ?_, hrefused, fun i hi => ?_⟩
  · refine EndsWithin.stage_eq (EndsWithin.mono ?_ hcount) ho
    unfold EndsWithin
    cases hstage : r.stage with
    | building => simp [hstage, CompileStage.outcome?] at hs
    | settled | done | told => simp
  · obtain ⟨accepted, haccepted⟩ := exists_answer (r := r) (b := b) hi
    cases accepted with
    | true => exact absurd haccepted (hrefused i)
    | false => exact haccepted

theorem Fits.excludes (h : Fits b r) : Excludes b r where
  once i j hi hj := by
    by_contra hij
    have hlost := (h.of_accepted hj).2.2.2 i hij
    simp [hi] at hlost
  cancelled i hi moves := h.cancelled_forever hi moves
  completed := h.completed_forever
  ends o ho := by
    cases h with
    | running _ _ _ hs => simp [hs, CompileStage.outcome?] at ho
    | cancelled k hp _ hwinner => exact .inr ⟨hp, k, hwinner.imp_right And.left⟩
    | completed _ hp => exact .inl hp
  refused i hi := by
    cases h with
    | running _ _ _ _ hcalls => simp [hcalls] at hi
    | cancelled k hp _ hwinner =>
      refine .inr ⟨hp, k, ?_, hwinner.imp_right And.left⟩
      rintro rfl
      simp [hi] at hwinner
    | completed _ hp => exact .inl hp
  answered i moves hi := exists_answer hi

theorem excludes_run (b : Builder α) (moves : List Move) :
    Excludes b (Race.run b {} moves) :=
  (fits_initial.run moves).excludes

end Exclusion

end Race

end ValueGraph
