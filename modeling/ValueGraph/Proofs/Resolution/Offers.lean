import ValueGraph.Proofs.Resolution.Candidates
import ValueGraph.Proofs.Resolution.Recursion

namespace ValueGraph

section Tasks

variable {σ : Type} (c : Collaborators σ)

/-- What the catalog answers the task, if its turn is to ask for candidates. -/
def Task.offer (t : Task) (w : σ) : List Candidate :=
  match t.phase with
  | .enumerate s => (c.functions t.requirement.name s.target t.requirement.constraints w).1
  | _ => []

/-- The same collaborators but for the catalog, which has nothing. -/
def Collaborators.emptied : Collaborators σ := { c with functions := fun _ _ _ w => ([], w) }

variable {c}

theorem Collaborators.bare_emptied (hc : c.digests = none) : c.emptied.Bare where
  functions _ _ _ _ := rfl
  digests := hc

end Tasks

namespace Resolution

variable {σ : Type} (c : Collaborators σ) (maxDepth : Nat)

section Offers

variable (flag : Ask σ Bool)

/-- What the catalog returns for the task in a round, where nothing is remembered of functions. -/
def offer (r : Resolution) (w : σ) (id : TaskId) : List Candidate :=
  if r.ready.head? = some id ∧ (flag w).1 = false then
    match r.tasks[id]? with
    | some t => t.offer c (flag w).2
    | none => []
  else []

def pumpOffers (r : Resolution) (w : σ) (id : TaskId) : List Candidate :=
  r.offer c flag w id ++
    match r.round c maxDepth flag w with
    | (.next s _less, w) => pumpOffers s w id
    | (.stop _ _, _) => []
termination_by r.remaining maxDepth
decreasing_by exact _less

def callOffers (r : Resolution) : Call σ → TaskId → List Candidate
  | .round flag w => r.offer c flag w
  | .pump flag w => r.pumpOffers c maxDepth flag w
  | .add _ | .resume | .cancel => fun _ => []

/-- All candidates that the catalog returns for each task over the calls. -/
def offered : Resolution → List (Call σ) → TaskId → List Candidate
  | _, [], _ => []
  | r, x :: calls, id => r.callOffers c maxDepth x id ++ offered (r.call c maxDepth x).2 calls id

end Offers

variable {c maxDepth} {r : Resolution} {id : TaskId} {t : Task} {flag : Ask σ Bool} {w : σ}

section Steps

theorem enumerate_eq {q : Requirement} {s : Search} (hc : c.digests = none) :
    (r.enumerate c id q s w).1 = r.takeCandidates id q s (s.tried.getD ∅)
      (c.functions q.name s.target q.constraints w).1 := by
  unfold enumerate
  cases s.tried with
  | none =>
    dsimp only
    rw [c.remembered_eq_nil hc]
    rfl
  | some tried => rfl

theorem step_emptied (hc : c.digests = none)
    (h : ∀ t, r.tasks[id]? = some t → t.offer c w = []) :
    (r.step c.emptied maxDepth id w).1 = (r.step c maxDepth id w).1 := by
  unfold step
  cases ht : r.tasks[id]? with
  | none => rfl
  | some t =>
    have hoffer := h t ht
    unfold Task.offer at hoffer
    dsimp only
    cases hp : t.phase with
    | enumerate s =>
      rw [hp] at hoffer
      dsimp only at hoffer ⊢
      rw [enumerate_eq hc, enumerate_eq (c := c.emptied) hc, hoffer]
      rfl
    | resolveTarget | checkLiveData | nextCandidate | resolveInputs | committed | failed => rfl

theorem step_of_offer {s : Search} (hc : c.digests = none) (ht : r.tasks[id]? = some t)
    (hp : t.phase = .enumerate s) (htried : ∀ f, f ∉ s.tried.getD ∅) (hne : t.offer c w ≠ []) :
    (r.step c maxDepth id w).1 = (.again, r.setPhase id (.nextCandidate { s with
      tried := none, candidates := t.offer c w })) := by
  have hoffer : t.offer c w =
      (c.functions t.requirement.name s.target t.requirement.constraints w).1 := by
    unfold Task.offer
    rw [hp]
  have hall : (t.offer c w).filter (·.function.id ∉ s.tried.getD ∅) = t.offer c w := by
    simp [htried]
  unfold step
  rw [ht]
  dsimp only
  rw [hp]
  dsimp only
  rw [enumerate_eq hc, ← hoffer]
  unfold takeCandidates
  dsimp only
  rw [hall, if_neg]
  simp [hne]

/-- Where a turn leaves the resolution, once the task is put where the turn says. -/
def leave (id : TaskId) : Turn × Resolution → Option GraphError × Resolution
  | (.again, s) => (none, { s with ready := id :: s.ready })
  | (.blocked, s) => (none, { s with suspended := s.suspended ++ [id] })
  | (.waiting, s) | (.done, s) => (none, s)
  | (.failed e, s) => (some e, s)

theorem left_requeue {ready : List TaskId} (hr : r.ready = id :: ready) (x : Turn × Resolution)
    (h : Advances maxDepth { r with ready } x) : (requeue hr x h).left = leave id x := by
  obtain ⟨turn, s⟩ := x
  cases turn <;> rfl

theorem left_round_of_nil (hr : r.ready = []) :
    (r.round c maxDepth flag w).1.left = (r.idle (flag w).1 : Round maxDepth r).left := by
  unfold round
  dsimp only
  split
  · rfl
  next h =>
    rw [hr] at h
    cases h

theorem left_round {ready : List TaskId} (hr : r.ready = id :: ready) :
    (r.round c maxDepth flag w).1.left =
      if (flag w).1 then (none, r.cancel)
      else leave id (({ r with ready } : Resolution).step c maxDepth id (flag w).2).1 := by
  unfold round
  dsimp only
  split
  next h =>
    rw [hr] at h
    cases h
  next h =>
    obtain ⟨rfl, rfl⟩ := List.cons.inj (hr.symm.trans h)
    split
    · rfl
    · exact left_requeue hr _ _

theorem offer_of_ready {ready : List TaskId} (hr : r.ready = id :: ready)
    (hflag : (flag w).1 = false) (ht : r.tasks[id]? = some t) :
    r.offer c flag w id = t.offer c (flag w).2 := by
  unfold offer
  rw [hr, if_pos ⟨rfl, hflag⟩, ht]

theorem round_emptied (hc : c.digests = none) (h : ∀ id, r.offer c flag w id = []) :
    (r.round c.emptied maxDepth flag w).1.left = (r.round c maxDepth flag w).1.left := by
  cases hr : r.ready with
  | nil => rw [left_round_of_nil hr, left_round_of_nil hr]
  | cons id ready =>
    rw [left_round hr, left_round hr]
    split
    · rfl
    next hflag =>
      congr 1
      exact step_emptied hc fun t ht =>
        (offer_of_ready hr (Bool.eq_false_iff.2 hflag) ht).symm.trans (h id)

/-- What is offered is offered to the first task of the queue, which asks for it. -/
theorem exists_of_offer (h : r.offer c flag w id ≠ []) : ∃ ready t s,
    r.ready = id :: ready ∧ (flag w).1 = false ∧ r.tasks[id]? = some t ∧
      t.phase = .enumerate s ∧ r.offer c flag w id = t.offer c (flag w).2 := by
  have hready : r.ready.head? = some id ∧ (flag w).1 = false := by
    by_contra hno
    exact h (if_neg hno)
  obtain ⟨hhead, hflag⟩ := hready
  obtain ⟨ready, hr⟩ := List.head?_eq_some_iff.1 hhead
  cases ht : r.tasks[id]? with
  | none =>
    refine absurd ?_ h
    unfold offer
    rw [if_pos ⟨hhead, hflag⟩, ht]
  | some t =>
    have hoffer := offer_of_ready (c := c) hr hflag ht
    rw [hoffer] at h
    cases hp : t.phase with
    | enumerate s => exact ⟨ready, t, s, hr, hflag, rfl, hp, hoffer⟩
    | resolveTarget | checkLiveData | nextCandidate | resolveInputs | committed | failed =>
      refine absurd ?_ h
      unfold Task.offer
      rw [hp]

end Steps

end Resolution

section Calls

variable {σ : Type} {c : Collaborators σ} {maxDepth : Nat} {r r' : Resolution} {id : TaskId}
  {t : Task} {flag : Ask σ Bool} {w : σ} {given : TaskId → List Candidate}

theorem Resolution.Ended.puts {x : Task} {q : Requirement} {f : Failure} (h : r.Ended q f)
    (hputs : r.Puts r' id x) (ht : r.tasks[id]? = some t) (hno : ∀ f, t.phase ≠ .failed f) :
    r'.Ended q f := by
  obtain ⟨i, t', ht', hq, hf⟩ := h
  refine ⟨i, t', ?_, hq, hf⟩
  rw [hputs.other, ht']
  rintro rfl
  rw [ht] at ht'
  cases ht'
  exact hno f hf

/-- Who is offered candidates has them all to try. -/
theorem Tried.take {s : Search} {offers : TaskId → List Candidate}
    (h : Tried maxDepth given ⟨r, .idle⟩) (ht : r.tasks[id]? = some t)
    (hp : t.phase = .enumerate s)
    (hputs : r.Puts r' id
      { t with phase := .nextCandidate { s with tried := none, candidates := offers id } })
    (hclaims : r'.claims = r.claims) (hsubmissions : r'.submissions = r.submissions)
    (hothers : ∀ i, i ≠ id → offers i = []) :
    Tried maxDepth (fun i => given i ++ offers i) ⟨r', .idle⟩ := by
  have hfresh := h.tasks id t ht
  rw [hp] at hfresh
  obtain ⟨hnone, hfresh⟩ := hfresh
  have hended : ∀ q f, r.Ended q f → r'.Ended q f := fun _ _ he =>
    he.puts hputs ht (by rw [hp]; exact fun _ => nofun)
  refine ⟨fun i t' ht' => ?_, fun i hi => ?_, fun q f hq => ?_, nofun, fun i s f hs hf => ?_⟩
  · rcases hputs.self_or_other ht' with ⟨rfl, rfl⟩ | ⟨hne, ht'⟩
    · refine ⟨hfresh.target, fun _ => SortedSet.not_mem_empty, nofun, [], ?_, ?_⟩
      · simp [hnone]
      · show List.Forall₂ _ [] s.failures
        rw [hfresh.failures]
        exact .nil
    · dsimp only
      rw [hothers i (Ne.symm hne), List.append_nil]
      exact (h.tasks i t' ht').mono fun _ _ _ hr => hr.mono hended
  · have hne : id ≠ i := by
      rintro rfl
      cases hputs.self.symm.trans hi
    show given i ++ offers i = []
    rw [hothers i (Ne.symm hne), List.append_nil]
    exact h.unborn i ((hputs.other hne).symm.trans hi)
  · exact hended q f (h.claims q f (hclaims ▸ hq))
  · exact (h.outcomes i s f (hsubmissions ▸ hs) hf).imp_right (hended _ _)

namespace Resolution

theorem tried_round (flag : Ask σ Bool) (w : σ) (hc : c.digests = none) (h : InFlight ⟨r, .idle⟩)
    (htried : Tried maxDepth given ⟨r, .idle⟩) :
    Tried maxDepth (fun id => given id ++ r.offer c flag w id)
      ⟨(r.round c maxDepth flag w).1.left.2, .idle⟩ := by
  -- Where nothing is offered, the catalog might as well be empty.
  by_cases hoffer : ∀ id, r.offer c flag w id = []
  · have hround := ((kept_tried (Collaborators.bare_emptied hc) maxDepth given).call ⟨h, htried⟩
      (.round flag w)).2.2
    have he : r.call c.emptied maxDepth (.round flag w) = (r.round c maxDepth flag w).1.left :=
      round_emptied hc hoffer
    rw [he] at hround
    simpa only [hoffer, List.append_nil] using hround
  · obtain ⟨id, hid⟩ := not_forall.1 hoffer
    obtain ⟨ready, t, s, hr, hflag, ht, hp, ho⟩ := exists_of_offer hid
    have hphase := htried.tasks id t ht
    rw [hp] at hphase
    rw [left_round hr, hflag, if_neg Bool.false_ne_true,
      step_of_offer (r := { r with ready }) hc ht hp hphase.2.tried (ho ▸ hid), ← ho]
    refine htried.take ht hp (puts_modify (f := fun t => { t with phase := _ }) rfl ht) rfl rfl
      fun i hi => ?_
    -- It is the turn of one task only.
    by_contra hne
    obtain ⟨ready', -, -, hr', -⟩ := exists_of_offer hne
    exact hi (List.cons.inj (hr'.symm.trans hr)).1

theorem tried_pump (hc : c.digests = none) (h : InFlight ⟨r, .idle⟩)
    (htried : Tried maxDepth given ⟨r, .idle⟩) :
    Tried maxDepth (fun id => given id ++ r.pumpOffers c maxDepth flag w id)
      ⟨(r.pumped c maxDepth flag w).2, .idle⟩ := by
  unfold pumped
  -- By the recursion of `pump`; what is offered in its rounds adds up.
  induction r, w using pump.induct c maxDepth flag generalizing given with
  | case1 r w s less w' hx ih =>
    have hkept := ((kept_inFlight c maxDepth).call h (.round flag w)).2
    have hround := tried_round flag w hc h htried
    have hcall : r.call c maxDepth (.round flag w) = (none, s) := by
      show (r.round c maxDepth flag w).1.left = _
      rw [hx]
      rfl
    rw [hcall] at hkept
    rw [hx] at hround
    have hoffers (id : TaskId) : r.pumpOffers c maxDepth flag w id =
        r.offer c flag w id ++ s.pumpOffers c maxDepth flag w' id := by
      rw [pumpOffers, hx]
    rw [pump, hx]
    simp only [hoffers, ← List.append_assoc]
    exact ih hkept hround
  | case2 r w status s w' hx =>
    have hround := tried_round flag w hc h htried
    rw [hx] at hround
    have hoffers (id : TaskId) : r.pumpOffers c maxDepth flag w id = r.offer c flag w id := by
      rw [pumpOffers, hx, List.append_nil]
    rw [pump, hx]
    simp only [hoffers]
    cases status with
    | ok status => exact hround
    | error e => exact hround

theorem tried_call (hc : c.digests = none) (h : InFlight ⟨r, .idle⟩)
    (htried : Tried maxDepth given ⟨r, .idle⟩) (x : Call σ) :
    Tried maxDepth (fun id => given id ++ r.callOffers c maxDepth x id)
      ⟨(r.call c maxDepth x).2, .idle⟩ := by
  have hkept := (kept_tried (Collaborators.bare_emptied hc) maxDepth given).call ⟨h, htried⟩ x
  cases x with
  | round flag w => exact tried_round flag w hc h htried
  | pump flag w => exact tried_pump hc h htried
  | add | resume | cancel =>
    -- The catalog is not asked.
    simp only [callOffers, List.append_nil]
    exact hkept.2.2

theorem tried_afterCalls (hc : c.digests = none) (h : InFlight ⟨r, .idle⟩)
    (htried : Tried maxDepth given ⟨r, .idle⟩) (calls : List (Call σ)) :
    Tried maxDepth (fun id => given id ++ offered c maxDepth r calls id)
      ⟨r.afterCalls c maxDepth calls, .idle⟩ := by
  induction calls generalizing r given with
  | nil =>
    simp only [offered, List.append_nil]
    exact htried
  | cons x calls ih =>
    simp only [offered, ← List.append_assoc]
    exact ih ((kept_inFlight c maxDepth).call h x).2 (tried_call hc h htried x)

/--
Are the candidates that each task was offered tried in turn, each of them once, and are failures
reported for what they are?
-/
structure TriesEach (maxDepth : Nat) (r : Resolution) (offered : TaskId → List Candidate) :
    Prop where
  /-- The candidates that are left to a task come after those that it has given up. -/
  choosing : ∀ (id : TaskId) t s, r.tasks[id]? = some t → t.phase = .nextCandidate s →
    t.target = some s.target ∧
      s.Spent (r.Rejects maxDepth t.requirement) (offered id) s.candidates
  /-- The one being tried comes between. -/
  trying : ∀ (id : TaskId) t s a, r.tasks[id]? = some t → t.phase = .resolveInputs s a →
    t.target = some s.target ∧
      s.Spent (r.Rejects maxDepth t.requirement) (offered id) (a.candidate :: s.candidates)
  /-- A task that was offered any resolves with the first that it does not give up. -/
  committed : ∀ (id : TaskId) t v, r.tasks[id]? = some t → t.phase = .committed v →
    offered id ≠ [] → ∃ n, t.target = some n ∧
      Prevails (r.Rejects maxDepth t.requirement) t.requirement n (offered id) v
  /-- A task that has run out of candidates tells of each of them, in turn. -/
  exhausted : ∀ (id : TaskId) t fs, r.tasks[id]? = some t →
    t.phase = .failed (.exhausted t.requirement fs) → ∃ n, t.target = some n ∧
      List.Forall₂ (r.Rejects maxDepth t.requirement n) (offered id) fs
  /-- Other failures have nothing to do with candidates. -/
  failed : ∀ (id : TaskId) t f, r.tasks[id]? = some t → t.phase = .failed f →
    f.Plain t.requirement ∨ f = .exhausted t.requirement f.causes
  outcomes : ∀ (i : Nat) s f, r.submissions[i]? = some s → s.outcome = some (.error f) →
    f.Foremost

theorem triesEach_of_tried (h : Tried maxDepth given ⟨r, .idle⟩) : TriesEach maxDepth r given where
  choosing id t s ht hp := by
    have hphase := h.tasks id t ht
    rw [hp] at hphase
    exact ⟨hphase.1, hphase.2.2.2⟩
  trying id t s a ht hp := by
    have hphase := h.tasks id t ht
    rw [hp] at hphase
    exact ⟨hphase.1, hphase.2.2.2⟩
  committed id t v ht hp hne := by
    have hphase := h.tasks id t ht
    rw [hp] at hphase
    exact hphase.resolve_left hne
  exhausted id t fs ht hp := by
    have hphase := h.tasks id t ht
    rw [hp] at hphase
    exact (hphase.resolve_left fun hf => hf.ne_exhausted rfl).2
  failed id t f ht hp := by
    have hphase := h.tasks id t ht
    rw [hp] at hphase
    exact hphase.imp_right And.left
  outcomes i s f hs hf := by
    rcases h.outcomes i s f hs hf with rfl | ⟨id, t, ht, -, hp⟩
    · exact Failure.foremost_of_causes_eq_nil rfl
    · have hphase := h.tasks id t ht
      rw [hp] at hphase
      rcases hphase with hf | ⟨hf, -⟩
      · exact Failure.foremost_of_causes_eq_nil hf.causes
      · rw [hf]
        exact Failure.foremost_exhausted

/--
After any calls, where nothing is remembered of functions: each task has tried the candidates that
the catalog has returned for it in turn, and fails with one cause for each of them, if it runs out;
and each failure of a submission is of the kind that tells most in its chain.
-/
theorem triesEach_afterCalls (hc : c.digests = none) (maxDepth : Nat) (configuration : String)
    (os : List Graph.Operation) (calls : List (Call σ)) :
    let r : Resolution := { graph := .after configuration os }
    TriesEach maxDepth (r.afterCalls c maxDepth calls) (r.offered c maxDepth calls) := by
  intro r
  have hinit : Tried maxDepth (fun _ => []) ⟨r, .idle⟩ := by
    refine ⟨fun id t ht => ?_, fun _ _ => rfl, nofun, nofun, fun i s f hs => ?_⟩
    · cases ht
    · cases hs
  have hflight : InFlight ⟨r, .idle⟩ := inFlight_initial (Graph.sound_after configuration os)
  have htried := tried_afterCalls hc hflight hinit calls
  simp only [List.nil_append] at htried
  exact triesEach_of_tried htried

section Example

/-- Two functions for the price, one with a quote that is not there and one for another value. -/
def unpriced : Services where
  source := .fixed (SortedMap.insert ∅ "Price" [
    { function := .computation "Pricer" ∅, output := ⟨"Price", bond, ∅⟩, inputs := [quote] },
    { function := .computation "Marker" ∅, output := ⟨"Mark", bond, ∅⟩ }])

def asking : List (Call World) :=
  .add price :: List.replicate 9 (.round (fun w => (false, w)) {})

def stuck : Resolution :=
  afterCalls unpriced.collaborators 1 { graph := .after "Default" [] } asking

theorem exhausted_stuck : ∃ t fs, stuck.tasks[0]? = some t ∧ t.requirement = price ∧
    t.phase = .failed (.exhausted price fs) ∧
    fs.map (·.function) = [some "Pricer", some "Marker"] := ⟨_, _, rfl, rfl, rfl, rfl⟩

theorem offered_stuck : (offered unpriced.collaborators 1 { graph := .after "Default" [] } asking
    0).map (·.function.id) = ["Pricer", "Marker"] := rfl

theorem triesEach_afterCalls_stuck :
    let c := unpriced.collaborators
    let offers := offered c 1 { graph := .after "Default" [] } asking 0
    c.digests = none ∧ offers.map (·.function.id) = ["Pricer", "Marker"] ∧
      ∃ n fs, List.Forall₂ (stuck.Rejects 1 price n) offers fs ∧
        fs.map (·.function) = [some "Pricer", some "Marker"] := by
  intro c offers
  have hc : c.digests = none := rfl
  have h : TriesEach 1 stuck (offered c 1 { graph := .after "Default" [] } asking) :=
    triesEach_afterCalls hc 1 "Default" [] asking
  obtain ⟨t, fs, ht, hq, hp, hfs⟩ := exhausted_stuck
  rw [← hq] at hp
  obtain ⟨n, -, hall⟩ := h.exhausted 0 t fs ht hp
  rw [hq] at hall
  exact ⟨hc, offered_stuck, n, fs, hall, hfs⟩

end Example

end Resolution

end Calls

end ValueGraph
