import ValueGraph.Proofs.Resolution.Trace

namespace ValueGraph

variable {maxDepth : Nat}

/-- What a round leaves: the graph's objection, if there is one, and the resolution. -/
def Round.left {r : Resolution} : Round maxDepth r → Option GraphError × Resolution
  | .next s _ => (none, s)
  | .stop (.ok _) s => (none, s)
  | .stop (.error e) s => (some e, s)

namespace Resolution

variable {r : Resolution} {id : TaskId}

section Calls

variable {σ : Type} (c : Collaborators σ) (maxDepth : Nat)

/-- What a resolution is called for. A round is one turn of a pump. -/
inductive Call (σ : Type)
  | add (q : Requirement)
  | round (flag : Ask σ Bool) (w : σ)
  | pump (flag : Ask σ Bool) (w : σ)
  | resume
  | cancel

def Call.Cancels : Call σ → Prop
  | .add _ | .resume => False
  | .round flag _ | .pump flag _ => ∃ w, (flag w).1 = true
  | .cancel => True

def pumped (flag : Ask σ Bool) (r : Resolution) (w : σ) : Option GraphError × Resolution :=
  match (r.pump c maxDepth flag w).1 with
  | (.ok _, s) => (none, s)
  | (.error e, s) => (some e, s)

/-- The graph's objection, if there is one, and the resolution after the call. -/
def call (r : Resolution) : Call σ → Option GraphError × Resolution
  | .add q => r.add maxDepth q
  | .round flag w => (r.round c maxDepth flag w).1.left
  | .pump flag w => r.pumped c maxDepth flag w
  | .resume => (none, r.resume)
  | .cancel => (none, r.cancel)

def afterCalls (r : Resolution) (calls : List (Call σ)) : Resolution :=
  calls.foldl (fun r x => (r.call c maxDepth x).2) r

variable {c maxDepth} {flag : Ask σ Bool} {w : σ}

theorem Rests.run {S : Moment → Moment → Prop} {m m' : Moment} {x : Option GraphError × Resolution}
    (hr : Relation.ReflTransGen S m m') (h : Rests S m' x) : Rests S m x := by
  obtain ⟨e, s⟩ := x
  cases e with
  | none => exact hr.trans h
  | some e =>
    obtain ⟨s, h⟩ := h
    exact ⟨s, hr.trans h⟩

section Rounds

/-
What the tasks do in a round are changes of any relation that has these changes, and cancelling too
where the flag may call for it.
-/
variable {S : Moment → Moment → Prop} (hS : ∀ {m m'}, Acts c maxDepth m m' → S m m')
  (hcancel : (∃ w, (flag w).1 = true) → ∀ r : Resolution, S ⟨r, .idle⟩ ⟨r.cancel, .idle⟩)

theorem rests_idle {cancelled : Bool}
    (hcancel : cancelled = true → ∀ r : Resolution, S ⟨r, .idle⟩ ⟨r.cancel, .idle⟩) :
    Rests S ⟨r, .idle⟩ (r.idle cancelled : Round maxDepth r).left := by
  unfold idle
  split
  · exact Relation.ReflTransGen.refl
  split
  next hc => exact Relation.ReflTransGen.single (hcancel hc r)
  · exact Relation.ReflTransGen.refl

include hS

theorem rests_requeue {ready : List TaskId} (hr : r.ready = id :: ready) {x : Turn × Resolution}
    (h : Advances maxDepth { r with ready } x)
    (hl : Leads c maxDepth id ⟨{ r with ready }, .turn id⟩ x) :
    Rests S ⟨r, .idle⟩ (requeue hr x h).left := by
  have hcourse : ∀ {m m'}, Course c maxDepth m m' → Relation.ReflTransGen S m m' := fun hrun =>
    Relation.ReflTransGen.mono (fun _ _ h => hS h.acts) _ _ hrun
  apply Rests.head (hS (.take hr))
  obtain ⟨turn, s⟩ := x
  cases turn with
  | again =>
    obtain ⟨⟨t, ht, hgo⟩, hrun⟩ := hl
    exact (hcourse hrun).tail (hS (.amid nofun (.again ht hgo)))
  | blocked =>
    obtain ⟨⟨t, ht, hgo⟩, hrun⟩ := hl
    exact (hcourse hrun).tail (hS (.amid nofun (.block ht hgo)))
  | waiting =>
    obtain ⟨⟨t, p, a, ht, hp, ho⟩, hrun⟩ := hl
    exact (hcourse hrun).tail (hS (.amid nofun (.park ht hp ho)))
  | done => exact hcourse hl
  | failed e =>
    obtain ⟨s, hl⟩ := hl
    exact ⟨s, hcourse hl⟩

include hcancel

theorem rests_round : Rests S ⟨r, .idle⟩ (r.round c maxDepth flag w).1.left := by
  unfold round
  dsimp only
  split
  next => exact rests_idle fun hc => hcancel ⟨w, hc⟩
  next id ready hr =>
    split
    next hc => exact Relation.ReflTransGen.single (hcancel ⟨w, hc⟩ r)
    · exact rests_requeue hS hr _ leads_step

theorem rests_pump : Rests S ⟨r, .idle⟩ (r.pumped c maxDepth flag w) := by
  unfold pumped
  -- By the recursion of `pump`: a run of rounds, the last of which says how it ends.
  induction r, w using pump.induct c maxDepth flag with
  | case1 r w s less w' hx ih =>
    have hround : Rests S ⟨r, .idle⟩ (r.round c maxDepth flag w).1.left := rests_round hS hcancel
    rw [hx] at hround
    rw [pump, hx]
    exact ih.run hround
  | case2 r w status s w' hx =>
    have hround : Rests S ⟨r, .idle⟩ (r.round c maxDepth flag w).1.left := rests_round hS hcancel
    rw [hx] at hround
    rw [pump, hx]
    cases status with
    | ok status => exact hround
    | error e => exact hround

end Rounds

/-- A pump does what its rounds do, so that what holds after any calls holds in all its turns. -/
theorem exists_rounds_of_pump (r : Resolution) (flag : Ask σ Bool) (w : σ) :
    ∃ ws : List σ,
      (r.pumped c maxDepth flag w).2 = r.afterCalls c maxDepth (ws.map (.round flag)) := by
  unfold pumped
  induction r, w using pump.induct c maxDepth flag with
  | case1 r w s less w' hx ih =>
    obtain ⟨ws, hws⟩ := ih
    refine ⟨w :: ws, ?_⟩
    have hround : (r.call c maxDepth (.round flag w)).2 = s := by
      show (r.round c maxDepth flag w).1.left.2 = s
      rw [hx]
      rfl
    rw [pump, hx, List.map_cons]
    unfold afterCalls
    rw [List.foldl_cons, hround]
    exact hws
  | case2 r w status s w' hx =>
    refine ⟨[w], ?_⟩
    show _ = (r.round c maxDepth flag w).1.left.2
    rw [pump, hx]
    cases status <;> rfl

theorem finishSubmission_submit {q : Requirement} {o : Outcome} :
    (r.submit q).finishSubmission r.submissions.size o =
      match o with
      | .error f => (none, r.submit q (some (.error f)))
      | .ok v =>
        match r.graph.mark q v with
        | .ok graph => (none, { r.submit q (some (.ok v)) with graph })
        | .error e => (some e, r.submit q) := by
  have hget : (r.submit q).submissions[r.submissions.size]? = some { requirement := q } := by
    simp [submit]
  have hpush (o : Outcome) : ((r.submissions.push { requirement := q }).modify r.submissions.size
      fun s => { s with outcome := some o }) =
      r.submissions.push { requirement := q, outcome := some o } := by
    apply Array.ext_getElem?
    intro i
    simp only [Array.getElem?_modify, Array.getElem?_push]
    by_cases hi : i = r.submissions.size
    · simp [hi]
    · simp [hi, Ne.symm hi]
  unfold finishSubmission
  rw [hget]
  cases o with
  | error f => simp only [submit, hpush]
  | ok v =>
    have hg : (r.submit q).graph = r.graph := rfl
    simp only [hg]
    cases r.graph.mark q v <;> simp only [submit, hpush]

theorem ne_cancel {r' : Resolution} {b : Activity}
    (h : r'.submissions.size = r.submissions.size + 1) :
    (⟨r', b⟩ : Moment) ≠ ⟨r.cancel, .idle⟩ := by
  intro he
  cases he
  simp [Resolution.cancel] at h

theorem add_cases (r : Resolution) (maxDepth : Nat) (q : Requirement) :
    (∃ v, r.claims.get? q = some (.resolved v) ∧ r.add maxDepth q =
      match r.graph.mark q v with
      | .ok graph => (none, { r.submit q (some (.ok v)) with graph })
      | .error e => (some e, r.submit q)) ∨
    (∃ f, r.claims.get? q = some (.failed f) ∧
      r.add maxDepth q = (none, r.submit q (some (.error f)))) ∨
    (∃ u, r.claims.get? q = some (.pending u) ∧
      r.add maxDepth q = (none, (r.submit q).addWaiter u (.submission r.submissions.size))) ∨
    r.claims.get? q = none ∧
      r.add maxDepth q = (none, (r.submit q).spawn q (.submission r.submissions.size) 0) := by
  have hadd : ({ r with submissions := r.submissions.push { requirement := q } } : Resolution) =
      r.submit q := rfl
  unfold add
  rw [hadd]
  dsimp only
  obtain ⟨v, hc, h⟩ | ⟨f, h, hf⟩ | ⟨u, hc, -, h⟩ | ⟨hc, -, h⟩ :=
    (r.submit q).attach_cases maxDepth q (.submission r.submissions.size) 0
  · rw [h]
    dsimp only
    rw [finishSubmission_submit]
    exact .inl ⟨v, hc, rfl⟩
  · -- A submission closes no circle, and none is too deep.
    rw [h]
    dsimp only
    rw [finishSubmission_submit]
    rcases hf with hc | ⟨u, -, hn⟩ | ⟨-, hd⟩
    · exact .inr (.inl ⟨f, hc, rfl⟩)
    · cases hn
    · exact absurd hd (Nat.not_lt_zero _)
  · rw [h]
    exact .inr (.inr (.inl ⟨u, hc, rfl⟩))
  · rw [h]
    exact .inr (.inr (.inr ⟨hc, rfl⟩))

theorem rests_add {q : Requirement} :
    Rests (Calm c maxDepth) ⟨r, .idle⟩ (r.add maxDepth q) := by
  obtain ⟨v, hc, h⟩ | ⟨f, hc, h⟩ | ⟨u, hc, h⟩ | ⟨hc, h⟩ := r.add_cases maxDepth q
  · rw [h]
    cases hg : r.graph.mark q v with
    | ok g =>
      exact Relation.ReflTransGen.single
        (.submit (.submitKnown hc hg) (ne_cancel (by simp [submit])))
    | error e =>
      refine ⟨r, Relation.ReflTransGen.single (.submit (.submitRefused hc hg) fun he => ?_)⟩
      cases congrArg Moment.activity he
  · rw [h]
    exact Relation.ReflTransGen.single
      (.submit (.submitFailed hc) (ne_cancel (by simp [submit])))
  · rw [h]
    exact Relation.ReflTransGen.single
      (.submit (.submitJoin hc) (ne_cancel (by simp [submit, addWaiter, modifyTask])))
  · rw [h]
    exact Relation.ReflTransGen.single
      (.submit (.submitSpawn hc) (ne_cancel (by simp [submit, spawn])))

theorem Rests.mono {S S' : Moment → Moment → Prop} (hS : ∀ {m m'}, S m m' → S' m m') {m : Moment}
    {x : Option GraphError × Resolution} (h : Rests S m x) : Rests S' m x := by
  obtain ⟨e, s⟩ := x
  cases e with
  | none => exact Relation.ReflTransGen.mono (fun _ _ => hS) _ _ h
  | some e =>
    obtain ⟨s, h⟩ := h
    exact ⟨s, Relation.ReflTransGen.mono (fun _ _ => hS) _ _ h⟩

theorem rests_call {S : Moment → Moment → Prop} (x : Call σ)
    (hS : ∀ {m m'}, Calm c maxDepth m m' → S m m')
    (hcancel : x.Cancels → ∀ r : Resolution, S ⟨r, .idle⟩ ⟨r.cancel, .idle⟩) :
    Rests S ⟨r, .idle⟩ (r.call c maxDepth x) := by
  cases x with
  | add q => exact rests_add.mono hS
  | round flag w => exact rests_round (fun h => hS (.acts h)) hcancel
  | pump flag w => exact rests_pump (fun h => hS (.acts h)) hcancel
  | resume => exact Relation.ReflTransGen.single (hS .resume)
  | cancel => exact Relation.ReflTransGen.single (hcancel trivial r)

/-- What holds at first, and after each change, and excludes objections of the graph. -/
structure Kept (S : Moment → Moment → Prop) (I : Moment → Prop) : Prop where
  change : ∀ {m m'}, S m m' → I m → I m'
  sound : ∀ {r e}, ¬ I ⟨r, .broken e⟩

section Kept

variable {S : Moment → Moment → Prop} {I : Moment → Prop}

theorem Kept.run (hI : Kept S I) {m m' : Moment} (hr : Relation.ReflTransGen S m m') (h : I m) :
    I m' := by
  induction hr with
  | refl => exact h
  | tail _ hc ih => exact hI.change hc ih

theorem Kept.rests (hI : Kept S I) {m : Moment} (h : I m) {x : Option GraphError × Resolution}
    (hr : Rests S m x) : x.1 = none ∧ I ⟨x.2, .idle⟩ := by
  obtain ⟨e, s⟩ := x
  cases e with
  | none => exact ⟨rfl, hI.run hr h⟩
  | some e =>
    obtain ⟨s, hr⟩ := hr
    exact absurd (hI.run hr h) hI.sound

theorem Kept.call (hI : Kept (Change c maxDepth) I) (h : I ⟨r, .idle⟩) (x : Call σ) :
    (r.call c maxDepth x).1 = none ∧ I ⟨(r.call c maxDepth x).2, .idle⟩ :=
  hI.rests h (rests_call x Calm.change fun _ _ => .cancel)

theorem Kept.afterCalls (hI : Kept (Change c maxDepth) I) (h : I ⟨r, .idle⟩)
    (calls : List (Call σ)) : I ⟨r.afterCalls c maxDepth calls, .idle⟩ := by
  induction calls generalizing r with
  | nil => exact h
  | cons x calls ih => exact ih (hI.call h x).2

/-- Calls that cancel nothing keep what is kept as long as nothing is cancelled. -/
theorem Kept.calm_call (hI : Kept (Calm c maxDepth) I) (h : I ⟨r, .idle⟩) {x : Call σ}
    (hx : ¬ x.Cancels) : (r.call c maxDepth x).1 = none ∧ I ⟨(r.call c maxDepth x).2, .idle⟩ :=
  hI.rests h (rests_call x (fun h => h) fun hc => absurd hc hx)

theorem Kept.calm_afterCalls (hI : Kept (Calm c maxDepth) I) (h : I ⟨r, .idle⟩)
    {calls : List (Call σ)} (hcalls : ∀ x ∈ calls, ¬ x.Cancels) :
    I ⟨r.afterCalls c maxDepth calls, .idle⟩ := by
  induction calls generalizing r with
  | nil => exact h
  | cons x calls ih =>
    exact ih (hI.calm_call h (hcalls x List.mem_cons_self)).2 fun y hy =>
      hcalls y (List.mem_cons_of_mem _ hy)

end Kept

end Calls

end Resolution

end ValueGraph
