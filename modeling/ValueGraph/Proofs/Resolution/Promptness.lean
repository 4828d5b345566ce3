import ValueGraph.Proofs.Resolution.Quiescence

namespace ValueGraph

variable {σ : Type} {c : Collaborators σ} {maxDepth : Nat} {P : σ → Prop} {w : σ}

namespace Collaborators

/-- Does such a world stay like that, whatever is asked? -/
structure Keeps (c : Collaborators σ) (P : σ → Prop) : Prop where
  target : ∀ ref w, P w → P (c.target ref w).2
  market : ∀ t q w, P w → P (c.market t q w).2
  functions : ∀ name t constraints w, P w → P (c.functions name t constraints w).2
  functionById : ∀ id name t constraints w, P w → P (c.functionById id name t constraints w).2
  digests : ∀ memory, c.digests = some memory → ∀ w, P w →
    (∀ t, P (memory.digest t w).2) ∧ (∀ digest name, P (memory.prior digest name w).2) ∧
      ∀ digest name constraints id, P (memory.record digest name constraints id w)

/-- Is every question answered at once in such a world, and does the world stay like that? -/
structure Prompt (c : Collaborators σ) (P : σ → Prop) : Prop where
  target : ∀ ref w, P w → (c.target ref w).1 ≠ .wouldBlock ∧ P (c.target ref w).2
  market : ∀ t q w, P w → (c.market t q w).1 ≠ .wouldBlock ∧ P (c.market t q w).2
  functions : ∀ name t constraints w, P w → P (c.functions name t constraints w).2
  functionById : ∀ id name t constraints w, P w → P (c.functionById id name t constraints w).2
  digests : ∀ memory, c.digests = some memory → ∀ w, P w →
    (∀ t, P (memory.digest t w).2) ∧ (∀ digest name, P (memory.prior digest name w).2) ∧
      ∀ digest name constraints id, P (memory.record digest name constraints id w)

theorem Prompt.keeps (hc : c.Prompt P) : c.Keeps P where
  target ref w hw := (hc.target ref w hw).2
  market t q w hw := (hc.market t q w hw).2
  functions := hc.functions
  functionById := hc.functionById
  digests := hc.digests

theorem Keeps.digest (hc : c.Keeps P) (hw : P w) (t : NamedTarget) : P (c.digest t w).2 := by
  unfold Collaborators.digest
  split
  next memory hm => exact (hc.digests memory hm w hw).1 t
  · exact hw

theorem Keeps.functionsById (hc : c.Keeps P) (hw : P w) (q : Requirement) (t : NamedTarget)
    (ids : List String) : P (c.functionsById q t ids w).2 := by
  induction ids generalizing w with
  | nil => exact hw
  | cons id ids ih => exact ih (hc.functionById id q.name t q.constraints w hw)

theorem Keeps.remembered (hc : c.Keeps P) (hw : P w) (digest : Option String) (q : Requirement)
    (t : NamedTarget) : P (c.remembered digest q t w).2 := by
  unfold Collaborators.remembered
  split
  next memory digest hm => exact hc.functionsById ((hc.digests memory hm w hw).2.1 _ _) q t _
  · exact hw

theorem Keeps.remember (hc : c.Keeps P) (hw : P w) (digest : Option String) (q : Requirement)
    (f : NodeFunction) : P (c.remember digest q f w) := by
  unfold Collaborators.remember
  split
  next memory digest id _ hm => exact (hc.digests memory hm w hw).2.2 _ _ _ _
  · exact hw

end Collaborators

namespace Resolution

variable {r s : Resolution} {id : TaskId} {t : Task} {flag : Ask σ Bool}

section Pump

theorem pump_cases (c : Collaborators σ) (maxDepth : Nat) (flag : Ask σ Bool) (w : σ)
    (h : Steady ⟨r, .idle⟩) (hflag : ∀ w, (flag w).1 = false) :
    Steady ⟨(r.pump c maxDepth flag w).1.2, .idle⟩ ∧
      ((r.pump c maxDepth flag w).1.1 = .ok .finished ∧ (r.pump c maxDepth flag w).1.2.Done ∨
        (r.pump c maxDepth flag w).1.1 = .ok .blocked) := by
  induction r, w using pump.induct c maxDepth flag with
  | case1 r w s less w' hx ih =>
    have hs := ((kept_steady c maxDepth).call h (.round flag w)).2
    have hleft : (r.call c maxDepth (.round flag w)).2 = s := by
      show (r.round c maxDepth flag w).1.left.2 = s
      rw [hx]
      rfl
    rw [hleft] at hs
    rw [pump, hx]
    exact ih hs
  | case2 r w status s w' hx =>
    obtain ⟨hsound, hs⟩ := (kept_steady c maxDepth).call h (.round flag w)
    have hcall : r.call c maxDepth (.round flag w) = (r.round c maxDepth flag w).1.left := rfl
    rw [hcall, hx] at hsound hs
    have hround : (r.round c maxDepth flag w).1 = .stop status s := congrArg Prod.fst hx
    rw [pump, hx]
    cases status with
    | error e => cases hsound
    | ok status =>
      refine ⟨hs, ?_⟩
      cases status with
      | finished =>
        obtain ⟨hready, hsuspended⟩ := round_finished hround
        exact .inl ⟨rfl, done_of_steady hs hready hsuspended⟩
      | blocked => exact .inr rfl
      | cancelled =>
        have hraised := raised_of_round_cancelled hround
        rw [hflag w] at hraised
        cases hraised

end Pump

section Prompt

theorem finish_ne_blocked {o : Outcome} : (r.finish id o).1 ≠ .blocked := by
  unfold finish
  split <;> exact nofun

theorem step_ne_blocked (hc : c.Prompt P) (hw : P w) : (r.step c maxDepth id w).1.1 ≠ .blocked := by
  unfold step
  split
  · exact nofun
  next t ht =>
    split
    next =>
      unfold resolveTarget
      split
      · exact nofun
      · exact finish_ne_blocked
      next w' ha => exact absurd (congrArg Prod.fst ha) (hc.target _ w hw).1
    next s hp =>
      unfold checkLiveData
      split
      · exact finish_ne_blocked
      next =>
        unfold takeMarketData
        dsimp only
        split
        next =>
          split
          · exact finish_ne_blocked
          · exact nofun
        · exact finish_ne_blocked
        next ha => exact absurd ha (hc.market _ _ w hw).1
        next => exact nofun
    next s hp =>
      have hall : ∀ tried all, (r.takeCandidates id t.requirement s tried all).1 ≠ .blocked := by
        intro tried all
        unfold takeCandidates
        dsimp only
        split
        · exact finish_ne_blocked
        · exact nofun
      unfold enumerate
      split
      · exact hall _ _
      · split
        · exact hall _ _
        · exact nofun
    next s hp =>
      unfold nextCandidate tryCandidate
      split
      next =>
        split
        · exact nofun
        split
        · exact finish_ne_blocked
        split
        · exact nofun
        next a r' _ =>
          dsimp only
          split <;> exact nofun
      next =>
        split
        · exact nofun
        · exact finish_ne_blocked
    next s a hp =>
      split
      next =>
        unfold commit
        split
        · exact finish_ne_blocked
        split
        · exact nofun
        · exact finish_ne_blocked
      · exact nofun
    · exact nofun
    · exact nofun

theorem step_keeps (hc : c.Keeps P) (hw : P w) : P (r.step c maxDepth id w).2 := by
  unfold step
  split
  · exact hw
  next t ht =>
    split
    next =>
      have htarget := hc.target t.requirement.target w hw
      unfold resolveTarget
      generalize c.target t.requirement.target w = x at htarget
      obtain ⟨answer, w'⟩ := x
      cases answer with
      | resolved target => exact hc.digest htarget target
      | notFound | wouldBlock => exact htarget
    next s hp =>
      unfold checkLiveData
      split
      · exact hw
      · exact hc.market s.target t.requirement w hw
    next s hp =>
      have hall : ∀ {w}, P w →
          P (c.functions t.requirement.name s.target t.requirement.constraints w).2 :=
        fun hw => hc.functions _ _ _ _ hw
      have hremembered := hc.remembered hw s.digest t.requirement s.target
      unfold enumerate
      split
      · exact hall hw
      · split
        next w' ha =>
          rw [ha] at hremembered
          exact hall hremembered
        next candidates w' _ ha =>
          rw [ha] at hremembered
          exact hremembered
    next => exact hw
    next s a hp =>
      split
      next =>
        unfold commit
        split
        · exact hw
        split
        · exact hw
        · exact hc.remember hw _ _ _
      · exact hw
    · exact hw
    · exact hw

theorem suspended_of_course {m m' : Moment} (h : Course c maxDepth m m') :
    m'.resolution.suspended = m.resolution.suspended := by
  induction h with
  | refl => rfl
  | tail _ hw ih => exact hw.suspended.trans ih

theorem suspended_of_leads {turn : Turn} (h : Leads c maxDepth id ⟨r, .turn id⟩ (turn, s))
    (hno : ∀ e, turn ≠ .failed e) : s.suspended = r.suspended := by
  cases turn with
  | again => exact suspended_of_course h.2
  | waiting => exact suspended_of_course h.2
  | blocked => exact suspended_of_course h.2
  | done => exact suspended_of_course h
  | failed e => exact absurd rfl (hno e)

theorem suspended_of_requeue {ready : List TaskId} (hr : r.ready = id :: ready)
    {x : Turn × Resolution} {hx : Advances maxDepth { r with ready } x}
    {less : s.LessToDo maxDepth r} (h : requeue hr x hx = .next s less) (hn : x.1 ≠ .blocked)
    (hl : Leads c maxDepth id ⟨{ r with ready }, .turn id⟩ x) : s.suspended = r.suspended := by
  obtain ⟨turn, s'⟩ := x
  have hsuspended : (∀ e, turn ≠ .failed e) → s'.suspended = r.suspended :=
    suspended_of_leads (r := { r with ready }) hl
  cases turn with
  | blocked => exact absurd rfl hn
  | failed e => cases h
  | again | waiting | done =>
    cases h
    exact hsuspended fun _ => Turn.noConfusion

theorem round_prompt (maxDepth : Nat) (hc : c.Prompt P) (hw : P w) (hs : r.suspended = []) :
    P (r.round c maxDepth (false, ·) w).2 ∧
      (∀ s less, (r.round c maxDepth (false, ·) w).1 = .next s less → s.suspended = []) ∧
      ∀ s, (r.round c maxDepth (false, ·) w).1 ≠ .stop (.ok .blocked) s := by
  unfold round
  dsimp only
  split
  next hr =>
    unfold idle
    rw [hs, List.isEmpty_nil, if_pos rfl]
    exact ⟨hw, nofun, nofun⟩
  next id ready hr =>
    rw [if_neg Bool.false_ne_true]
    refine ⟨step_keeps hc.keeps hw, fun s less h => ?_, fun s => requeue_ne_stop hr _ _⟩
    exact (suspended_of_requeue hr h (step_ne_blocked hc hw) leads_step).trans hs

/-- Where no lookup has to wait, and nothing is cancelled, a pump leaves nothing to be done. -/
theorem pump_prompt (maxDepth : Nat) (hc : c.Prompt P) (hw : P w) (h : Steady ⟨r, .idle⟩)
    (hs : r.suspended = []) :
    P (r.pump c maxDepth (false, ·) w).2 ∧ (r.pump c maxDepth (false, ·) w).1.1 = .ok .finished ∧
      (r.pump c maxDepth (false, ·) w).1.2.Done := by
  have hends : P (r.pump c maxDepth (false, ·) w).2 ∧
      (r.pump c maxDepth (false, ·) w).1.1 ≠ .ok .blocked := by
    clear h
    induction r, w using pump.induct c maxDepth (false, ·) with
    | case1 r w s less w' hx ih =>
      obtain ⟨hw', hnext, -⟩ := round_prompt maxDepth hc hw hs
      rw [hx] at hw' hnext
      rw [pump, hx]
      exact ih hw' (hnext s less rfl)
    | case2 r w status s w' hx =>
      obtain ⟨hw', -, hstop⟩ := round_prompt maxDepth hc hw hs
      rw [hx] at hw' hstop
      rw [pump, hx]
      refine ⟨hw', ?_⟩
      rintro rfl
      exact hstop s rfl
  exact ⟨hends.1, (pump_cases c maxDepth (false, ·) w h fun _ => rfl).2.resolve_right hends.2⟩

theorem suspended_add {q : Requirement} : (r.add maxDepth q).2.suspended = r.suspended := by
  obtain ⟨v, -, h⟩ | ⟨f, -, h⟩ | ⟨u, -, h⟩ | ⟨-, h⟩ := r.add_cases maxDepth q
  · rw [h]
    cases r.graph.mark q v <;> rfl
  · rw [h]
    rfl
  · rw [h]
    rfl
  · rw [h]
    rfl

theorem suspended_adds (qs : List Requirement) :
    (r.afterCalls c maxDepth (qs.map .add)).suspended = r.suspended := by
  induction qs generalizing r with
  | nil => rfl
  | cons q qs ih => exact ih.trans suspended_add

end Prompt

end Resolution

end ValueGraph
