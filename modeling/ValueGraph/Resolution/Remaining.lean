import ValueGraph.Collection.Total
import ValueGraph.Resolution.Step

namespace ValueGraph

/-- Less at some depth up to `d`, and the same at all depths above. -/
def Lower (d : Nat) (f g : Nat → Nat × Nat) : Prop :=
  ∃ e, e ≤ d ∧ Prod.Lex (· < ·) (· < ·) (f e) (g e) ∧ ∀ i, i < e → f i = g i

namespace Lower

theorem wf_pair : WellFounded (Prod.Lex (· < ·) (· < ·) : Nat × Nat → Nat × Nat → Prop) :=
  (Prod.lex Nat.lt_wfRel Nat.lt_wfRel).wf

theorem wf (d : Nat) : WellFounded (Lower d) := by
  induction d with
  | zero =>
    refine Subrelation.wf ?_ (InvImage.wf (fun f : Nat → Nat × Nat => f 0) wf_pair)
    rintro f g ⟨e, he, h, -⟩
    obtain rfl : e = 0 := by omega
    exact h
  | succ d ih =>
    refine Subrelation.wf ?_ (InvImage.wf
      (fun f : Nat → Nat × Nat => (f 0, fun n => f (n + 1))) (Prod.lex ⟨_, wf_pair⟩ ⟨_, ih⟩).wf)
    rintro f g ⟨e, he, h, hi⟩
    cases e with
    | zero => exact Prod.Lex.left _ _ h
    | succ e =>
      show Prod.Lex _ _ (f 0, _) (g 0, _)
      rw [hi 0 (by omega)]
      exact Prod.Lex.right _ ⟨e, by omega, h, fun i hi' => hi (i + 1) (by omega)⟩

theorem congr_right {d e : Nat} {f g h : Nat → Nat × Nat} (he : e ≤ d)
    (hlt : Prod.Lex (· < ·) (· < ·) (f e) (g e)) (hfg : ∀ i, i < e → f i = g i)
    (hgh : ∀ i, i ≤ e → g i = h i) : Lower d f h :=
  ⟨e, he, hgh e (Nat.le_refl e) ▸ hlt, fun i hi => (hfg i hi).trans (hgh i (by omega))⟩

end Lower

namespace Phase

/-- How many phases may follow, candidates aside. -/
def rank : Phase → Nat
  | resolveTarget => 6
  | checkLiveData _ => 5
  | enumerate s => if s.tried.isSome then 2 else 4
  | nextCandidate s | resolveInputs s _ => if s.tried.isSome then 3 else 1
  | committed _ | failed _ => 0

def left : Phase → Nat
  | nextCandidate s | resolveInputs s _ => s.candidates.length
  | _ => 0

end Phase

namespace Task

/-- The depth of a task; all that lies below the limit counts as one depth. -/
def level (maxDepth : Nat) (t : Task) : Nat := min t.depth (maxDepth + 1)

def workAt (maxDepth d : Nat) (f : Phase → Nat) (t : Task) : Nat :=
  if t.level maxDepth = d then f t.phase else 0

structure Less (t u : Task) : Prop where
  depth : t.depth = u.depth
  lex : Prod.Lex (· < ·) (· < ·) (t.phase.rank, t.phase.left) (u.phase.rank, u.phase.left)

structure Even (t u : Task) : Prop where
  depth : t.depth = u.depth
  rank : t.phase.rank = u.phase.rank
  left : t.phase.left = u.phase.left

end Task

namespace Resolution

variable (maxDepth : Nat)

/-- The work at each depth: phases that may follow, and candidates left. -/
def work (r : Resolution) (d : Nat) : Nat × Nat :=
  (total (Task.workAt maxDepth d Phase.rank) r.tasks.toList,
    total (Task.workAt maxDepth d Phase.left) r.tasks.toList)

variable {maxDepth} {r : Resolution} {id : TaskId} {t : Task}

theorem work_modifyTask_even {f : Task → Task} (ht : r.tasks[id]? = some t) (h : (f t).Even t) :
    (r.modifyTask id f).work maxDepth = r.work maxDepth := by
  funext d
  have ht : r.tasks.toList[id]? = some t := by simpa using ht
  have hr := total_modify (f := Task.workAt maxDepth d Phase.rank) (g := f) ht
  have hl := total_modify (f := Task.workAt maxDepth d Phase.left) (g := f) ht
  have er : Task.workAt maxDepth d Phase.rank (f t) = Task.workAt maxDepth d Phase.rank t := by
    unfold Task.workAt Task.level; rw [h.depth, h.rank]
  have el : Task.workAt maxDepth d Phase.left (f t) = Task.workAt maxDepth d Phase.left t := by
    unfold Task.workAt Task.level; rw [h.depth, h.left]
  simp only [work, modifyTask, Array.toList_modify]
  ext <;> simp <;> omega

theorem work_modifyTask_of_ne {f : Task → Task} {d : Nat} (ht : r.tasks[id]? = some t)
    (h : (f t).depth = t.depth) (hd : d ≠ t.level maxDepth) :
    (r.modifyTask id f).work maxDepth d = r.work maxDepth d := by
  have ht : r.tasks.toList[id]? = some t := by simpa using ht
  have hr := total_modify (f := Task.workAt maxDepth d Phase.rank) (g := f) ht
  have hl := total_modify (f := Task.workAt maxDepth d Phase.left) (g := f) ht
  have e0 : ∀ g, Task.workAt maxDepth d g (f t) = 0 := fun g => by
    simp [Task.workAt, Task.level, h] at hd ⊢; omega
  have e1 : ∀ g, Task.workAt maxDepth d g t = 0 := fun g => by
    simp [Task.workAt] at hd ⊢; omega
  simp only [e0, e1] at hr hl
  simp only [work, modifyTask, Array.toList_modify]
  ext <;> simp <;> omega

theorem lex_work_modifyTask {f : Task → Task} (ht : r.tasks[id]? = some t) (h : (f t).Less t) :
    Prod.Lex (· < ·) (· < ·) ((r.modifyTask id f).work maxDepth (t.level maxDepth))
      (r.work maxDepth (t.level maxDepth)) := by
  have ht : r.tasks.toList[id]? = some t := by simpa using ht
  have hr := total_modify (f := Task.workAt maxDepth (t.level maxDepth) Phase.rank) (g := f) ht
  have hl := total_modify (f := Task.workAt maxDepth (t.level maxDepth) Phase.left) (g := f) ht
  have e0 : ∀ g, Task.workAt maxDepth (t.level maxDepth) g (f t) = g (f t).phase := fun g => by
    simp [Task.workAt, Task.level, h.depth]
  have e1 : ∀ g, Task.workAt maxDepth (t.level maxDepth) g t = g t.phase := fun g => by
    simp [Task.workAt]
  simp only [e0, e1] at hr hl
  simp only [work, modifyTask, Array.toList_modify]
  rcases Prod.lex_def.1 h.lex with h | ⟨h, h'⟩
  · exact Prod.Lex.left _ _ (by simp at h; omega)
  · simp only at h h'
    refine Prod.lex_def.2 (.inr ⟨?_, ?_⟩) <;> simp <;> omega

theorem lower_modifyTask {s : Resolution} {f : Task → Task} (ht : s.tasks[id]? = some t)
    (h : (f t).Less t) (hs : ∀ d, d ≤ t.level maxDepth → s.work maxDepth d = r.work maxDepth d) :
    Lower (maxDepth + 1) ((s.modifyTask id f).work maxDepth) (r.work maxDepth) :=
  Lower.congr_right (Nat.min_le_right ..) (lex_work_modifyTask ht h)
    (fun _ hi => work_modifyTask_of_ne ht h.depth (Nat.ne_of_lt hi)) hs

theorem work_eq_of_tasks {s : Resolution} (h : s.tasks = r.tasks) :
    s.work maxDepth = r.work maxDepth := by
  funext d; simp [work, h]

theorem work_with_ready {l : List TaskId} :
    ({ r with ready := l } : Resolution).work maxDepth = r.work maxDepth := rfl

theorem work_deliverInput {sender task slot generation : Nat} {o : Outcome} :
    (r.deliverInput sender task slot generation o).work maxDepth = r.work maxDepth := by
  unfold deliverInput
  split
  · rfl
  next u hu =>
    split
    · rfl
    split
    next s a hp =>
      cases o with
      | ok spec =>
        simp only
        split
        · rw [work_with_ready]
          refine work_modifyTask_even hu ⟨rfl, ?_, ?_⟩ <;> simp [hp, Phase.rank, Phase.left]
        · refine work_modifyTask_even hu ⟨rfl, ?_, ?_⟩ <;> simp [hp, Phase.rank, Phase.left]
      | error cause =>
        simp only [work_with_ready]
        refine work_modifyTask_even hu ⟨rfl, ?_, ?_⟩ <;>
          simp [hp, Task.abandon, Phase.rank, Phase.left]
    · rfl

theorem tasks_finishSubmission {index : Nat} {o : Outcome} :
    (r.finishSubmission index o).2.tasks = r.tasks := by
  unfold finishSubmission
  split
  · rfl
  split
  · rfl
  split <;> rfl

theorem work_deliver {sender : TaskId} {o : Outcome} {ws : List Waiter} :
    (deliver sender o ws r).2.work maxDepth = r.work maxDepth := by
  induction ws generalizing r with
  | nil => rfl
  | cons w ws ih =>
    cases w with
    | input task slot generation => rw [deliver, ih, work_deliverInput]
    | submission index =>
      have h : (r.finishSubmission index o).2.work maxDepth = r.work maxDepth :=
        work_eq_of_tasks tasks_finishSubmission
      rw [deliver]
      split
      next e s hs => rw [hs] at h; exact h
      next s hs => rw [hs] at h; rw [ih, h]

theorem lower_setPhase {p : Phase} (ht : r.tasks[id]? = some t)
    (h : Prod.Lex (· < ·) (· < ·) (p.rank, p.left) (t.phase.rank, t.phase.left)) :
    Lower (maxDepth + 1) ((r.setPhase id p).work maxDepth) (r.work maxDepth) :=
  lower_modifyTask ht ⟨rfl, h⟩ fun _ _ => rfl

theorem lower_complete {o : Outcome} (ht : r.tasks[id]? = some t) (h : 0 < t.phase.rank) :
    Lower (maxDepth + 1) ((r.complete id o).2.work maxDepth) (r.work maxDepth) := by
  have hp : (Phase.ofOutcome o).rank = 0 := by cases o <;> rfl
  simp only [complete, ht, work_deliver]
  exact lower_modifyTask ht ⟨rfl, Prod.Lex.left _ _ (by simpa [hp] using h)⟩ fun _ _ => rfl

theorem finish_snd {o : Outcome} : (r.finish id o).2 = (r.complete id o).2 := by
  unfold finish; split <;> simp_all

theorem work_push {u : Task} {d : Nat} (h : d ≠ u.level maxDepth) :
    ({ r with tasks := r.tasks.push u } : Resolution).work maxDepth d = r.work maxDepth d := by
  simp [work, total, Task.workAt, Ne.symm h]

theorem work_attach {q : Requirement} {w : Waiter} {depth d : Nat} (h : d < depth) :
    (r.attach maxDepth q w depth).2.work maxDepth d = r.work maxDepth d := by
  unfold attach
  split
  · rfl
  · rfl
  next u _ =>
    split
    · rfl
    cases hu : r.tasks[u]? with
    | none =>
      have hu : r.tasks.toList.length ≤ u := by simpa using hu
      simp [work, modifyTask, List.modify_eq_self hu]
    | some t => exact congrFun (work_modifyTask_even hu ⟨rfl, rfl, rfl⟩) d
  · split
    · rfl
    · exact work_push (by simp [Task.level]; omega)

theorem getElem?_attach {q : Requirement} {w : Waiter} {depth : Nat}
    (ht : r.tasks[id]? = some t) :
    ∃ ws, (r.attach maxDepth q w depth).2.tasks[id]? = some { t with waiters := ws } := by
  unfold attach
  split
  · exact ⟨_, ht⟩
  · exact ⟨_, ht⟩
  next u _ =>
    split
    · exact ⟨_, ht⟩
    · simp only [modifyTask, Array.getElem?_modify, ht]
      split
      · exact ⟨_, rfl⟩
      · exact ⟨_, rfl⟩
  · split
    · exact ⟨_, ht⟩
    · have hlt : id < r.tasks.size := (Array.getElem?_eq_some_iff.1 ht).1
      exact ⟨_, by rw [spawn, Array.getElem?_push_lt hlt, ← ht, Array.getElem?_eq_getElem hlt]⟩

theorem work_awaitTask {u : TaskId} : (r.awaitTask id u).work maxDepth = r.work maxDepth := by
  cases ht : r.tasks[id]? with
  | none =>
    have ht : r.tasks.toList.length ≤ id := by simpa using ht
    funext d
    simp [work, awaitTask, modifyTask, List.modify_eq_self ht]
  | some t => exact work_modifyTask_even ht ⟨rfl, rfl, rfl⟩

theorem work_attachInputs {u : TaskId} {generation depth d : Nat} {qs : List Requirement}
    {a : Attempt} (h : d < depth) :
    (attachInputs maxDepth u generation depth qs a r).2.work maxDepth d = r.work maxDepth d := by
  induction qs generalizing r a with
  | nil => rfl
  | cons q qs ih =>
    have hw : (r.attach maxDepth q (.input u a.slots.length generation) depth).2.work maxDepth d =
        r.work maxDepth d := work_attach h
    rw [attachInputs]
    split
    next s r' h => rw [ih, ← hw, h]
    next v r' h => rw [ih, work_awaitTask, ← hw, h]
    next f r' h => rw [← hw, h]

theorem getElem?_attachInputs {u : TaskId} {generation depth : Nat} {qs : List Requirement}
    {a : Attempt} (ht : r.tasks[id]? = some t) :
    ∃ ws ids, (attachInputs maxDepth u generation depth qs a r).2.tasks[id]? =
      some { t with waiters := ws, waitingOn := ids } := by
  induction qs generalizing r a t with
  | nil => exact ⟨_, _, ht⟩
  | cons q qs ih =>
    have ha : ∃ ws, (r.attach maxDepth q (.input u a.slots.length generation) depth).2.tasks[id]? =
        some { t with waiters := ws } := getElem?_attach ht
    obtain ⟨ws, ha⟩ := ha
    rw [attachInputs]
    split
    next s r' h =>
      rw [h] at ha
      obtain ⟨ws', ids, hi⟩ := ih (a := _) ha
      exact ⟨ws', ids, hi⟩
    next v r' h =>
      rw [h] at ha
      have hv : ∃ ids, (r'.awaitTask u v).tasks[id]? =
          some { t with waiters := ws, waitingOn := ids } := by
        simp only [awaitTask, modifyTask, Array.getElem?_modify, ha]
        split
        · exact ⟨_, rfl⟩
        · exact ⟨_, rfl⟩
      obtain ⟨ids, hv⟩ := hv
      obtain ⟨ws', ids', hi⟩ := ih (a := _) hv
      exact ⟨ws', ids', hi⟩
    next f r' h => rw [h] at ha; exact ⟨ws, _, ha⟩

/-- After a step there is less work, unless the task only hands its turn over. -/
def Advances (maxDepth : Nat) (r : Resolution) (turn : Turn × Resolution) : Prop :=
  Lower (maxDepth + 1) (turn.2.work maxDepth) (r.work maxDepth) ∨ turn.1 ≠ .again ∧ turn.2 = r

theorem advances_finish {o : Outcome} (ht : r.tasks[id]? = some t) (h : 0 < t.phase.rank) :
    Advances maxDepth r (r.finish id o) := .inl (finish_snd ▸ lower_complete ht h)

theorem advances_finish_with_graph {o : Outcome} {g : Graph} (ht : r.tasks[id]? = some t)
    (h : 0 < t.phase.rank) :
    Advances maxDepth r (({ r with graph := g } : Resolution).finish id o) :=
  .inl (by rw [finish_snd]; exact lower_complete (r := { r with graph := g }) ht h)

theorem advances_again {p : Phase} (ht : r.tasks[id]? = some t) (h : p.rank < t.phase.rank) :
    Advances maxDepth r (.again, r.setPhase id p) := .inl (lower_setPhase ht (Prod.Lex.left _ _ h))

theorem advances_takeMarketData {p : Policy} {q : Requirement} {s : Search} {a : MarketAnswer}
    (ht : r.tasks[id]? = some t) (hp : t.phase = .checkLiveData s) :
    Advances maxDepth r (r.takeMarketData p id q s a) := by
  have hrank : 0 < t.phase.rank := by simp [hp, Phase.rank]
  unfold takeMarketData
  split
  · split
    · exact advances_finish_with_graph ht hrank
    · exact .inr ⟨by simp, rfl⟩
  · exact advances_finish ht hrank
  · exact .inr ⟨by simp, rfl⟩
  · exact advances_again ht (by simp only [hp, Phase.rank]; split <;> omega)

theorem advances_takeCandidates {q : Requirement} {s : Search} {tried : SortedSet String}
    {all : List Candidate} (ht : r.tasks[id]? = some t) (h : 1 < t.phase.rank) :
    Advances maxDepth r (r.takeCandidates id q s tried all) := by
  unfold takeCandidates
  simp only
  split
  · exact advances_finish ht (by omega)
  · exact advances_again ht (by simpa [Phase.rank] using h)

theorem advances_tryCandidate {s s' : Search} {candidate : Candidate} (ht : r.tasks[id]? = some t)
    (hp : t.phase = .nextCandidate s') (htried : s.tried = s'.tried)
    (hlen : s.candidates.length < s'.candidates.length) :
    Advances maxDepth r (r.tryCandidate maxDepth id t s candidate) := by
  unfold tryCandidate
  split
  · refine .inl (lower_setPhase ht (Prod.lex_def.2 (.inr ⟨?_, ?_⟩)))
    · simp [hp, Phase.rank, htried]
    · simpa [hp, Phase.left] using hlen
  split
  · exact advances_finish ht (by simp only [hp, Phase.rank]; split <;> omega)
  have hw : ∀ d, d ≤ t.level maxDepth →
      (attachInputs maxDepth id t.generation (t.depth + 1) candidate.inputs { candidate } r).2.work
        maxDepth d = r.work maxDepth d := fun d hd => work_attachInputs (by
    have := Nat.min_le_left t.depth (maxDepth + 1)
    simp only [Task.level] at hd; omega)
  have ha : ∃ ws ids,
      (attachInputs maxDepth id t.generation (t.depth + 1) candidate.inputs
        { candidate } r).2.tasks[id]? = some { t with waiters := ws, waitingOn := ids } :=
    getElem?_attachInputs ht
  obtain ⟨ws, ids, ha⟩ := ha
  split
  next cause r' h =>
    rw [h] at hw ha
    refine .inl (lower_modifyTask ha ⟨rfl, Prod.lex_def.2 (.inr ⟨?_, ?_⟩)⟩ hw)
    · simp [hp, Task.abandon, Phase.rank, htried]
    · simpa [hp, Task.abandon, Phase.left] using hlen
  next a r' h =>
    rw [h] at hw ha
    refine .inl (lower_modifyTask ha ⟨rfl, Prod.lex_def.2 (.inr ⟨?_, ?_⟩)⟩ hw)
    · simp [hp, Phase.rank, htried]
    · simpa [hp, Phase.left] using hlen

theorem advances_nextCandidate {s : Search} (ht : r.tasks[id]? = some t)
    (hp : t.phase = .nextCandidate s) : Advances maxDepth r (r.nextCandidate maxDepth id t s) := by
  unfold nextCandidate
  split
  next candidate candidates hc => exact advances_tryCandidate ht hp rfl (by simp [hc])
  · split
    next h => exact advances_again ht (by simp [hp, Phase.rank, h])
    · exact advances_finish ht (by simp only [hp, Phase.rank]; split <;> omega)

variable {σ : Type} {c : Collaborators σ} {w : σ}

theorem advances_resolveTarget {q : Requirement} (ht : r.tasks[id]? = some t)
    (hp : t.phase = .resolveTarget) : Advances maxDepth r (r.resolveTarget c id q w).1 := by
  unfold resolveTarget
  split
  · exact .inl (lower_modifyTask ht ⟨rfl, Prod.Lex.left _ _ (by simp [hp, Phase.rank])⟩
      fun _ _ => rfl)
  · exact advances_finish ht (by simp [hp, Phase.rank])
  · exact .inr ⟨by simp, rfl⟩

theorem advances_checkLiveData {q : Requirement} {s : Search} (ht : r.tasks[id]? = some t)
    (hp : t.phase = .checkLiveData s) : Advances maxDepth r (r.checkLiveData c id q s w).1 := by
  unfold checkLiveData
  split
  · exact advances_finish ht (by simp [hp, Phase.rank])
  · exact advances_takeMarketData ht hp

theorem advances_enumerate {q : Requirement} {s : Search} (ht : r.tasks[id]? = some t)
    (hp : t.phase = .enumerate s) : Advances maxDepth r (r.enumerate c id q s w).1 := by
  unfold enumerate
  split
  next h => exact advances_takeCandidates ht (by simp [hp, Phase.rank, h])
  next h =>
    split
    · exact advances_takeCandidates ht (by simp [hp, Phase.rank, h])
    · exact advances_again ht (by simp [hp, Phase.rank, h])

theorem advances_commit {q : Requirement} {s : Search} {a : Attempt}
    (ht : r.tasks[id]? = some t) (h : 0 < t.phase.rank) :
    Advances maxDepth r (r.commit c id q s a w).1 := by
  unfold commit
  split
  · exact advances_finish ht h
  split
  · exact .inr ⟨by simp, rfl⟩
  · exact advances_finish_with_graph ht h

/-- Every step leaves less work, or hands the turn over without a change. -/
theorem advances_step : Advances maxDepth r (r.step c maxDepth id w).1 := by
  unfold step
  split
  · exact .inr ⟨by simp, rfl⟩
  next t ht =>
    split
    next hp => exact advances_resolveTarget ht hp
    next s hp => exact advances_checkLiveData ht hp
    next s hp => exact advances_enumerate ht hp
    next s hp => exact advances_nextCandidate ht hp
    next s a hp =>
      split
      · exact advances_commit ht (by simp only [hp, Phase.rank]; split <;> omega)
      · exact .inr ⟨by simp, rfl⟩
    · exact .inr ⟨by simp, rfl⟩
    · exact .inr ⟨by simp, rfl⟩

end Resolution

end ValueGraph
