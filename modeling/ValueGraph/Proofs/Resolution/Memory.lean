import ValueGraph.Proofs.Resolution.Grounded

namespace ValueGraph

def Resolution.Committed (r : Resolution) (q : Requirement) (v : ValueSpec) : Prop :=
  ∃ (id : TaskId) (t : Task), r.tasks[id]? = some t ∧ t.requirement = q ∧ t.phase = .committed v

/-- Is what was resolved what tasks have committed to? -/
def Resolution.Remembers (r : Resolution) : Prop := ∀ q v, r.Resolved q v ↔ r.Committed q v

namespace Resolution

variable {r r' : Resolution} {id u : TaskId} {t : Task} {q q' : Requirement} {v : ValueSpec}
  {w : Waiter}

theorem committed_put {x : Task} (h : r.Puts r' id x) (ht : r.tasks[id]? = some t)
    (hf : t.isFinished = false) :
    r'.Committed q v ↔ r.Committed q v ∨ x.requirement = q ∧ x.phase = .committed v := by
  constructor
  · rintro ⟨i, t', ht', hq, hv⟩
    rcases h.self_or_other ht' with ⟨rfl, rfl⟩ | ⟨-, ht'⟩
    · exact .inr ⟨hq, hv⟩
    · exact .inl ⟨i, t', ht', hq, hv⟩
  · rintro (⟨i, t', ht', hq, hv⟩ | ⟨hq, hv⟩)
    · refine ⟨i, t', ?_, hq, hv⟩
      -- The task that changes had committed to nothing.
      rw [h.other, ht']
      rintro rfl
      rw [ht] at ht'
      cases ht'
      simp [Task.isFinished, hv] at hf
    · exact ⟨id, x, h.self, hq, hv⟩

theorem committed_goOn {x : Task} (h : r.Puts r' id x) (ht : r.tasks[id]? = some t)
    (hf : t.isFinished = false) (hf' : x.isFinished = false) :
    r'.Committed q v ↔ r.Committed q v := by
  rw [committed_put h ht hf]
  refine or_iff_left ?_
  rintro ⟨-, hv⟩
  simp [Task.isFinished, hv] at hf'

theorem committed_addWaiter : (r.addWaiter u w).Committed q v ↔ r.Committed q v := by
  unfold Committed addWaiter
  refine exists_congr fun i => ?_
  rw [tasks_modifyTask]
  split
  · cases r.tasks[i]? with
    | none => simp
    | some t => simp
  · rfl

theorem committed_spawn {d : Nat} : (r.spawn q' w d).Committed q v ↔ r.Committed q v := by
  constructor
  · rintro ⟨i, t, ht, hq, hv⟩
    rw [tasks_spawn] at ht
    split at ht
    · cases ht
      cases hv
    · exact ⟨i, t, ht, hq, hv⟩
  · rintro ⟨i, t, ht, hq, hv⟩
    exact ⟨i, t, tasks_spawn_of_some ht, hq, hv⟩

theorem committed_cancel : r.cancel.Committed q v ↔ r.Committed q v := by
  have hget : ∀ i : TaskId, r.cancel.tasks[i]? = (r.tasks[i]?).map fun t =>
      if t.isFinished then t
      else { t with
        phase := .failed (.ofKind .cancelled t.requirement), waiters := [], waitingOn := ∅ } := by
    intro i
    simp [cancel]
  constructor
  · rintro ⟨i, t', ht', hq, hv⟩
    rw [hget] at ht'
    obtain ⟨t, ht, rfl⟩ := Option.map_eq_some_iff.1 ht'
    split at hv
    next hf =>
      rw [if_pos hf] at hq
      exact ⟨i, t, ht, hq, hv⟩
    next => cases hv
  · rintro ⟨i, t, ht, hq, hv⟩
    have hf : t.isFinished = true := by simp [Task.isFinished, hv]
    refine ⟨i, t, ?_, hq, hv⟩
    rw [hget, ht, Option.map_some, if_pos hf]

end Resolution

section Changes

variable {σ : Type} {c : Collaborators σ} {maxDepth : Nat} {m m' : Moment}

theorem Resolution.Remembers.goOn {r r' : Resolution} {id : TaskId} {t : Task} (h : r.Remembers)
    (f : Task → Task) (ht : r.tasks[id]? = some t) (htasks : r'.tasks = r.tasks.modify id f)
    (hc : r'.claims = r.claims) (hf : t.isFinished = false) (hf' : (f t).isFinished = false) :
    r'.Remembers := by
  intro q v
  rw [Resolution.committed_goOn (Resolution.puts_modify htasks ht) ht hf hf', ← h q v]
  unfold Resolved
  rw [hc]

theorem Change.remembers (hc : Change c maxDepth m m') (hclaimed : m.resolution.Claimed)
    (h : m.resolution.Remembers) : m'.resolution.Remembers := by
  cases hc with
  | take | again | block | park | pass | resume | asked | add | refuseNode | stale | lost | mark
  | refuseMark | note | told | submitKnown | submitRefused | submitFailed => exact h
  | cancel =>
    intro q v
    exact Resolution.resolved_cancel.trans ((h q v).trans Resolution.committed_cancel.symm)
  | @found r id t w target digest ht hp =>
    exact h.goOn
      (fun t => { t with target := some target, phase := .checkLiveData { target, digest } }) ht rfl
      rfl (by simp [Task.isFinished, hp]) rfl
  | @move r id t p ht hm =>
    exact h.goOn (fun t => { t with phase := p }) ht rfl rfl hm.not_isFinished.1 hm.not_isFinished.2
  | @takeUp r id t s x xs ht hp =>
    exact h.goOn
      (fun t => { t with
        phase := .resolveInputs { s with candidates := xs } { candidate := x } }) ht
      rfl rfl (by simp [Task.isFinished, hp]) rfl
  | @known r id t s a q v ht hp =>
    exact h.goOn (fun t => { t with phase := .resolveInputs s (a.push (some v)) }) ht rfl rfl
      (isFinished_of_resolveInputs hp) rfl
  | @join r id t s a q u ht hp hq hg hn =>
    intro q' v
    have ht' := Resolution.tasks_addWaiter_of_ne (w := .input id a.slots.length t.generation) ht
      (Resolution.ne_of_closesCircle hn)
    rw [Resolution.committed_goOn (Resolution.puts_asking ht') ht' (isFinished_of_resolveInputs hp)
      rfl, Resolution.committed_addWaiter]
    exact h q' v
  | @spawn r id t s a q ht hp hq hg =>
    intro q' v
    have ht' : (r.spawn q (.input id a.slots.length t.generation) (t.depth + 1)).tasks[id]? =
        some t := Resolution.tasks_spawn_of_some ht
    rw [Resolution.committed_goOn (Resolution.puts_asking ht') ht' (isFinished_of_resolveInputs hp)
      rfl, Resolution.committed_spawn]
    exact (Resolution.resolved_pending hg).trans (h q' v)
  | @giveUp r id t s a q cause ht hp =>
    exact h.goOn (fun t => t.abandon s a.candidate cause) ht rfl rfl
      (isFinished_of_resolveInputs hp) rfl
  | @settle r id t o ht he =>
    intro q v
    have hid := (hclaimed t.requirement id).2 ⟨t, ht, rfl, he.not_isFinished⟩
    have hcommitted : (r.settle id t o).Committed q v ↔ r.Committed q v ∨
        t.requirement = q ∧ Phase.ofOutcome o = .committed v :=
      Resolution.committed_put (Resolution.puts_settle ht) ht he.not_isFinished
    have ho : Phase.ofOutcome o = .committed v ↔ o = .ok v := by
      cases o <;> simp [Phase.ofOutcome]
    rw [Resolution.resolved_settle hid, hcommitted, ho]
    exact or_congr_left (h q v)
  | @fill r u v id t s a slot ws ht hp | @fillLast r u v id t s a slot ws ht hp =>
    exact h.goOn (fun t => { t with
      phase := .resolveInputs s (a.fill slot v), waitingOn := t.waitingOn.erase u }) ht rfl rfl
      (isFinished_of_resolveInputs hp) rfl
  | @fail r u cause id t s a slot ws ht hp =>
    exact h.goOn (fun t => t.abandon s a.candidate cause) ht rfl rfl
      (isFinished_of_resolveInputs hp) rfl
  | submitJoin =>
    intro q v
    exact (h q v).trans Resolution.committed_addWaiter.symm
  | submitSpawn hg =>
    intro q v
    exact (Resolution.resolved_pending hg).trans ((h q v).trans Resolution.committed_spawn.symm)

end Changes

end ValueGraph
