import ValueGraph.Proofs.Resolution.Calls

namespace ValueGraph

variable {σ : Type} {c : Collaborators σ} {maxDepth : Nat}

section Phases

variable {t : Task} {g : Graph} {p : Phase} {o : Outcome}

theorem Moves.not_isFinished (h : Moves c t p) :
    t.isFinished = false ∧ ({ t with phase := p } : Task).isFinished = false := by
  cases h with
  | seek hp => simp [Task.isFinished, hp]
  | askAll hp => simp [Task.isFinished, hp]
  | remembered hp => simp [Task.isFinished, hp]
  | exhaust hp => simp [Task.isFinished, hp]
  | skip hp => simp [Task.isFinished, hp]

theorem Ends.not_isFinished (h : Ends c g t o) : t.isFinished = false := by
  cases h with
  | noTarget hp => simp [Task.isFinished, hp]
  | reuse hp => simp [Task.isFinished, hp]
  | missing hp => simp [Task.isFinished, hp]
  | source hp => simp [Task.isFinished, hp]
  | relabel hp => simp [Task.isFinished, hp]
  | noFunctions hp => simp [Task.isFinished, hp]
  | present hp => simp [Task.isFinished, hp]
  | exhausted hp => simp [Task.isFinished, hp]
  | committed hp => simp [Task.isFinished, hp]

theorem isFinished_ofOutcome (t : Task) (o : Outcome) (waiters : List Waiter)
    (waitingOn : SortedSet TaskId) :
    ({ t with phase := .ofOutcome o, waiters, waitingOn } : Task).isFinished = true := by
  cases o <;> rfl

theorem isFinished_of_resolveInputs {s : Search} {a : Attempt} (hp : t.phase = .resolveInputs s a) :
    t.isFinished = false := by
  simp [Task.isFinished, hp]

end Phases

/-- What is remembered of an outcome, if anything. -/
def Claim.ofOutcome? : Outcome → Option Claim
  | .ok v => some (.resolved v)
  | .error f => if f.involvesRecursion then none else some (.failed f)

theorem Claim.ofOutcome?_eq_resolved {o : Outcome} {v : ValueSpec} :
    ofOutcome? o = some (.resolved v) ↔ o = .ok v := by
  cases o with
  | ok v' => simp [ofOutcome?]
  | error f => simp [ofOutcome?]

theorem Claim.ofOutcome?_eq_failed {o : Outcome} {f : Failure} :
    ofOutcome? o = some (.failed f) ↔ o = .error f ∧ f.involvesRecursion = false := by
  cases o with
  | ok v => simp [ofOutcome?]
  | error f' =>
    simp only [ofOutcome?, Option.ite_none_left_eq_some, Bool.not_eq_true, Option.some.injEq,
      Claim.failed.injEq, Except.error.injEq]
    constructor
    · rintro ⟨h, rfl⟩
      exact ⟨rfl, h⟩
    · rintro ⟨rfl, h⟩
      exact ⟨h, rfl⟩

def Claim.settled : Outcome → Claim
  | .ok v => .resolved v
  | .error f => .failed f

theorem Claim.eq_settled_of_ofOutcome? {o : Outcome} {x : Claim} (h : ofOutcome? o = some x) :
    x = settled o := by
  cases o with
  | ok v => exact (Option.some.inj h).symm
  | error f => exact (Option.some.inj (Option.ite_none_left_eq_some.1 h).2).symm

theorem Claim.isPending_of_ofOutcome? {o : Outcome} {x : Claim} (h : ofOutcome? o = some x) :
    x.isPending = false := by
  rw [eq_settled_of_ofOutcome? h]
  cases o <;> rfl

namespace Resolution

variable {r r' : Resolution} {id i u : TaskId} {t : Task} {q : Requirement} {w : Waiter}

def WorksOn (r : Resolution) (id : TaskId) (q : Requirement) : Prop :=
  ∃ t, r.tasks[id]? = some t ∧ t.requirement = q ∧ t.isFinished = false

theorem worksOn_put {x : Task} (h : r.Puts r' id x) (ht : r.tasks[id]? = some t)
    (hq : x.requirement = t.requirement) (hf : x.isFinished = t.isFinished) :
    r'.WorksOn i q ↔ r.WorksOn i q := by
  unfold WorksOn
  by_cases hi : id = i
  · subst hi
    rw [h.self, ht]
    simp [hq, hf]
  · rw [h.other hi]

theorem worksOn_addWaiter : (r.addWaiter u w).WorksOn i q ↔ r.WorksOn i q := by
  unfold WorksOn addWaiter
  rw [tasks_modifyTask]
  by_cases hi : u = i
  · rw [if_pos hi]
    cases r.tasks[i]? with
    | none => simp
    | some t => simp [Task.isFinished]
  · rw [if_neg hi]

theorem worksOn_spawn {q' : Requirement} {d : Nat} :
    (r.spawn q' w d).WorksOn i q ↔ i = r.tasks.size ∧ q = q' ∨ r.WorksOn i q := by
  unfold WorksOn
  rw [tasks_spawn]
  by_cases hi : i = r.tasks.size
  · have hnone : r.tasks[i]? = none := by simp [hi]
    rw [if_pos hi, hnone]
    constructor
    · rintro ⟨t, ht, hq, -⟩
      cases ht
      exact .inl ⟨hi, hq.symm⟩
    · rintro (⟨-, rfl⟩ | ⟨t, ht, -⟩)
      · exact ⟨_, rfl, rfl, rfl⟩
      · cases ht
  · simp [hi]

theorem worksOn_settle {o : Outcome} :
    (r.settle id t o).WorksOn i q ↔ id ≠ i ∧ r.WorksOn i q := by
  have hfin := isFinished_ofOutcome
  unfold WorksOn
  rw [tasks_settle]
  by_cases hi : id = i
  · subst hi
    cases r.tasks[id]? <;> simp [hfin]
  · simp [hi]

theorem get?_settleClaim {o : Outcome} {q' : Requirement} :
    (r.settleClaim q o).get? q' = if q = q' then Claim.ofOutcome? o else r.claims.get? q' := by
  unfold settleClaim Claim.ofOutcome?
  cases o with
  | ok v => exact SortedMap.get?_insert
  | error f =>
    dsimp only
    split
    · exact SortedMap.get?_erase
    · exact SortedMap.get?_insert

/-- Each claim that is pending names the task at work, and each task at work has such a claim. -/
def Claimed (r : Resolution) : Prop :=
  ∀ q id, r.claims.get? q = some (.pending id) ↔ r.WorksOn id q

/-- Two tasks never work on one requirement. -/
theorem Claimed.unique (h : r.Claimed) (hi : r.WorksOn i q) (hu : r.WorksOn u q) : i = u := by
  have hi := (h q i).2 hi
  rw [(h q u).2 hu] at hi
  cases hi
  rfl

theorem Claimed.congr {r' : Resolution} (h : r.Claimed) (hc : r'.claims = r.claims)
    (hw : ∀ id q, r'.WorksOn id q ↔ r.WorksOn id q) : r'.Claimed := by
  intro q id
  rw [hc, hw]
  exact h q id

theorem Claimed.spawn (h : r.Claimed) (hq : r.claims.get? q = none) (w : Waiter) (d : Nat) :
    (r.spawn q w d).Claimed := by
  intro q' i
  have hclaims : (r.spawn q w d).claims = r.claims.insert q (.pending r.tasks.size) := rfl
  rw [hclaims, SortedMap.get?_insert, worksOn_spawn, ← h q' i]
  by_cases hqq : q = q'
  · subst hqq
    simp [hq, eq_comm]
  · simp [hqq, Ne.symm hqq]

theorem Claimed.settle (h : r.Claimed) (ht : r.tasks[id]? = some t) (hf : t.isFinished = false)
    (o : Outcome) : (r.settle id t o).Claimed := by
  have hid : r.claims.get? t.requirement = some (.pending id) := (h _ id).2 ⟨t, ht, rfl, hf⟩
  intro q i
  have hclaims : (r.settle id t o).claims = r.settleClaim t.requirement o := rfl
  -- Whatever becomes of the claim, it is not pending any more.
  have hget : (r.settleClaim t.requirement o).get? q = some (.pending i) ↔
      t.requirement ≠ q ∧ r.claims.get? q = some (.pending i) := by
    rw [get?_settleClaim]
    split
    next hq =>
      refine iff_of_false (fun h => ?_) fun h => h.1 hq
      cases Claim.isPending_of_ofOutcome? h
    next hq => exact (and_iff_right hq).symm
  rw [hclaims, hget, worksOn_settle, ← h q i]
  refine and_congr_left fun hi => not_congr ⟨?_, ?_⟩
  · rintro rfl
    rw [hid] at hi
    cases hi
    rfl
  · rintro rfl
    obtain ⟨t', ht', hq, -⟩ := (h q id).1 hi
    rw [ht] at ht'
    cases ht'
    exact hq

theorem Claimed.cancel (r : Resolution) : r.cancel.Claimed := by
  intro q id
  refine iff_of_false ?_ ?_
  · have hclaims : r.cancel.claims = r.claims.filter fun _ x => !x.isPending := rfl
    rw [hclaims, SortedMap.get?_filter]
    cases r.claims.get? q with
    | none => simp
    | some x => cases x <;> simp [Claim.isPending, Option.filter]
  · rintro ⟨t, ht, -, hf⟩
    simp only [Resolution.cancel, Array.getElem?_map, Option.map_eq_some_iff] at ht
    obtain ⟨t', -, rfl⟩ := ht
    split at hf
    next h => simp [h] at hf
    next => cases hf

end Resolution

theorem Resolution.Claimed.modifyTask {r : Resolution} {id : TaskId} {t : Task} {f : Task → Task}
    (h : r.Claimed) (hq : ∀ t, (f t).requirement = t.requirement) (ht : r.tasks[id]? = some t)
    (hf : t.isFinished = false) (hf' : (f t).isFinished = false) : (r.modifyTask id f).Claimed := by
  exact h.congr rfl fun i q => worksOn_put (puts_modify rfl ht) ht (hq t) (hf'.trans hf.symm)

theorem Change.claimed {m m' : Moment} (hc : Change c maxDepth m m') (h : m.resolution.Claimed) :
    m'.resolution.Claimed := by
  cases hc with
  | take | again | block | park | pass | resume | asked | add | refuseNode | stale | lost | mark
  | refuseMark | note | told | submitKnown | submitRefused | submitFailed => exact h
  | cancel => exact .cancel _
  | found ht hp => exact h.modifyTask (fun _ => rfl) ht (by simp [Task.isFinished, hp]) rfl
  | move ht hm =>
    exact h.modifyTask (fun _ => rfl) ht hm.not_isFinished.1 hm.not_isFinished.2
  | takeUp ht hp => exact h.modifyTask (fun _ => rfl) ht (by simp [Task.isFinished, hp]) rfl
  | known ht hp => exact h.modifyTask (fun _ => rfl) ht (isFinished_of_resolveInputs hp) rfl
  | giveUp ht hp => exact h.modifyTask (fun _ => rfl) ht (isFinished_of_resolveInputs hp) rfl
  | fill ht hp => exact h.modifyTask (fun _ => rfl) ht (isFinished_of_resolveInputs hp) rfl
  | fillLast ht hp => exact h.modifyTask (fun _ => rfl) ht (isFinished_of_resolveInputs hp) rfl
  | fail ht hp => exact h.modifyTask (fun _ => rfl) ht (isFinished_of_resolveInputs hp) rfl
  | @join r id t s a q u ht hp hq hg hn =>
    have ht' := Resolution.tasks_addWaiter_of_ne (w := .input id a.slots.length t.generation) ht
      (Resolution.ne_of_closesCircle hn)
    have hf := isFinished_of_resolveInputs hp
    refine h.congr rfl fun i q' => ?_
    exact (Resolution.worksOn_put (Resolution.puts_asking ht') ht' rfl hf.symm).trans
      Resolution.worksOn_addWaiter
  | @spawn r id t s a q ht hp hq hg hd =>
    have hspawn := h.spawn hg (.input id a.slots.length t.generation) (t.depth + 1)
    have ht' : (r.spawn q (.input id a.slots.length t.generation) (t.depth + 1)).tasks[id]? =
        some t := Resolution.tasks_spawn_of_some ht
    have hf := isFinished_of_resolveInputs hp
    refine hspawn.congr rfl fun i q' => ?_
    exact Resolution.worksOn_put (Resolution.puts_asking ht') ht' rfl hf.symm
  | settle ht he => exact h.settle ht he.not_isFinished _
  | submitJoin hg => exact h.congr rfl fun _ _ => Resolution.worksOn_addWaiter
  | submitSpawn hg => exact Resolution.Claimed.spawn h hg _ _

end ValueGraph
