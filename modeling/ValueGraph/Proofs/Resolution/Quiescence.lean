import Mathlib.Data.Fintype.Card
import Mathlib.Data.Fintype.EquivFin
import ValueGraph.Proofs.Resolution.Grounded
import ValueGraph.Proofs.Resolution.Waiting

namespace ValueGraph

structure Steady (m : Moment) : Prop where
  claimed : m.resolution.Claimed
  awaited : Awaited m
  queued : Queued m
  linked : Linked m
  wired : Wired m
  grounded : Grounded m

namespace Resolution

section Steady

theorem kept_steady {σ : Type} (c : Collaborators σ) (maxDepth : Nat) :
    Kept (Change c maxDepth) Steady where
  change hc h := by
    have hg := hc.grounded h.wired h.grounded
    have hw := hc.awaited h.claimed hg.whole h.awaited
    exact ⟨hc.claimed h.claimed, hw, hc.queued h.claimed h.awaited hg.whole h.queued,
      hc.linked h.awaited hw h.linked, hc.wired h.claimed h.awaited hg.whole h.wired, hg⟩
  sound h := h.grounded.whole _ rfl

theorem steady_initial {g : Graph} (h : g.Sound) : Steady ⟨{ graph := g }, .idle⟩ := by
  have hget : ∀ i : TaskId, ({ graph := g } : Resolution).tasks[i]? = none := by
    intro i
    rfl
  have hcopies : ∀ w, (⟨{ graph := g }, .idle⟩ : Moment).copies w = 0 := by
    intro w
    rfl
  have hwaits : ∀ i x, ¬ ({ graph := g } : Resolution).WaitsFor i x := by
    intro i x hix
    obtain ⟨t, ht, -⟩ := waitsFor_iff.1 hix
    cases ht
  refine ⟨fun q id => ?_, ⟨?_, fun i _ j g => hcopies _, ?_, fun i _ => hcopies _⟩,
    ⟨List.nodup_nil, fun id => ?_, nofun⟩, ⟨fun id hid => ?_, ?_, nofun⟩, ⟨?_, nofun⟩,
    ⟨h, fun q v hv => ?_, nofun⟩⟩
  · refine iff_of_false nofun ?_
    rintro ⟨t, ht, -⟩
    cases ht
  · intro i t ht
    cases ht
  · intro i s hs
    cases hs
  · refine iff_of_false List.not_mem_nil ?_
    rintro ⟨-, t, ht, -⟩
    cases ht
  · obtain ⟨x, hx, -⟩ := Relation.TransGen.head'_iff.1 hid
    exact hwaits id x hx
  · intro u i tu t j hu
    cases hu
  · intro i t ht
    cases ht
  · cases hv

end Steady

section Places

variable {r : Resolution} {id u : TaskId} {t : Task} {w : Waiter}

/-- Those who wait for a task that has not ended. -/
def waiters (r : Resolution) : List Waiter :=
  (r.tasks.toList.filter (!·.isFinished)).flatMap (·.waiters)

/--
Is the task waiting for inputs of its candidate? Some are open, as many as it counts, and for each
of them there is one waiter of its generation.
-/
def Parked (r : Resolution) (id : TaskId) (t : Task) : Prop :=
  ∃ s a, t.phase = .resolveInputs s a ∧ a.outstanding = a.slots.count none ∧ 0 < a.outstanding ∧
    ∀ i : Nat, a.slots[i]? = some none → r.waiters.count (.input id i t.generation) = 1

/-- No task waits for itself, and each that has not ended is in one place, and there once. -/
structure Quiescent (r : Resolution) : Prop where
  acyclic : ∀ id, ¬ Relation.TransGen r.WaitsFor id id
  places : ∀ (id : TaskId) t, r.tasks[id]? = some t → t.isFinished = false →
    r.ready.count id = 1 ∧ r.suspended.count id = 0 ∧ ¬ r.Parked id t ∨
    r.ready.count id = 0 ∧ r.suspended.count id = 1 ∧ ¬ r.Parked id t ∨
    r.ready.count id = 0 ∧ r.suspended.count id = 0 ∧ r.Parked id t

/-- Every task has ended, and every submission has its outcome. -/
structure Done (r : Resolution) : Prop where
  tasks : ∀ t ∈ r.tasks, t.isFinished
  outcomes : ∀ x ∈ r.outcomes, x.2.isSome

theorem count_waiters
    (h : ∀ (id : TaskId) t, r.tasks[id]? = some t → t.isFinished → t.waiters = []) :
    r.waiters.count w = r.copies w := by
  have hl : ∀ l : List Task, (∀ t ∈ l, t.isFinished → t.waiters = []) →
      ((l.filter (!·.isFinished)).flatMap (·.waiters)).count w =
        total (fun t => t.waiters.count w) l := by
    intro l
    induction l with
    | nil => exact fun _ => rfl
    | cons t l ih =>
      intro hl
      have ih := ih fun t ht => hl t (List.mem_cons_of_mem _ ht)
      cases hf : t.isFinished with
      | true =>
        have hw := hl t List.mem_cons_self hf
        rw [List.filter_cons_of_neg (by simp [hf]), total, hw, ih]
        simp
      | false =>
        rw [List.filter_cons_of_pos (by simp [hf]), List.flatMap_cons, List.count_append, total, ih]
  apply hl
  intro t ht
  obtain ⟨id, hid⟩ := List.mem_iff_getElem?.1 ht
  exact h id t (by simpa using hid)

theorem exists_of_mem_waiters (h : w ∈ r.waiters) : ∃ (u : TaskId) (t : Task),
    r.tasks[u]? = some t ∧ t.isFinished = false ∧ w ∈ t.waiters := by
  obtain ⟨t, ht, hw⟩ := List.mem_flatMap.1 h
  obtain ⟨ht, hf⟩ := List.mem_filter.1 ht
  obtain ⟨u, hu⟩ := List.mem_iff_getElem?.1 ht
  exact ⟨u, t, by simpa using hu, by simpa using hf, hw⟩

theorem not_canGoOn (hf : t.isFinished = false) (hc : ¬ t.CanGoOn) :
    ∃ s a, t.phase = .resolveInputs s a ∧ a.outstanding ≠ 0 := by
  cases hp : t.phase with
  | resolveInputs s a =>
    refine ⟨s, a, rfl, ?_⟩
    rwa [canGoOn_iff hp] at hc
  | committed v => simp [Task.isFinished, hp] at hf
  | failed f => simp [Task.isFinished, hp] at hf
  | resolveTarget => simp [Task.CanGoOn, hp] at hc
  | checkLiveData s => simp [Task.CanGoOn, hp] at hc
  | enumerate s => simp [Task.CanGoOn, hp] at hc
  | nextCandidate s => simp [Task.CanGoOn, hp] at hc

theorem count_eq_one {l : List TaskId} (h : l.Nodup) (hid : id ∈ l) : l.count id = 1 := by
  have hle := List.nodup_iff_count_le_one.1 h id
  have hpos := List.count_pos_iff.2 hid
  omega

variable (h : Steady ⟨r, .idle⟩)
include h

theorem quiescent_of_steady : r.Quiescent := by
  refine ⟨h.linked.acyclic, fun id t ht hf => ?_⟩
  have hmem : id ∈ r.ready ++ r.suspended ↔ t.CanGoOn := by
    refine (h.queued.mem id).trans ?_
    rw [going_iff ht]
    exact and_iff_right nofun
  by_cases hc : t.CanGoOn
  · have hone : (r.ready ++ r.suspended).count id = 1 := count_eq_one h.queued.nodup (hmem.2 hc)
    have hno : ¬ r.Parked id t := by
      rintro ⟨s, a, hp, -, hpos, -⟩
      rw [canGoOn_iff hp] at hc
      omega
    rw [List.count_append] at hone
    by_cases hr : r.ready.count id = 0
    · exact .inr (.inl ⟨hr, by omega, hno⟩)
    · exact .inl ⟨by omega, by omega, hno⟩
  · have hzero : (r.ready ++ r.suspended).count id = 0 :=
      List.count_eq_zero.2 fun hid => hc (hmem.1 hid)
    rw [List.count_append] at hzero
    obtain ⟨s, a, hp, ho⟩ := not_canGoOn hf hc
    have hw := h.awaited.tasks id t ht
    refine .inr (.inr ⟨by omega, by omega, s, a, hp, hw.outstanding s a hp, by omega, ?_⟩)
    intro i hi
    rw [count_waiters fun i t ht => (h.awaited.tasks i t ht).waiters]
    exact hw.unfilled s a i hp hi

/-- A task that has not ended, and is in no queue, waits for another one that has not ended. -/
theorem waitsFor_of_steady (hr : r.ready = []) (hs : r.suspended = []) (ht : r.tasks[id]? = some t)
    (hf : t.isFinished = false) :
    ∃ u tu, r.WaitsFor id u ∧ r.tasks[u]? = some tu ∧ tu.isFinished = false := by
  have hc : ¬ t.CanGoOn := by
    intro hc
    have hid := (h.queued.mem id).2 ⟨nofun, t, ht, hc⟩
    rw [hr, hs] at hid
    cases hid
  obtain ⟨s, a, hp, ho⟩ := not_canGoOn hf hc
  have hw := h.awaited.tasks id t ht
  -- One of its slots is open, and the waiter of that slot is at a task that has not ended.
  have hopen : none ∈ a.slots := by
    have hcount := hw.outstanding s a hp
    exact List.count_pos_iff.1 (by omega)
  obtain ⟨i, hi⟩ := List.mem_iff_getElem?.1 hopen
  have hone : r.copies (.input id i t.generation) + 0 = 1 := hw.unfilled s a i hp hi
  have hmem : .input id i t.generation ∈ r.waiters := by
    rw [← List.count_pos_iff, count_waiters fun i t ht => (h.awaited.tasks i t ht).waiters]
    exact Nat.lt_of_lt_of_eq Nat.zero_lt_one hone.symm
  obtain ⟨u, tu, hu, hfu, hmem⟩ := exists_of_mem_waiters hmem
  refine ⟨u, tu, ?_, hu, hfu⟩
  exact waitsFor_iff.2 ⟨t, ht, h.linked.waits u id tu t i hu hmem ht⟩

/-- Tasks that all wait for others would wait in a circle, as there are finitely many of them. -/
theorem done_of_steady (hr : r.ready = []) (hs : r.suspended = []) : r.Done := by
  have hall : ∀ (id : TaskId) t, r.tasks[id]? = some t → t.isFinished := by
    -- There are finitely many tasks, so waiting for one another is well founded.
    let R : Fin r.tasks.size → Fin r.tasks.size → Prop := fun x y =>
      Relation.TransGen r.WaitsFor y x
    have : IsTrans _ R := ⟨fun _ _ _ hab hbc => hbc.trans hab⟩
    have : Std.Irrefl R := ⟨fun x => h.linked.acyclic x⟩
    have hwf : WellFounded R := Finite.wellFounded_of_trans_of_irrefl R
    intro id t ht
    have hlt : id < r.tasks.size := (Array.getElem?_eq_some_iff.1 ht).1
    obtain ⟨x, hx⟩ : ∃ x : Fin r.tasks.size, x.1 = id := ⟨⟨id, hlt⟩, rfl⟩
    induction x using hwf.induction generalizing id t with
    | _ x ih =>
      subst hx
      by_contra hno
      obtain ⟨u, tu, hxu, hu, hfu⟩ := waitsFor_of_steady h hr hs ht (by simpa using hno)
      have hlt : u < r.tasks.size := (Array.getElem?_eq_some_iff.1 hu).1
      have hfin := ih ⟨u, hlt⟩ (.single hxu) u tu hu hlt rfl
      rw [hfu] at hfin
      cases hfin
  refine ⟨fun t ht => ?_, fun x hx => ?_⟩
  · obtain ⟨id, hid⟩ := Array.mem_iff_getElem?.1 ht
    exact hall id t hid
  · obtain ⟨s, hs, rfl⟩ := List.mem_map.1 hx
    obtain ⟨i, hi⟩ := List.mem_iff_getElem?.1 hs
    have hi : r.submissions[i]? = some s := by simpa using hi
    -- A submission without an outcome would have a waiter at a task, and none has waiters left.
    have hcount := h.awaited.submissions i s hi
    have hzero : r.copies (.submission i) = 0 := copies_eq_zero fun id t ht =>
      (h.awaited.tasks id t ht).waiters (hall id t ht)
    have hcount : r.copies (.submission i) + 0 = if s.outcome.isNone then 1 else 0 := hcount
    rw [hzero] at hcount
    cases ho : s.outcome with
    | none => simp [ho] at hcount
    | some o => rfl

end Places

section Pump

variable {σ : Type} {c : Collaborators σ} {maxDepth : Nat} {r s : Resolution} {flag : Ask σ Bool}
  {w : σ}

theorem requeue_ne_stop {id : TaskId} {ready : List TaskId} (hr : r.ready = id :: ready)
    {x : Turn × Resolution} (h : Advances maxDepth { r with ready } x) (status : PumpStatus) :
    requeue hr x h ≠ .stop (.ok status) s := by
  obtain ⟨turn, s'⟩ := x
  cases turn <;> exact nofun

theorem round_finished (h : (r.round c maxDepth flag w).1 = .stop (.ok .finished) s) :
    s.ready = [] ∧ s.suspended = [] := by
  unfold round at h
  dsimp only at h
  split at h
  next hr =>
    unfold idle at h
    split at h
    next hs =>
      cases h
      exact ⟨hr, List.isEmpty_iff.1 hs⟩
    next =>
      split at h <;> cases h
  next id ready hr =>
    split at h
    · cases h
    · exact absurd h (requeue_ne_stop hr _ _)

theorem round_cancelled (h : (r.round c maxDepth flag w).1 = .stop (.ok .cancelled) s) :
    s = r.cancel := by
  unfold round at h
  dsimp only at h
  split at h
  next hr =>
    unfold idle at h
    split at h
    · cases h
    · split at h <;> cases h
      rfl
  next id ready hr =>
    split at h
    · cases h
      rfl
    · exact absurd h (requeue_ne_stop hr _ _)

theorem raised_of_round_cancelled (h : (r.round c maxDepth flag w).1 = .stop (.ok .cancelled) s) :
    (flag w).1 = true := by
  by_contra hlowered
  have hlowered := Bool.eq_false_of_not_eq_true hlowered
  unfold round at h
  simp only [hlowered] at h
  split at h
  next =>
    unfold idle at h
    split at h
    · cases h
    · cases h
  next id ready hr =>
    rw [if_neg Bool.false_ne_true] at h
    exact absurd h (requeue_ne_stop hr _ _)

theorem exists_round_of_pump {status : PumpStatus}
    (h : (r.pump c maxDepth flag w).1 = (.ok status, s)) :
    ∃ r' w', ((r' : Resolution).round c maxDepth flag w').1 = .stop (.ok status) s := by
  induction r, w using pump.induct c maxDepth flag with
  | case1 r w s' less w' hx ih =>
    rw [pump, hx] at h
    exact ih h
  | case2 r w status s' w' hx =>
    rw [pump, hx] at h
    cases h
    exact ⟨r, w, congrArg Prod.fst hx⟩

theorem pump_finished (h : (r.pump c maxDepth flag w).1 = (.ok .finished, s)) :
    s.ready = [] ∧ s.suspended = [] := by
  obtain ⟨r', w', h⟩ := exists_round_of_pump h
  exact round_finished h

theorem call_pump {status : PumpStatus} (h : (r.pump c maxDepth flag w).1 = (.ok status, s)) :
    (r.call c maxDepth (.pump flag w)).2 = s := by
  show (r.pumped c maxDepth flag w).2 = s
  unfold pumped
  rw [h]

theorem done_of_pump (hr : Steady ⟨r, .idle⟩)
    (h : (r.pump c maxDepth flag w).1 = (.ok .finished, s)) : s.Done := by
  obtain ⟨hready, hsuspended⟩ := pump_finished h
  have hs := ((kept_steady c maxDepth).call hr (.pump flag w)).2
  rw [call_pump h] at hs
  exact done_of_steady hs hready hsuspended

end Pump

theorem steady_afterCalls {σ : Type} (c : Collaborators σ) (maxDepth : Nat) {g : Graph}
    (h : g.Sound) (calls : List (Call σ)) :
    Steady ⟨afterCalls c maxDepth { graph := g } calls, .idle⟩ :=
  (kept_steady c maxDepth).afterCalls (steady_initial h) calls

end Resolution

end ValueGraph
