import ValueGraph.Proofs.Resolution.Growth

namespace ValueGraph

variable {σ : Type} {c : Collaborators σ} {maxDepth : Nat} {m m' : Moment}

section Requirements

namespace Resolution

variable {r : Resolution} {q : Requirement}

def requirements (r : Resolution) : List Requirement :=
  r.submissions.toList.map (·.requirement)

theorem requirements_modify {f : Submission → Submission} {i : Nat}
    (hf : ∀ s, (f s).requirement = s.requirement) :
    (r.submissions.modify i f).toList.map (·.requirement) = r.requirements := by
  unfold requirements
  rw [Array.toList_modify]
  apply List.ext_getElem?
  intro j
  simp only [List.getElem?_map, List.getElem?_modify]
  split
  · cases r.submissions.toList[j]? <;> simp [hf]
  · simp

theorem requirements_cancel : r.cancel.requirements = r.requirements := by
  unfold requirements Resolution.cancel
  simp only [Array.toList_map, List.map_map]
  apply List.map_congr_left
  intro s _
  simp only [Function.comp_apply]
  split <;> rfl

theorem requirements_submit {o : Option Outcome} :
    (r.submit q o).requirements = r.requirements ++ [q] := by
  simp [requirements, submit]

theorem requirements_add : (r.add maxDepth q).2.requirements = r.requirements ++ [q] := by
  obtain ⟨v, -, h⟩ | ⟨f, -, h⟩ | ⟨u, -, h⟩ | ⟨-, h⟩ := r.add_cases maxDepth q
  · rw [h]
    cases r.graph.mark q v <;> exact requirements_submit
  · rw [h]
    exact requirements_submit
  · rw [h]
    exact requirements_submit (r := r) (o := none)
  · rw [h]
    exact requirements_submit (r := r) (o := none)

end Resolution

theorem Acts.requirements (h : Acts c maxDepth m m') :
    m'.resolution.requirements = m.resolution.requirements := by
  cases h with
  | take => rfl
  | amid hm hc =>
    cases hc with
    | mark | note => exact Resolution.requirements_modify fun _ => rfl
    | take | resume | cancel | submitKnown | submitRefused | submitFailed | submitJoin
    | submitSpawn => exact absurd rfl hm
    | again | block | park | pass | found | move | takeUp | known | join | spawn | giveUp | asked
    | add | refuseNode | settle | stale | fill | fillLast | fail | lost | refuseMark | told => rfl

def Resolution.Call.submits : Resolution.Call σ → List Requirement
  | .add q => [q]
  | _ => []

namespace Resolution

variable {r : Resolution}

theorem requirements_of_rests (c : Collaborators σ) (maxDepth : Nat)
    {x : Option GraphError × Resolution} (h : Steady ⟨r, .idle⟩)
    (hx : Rests (fun m m' => Change c maxDepth m m' ∧
      m'.resolution.requirements = m.resolution.requirements) ⟨r, .idle⟩ x) :
    x.2.requirements = r.requirements := by
  have hkept : Kept (fun m m' => Change c maxDepth m m' ∧
      m'.resolution.requirements = m.resolution.requirements) fun m =>
      Steady m ∧ m.resolution.requirements = r.requirements :=
    ⟨fun hc hm => ⟨(kept_steady c maxDepth).change hc.1 hm.1, hc.2.trans hm.2⟩,
      fun hm => (kept_steady c maxDepth).sound hm.1⟩
  exact (hkept.rests ⟨h, rfl⟩ hx).2.2

theorem requirements_call (h : Steady ⟨r, .idle⟩) (x : Call σ) :
    (r.call c maxDepth x).2.requirements = r.requirements ++ x.submits := by
  cases x with
  | add q => exact requirements_add
  | resume => exact (List.append_nil _).symm
  | cancel => exact requirements_cancel.trans (List.append_nil _).symm
  | round flag w =>
    exact (requirements_of_rests c maxDepth h (rests_round
      (fun ha => ⟨ha.change, ha.requirements⟩) fun _ _ => ⟨.cancel, requirements_cancel⟩)).trans
      (List.append_nil _).symm
  | pump flag w =>
    exact (requirements_of_rests c maxDepth h (rests_pump
      (fun ha => ⟨ha.change, ha.requirements⟩) fun _ _ => ⟨.cancel, requirements_cancel⟩)).trans
      (List.append_nil _).symm

theorem requirements_afterCalls (h : Steady ⟨r, .idle⟩) (calls : List (Call σ)) :
    (r.afterCalls c maxDepth calls).requirements = r.requirements ++ calls.flatMap (·.submits) := by
  induction calls generalizing r with
  | nil => simp [afterCalls]
  | cons x calls ih =>
    have hx := (kept_steady c maxDepth).call h x
    rw [List.flatMap_cons, ← List.append_assoc, ← requirements_call h]
    exact ih hx.2

theorem map_fst_outcomes : r.outcomes.map Prod.fst = r.requirements := by
  simp [outcomes, requirements]

/--
After any calls, whatever the collaborators have answered, no task is lost, and the outcomes are
those of the requirements submitted, in their order. When a pump says that nothing is left to run,
nothing is left at all: every task has ended, and each of these requirements has its outcome.
-/
theorem quiescent_afterCalls (c : Collaborators σ) (maxDepth : Nat) (configuration : String)
    (os : List Graph.Operation) (calls : List (Call σ)) :
    let r := afterCalls c maxDepth { graph := Graph.after configuration os } calls
    Quiescent r ∧ r.outcomes.map Prod.fst = calls.flatMap (·.submits) ∧
      ∀ flag w s, (r.pump c maxDepth flag w).1 = (.ok .finished, s) →
        Done s ∧ s.outcomes.map Prod.fst = calls.flatMap (·.submits) := by
  intro r
  have hsound : (Graph.after configuration os).Sound := Graph.sound_after _ os
  have hr : Steady ⟨r, .idle⟩ := steady_afterCalls c maxDepth hsound calls
  have hrequirements : r.requirements = calls.flatMap (·.submits) :=
    requirements_afterCalls (steady_initial hsound) calls
  refine ⟨quiescent_of_steady hr, map_fst_outcomes.trans hrequirements, fun flag w s h => ?_⟩
  have hcall : (r.call c maxDepth (.pump flag w)).2.requirements = r.requirements ++ [] :=
    requirements_call hr (.pump flag w)
  rw [call_pump h, hrequirements, List.append_nil] at hcall
  exact ⟨done_of_pump hr h, map_fst_outcomes.trans hcall⟩

theorem exists_added (maxDepth : Nat) (r : Resolution) (q : Requirement) :
    ∃ s, (r.add maxDepth q).2.submissions[r.submissions.size]? = some s ∧ s.requirement = q := by
  have hsize : r.requirements.length = r.submissions.size := by
    simp [requirements]
  have hq : (r.add maxDepth q).2.requirements[r.submissions.size]? = some q := by
    rw [requirements_add, ← hsize, List.getElem?_concat_length]
  simpa [requirements] using hq

section Stay

variable (c maxDepth) (h : Steady ⟨r, .idle⟩) (calls : List (Call σ))
include h

theorem requirement_afterCalls {i : Nat} (hi : i < r.submissions.size) :
    ((r.afterCalls c maxDepth calls).submissions[i]?).map (·.requirement) =
      (r.submissions[i]?).map (·.requirement) := by
  have hget : ∀ r : Resolution, (r.submissions[i]?).map (·.requirement) = r.requirements[i]? := by
    intro r
    simp [requirements]
  have hlt : i < r.requirements.length := by
    simpa [requirements] using hi
  rw [hget, hget, requirements_afterCalls h, List.getElem?_append_left hlt]

theorem exists_after {i : Nat} {s : Submission} (hs : r.submissions[i]? = some s) :
    ∃ s', (r.afterCalls c maxDepth calls).submissions[i]? = some s' ∧
      s'.requirement = s.requirement := by
  have hq := requirement_afterCalls c maxDepth h calls (Array.getElem?_eq_some_iff.1 hs).1
  rw [hs] at hq
  exact Option.map_eq_some_iff.1 hq

theorem exists_before {i : Nat} {s : Submission} (hi : i < r.submissions.size)
    (hs : (r.afterCalls c maxDepth calls).submissions[i]? = some s) :
    ∃ s₀, r.submissions[i]? = some s₀ ∧ s₀.requirement = s.requirement := by
  have hq := requirement_afterCalls c maxDepth h calls hi
  rw [hs] at hq
  exact Option.map_eq_some_iff.1 hq.symm

end Stay

end Resolution

end Requirements

section Requests

/-- Is the requirement asked for between these moments, on behalf of that waiter, and how deep? -/
inductive Moment.Requests (m m' : Moment) : Requirement → Waiter → Nat → Prop
  | input {id t s a q} (hm : m.activity = .asking id) (ht : m.resolution.tasks[id]? = some t)
    (hp : t.phase = .resolveInputs s a) (hq : a.next? = some q) :
    Requests m m' q (.input id a.slots.length t.generation) (t.depth + 1)
  | submission {q} (hm : m.activity = .idle)
    (hr : m'.resolution.requirements = m.resolution.requirements ++ [q]) :
    Requests m m' q (.submission m.resolution.submissions.size) 0

/-- Once the task `u` is there in `r`, does only the task that asked for it, if any, change? -/
def Moment.Awaits (m m' : Moment) (w : Waiter) (d : Nat) (u : TaskId) (r : Resolution) : Prop :=
  m'.resolution.tasks = r.tasks ∨
    ∃ id slot t p, w = .input id slot t.generation ∧ d = t.depth + 1 ∧ id ≠ u ∧
      m.resolution.tasks[id]? = some t ∧
      r.Puts m'.resolution id { t with waitingOn := t.waitingOn.insert u, phase := p }

/--
What a change makes of the tasks. One of them may go on or end, or all are cancelled. On a request,
one of them gets a waiter or is new, before who has asked for it comes to wait for it.
-/
inductive TaskChange (m m' : Moment) : Prop
  | same (h : m'.resolution.tasks = m.resolution.tasks)
  | cancelled (ha : m.activity = .idle) (hm : m' = ⟨m.resolution.cancel, .idle⟩)
  | ended {id t o} (ht : m.resolution.tasks[id]? = some t)
    (ha : m'.activity = .telling id o t.waiters)
    (hx : m.resolution.Puts m'.resolution id
      { t with phase := .ofOutcome o, waiters := [], waitingOn := ∅ })
  | wentOn {id t t'} (ht : m.resolution.tasks[id]? = some t)
    (hx : m.resolution.Puts m'.resolution id t') (hq : t'.requirement = t.requirement)
    (hd : t'.depth = t.depth) (hw : t'.waiters = t.waiters)
    (hs : ∀ x ∈ t'.waitingOn, x ∈ t.waitingOn)
  | joined {q w d u t r} (hr : m.Requests m' q w d) (ht : m.resolution.tasks[u]? = some t)
    (hq : t.requirement = q) (hu : m.resolution.Puts r u { t with waiters := t.waiters ++ [w] })
    (ha : m.Awaits m' w d u r)
  | spawned {q w d u r} (hr : m.Requests m' q w d) (hn : m.resolution.tasks[u]? = none)
    (hu : m.resolution.Puts r u { requirement := q, depth := d, waiters := [w] })
    (ha : m.Awaits m' w d u r)

theorem Change.taskChange (hc : Change c maxDepth m m') (hclaimed : m.resolution.Claimed) :
    TaskChange m m' := by
  cases hc with
  | take | again | block | park | pass | resume | asked | add | refuseNode | stale | lost | mark
  | refuseMark | note | told | submitKnown | submitRefused | submitFailed => exact .same rfl
  | cancel => exact .cancelled rfl rfl
  | settle ht he => exact .ended ht rfl (Resolution.puts_settle ht)
  | found ht =>
    exact .wentOn ht (Resolution.puts_modifyTask ht) rfl rfl rfl fun _ hx => hx
  | move ht | takeUp ht | known ht =>
    exact .wentOn ht (Resolution.puts_setPhase ht) rfl rfl rfl fun _ hx => hx
  | @giveUp r id t s a q cause ht | @fail r u cause id t s a slot ws ht =>
    exact .wentOn ht
      (Resolution.puts_modify (f := fun t => t.abandon s a.candidate cause) rfl ht) rfl rfl rfl
      fun _ hx => absurd hx SortedSet.not_mem_empty
  | fill ht | fillLast ht =>
    exact .wentOn ht (Resolution.puts_fillSlot ht) rfl rfl rfl fun _ hx =>
      (SortedSet.mem_erase.1 hx).1
  | @join r id t s a q u ht hp hq hg hn =>
    obtain ⟨tu, hu, htu, -⟩ := (hclaimed q u).1 hg
    have hne := Resolution.ne_of_closesCircle hn
    exact .joined (.input rfl ht hp hq) hu htu (Resolution.puts_addWaiter hu) <|
      .inr ⟨id, _, t, _, rfl, rfl, Ne.symm hne, ht,
        Resolution.puts_asking (Resolution.tasks_addWaiter_of_ne ht hne)⟩
  | @spawn r id t s a q ht hp hq hg hd =>
    have hne : id ≠ r.tasks.size := Nat.ne_of_lt (Array.getElem?_eq_some_iff.1 ht).1
    exact .spawned (.input rfl ht hp hq) (Array.getElem?_eq_none (Nat.le_refl _))
      Resolution.puts_spawn <|
      .inr ⟨id, _, t, _, rfl, rfl, hne, ht,
        Resolution.puts_asking (Resolution.tasks_spawn_of_some ht)⟩
  | @submitJoin r q u hg =>
    obtain ⟨tu, hu, htu, -⟩ := (hclaimed q u).1 hg
    exact .joined (.submission rfl Resolution.requirements_submit) hu htu
      (Resolution.puts_addWaiter (r := r.submit q) hu) (.inl rfl)
  | submitSpawn =>
    exact .spawned (.submission rfl Resolution.requirements_submit)
      (Array.getElem?_eq_none (Nat.le_refl _)) Resolution.puts_spawn (.inl rfl)

structure Moment.Continues (m m' : Moment) (u : TaskId) (t t' : Task) : Prop where
  requirement : t'.requirement = t.requirement
  depth : t'.depth = t.depth
  waiters : ∀ w ∈ t'.waiters, w ∈ t.waiters ∨ ∃ d, m.Requests m' t.requirement w d
  waitingOn : ∀ x ∈ t'.waitingOn, x ∈ t.waitingOn ∨
    ∃ q d tx, m.Requests m' q (.input u d t.generation) (t.depth + 1) ∧
      m'.resolution.tasks[x]? = some tx ∧ tx.requirement = q

theorem Moment.Continues.refl {u : TaskId} {t : Task} : m.Continues m' u t t :=
  ⟨rfl, rfl, fun _ hw => .inl hw, fun _ hx => .inl hx⟩

theorem Moment.Awaits.before {q : Requirement} {w : Waiter} {d : Nat} {i u : TaskId}
    {r : Resolution} {x t' : Task} (ha : m.Awaits m' w d u r) (hr : m.Requests m' q w d)
    (hx : r.tasks[u]? = some x) (hq : x.requirement = q)
    (ht' : m'.resolution.tasks[i]? = some t') :
    r.tasks[i]? = some t' ∨
      ∃ t, m.resolution.tasks[i]? = some t ∧ m.Continues m' i t t' := by
  rcases ha with he | ⟨id, slot, t, p, rfl, rfl, hne, ht, hputs⟩
  · exact .inl (he ▸ ht')
  · rcases hputs.self_or_other ht' with ⟨rfl, rfl⟩ | ⟨-, ht'⟩
    · refine .inr ⟨t, ht, rfl, rfl, fun w hw => .inl hw, fun y hy => ?_⟩
      rcases SortedSet.mem_insert.1 hy with rfl | hy
      · exact .inr ⟨q, _, x, hr, (hputs.other hne).trans hx, hq⟩
      · exact .inl hy
    · exact .inl ht'

/-- Each task was there before, or comes of a request. -/
theorem TaskChange.origin {u : TaskId} {t' : Task} (h : TaskChange m m')
    (ht' : m'.resolution.tasks[u]? = some t') :
    (∃ t, m.resolution.tasks[u]? = some t ∧ m.Continues m' u t t') ∨
      m.resolution.tasks[u]? = none ∧
        ∃ w, m.Requests m' t'.requirement w t'.depth ∧ t'.waiters = [w] ∧ t'.waitingOn = ∅ := by
  cases h with
  | same h => exact .inl ⟨t', h ▸ ht', .refl⟩
  | cancelled ha hm =>
    subst hm
    simp only [Resolution.cancel, Array.getElem?_map, Option.map_eq_some_iff] at ht'
    obtain ⟨t, ht, rfl⟩ := ht'
    refine .inl ⟨t, ht, ?_⟩
    split
    · exact .refl
    · exact ⟨rfl, rfl, fun _ hw => absurd hw List.not_mem_nil,
        fun _ hx => absurd hx SortedSet.not_mem_empty⟩
  | ended ht ha hx =>
    rcases hx.self_or_other ht' with ⟨rfl, rfl⟩ | ⟨-, ht'⟩
    · exact .inl ⟨_, ht, rfl, rfl, fun _ hw => absurd hw List.not_mem_nil,
        fun _ hx => absurd hx SortedSet.not_mem_empty⟩
    · exact .inl ⟨t', ht', .refl⟩
  | wentOn ht hx hq hd hw hs =>
    rcases hx.self_or_other ht' with ⟨rfl, rfl⟩ | ⟨-, ht'⟩
    · exact .inl ⟨_, ht, hq, hd, fun w hw' => .inl (hw ▸ hw'), fun x hx' => .inl (hs x hx')⟩
    · exact .inl ⟨t', ht', .refl⟩
  | @joined q w d u' t r hr ht hq hu ha =>
    rcases ha.before hr hu.self hq ht' with ht' | hcont
    · rcases hu.self_or_other ht' with ⟨rfl, rfl⟩ | ⟨-, ht'⟩
      · refine .inl ⟨t, ht, rfl, rfl, fun w' hw' => ?_, fun x hx' => .inl hx'⟩
        rcases List.mem_append.1 hw' with hw' | hw'
        · exact .inl hw'
        · rw [List.mem_singleton.1 hw', hq]
          exact .inr ⟨d, hr⟩
      · exact .inl ⟨t', ht', .refl⟩
    · exact .inl hcont
  | spawned hr hn hu ha =>
    rcases ha.before hr hu.self rfl ht' with ht' | hcont
    · rcases hu.self_or_other ht' with ⟨rfl, rfl⟩ | ⟨-, ht'⟩
      · exact .inr ⟨hn, _, hr, rfl, rfl⟩
      · exact .inl ⟨t', ht', .refl⟩
    · exact .inl hcont

theorem Resolution.Puts.exists_waiters {r r' : Resolution} {id u : TaskId} {t x : Task}
    {ws : List Waiter} (hx : r.Puts r' id x) (ht : r.tasks[u]? = some t) (hws : ws ⊆ t.waiters)
    (hself : id = u → ws ⊆ x.waiters) : ∃ t', r'.tasks[u]? = some t' ∧ ws ⊆ t'.waiters := by
  by_cases hid : id = u
  · exact ⟨x, hid ▸ hx.self, hself hid⟩
  · exact ⟨t, (hx.other hid).trans ht, hws⟩

theorem Moment.Awaits.exists_waiters {w : Waiter} {d : Nat} {i u : TaskId} {r : Resolution}
    {t t₁ : Task} (ha : m.Awaits m' w d u r) (ht : m.resolution.tasks[i]? = some t)
    (ht₁ : r.tasks[i]? = some t₁) (hws : t.waiters ⊆ t₁.waiters) :
    ∃ t', m'.resolution.tasks[i]? = some t' ∧ t.waiters ⊆ t'.waiters := by
  rcases ha with he | ⟨id, slot, t₀, p, -, -, -, ht₀, hputs⟩
  · exact ⟨t₁, he ▸ ht₁, hws⟩
  · refine hputs.exists_waiters ht₁ hws fun hid => ?_
    subst hid
    rw [ht] at ht₀
    cases ht₀
    exact List.Subset.refl _

/-- Who waits for a task waits on, is to be told how it has ended, or sees everything cancelled. -/
theorem TaskChange.waiters {u : TaskId} {t : Task} (h : TaskChange m m')
    (ht : m.resolution.tasks[u]? = some t) :
    (∃ t', m'.resolution.tasks[u]? = some t' ∧ t.waiters ⊆ t'.waiters) ∨
      (∃ o, m'.activity = .telling u o t.waiters) ∨
      m.activity = .idle ∧ m' = ⟨m.resolution.cancel, .idle⟩ := by
  cases h with
  | same h => exact .inl ⟨t, h ▸ ht, List.Subset.refl _⟩
  | cancelled ha hm => exact .inr (.inr ⟨ha, hm⟩)
  | @ended id t₀ o ht₀ ha hx =>
    by_cases hid : id = u
    · subst hid
      rw [ht] at ht₀
      cases ht₀
      exact .inr (.inl ⟨o, ha⟩)
    · exact .inl ⟨t, (hx.other hid).trans ht, List.Subset.refl _⟩
  | wentOn ht₀ hx hq hd hw hs =>
    refine .inl (hx.exists_waiters ht (List.Subset.refl _) fun hid => ?_)
    subst hid
    rw [ht] at ht₀
    cases ht₀
    exact hw ▸ List.Subset.refl _
  | @joined q w d u' t₀ r hr ht₀ hq hu ha =>
    obtain ⟨t₁, ht₁, hws⟩ := hu.exists_waiters ht (List.Subset.refl _) fun hid => by
      subst hid
      rw [ht] at ht₀
      cases ht₀
      exact List.subset_append_left _ _
    exact .inl (ha.exists_waiters ht ht₁ hws)
  | @spawned q w d u' r hr hn hu ha =>
    obtain ⟨t₁, ht₁, hws⟩ := hu.exists_waiters ht (List.Subset.refl _) fun hid => by
      subst hid
      rw [ht] at hn
      cases hn
    exact .inl (ha.exists_waiters ht ht₁ hws)

theorem Change.size_le (hc : Change c maxDepth m m') :
    m.resolution.tasks.size ≤ m'.resolution.tasks.size := by
  cases hc with
  | take | again | block | park | pass | resume | asked | add | refuseNode | stale | lost | mark
  | refuseMark | note | told | submitKnown | submitRefused | submitFailed => exact Nat.le_refl _
  | cancel | found | move | takeUp | known | join | giveUp | settle | fill | fillLast | fail
  | submitJoin =>
    simp [Resolution.cancel, Resolution.settle, Resolution.fillSlot, Resolution.addWaiter,
      Resolution.awaitTask, Resolution.setPhase, Resolution.modifyTask, Resolution.submit]
  | spawn | submitSpawn =>
    simp [Resolution.spawn, Resolution.awaitTask, Resolution.setPhase, Resolution.modifyTask,
      Resolution.submit]

theorem Change.exists_task {u : TaskId} {t : Task} (hc : Change c maxDepth m m')
    (hclaimed : m.resolution.Claimed) (ht : m.resolution.tasks[u]? = some t) :
    ∃ t', m'.resolution.tasks[u]? = some t' ∧ t'.requirement = t.requirement := by
  have hlt : u < m'.resolution.tasks.size :=
    Nat.lt_of_lt_of_le (Array.getElem?_eq_some_iff.1 ht).1 hc.size_le
  refine ⟨m'.resolution.tasks[u], Array.getElem?_eq_getElem hlt, ?_⟩
  rcases (hc.taskChange hclaimed).origin (Array.getElem?_eq_getElem hlt) with
    ⟨t₀, ht₀, hcont⟩ | ⟨hnone, -⟩
  · rw [ht] at ht₀
    cases ht₀
    exact hcont.requirement
  · rw [ht] at hnone
    cases hnone

end Requests

section Addressed

theorem Change.requirements_prefix (hc : Change c maxDepth m m') :
    m.resolution.requirements <+: m'.resolution.requirements := by
  have hsame : m'.resolution.requirements = m.resolution.requirements →
      m.resolution.requirements <+: m'.resolution.requirements := fun he => he ▸ List.prefix_rfl
  cases hc with
  | take | again | block | park | pass | resume | found | move | takeUp | known | join | spawn
  | giveUp | asked | add | refuseNode | settle | stale | fill | fillLast | fail | lost | refuseMark
  | told | submitRefused => exact List.prefix_rfl
  | mark | note => exact hsame (Resolution.requirements_modify fun _ => rfl)
  | cancel => exact hsame Resolution.requirements_cancel
  | submitKnown | submitFailed | submitJoin | submitSpawn =>
    exact ⟨_, Resolution.requirements_submit.symm⟩

/-- Those who are told how a task ends are told one after another, from when it ends. -/
theorem Change.telling {u : TaskId} {o : Outcome} {ws : List Waiter} (hc : Change c maxDepth m m')
    (ha : m'.activity = .telling u o ws) :
    (∃ w, m.activity = .telling u o (w :: ws)) ∨
      ∃ t, m.activity = .turn u ∧ m.resolution.tasks[u]? = some t ∧ ws = t.waiters ∧
        Ends c m.resolution.graph t o ∧ m'.resolution = m.resolution.settle u t o := by
  cases hc with
  | settle ht he =>
    cases ha
    exact .inr ⟨_, rfl, ht, rfl, he, rfl⟩
  | stale | fill | fillLast | fail | lost | mark | note =>
    cases ha
    exact .inl ⟨_, rfl⟩
  | take | again | block | park | pass | resume | cancel | found | move | takeUp | known | join
  | spawn | giveUp | asked | add | refuseNode | refuseMark | told | submitKnown | submitRefused
  | submitFailed | submitJoin | submitSpawn => cases ha

/-- Does each submission wait for a task of its own requirement? -/
def Addressed (m : Moment) : Prop :=
  ∀ (i : Nat) q, m.Expects (.submission i) q → m.resolution.requirements[i]? = some q

theorem Change.addressed (hc : Change c maxDepth m m') (hclaimed : m.resolution.Claimed)
    (h : Addressed m) : Addressed m' := by
  have hold : ∀ (i : Nat) q, m.Expects (.submission i) q →
      m'.resolution.requirements[i]? = some q := by
    intro i q hx
    obtain ⟨l, hl⟩ := hc.requirements_prefix
    have hi := h i q hx
    rw [← hl, List.getElem?_append_left (List.getElem?_eq_some_iff.1 hi).1]
    exact hi
  have hnew : ∀ (i d : Nat) q, m.Requests m' q (.submission i) d →
      m'.resolution.requirements[i]? = some q := by
    intro i d q hx
    cases hx with
    | submission hm hr =>
      have hsize : m.resolution.submissions.size = m.resolution.requirements.length := by
        simp [Resolution.requirements]
      rw [hr, hsize, List.getElem?_concat_length]
  rintro i q ⟨u, t', ht', rfl, hw⟩
  rcases hw with hw | ⟨o, ws, ha, hw⟩
  · rcases (hc.taskChange hclaimed).origin ht' with ⟨t, ht, hcont⟩ | ⟨-, w, hx, hws, -⟩
    · rw [hcont.requirement]
      rcases hcont.waiters _ hw with hw | ⟨d, hx⟩
      · exact hold i _ ⟨u, t, ht, rfl, .inl hw⟩
      · exact hnew i d _ hx
    · rw [hws, List.mem_singleton] at hw
      subst hw
      exact hnew i _ _ hx
  · have htold := hc.telling ha
    -- Nothing is asked for as a task ends and tells.
    have hno : ∀ q w d, ¬ m.Requests m' q w d := by
      intro q w d hx
      rcases htold with ⟨w', ha'⟩ | ⟨t, ha', -⟩
      · cases hx with
        | input hm | submission hm =>
          rw [hm] at ha'
          cases ha'
      · cases hx with
        | input hm | submission hm =>
          rw [hm] at ha'
          cases ha'
    rcases (hc.taskChange hclaimed).origin ht' with ⟨t, ht, hcont⟩ | ⟨-, w, hx, -⟩
    · rw [hcont.requirement]
      rcases htold with ⟨w', ha'⟩ | ⟨t₀, -, ht₀, rfl, -⟩
      · exact hold i _ ⟨u, t, ht, rfl, .inr ⟨o, _, ha', List.mem_cons_of_mem _ hw⟩⟩
      · rw [ht] at ht₀
        cases ht₀
        exact hold i _ ⟨u, t, ht, rfl, .inl hw⟩
    · exact absurd hx (hno _ _ _)

theorem addressed_initial {g : Graph} : Addressed ⟨{ graph := g }, .idle⟩ := by
  rintro i q ⟨u, t, ht, -⟩
  cases ht

theorem Addressed.requirement_eq {r : Resolution} {u : TaskId} {t : Task} {o : Outcome} {i : Nat}
    {s : Submission} {ws : List Waiter}
    (h : Addressed ⟨r, .telling u o (.submission i :: ws)⟩) (ht : r.tasks[u]? = some t)
    (hs : r.submissions[i]? = some s) : s.requirement = t.requirement := by
  have hq := h i t.requirement ⟨u, t, ht, rfl, .inr ⟨_, _, rfl, List.mem_cons_self⟩⟩
  simpa [Resolution.requirements, hs] using hq

end Addressed

end ValueGraph
