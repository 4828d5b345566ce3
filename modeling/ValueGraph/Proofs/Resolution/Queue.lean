import ValueGraph.Proofs.Resolution.Waiters

namespace ValueGraph

def Moment.hand (m : Moment) : Option TaskId :=
  match m.activity with
  | .turn id | .asking id => some id
  | _ => none

def Resolution.Going (r : Resolution) (id : TaskId) : Prop :=
  ∃ t, r.tasks[id]? = some t ∧ t.CanGoOn

/-- Every task that can go on is in a queue or in hand. -/
structure Queued (m : Moment) : Prop where
  nodup : (m.resolution.ready ++ m.resolution.suspended).Nodup
  mem : ∀ id, id ∈ m.resolution.ready ++ m.resolution.suspended ↔
    m.hand ≠ some id ∧ m.resolution.Going id
  hand : ∀ id : TaskId, m.hand = some id →
    ∃ t, m.resolution.tasks[id]? = some t ∧ t.isFinished = false

namespace Resolution

variable {r : Resolution} {id i u : TaskId} {t : Task} {w : Waiter}

theorem going_iff (ht : r.tasks[id]? = some t) : r.Going id ↔ t.CanGoOn := by
  unfold Going
  rw [ht]
  simp

theorem going_congr {r' : Resolution} (h : r'.tasks[i]? = r.tasks[i]?) :
    r'.Going i ↔ r.Going i := by
  unfold Going
  rw [h]

theorem going_put {x : Task} (h : r.Puts r' id x) :
    r'.Going i ↔ i = id ∧ x.CanGoOn ∨ i ≠ id ∧ r.Going i := by
  by_cases hi : i = id
  · subst hi
    rw [going_iff h.self]
    simp
  · rw [going_congr (h.other (Ne.symm hi))]
    simp [hi]

theorem going_put_other {x : Task} (h : r.Puts r' id x) (hi : i ≠ id) :
    r'.Going i ↔ r.Going i := by
  simp [going_put h, hi]

theorem going_addWaiter : (r.addWaiter u w).Going i ↔ r.Going i := by
  unfold Going addWaiter
  rw [tasks_modifyTask]
  by_cases hi : u = i
  · rw [if_pos hi]
    cases r.tasks[i]? with
    | none => simp
    | some t => simp [Task.CanGoOn]
  · rw [if_neg hi]

theorem going_spawn {q : Requirement} {d : Nat} :
    (r.spawn q w d).Going i ↔ i = r.tasks.size ∨ r.Going i := by
  unfold Going
  rw [tasks_spawn]
  by_cases hi : i = r.tasks.size
  · rw [if_pos hi]
    exact iff_of_true ⟨_, rfl, trivial⟩ (.inl hi)
  · rw [if_neg hi]
    simp [hi]

theorem going_settle {o : Outcome} : (r.settle id t o).Going i ↔ id ≠ i ∧ r.Going i := by
  unfold Going
  rw [tasks_settle]
  by_cases hi : id = i
  · rw [if_pos hi]
    refine iff_of_false ?_ fun h => h.1 hi
    rintro ⟨t', ht', hc⟩
    obtain ⟨t, -, rfl⟩ := Option.map_eq_some_iff.1 ht'
    cases o <;> exact hc
  · rw [if_neg hi]
    simp [hi]

end Resolution

section Changes

variable {σ : Type} {c : Collaborators σ} {maxDepth : Nat} {m m' : Moment} {id : TaskId}

theorem Queued.inHand (h : Queued m) (hm : m.hand = some id) (hm' : m'.hand = some id)
    (hr : m'.resolution.ready = m.resolution.ready)
    (hs : m'.resolution.suspended = m.resolution.suspended)
    (hg : ∀ i, i ≠ id → (m'.resolution.Going i ↔ m.resolution.Going i))
    (ht : ∃ t, m'.resolution.tasks[id]? = some t ∧ t.isFinished = false) : Queued m' := by
  refine ⟨?_, fun i => ?_, fun i hi => ?_⟩
  · rw [hr, hs]
    exact h.nodup
  · rw [hr, hs, h.mem, hm, hm']
    refine and_congr_right fun hi => (hg i ?_).symm
    rintro rfl
    exact hi rfl
  · rw [hm'] at hi
    cases hi
    exact ht

theorem Queued.congr (h : Queued m) (hm : m'.hand = m.hand)
    (hr : m'.resolution.ready = m.resolution.ready)
    (hs : m'.resolution.suspended = m.resolution.suspended)
    (hg : ∀ i, m'.resolution.Going i ↔ m.resolution.Going i)
    (ht : m.hand = none) : Queued m' := by
  refine ⟨?_, fun i => ?_, fun i hi => ?_⟩
  · rw [hr, hs]
    exact h.nodup
  · rw [hr, hs, h.mem, hm, hg]
  · rw [hm, ht] at hi
    cases hi

theorem Queued.append (h : Queued m) (id : TaskId) (hm : m'.hand = m.hand)
    (hr : m'.resolution.ready = m.resolution.ready ++ [id])
    (hs : m'.resolution.suspended = m.resolution.suspended) (hid : m.hand ≠ some id)
    (hnew : ¬ m.resolution.Going id)
    (hg : ∀ i, m.hand ≠ some i → (m'.resolution.Going i ↔ i = id ∨ m.resolution.Going i))
    (hhand : ∀ i : TaskId, m.hand = some i →
      ∃ t, m'.resolution.tasks[i]? = some t ∧ t.isFinished = false) : Queued m' := by
  -- It could not go on before, so it is in no queue yet.
  have hnot : id ∉ m.resolution.ready ++ m.resolution.suspended := fun hmem =>
    hnew ((h.mem id).1 hmem).2
  refine ⟨?_, fun i => ?_, fun i hi => ?_⟩
  · rw [hr, hs, List.append_assoc]
    exact List.perm_middle.nodup_iff.2 (List.nodup_cons.2 ⟨hnot, h.nodup⟩)
  · have hold := h.mem i
    rw [hr, hs, hm, and_congr_right (hg i)]
    simp only [List.mem_append, List.mem_singleton] at hold ⊢
    by_cases hi : i = id
    · subst hi
      simp [hid]
    · simp [hi, hold]
  · rw [hm] at hi
    exact hhand i hi

variable {r : Resolution} {u : TaskId} {t : Task} {s : Search} {a : Attempt} {o : Outcome}
  {ws : List Waiter}

theorem Task.CanGoOn.not_isFinished (h : t.CanGoOn) : t.isFinished = false := by
  unfold Task.CanGoOn at h
  unfold Task.isFinished
  split at h
  · exact h.elim
  · exact h.elim
  next hp => rw [hp]
  next h₁ h₂ _ =>
    split
    next hp => exact absurd hp (h₁ _)
    next hp => exact absurd hp (h₂ _)
    next => rfl

theorem Queued.take {ready : List TaskId} (h : Queued ⟨r, .idle⟩) (hr : r.ready = id :: ready) :
    Queued ⟨{ r with ready }, .turn id⟩ := by
  have hnodup : (id :: (ready ++ r.suspended)).Nodup := by
    have hn : (r.ready ++ r.suspended).Nodup := h.nodup
    rw [hr] at hn
    exact hn
  obtain ⟨hnot, hn⟩ := List.nodup_cons.1 hnodup
  have hmem : ∀ i, i ∈ id :: (ready ++ r.suspended) ↔ r.Going i := by
    intro i
    have hi := h.mem i
    simp only [hr] at hi
    exact hi.trans (and_iff_right nofun)
  refine ⟨hn, fun i => ?_, fun i hi => ?_⟩
  · show i ∈ ready ++ r.suspended ↔ some id ≠ some i ∧ r.Going i
    rw [← hmem i, List.mem_cons]
    constructor
    · intro hi
      refine ⟨fun he => ?_, .inr hi⟩
      cases he
      exact hnot hi
    · rintro ⟨hne, rfl | hi⟩
      · exact absurd rfl hne
      · exact hi
  · cases hi
    obtain ⟨t, ht, hc⟩ := (hmem id).1 List.mem_cons_self
    exact ⟨t, ht, hc.not_isFinished⟩

theorem Queued.putBack (h : Queued ⟨r, .turn id⟩) (ht : r.tasks[id]? = some t) (hc : t.CanGoOn)
    {ready suspended : List TaskId}
    (hp : (ready ++ suspended).Perm (id :: (r.ready ++ r.suspended))) :
    Queued ⟨{ r with ready, suspended }, .idle⟩ := by
  -- A task in hand is in no queue.
  have hnot : id ∉ r.ready ++ r.suspended := fun hmem => ((h.mem id).1 hmem).1 rfl
  refine ⟨hp.nodup_iff.2 (List.nodup_cons.2 ⟨hnot, h.nodup⟩), fun i => ?_, nofun⟩
  refine hp.mem_iff.trans (List.mem_cons.trans ?_)
  have hi := h.mem i
  show i = id ∨ i ∈ r.ready ++ r.suspended ↔ none ≠ some i ∧ r.Going i
  rw [hi]
  by_cases he : i = id
  · subst he
    exact iff_of_true (.inl rfl) ⟨nofun, t, ht, hc⟩
  · have hne : (some id : Option TaskId) ≠ some i := fun h => he (Option.some.inj h).symm
    constructor
    · rintro (rfl | ⟨-, hg⟩)
      · exact absurd rfl he
      · exact ⟨nofun, hg⟩
    · rintro ⟨-, hg⟩
      exact .inr ⟨hne, hg⟩

theorem Queued.putDown {r' : Resolution} {b : Activity} (h : Queued ⟨r, .turn id⟩)
    (hm : (⟨r', b⟩ : Moment).hand = none) (hr : r'.ready = r.ready)
    (hs : r'.suspended = r.suspended) (hg : ∀ i, r'.Going i ↔ id ≠ i ∧ r.Going i) :
    Queued ⟨r', b⟩ := by
  refine ⟨?_, fun i => ?_, fun i hi => ?_⟩
  · show (r'.ready ++ r'.suspended).Nodup
    rw [hr, hs]
    exact h.nodup
  · show i ∈ r'.ready ++ r'.suspended ↔ _ ∧ r'.Going i
    rw [hr, hs, hm, hg]
    refine (h.mem i).trans ?_
    refine ⟨fun ⟨hne, hg⟩ => ⟨nofun, fun he => hne (congrArg some he), hg⟩, fun ⟨_, hne, hg⟩ =>
      ⟨fun he => hne (Option.some.inj he), hg⟩⟩
  · rw [hm] at hi
    cases hi

theorem Queued.resume (h : Queued ⟨r, .idle⟩) : Queued ⟨r.resume, .idle⟩ := by
  have hq : r.resume.ready ++ r.resume.suspended = r.ready ++ r.suspended := by
    simp [Resolution.resume]
  refine ⟨?_, fun i => ?_, nofun⟩
  · show (r.resume.ready ++ r.resume.suspended).Nodup
    rw [hq]
    exact h.nodup
  · show i ∈ r.resume.ready ++ r.resume.suspended ↔ _
    rw [hq]
    exact h.mem i

theorem Queued.cancel (r : Resolution) : Queued ⟨r.cancel, .idle⟩ := by
  refine ⟨List.nodup_nil, fun i => iff_of_false List.not_mem_nil ?_, nofun⟩
  rintro ⟨-, t, ht, hc⟩
  have hf := hc.not_isFinished
  simp only [Resolution.cancel, Array.getElem?_map, Option.map_eq_some_iff] at ht
  obtain ⟨t', -, rfl⟩ := ht
  split at hf
  next h => simp [h] at hf
  next => cases hf

theorem Awaited.not_going {slot : Nat}
    (h : Awaited ⟨r, .telling u o (.input id slot t.generation :: ws)⟩)
    (ht : r.tasks[id]? = some t) (hp : t.phase = .resolveInputs s a) : a.outstanding ≠ 0 := by
  have hid := h.tasks id t ht
  have hpos : 0 < (⟨r, .telling u o (.input id slot t.generation :: ws)⟩ : Moment).copies
      (.input id slot t.generation) := by
    rw [copies_telling, if_pos rfl]
    omega
  obtain ⟨s', a', hp', ha⟩ := (hid.current slot t.generation hpos).2 rfl
  rw [hp] at hp'
  cases hp'
  have hcount : 0 < a.slots.count none := List.count_pos_iff.2 (List.mem_of_getElem? ha)
  rw [hid.outstanding s a hp]
  omega

theorem canGoOn_iff (hp : t.phase = .resolveInputs s a) : t.CanGoOn ↔ a.outstanding = 0 := by
  unfold Task.CanGoOn
  rw [hp]

theorem Queued.modifyTask {f : Task → Task} {b b' : Activity} (h : Queued ⟨r, b⟩)
    (hm : (⟨r, b⟩ : Moment).hand = some id)
    (hm' : (⟨r.modifyTask id f, b'⟩ : Moment).hand = some id)
    (ht : r.tasks[id]? = some t) (hf : (f t).isFinished = false) :
    Queued ⟨r.modifyTask id f, b'⟩ := by
  have hx : r.Puts (r.modifyTask id f) id (f t) := Resolution.puts_modify rfl ht
  exact h.inHand hm hm' rfl rfl (fun i hi => Resolution.going_put_other hx hi) ⟨f t, hx.self, hf⟩

theorem Queued.wake {f : Task → Task} {slot : Nat}
    (h : Queued ⟨r, .telling u o (.input id slot t.generation :: ws)⟩)
    (hw : Awaited ⟨r, .telling u o (.input id slot t.generation :: ws)⟩)
    (ht : r.tasks[id]? = some t) (hp : t.phase = .resolveInputs s a) (hf : (f t).CanGoOn) :
    Queued ⟨{ r.modifyTask id f with ready := r.ready ++ [id] }, .telling u o ws⟩ := by
  have hnew : ¬ r.Going id := by
    rw [Resolution.going_iff ht, canGoOn_iff hp]
    exact hw.not_going ht hp
  refine h.append id rfl rfl rfl nofun hnew (fun i _ => ?_) nofun
  refine (Resolution.going_put (Resolution.puts_modify rfl ht)).trans ?_
  by_cases hi : i = id
  · simp [hi, hf]
  · simp [hi]

theorem Change.queued (hc : Change c maxDepth m m') (hclaimed : m.resolution.Claimed)
    (hw : Awaited m) (hb : ∀ e, m'.activity ≠ .broken e) (h : Queued m) : Queued m' := by
  cases hc with
  | take hr => exact h.take hr
  | again ht hc => exact h.putBack ht hc (.refl _)
  | block ht hc =>
    refine h.putBack ht hc ?_
    rw [← List.append_assoc]
    exact List.perm_append_comm
  | @park r id t s a ht hp ho =>
    refine h.putDown rfl rfl rfl fun i => (and_iff_right_of_imp ?_).symm
    rintro hg rfl
    rw [Resolution.going_iff ht, canGoOn_iff hp] at hg
    exact ho hg
  | pass hf =>
    obtain ⟨t, ht, hnot⟩ := h.hand _ rfl
    rw [hf t ht] at hnot
    cases hnot
  | resume => exact h.resume
  | cancel => exact .cancel _
  | found ht hp => exact h.modifyTask rfl rfl ht rfl
  | move ht hm => exact h.modifyTask rfl rfl ht hm.not_isFinished.2
  | takeUp ht hp => exact h.modifyTask rfl rfl ht rfl
  | known ht hp => exact h.modifyTask rfl rfl ht rfl
  | giveUp ht hp => exact h.modifyTask rfl rfl ht rfl
  | @join r id t s a q u ht hp hq hg hn =>
    have ht' := Resolution.tasks_addWaiter_of_ne (w := .input id a.slots.length t.generation) ht
      (Resolution.ne_of_closesCircle hn)
    have hx := Resolution.puts_asking (u := u) (s := s) (a := a.push none) ht'
    refine h.inHand rfl rfl rfl rfl (fun i hi => ?_) ⟨_, hx.self, rfl⟩
    exact (Resolution.going_put_other hx hi).trans Resolution.going_addWaiter
  | @spawn r id t s a q ht hp hq hg hd =>
    have ht' : (r.spawn q (.input id a.slots.length t.generation) (t.depth + 1)).tasks[id]? =
        some t := Resolution.tasks_spawn_of_some ht
    have hx := Resolution.puts_asking (u := r.tasks.size) (s := s) (a := a.push none) ht'
    have hlt : id < r.tasks.size := (Array.getElem?_eq_some_iff.1 ht).1
    refine h.append r.tasks.size rfl rfl rfl ?_ ?_ (fun i hi => ?_) fun i hi => ?_
    · intro he
      exact absurd (Option.some.inj he) (Nat.ne_of_lt hlt)
    · rintro ⟨t', hnew, -⟩
      simp at hnew
    · have hne : i ≠ id := fun he => hi (congrArg some he.symm)
      exact (Resolution.going_put_other hx hne).trans Resolution.going_spawn
    · cases hi
      exact ⟨_, hx.self, rfl⟩
  | asked => exact h.inHand rfl rfl rfl rfl (fun i _ => .rfl) (h.hand _ rfl)
  | add => exact h.inHand rfl rfl rfl rfl (fun i _ => .rfl) (h.hand _ rfl)
  | refuseNode | refuseMark | submitRefused => exact absurd rfl (hb _)
  | settle ht he => exact h.putDown rfl rfl rfl fun i => Resolution.going_settle
  | stale | lost | mark | note | told | submitKnown | submitFailed =>
    exact h.congr rfl rfl rfl (fun _ => .rfl) rfl
  | @fill r u v id t s a slot ws ht hp ho =>
    have hx : r.Puts (r.fillSlot u id s a slot v) id _ := Resolution.puts_fillSlot ht
    refine h.congr rfl rfl rfl (fun i => (Resolution.going_put hx).trans ?_) rfl
    have hnot : ¬ r.Going id := by
      rw [Resolution.going_iff ht, canGoOn_iff hp]
      exact hw.not_going ht hp
    by_cases hi : i = id
    · subst hi
      simp only [true_and, not_true_eq_false, false_and, or_false, ne_eq]
      exact iff_of_false ho hnot
    · simp [hi]
  | fillLast ht hp ho => exact h.wake hw ht hp ho
  | fail ht hp => exact h.wake hw ht hp trivial
  | submitJoin => exact h.congr rfl rfl rfl (fun _ => Resolution.going_addWaiter) rfl
  | @submitSpawn r q hg =>
    refine h.append r.tasks.size rfl rfl rfl nofun ?_ (fun i _ => Resolution.going_spawn)
      nofun
    rintro ⟨t', hnew, -⟩
    simp at hnew

end Changes

end ValueGraph
