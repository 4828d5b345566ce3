import ValueGraph.Proofs.Resolution.Queue

namespace ValueGraph

section Expected

/-- Is it remembered that the requirement was met, and by that value? -/
abbrev Resolution.Resolved (r : Resolution) (q : Requirement) (v : ValueSpec) : Prop :=
  r.claims.get? q = some (.resolved v)

/-- Is the waiter still to be told how a task for `q` ends? -/
def Moment.Expects (m : Moment) (w : Waiter) (q : Requirement) : Prop :=
  ∃ (u : TaskId) (t : Task), m.resolution.tasks[u]? = some t ∧ t.requirement = q ∧
    (w ∈ t.waiters ∨ ∃ o ws, m.activity = .telling u o ws ∧ w ∈ ws)

/-- Do the filled slots, and the waiters of the others, belong to the candidate's inputs? -/
structure Task.Wires (t : Task) (resolved : Requirement → ValueSpec → Prop)
    (expects : Nat → Nat → Requirement → Prop) (asked : Prop) : Prop where
  filled : ∀ s a (i : Nat) v, t.phase = .resolveInputs s a → a.slots[i]? = some (some v) →
    ∃ q, a.candidate.inputs[i]? = some q ∧ resolved q v
  expected : ∀ s a (i : Nat) q, t.phase = .resolveInputs s a → expects i t.generation q →
    a.candidate.inputs[i]? = some q
  length : ∀ s a, t.phase = .resolveInputs s a →
    a.slots.length ≤ a.candidate.inputs.length ∧
      (asked → a.slots.length = a.candidate.inputs.length)

/-- Each task has its inputs from where it asked for them. -/
structure Wired (m : Moment) : Prop where
  tasks : ∀ (id : TaskId) t, m.resolution.tasks[id]? = some t →
    t.Wires m.resolution.Resolved (fun i g q => m.Expects (.input id i g) q)
      (m.activity ≠ .asking id)
  told : ∀ u v ws, m.activity = .telling u (.ok v) ws →
    ∃ t, m.resolution.tasks[u]? = some t ∧ m.resolution.Resolved t.requirement v

variable {m m' : Moment} {id u : TaskId} {t t' : Task} {w : Waiter} {q : Requirement}

theorem Moment.Expects.copies_pos (h : m.Expects w q) : 0 < m.copies w := by
  obtain ⟨u, t, hu, -, hw | ⟨o, ws, ha, hw⟩⟩ := h
  · exact Nat.lt_of_lt_of_le (Resolution.copies_pos hu hw) (Nat.le_add_right _ _)
  · have hdue : m.due = ws := by
      unfold Moment.due
      rw [ha]
    have hcount : 0 < m.due.count w := by
      rw [hdue]
      exact List.count_pos_iff.2 hw
    exact Nat.lt_of_lt_of_le hcount (Nat.le_add_left _ _)

theorem Wired.input_of_telling {tu : Task} {s : Search} {a : Attempt} {o : Outcome} {slot : Nat}
    {ws : List Waiter} (h : Wired m)
    (ha : m.activity = .telling u o (.input id slot t.generation :: ws))
    (hu : m.resolution.tasks[u]? = some tu) (ht : m.resolution.tasks[id]? = some t)
    (hp : t.phase = .resolveInputs s a) : a.candidate.inputs[slot]? = some tu.requirement :=
  (h.tasks id t ht).expected s a slot _ hp ⟨u, tu, hu, rfl, .inr ⟨_, _, ha, List.mem_cons_self⟩⟩

namespace Task

variable {resolved resolved' : Requirement → ValueSpec → Prop}
  {expects expects' : Nat → Nat → Requirement → Prop} {asked asked' : Prop}

theorem Wires.mono (h : t.Wires resolved expects asked) (hp : t'.phase = t.phase)
    (hg : t'.generation = t.generation) (hr : ∀ q v, resolved q v → resolved' q v)
    (he : ∀ i g q, expects' i g q → expects i g q) (ha : asked' → asked) :
    t'.Wires resolved' expects' asked' := by
  refine ⟨?_, ?_, ?_⟩
  · rw [hp]
    intro s a i v hs hv
    obtain ⟨q, hq, hr'⟩ := h.filled s a i v hs hv
    exact ⟨q, hq, hr q v hr'⟩
  · rw [hp, hg]
    intro s a i q hs hq
    exact h.expected s a i q hs (he i _ q hq)
  · rw [hp]
    intro s a hs
    obtain ⟨hle, hfull⟩ := h.length s a hs
    exact ⟨hle, fun hasked => hfull (ha hasked)⟩

theorem Wires.of_phase (hp : ∀ s a, t.phase ≠ .resolveInputs s a) :
    t.Wires resolved expects asked :=
  ⟨fun s a _ _ hs => absurd hs (hp s a), fun s a _ _ hs => absurd hs (hp s a),
    fun s a hs => absurd hs (hp s a)⟩

end Task

/--
A change that concerns what one task waits for. The others keep their candidates, and what was
resolved stays so.
-/
theorem Wired.of_others (h : Wired m) (id : TaskId)
    (hr : ∀ q v, m.resolution.Resolved q v → m'.resolution.Resolved q v)
    (hexpects : ∀ i, i ≠ id → ∀ j g q, m'.Expects (.input i j g) q → m.Expects (.input i j g) q)
    (hasking : ∀ i, i ≠ id → m.activity = .asking i → m'.activity = .asking i)
    (htasks : ∀ i : TaskId, i ≠ id → ∀ t', m'.resolution.tasks[i]? = some t' →
      (∃ t, m.resolution.tasks[i]? = some t ∧ t'.phase = t.phase ∧
        t'.generation = t.generation) ∨ ∀ s a, t'.phase ≠ .resolveInputs s a)
    (hid : ∀ t', m'.resolution.tasks[id]? = some t' →
      t'.Wires m'.resolution.Resolved (fun i g q => m'.Expects (.input id i g) q)
        (m'.activity ≠ .asking id))
    (htold : ∀ u v ws, m'.activity = .telling u (.ok v) ws →
      ∃ t, m'.resolution.tasks[u]? = some t ∧ m'.resolution.Resolved t.requirement v) :
    Wired m' := by
  refine ⟨fun i t' ht' => ?_, htold⟩
  by_cases hi : i = id
  · subst hi
    exact hid t' ht'
  · rcases htasks i hi t' ht' with ⟨t, ht, hp, hg⟩ | hp
    · apply (h.tasks i t ht).mono hp hg hr (hexpects i hi)
      intro hne he
      exact hne (hasking i hi he)
    · exact .of_phase hp

end Expected

section Changes

variable {σ : Type} {c : Collaborators σ} {maxDepth : Nat} {m m' : Moment} {r r' : Resolution}
  {id i u : TaskId} {t t' : Task} {s : Search} {a : Attempt} {o : Outcome} {ws : List Waiter}
  {q q' : Requirement} {v : ValueSpec} {w : Waiter}

namespace Resolution

theorem resolved_pending (hq : r.claims.get? q = none) :
    (r.claims.insert q (.pending u)).get? q' = some (.resolved v) ↔ r.Resolved q' v := by
  unfold Resolved
  rw [SortedMap.get?_insert]
  by_cases he : q = q'
  · subst he
    rw [if_pos rfl, hq]
    exact iff_of_false nofun nofun
  · rw [if_neg he]

theorem resolved_cancel : r.cancel.Resolved q v ↔ r.Resolved q v := by
  show (r.claims.filter _).get? q = _ ↔ _
  unfold Resolved
  rw [SortedMap.get?_filter]
  cases r.claims.get? q with
  | none => simp
  | some x => cases x <;> simp [Claim.isPending, Option.filter]

theorem resolved_settle (hq : r.claims.get? t.requirement = some (.pending id)) :
    (r.settle id t o).Resolved q v ↔ r.Resolved q v ∨ t.requirement = q ∧ o = .ok v := by
  have hno : ∀ v, ¬ r.Resolved t.requirement v := by
    intro v h
    rw [h] at hq
    cases hq
  show (r.settleClaim t.requirement o).get? q = _ ↔ _
  rw [get?_settleClaim]
  split
  next he =>
    subst he
    rw [Claim.ofOutcome?_eq_resolved]
    simp [hno]
  next he => simp [he]

end Resolution

theorem Change.settled {x : Claim} (hc : Change c maxDepth m m') (hclaimed : m.resolution.Claimed)
    (hx : x.isPending = false) (h : m.resolution.claims.get? q = some x) :
    m'.resolution.claims.get? q = some x := by
  cases hc with
  | cancel =>
    show (SortedMap.filter _ _).get? q = _
    rw [SortedMap.get?_filter, h]
    simp [Option.filter, hx]
  | @settle r id t o ht he =>
    show (r.settleClaim t.requirement o).get? q = _
    rw [Resolution.get?_settleClaim, if_neg, h]
    rintro rfl
    have hid := (hclaimed t.requirement id).2 ⟨t, ht, rfl, he.not_isFinished⟩
    rw [h] at hid
    cases hid
    cases hx
  | @spawn r id t s a q' ht hp hq hg | @submitSpawn r q' hg =>
    show (r.claims.insert q' _).get? q = _
    rw [SortedMap.get?_insert, if_neg, h]
    rintro rfl
    rw [hg] at h
    cases h
  | take | again | block | park | pass | resume | found | move | takeUp | known | join | giveUp
  | asked | add | refuseNode | stale | fill | fillLast | fail | lost | mark | refuseMark | note
  | told | submitKnown | submitRefused | submitFailed | submitJoin => exact h

/-- What is settled in a change was settled before, unless a task for it ends just then. -/
theorem Change.settled_cases {x : Claim} (hc : Change c maxDepth m m') (hx : x.isPending = false)
    (h : m'.resolution.claims.get? q = some x) :
    m.resolution.claims.get? q = some x ∨ ∃ (id : TaskId) (t : Task) (o : Outcome),
      m'.resolution = m.resolution.settle id t o ∧ m.resolution.tasks[id]? = some t ∧
        t.requirement = q ∧ Ends c m.resolution.graph t o ∧ Claim.ofOutcome? o = some x := by
  cases hc with
  | cancel =>
    have h := SortedMap.get?_filter.symm.trans h
    exact .inl (Option.eq_some_of_filter_eq_some h)
  | @settle r id t o ht he =>
    have h := Resolution.get?_settleClaim.symm.trans h
    split at h
    next hq => exact .inr ⟨id, t, o, rfl, ht, hq, he, h⟩
    next => exact .inl h
  | spawn | submitSpawn =>
    have h := SortedMap.get?_insert.symm.trans h
    split at h
    · cases h
      cases hx
    · exact .inl h
  | take | again | block | park | pass | resume | found | move | takeUp | known | join | giveUp
  | asked | add | refuseNode | stale | fill | fillLast | fail | lost | mark | refuseMark | note
  | told | submitKnown | submitRefused | submitFailed | submitJoin => exact .inl h

theorem Change.settled_before {x : Claim} (hc : Change c maxDepth m m') (hx : x.isPending = false)
    (h : m'.resolution.claims.get? q = some x) :
    m.resolution.claims.get? q = some x ∨ ∃ (id : TaskId) (t : Task) (o : Outcome),
      m.resolution.tasks[id]? = some t ∧ t.requirement = q ∧ Ends c m.resolution.graph t o ∧
        Claim.ofOutcome? o = some x := by
  rcases hc.settled_cases hx h with h | ⟨id, t, o, -, h⟩
  · exact .inl h
  · exact .inr ⟨id, t, o, h⟩

theorem Change.resolved (hc : Change c maxDepth m m') (hclaimed : m.resolution.Claimed)
    (h : m.resolution.Resolved q v) : m'.resolution.Resolved q v :=
  hc.settled hclaimed rfl h

theorem Moment.Expects.of_tasks {m m' : Moment} (h : m'.Expects w q)
    (htasks : ∀ (i : TaskId) t', m'.resolution.tasks[i]? = some t' →
      (∃ t, m.resolution.tasks[i]? = some t ∧ t'.requirement = t.requirement ∧
        (w ∈ t'.waiters → w ∈ t.waiters)) ∨ w ∉ t'.waiters ∧ ∀ o ws, m'.activity ≠ .telling i o ws)
    (hact : ∀ i o ws, m'.activity = .telling i o ws → w ∈ ws →
      ∃ ws, m.activity = .telling i o ws ∧ w ∈ ws) : m.Expects w q := by
  obtain ⟨u, t', hu, rfl, hw⟩ := h
  rcases htasks u t' hu with ⟨t, ht, hq, hsub⟩ | ⟨hno, hne⟩
  · refine ⟨u, t, ht, hq.symm, ?_⟩
    rcases hw with hw | ⟨o, ws, ha, hw⟩
    · exact .inl (hsub hw)
    · obtain ⟨ws', ha', hw'⟩ := hact u o ws ha hw
      exact .inr ⟨o, ws', ha', hw'⟩
  · rcases hw with hw | ⟨o, ws, ha, -⟩
    · exact absurd hw hno
    · exact absurd ha (hne o ws)

theorem Wired.modifyTask (h : Wired m) (f : Task → Task)
    (ht : m.resolution.tasks[id]? = some t)
    (htasks : m'.resolution.tasks = m.resolution.tasks.modify id f)
    (hr : ∀ q v, m.resolution.Resolved q v → m'.resolution.Resolved q v)
    (hq : ∀ t, (f t).requirement = t.requirement) (hw : ∀ t, (f t).waiters = t.waiters)
    (hact : ∀ i o ws, m'.activity = .telling i o ws →
      ∃ ws', m.activity = .telling i o ws' ∧ ∀ w ∈ ws, w ∈ ws')
    (hasking : ∀ i, i ≠ id → m.activity = .asking i → m'.activity = .asking i)
    (hid : (f t).Wires m'.resolution.Resolved (fun i g q => m.Expects (.input id i g) q)
      (m'.activity ≠ .asking id)) : Wired m' := by
  have hx := Resolution.puts_modify htasks ht
  have hexpects : ∀ w q, m'.Expects w q → m.Expects w q := by
    intro w q hwq
    refine hwq.of_tasks (fun i t' ht' => .inl ?_) fun i o ws ha hmem => ?_
    · rcases hx.self_or_other ht' with ⟨rfl, rfl⟩ | ⟨-, ht'⟩
      · refine ⟨t, ht, hq t, fun hmem => ?_⟩
        rwa [hw] at hmem
      · exact ⟨t', ht', rfl, fun hmem => hmem⟩
    · obtain ⟨ws', ha', hsub⟩ := hact i o ws ha
      exact ⟨ws', ha', hsub w hmem⟩
  refine h.of_others id hr (fun i _ j g q => hexpects _ q) hasking (fun i hi t' ht' => ?_)
    (fun t' ht' => ?_) fun u v ws ha => ?_
  · rw [hx.other (Ne.symm hi)] at ht'
    exact .inl ⟨t', ht', rfl, rfl⟩
  · rw [hx.self] at ht'
    cases ht'
    exact hid.mono rfl rfl (fun _ _ hr => hr) (fun i g q => hexpects _ q) fun ha => ha
  · obtain ⟨ws', ha', -⟩ := hact u _ ws ha
    obtain ⟨tu, hu, hv⟩ := h.told u v ws' ha'
    rw [htasks, Array.getElem?_modify, hu]
    split
    · exact ⟨f tu, rfl, by rw [hq]; exact hr _ _ hv⟩
    · exact ⟨tu, rfl, hr _ _ hv⟩

theorem Wired.congr (h : Wired m) (htasks : m'.resolution.tasks = m.resolution.tasks)
    (hr : ∀ q v, m.resolution.Resolved q v → m'.resolution.Resolved q v)
    (hact : ∀ i o ws, m'.activity = .telling i o ws →
      ∃ ws', m.activity = .telling i o ws' ∧ ∀ w ∈ ws, w ∈ ws')
    (hasking : ∀ i, m.activity = .asking i → m'.activity = .asking i) : Wired m' := by
  refine ⟨fun i t ht => ?_, fun u v ws ha => ?_⟩
  · rw [htasks] at ht
    apply (h.tasks i t ht).mono rfl rfl hr
    · intro j g q hwq
      refine hwq.of_tasks (fun i t' ht' => .inl ?_) fun i o ws ha hmem => ?_
      · rw [htasks] at ht'
        exact ⟨t', ht', rfl, fun hmem => hmem⟩
      · obtain ⟨ws', ha', hsub⟩ := hact i o ws ha
        exact ⟨ws', ha', hsub _ hmem⟩
    · intro hne he
      exact hne (hasking i he)
  · obtain ⟨ws', ha', -⟩ := hact u _ ws ha
    obtain ⟨tu, hu, hv⟩ := h.told u v ws' ha'
    rw [htasks]
    exact ⟨tu, hu, hr _ _ hv⟩

theorem Task.Wires.push {resolved resolved' : Requirement → ValueSpec → Prop}
    {expects expects' : Nat → Nat → Requirement → Prop} {asked asked' : Prop}
    {known : Option ValueSpec} (h : t.Wires resolved expects asked)
    (hp : t.phase = .resolveInputs s a) (hq : a.next? = some q)
    (hr : ∀ q v, resolved q v → resolved' q v) (hknown : ∀ v, known = some v → resolved' q v)
    (he : ∀ i q', expects' i t.generation q' →
      expects i t.generation q' ∨ i = a.slots.length ∧ q' = q)
    (hasked : ¬ asked') (ids : SortedSet TaskId) :
    ({ t with phase := .resolveInputs s (a.push known), waitingOn := ids } : Task).Wires
      resolved' expects' asked' := by
  have hcandidate : (a.push known).candidate = a.candidate := Resolution.candidate_push
  have hslots : (a.push known).slots = a.slots ++ [known] := by cases known <;> rfl
  have hq : a.candidate.inputs[a.slots.length]? = some q := hq
  -- The new slot comes last, as does the input that it is for.
  refine ⟨fun s' a' i v hs hv => ?_, fun s' a' i q' hs hx => ?_, fun s' a' hs => ?_⟩
  · cases hs
    rw [hslots, List.getElem?_append] at hv
    rw [hcandidate]
    split at hv
    · obtain ⟨q', hq', hv'⟩ := h.filled s a i v hp hv
      exact ⟨q', hq', hr q' v hv'⟩
    next hlt =>
      have hlast : i - a.slots.length = 0 ∧ known = some v := by
        cases hi : i - a.slots.length with
        | zero => simpa [hi] using hv
        | succ k => simp [hi] at hv
      have hi : i = a.slots.length := by omega
      subst hi
      exact ⟨q, hq, hknown v hlast.2⟩
  · cases hs
    rw [hcandidate]
    rcases he i q' hx with hx | ⟨rfl, rfl⟩
    · exact h.expected s a i q' hp hx
    · exact hq
  · cases hs
    refine ⟨?_, fun ha => absurd ha hasked⟩
    have hlt : a.slots.length < a.candidate.inputs.length := (List.getElem?_eq_some_iff.1 hq).1
    rw [hcandidate, hslots, List.length_append]
    exact hlt

theorem candidate_fill {slot : Nat} : (a.fill slot v).candidate = a.candidate := by
  unfold Attempt.fill
  split <;> rfl

theorem Task.Wires.fill {resolved : Requirement → ValueSpec → Prop}
    {expects : Nat → Nat → Requirement → Prop} {asked : Prop} {slot : Nat}
    (h : t.Wires resolved expects asked) (hp : t.phase = .resolveInputs s a)
    (hq : a.candidate.inputs[slot]? = some q) (hv : resolved q v) (ids : SortedSet TaskId) :
    ({ t with phase := .resolveInputs s (a.fill slot v), waitingOn := ids } : Task).Wires
      resolved expects asked := by
  have hlength : (a.fill slot v).slots.length = a.slots.length := by
    unfold Attempt.fill
    split
    · exact List.length_set
    · rfl
  have hslots : ∀ (i : Nat) v', (a.fill slot v).slots[i]? = some (some v') →
      a.slots[i]? = some (some v') ∨ i = slot ∧ v' = v := by
    intro i v' hi
    unfold Attempt.fill at hi
    split at hi
    · rw [List.getElem?_set] at hi
      split at hi
      next he =>
        subst he
        split at hi
        · cases hi
          exact .inr ⟨rfl, rfl⟩
        · cases hi
      next => exact .inl hi
    · exact .inl hi
  refine ⟨fun s' a' i v' hs hv' => ?_, fun s' a' i q' hs hx => ?_, fun s' a' hs => ?_⟩
  · cases hs
    rw [candidate_fill]
    rcases hslots i v' hv' with hv' | ⟨rfl, rfl⟩
    · exact h.filled s a i v' hp hv'
    · exact ⟨q, hq, hv⟩
  · cases hs
    rw [candidate_fill]
    exact h.expected s a i q' hp hx
  · cases hs
    rw [candidate_fill, hlength]
    exact h.length s a hp

theorem Wired.ask (h : Wired ⟨r, .asking id⟩) (ht : r.tasks[id]? = some t)
    (hp : t.phase = .resolveInputs s a) (hq : a.next? = some q)
    (hr : ∀ q v, r.Resolved q v → r'.Resolved q v) (ht' : r'.tasks[id]? = some t)
    (htasks : ∀ (i : TaskId) t', r'.tasks[i]? = some t' →
      (∃ t, r.tasks[i]? = some t ∧ t'.phase = t.phase ∧ t'.generation = t.generation) ∨
        ∀ s a, t'.phase ≠ .resolveInputs s a)
    (hwaiters : ∀ (i : TaskId) t', r'.tasks[i]? = some t' → ∀ w ∈ t'.waiters,
      (∃ t, r.tasks[i]? = some t ∧ t'.requirement = t.requirement ∧ w ∈ t.waiters) ∨
        t'.requirement = q ∧ w = .input id a.slots.length t.generation) :
    Wired ⟨(r'.awaitTask id u).setPhase id (.resolveInputs s (a.push none)), .asking id⟩ := by
  have hask := Resolution.puts_asking (u := u) (s := s) (a := a.push none) ht'
  -- All waiters but the new one were there before.
  have hexpects : ∀ w q', (⟨(r'.awaitTask id u).setPhase id (.resolveInputs s (a.push none)),
      .asking id⟩ : Moment).Expects w q' → (⟨r, .asking id⟩ : Moment).Expects w q' ∨
        q' = q ∧ w = .input id a.slots.length t.generation := by
    rintro w q' ⟨i, ti, hi, rfl, hw | ⟨o, ws, ha, -⟩⟩
    · have hi' : ∃ t', r'.tasks[i]? = some t' ∧ t'.requirement = ti.requirement ∧
          t'.waiters = ti.waiters := by
        rcases hask.self_or_other hi with ⟨rfl, rfl⟩ | ⟨-, hi⟩
        · exact ⟨t, ht', rfl, rfl⟩
        · exact ⟨ti, hi, rfl, rfl⟩
      obtain ⟨t', hi', hq', hsame⟩ := hi'
      rw [← hsame] at hw
      rcases hwaiters i t' hi' w hw with ⟨t₀, hi₀, hq₀, hw₀⟩ | ⟨hq₀, hw₀⟩
      · exact .inl ⟨i, t₀, hi₀, by rw [← hq₀, hq'], .inl hw₀⟩
      · exact .inr ⟨by rw [← hq₀, hq'], hw₀⟩
    · cases ha
  refine h.of_others id hr (fun i hi j g q' hx => ?_) (fun i _ ha => ha) (fun i hi t'' ht'' => ?_)
    (fun t'' ht'' => ?_) nofun
  · rcases hexpects _ q' hx with hx | ⟨-, he⟩
    · exact hx
    · injection he with he
      exact absurd he hi
  · have ht'' := (hask.other (Ne.symm hi)).symm.trans ht''
    exact htasks i t'' ht''
  · have ht'' := hask.self.symm.trans ht''
    cases ht''
    refine (h.tasks id t ht).push hp hq hr (fun v hv => ?_) (fun i q' hx => ?_)
      (fun hne => hne rfl) _
    · cases hv
    · refine (hexpects _ q' hx).imp_right fun ⟨hq', he⟩ => ?_
      injection he with _ he
      exact ⟨he, hq'⟩

theorem Wired.join (h : Wired ⟨r, .asking id⟩) (hclaimed : r.Claimed)
    (ht : r.tasks[id]? = some t) (hp : t.phase = .resolveInputs s a) (hq : a.next? = some q)
    (hg : r.claims.get? q = some (.pending u))
    (hn : r.closesCircle u (.input id a.slots.length t.generation) = false) :
    Wired ⟨((r.addWaiter u (.input id a.slots.length t.generation)).awaitTask id u).setPhase id
      (.resolveInputs s (a.push none)), .asking id⟩ := by
  obtain ⟨tu, hu, hreq, -⟩ := (hclaimed q u).1 hg
  have hne := Resolution.ne_of_closesCircle hn
  refine h.ask ht hp hq (fun _ _ hr => hr) (Resolution.tasks_addWaiter_of_ne ht hne)
    (fun i t' ht' => .inl ?_) fun i t' ht' w hw => ?_
  · obtain ⟨t₀, ws, ht₀, rfl, -⟩ := Resolution.exists_of_addWaiter ht'
    exact ⟨t₀, ht₀, rfl, rfl⟩
  · obtain ⟨t₀, ws, ht₀, rfl, hws⟩ := Resolution.exists_of_addWaiter ht'
    rcases hws w hw with hw | ⟨rfl, he⟩
    · exact .inl ⟨t₀, ht₀, rfl, hw⟩
    · rw [hu] at ht₀
      cases ht₀
      exact .inr ⟨hreq, he⟩

theorem Wired.spawn {d : Nat} (h : Wired ⟨r, .asking id⟩) (ht : r.tasks[id]? = some t)
    (hp : t.phase = .resolveInputs s a) (hq : a.next? = some q) (hg : r.claims.get? q = none) :
    Wired ⟨((r.spawn q (.input id a.slots.length t.generation) d).awaitTask id
      r.tasks.size).setPhase id (.resolveInputs s (a.push none)), .asking id⟩ := by
  refine h.ask ht hp hq (fun _ _ hr => (Resolution.resolved_pending hg).2 hr)
    (Resolution.tasks_spawn_of_some ht) (fun i t' ht' => ?_) fun i t' ht' w hw => ?_
  · rw [Resolution.tasks_spawn] at ht'
    split at ht'
    · cases ht'
      refine .inr fun s a hp => ?_
      cases hp
    · exact .inl ⟨t', ht', rfl, rfl⟩
  · rw [Resolution.tasks_spawn] at ht'
    split at ht'
    · cases ht'
      exact .inr ⟨rfl, List.mem_singleton.1 hw⟩
    · exact .inl ⟨t', ht', rfl, hw⟩

theorem Wired.asked (h : Wired ⟨r, .asking id⟩) (ht : r.tasks[id]? = some t)
    (hp : t.phase = .resolveInputs s a) (hn : a.next? = none) : Wired ⟨r, .turn id⟩ := by
  have hexpects : ∀ w q, (⟨r, .turn id⟩ : Moment).Expects w q →
      (⟨r, .asking id⟩ : Moment).Expects w q := by
    intro w q hx
    exact hx.of_tasks (fun i t' ht' => .inl ⟨t', ht', rfl, fun hmem => hmem⟩) nofun
  refine h.of_others id (fun _ _ hr => hr) (fun i _ j g q => hexpects _ q) (fun i hi ha => ?_)
    (fun i _ t' ht' => .inl ⟨t', ht', rfl, rfl⟩) (fun t' ht' => ?_) nofun
  · cases ha
    exact absurd rfl hi
  · have ht' := ht.symm.trans ht'
    cases ht'
    have hid := h.tasks id t ht
    refine ⟨hid.filled, fun s' a' i q hs hx => hid.expected s' a' i q hs (hexpects _ q hx),
      fun s' a' hs => ?_⟩
    rw [hp] at hs
    cases hs
    have hle := (hid.length s a hp).1
    have hge : a.candidate.inputs.length ≤ a.slots.length := List.getElem?_eq_none_iff.1 hn
    exact ⟨hle, fun _ => Nat.le_antisymm hle hge⟩

theorem Wired.settle (h : Wired ⟨r, .turn id⟩) (ht : r.tasks[id]? = some t)
    (hr : ∀ q v, r.Resolved q v → (r.settle id t o).Resolved q v) :
    Wired ⟨r.settle id t o, .telling id o t.waiters⟩ := by
  have hx := Resolution.puts_settle (o := o) ht
  -- The waiters of the task become those that are to be told, so nobody new expects anything.
  have hexpects : ∀ w q, (⟨r.settle id t o, .telling id o t.waiters⟩ : Moment).Expects w q →
      (⟨r, .turn id⟩ : Moment).Expects w q := by
    rintro w q ⟨i, ti, hi, rfl, hw⟩
    rcases hx.self_or_other hi with ⟨rfl, rfl⟩ | ⟨hne, hi⟩
    · rcases hw with hw | ⟨o', ws, ha, hw⟩
      · cases hw
      · cases ha
        exact ⟨id, t, ht, rfl, .inl hw⟩
    · rcases hw with hw | ⟨o', ws, ha, -⟩
      · exact ⟨i, ti, hi, rfl, .inl hw⟩
      · cases ha
        exact absurd rfl hne
  refine h.of_others id hr (fun i _ j g q => hexpects _ q) (fun i _ ha => ?_)
    (fun i hi t' ht' => ?_) (fun t' ht' => ?_) fun u v ws ha => ?_
  · cases ha
  · have ht' := (hx.other (Ne.symm hi)).symm.trans ht'
    exact .inl ⟨t', ht', rfl, rfl⟩
  · have ht' := hx.self.symm.trans ht'
    cases ht'
    apply Task.Wires.of_phase
    intro s a hp
    cases o <;> cases hp
  · cases ha
    refine ⟨_, hx.self, ?_⟩
    show (r.claims.insert t.requirement (.resolved v)).get? t.requirement = _
    rw [SortedMap.get?_insert, if_pos rfl]

theorem Wired.fill {slot : Nat} {ready : List TaskId}
    (h : Wired ⟨r, .telling u (.ok v) (.input id slot t.generation :: ws)⟩)
    (ht : r.tasks[id]? = some t) (hp : t.phase = .resolveInputs s a) :
    Wired ⟨{ r.fillSlot u id s a slot v with ready }, .telling u (.ok v) ws⟩ := by
  obtain ⟨tu, hu, hv⟩ := h.told u v _ rfl
  have hinput := h.input_of_telling rfl hu ht hp
  refine h.modifyTask (fun t => { t with
    phase := .resolveInputs s (a.fill slot v), waitingOn := t.waitingOn.erase u }) ht rfl
    (fun _ _ hr => hr) (fun _ => rfl) (fun _ => rfl) (fun i o ws' ha => ?_) nofun ?_
  · cases ha
    exact ⟨_, rfl, fun w hw => List.mem_cons_of_mem _ hw⟩
  · exact ((h.tasks id t ht).fill hp hinput hv _).mono rfl rfl (fun _ _ hr => hr)
      (fun _ _ _ hx => hx) nofun

theorem wired_cancel (r : Resolution) : Wired ⟨r.cancel, .idle⟩ := by
  refine ⟨fun i t' ht' => .of_phase fun s a hp => ?_, nofun⟩
  simp only [Resolution.cancel, Array.getElem?_map, Option.map_eq_some_iff] at ht'
  obtain ⟨t, -, rfl⟩ := ht'
  split at hp
  next hf =>
    rw [isFinished_of_resolveInputs hp] at hf
    cases hf
  next => cases hp

theorem Wired.submit (h : Wired ⟨r, .idle⟩) (hr : ∀ q v, r.Resolved q v → r'.Resolved q v)
    (htasks : ∀ (i : TaskId) t', r'.tasks[i]? = some t' →
      (∃ t, r.tasks[i]? = some t ∧ t'.requirement = t.requirement ∧ t'.phase = t.phase ∧
        t'.generation = t.generation ∧
        ∀ i j g, .input i j g ∈ t'.waiters → .input i j g ∈ t.waiters) ∨
      (∀ s a, t'.phase ≠ .resolveInputs s a) ∧ ∀ i j g, .input i j g ∉ t'.waiters) :
    Wired ⟨r', .idle⟩ := by
  refine ⟨fun i t' ht' => ?_, nofun⟩
  rcases htasks i t' ht' with ⟨t, ht, -, hp, hg, -⟩ | ⟨hp, -⟩
  · refine (h.tasks i t ht).mono hp hg hr (fun j g q hx => ?_) fun _ => nofun
    refine hx.of_tasks (fun i t' ht' => ?_) nofun
    rcases htasks i t' ht' with ⟨t, ht, hq, -, -, hsub⟩ | ⟨-, hno⟩
    · exact .inl ⟨t, ht, hq, hsub _ _ _⟩
    · exact .inr ⟨hno _ _ _, nofun⟩
  · exact .of_phase hp

theorem Wired.submitJoin {index : Nat} (h : Wired ⟨r, .idle⟩) :
    Wired ⟨(r.submit q).addWaiter u (.submission index), .idle⟩ := by
  refine h.submit (fun _ _ hr => hr) fun i t' ht' => .inl ?_
  obtain ⟨t, ws, ht, rfl, hws⟩ := Resolution.exists_of_addWaiter ht'
  refine ⟨t, ht, rfl, rfl, rfl, fun k j g hmem => ?_⟩
  rcases hws _ hmem with hmem | ⟨-, he⟩
  · exact hmem
  · cases he

theorem Wired.submitSpawn {index : Nat} (h : Wired ⟨r, .idle⟩)
    (hr : ∀ q' v, r.Resolved q' v → ((r.submit q).spawn q (.submission index) 0).Resolved q' v) :
    Wired ⟨(r.submit q).spawn q (.submission index) 0, .idle⟩ := by
  refine h.submit hr fun i t' ht' => ?_
  rw [Resolution.tasks_spawn] at ht'
  split at ht'
  · cases ht'
    refine .inr ⟨fun s a hp => ?_, fun k j g hmem => ?_⟩
    · cases hp
    · cases List.mem_singleton.1 hmem
  · exact .inl ⟨t', ht', rfl, rfl, rfl, fun _ _ _ hmem => hmem⟩

theorem Change.wired (hc : Change c maxDepth m m') (hclaimed : m.resolution.Claimed)
    (hw : Awaited m) (hb : ∀ e, m'.activity ≠ .broken e) (h : Wired m) : Wired m' := by
  have hr : ∀ q v, m.resolution.Resolved q v → m'.resolution.Resolved q v :=
    fun q v => hc.resolved hclaimed
  cases hc with
  | take | again | block | park | pass | resume | add | told | submitKnown | submitFailed =>
    exact h.congr rfl hr nofun nofun
  | refuseNode | refuseMark | submitRefused => exact absurd rfl (hb _)
  | stale | lost | mark | note =>
    refine h.congr rfl hr (fun i o ws ha => ?_) nofun
    cases ha
    exact ⟨_, rfl, fun w hw => List.mem_cons_of_mem _ hw⟩
  | cancel => exact wired_cancel _
  | @found r id t w target digest ht hp =>
    refine h.modifyTask
      (fun t => { t with target := some target, phase := .checkLiveData { target, digest } }) ht rfl
      hr (fun _ => rfl) (fun _ => rfl) nofun nofun (.of_phase fun s a hs => ?_)
    cases hs
  | @move r id t p ht hm =>
    exact h.modifyTask (fun t => { t with phase := p }) ht rfl hr (fun _ => rfl) (fun _ => rfl)
      nofun nofun (.of_phase hm.no_slots.2)
  | @takeUp r id t s x xs ht hp =>
    refine h.modifyTask
      (fun t => { t with
        phase := .resolveInputs { s with candidates := xs } { candidate := x } }) ht
      rfl hr (fun _ => rfl) (fun _ => rfl) nofun nofun ⟨fun s a i v hs hv => ?_,
        fun s a i q hs hx => ?_, fun s a hs => ?_⟩
    · cases hs
      cases hv
    · -- The candidate before this one was given up in an earlier generation.
      have hlt := (hw.tasks id t ht).lt (fun s a hs => by rw [hp] at hs; cases hs) hx.copies_pos
      exact absurd hlt (Nat.lt_irrefl _)
    · cases hs
      exact ⟨Nat.zero_le _, fun hne => absurd rfl hne⟩
  | @known r id t s a q v ht hp hq hv =>
    refine h.modifyTask (fun t => { t with phase := .resolveInputs s (a.push (some v)) }) ht rfl hr
      (fun _ => rfl) (fun _ => rfl) nofun (fun _ _ ha => ha) ?_
    refine (h.tasks id t ht).push hp hq hr (fun v' hv' => ?_) (fun i q' hx => .inl hx)
      (fun hne => hne rfl) _
    cases hv'
    exact hv
  | @giveUp r id t s a q cause ht hp =>
    refine h.modifyTask (fun t => t.abandon s a.candidate cause) ht rfl hr (fun _ => rfl)
      (fun _ => rfl) nofun (fun i hi ha => ?_) (.of_phase fun s' a' hs => ?_)
    · cases ha
      exact absurd rfl hi
    · cases hs
  | asked ht hp hn => exact h.asked ht hp hn
  | join ht hp hq hg hn => exact h.join hclaimed ht hp hq hg hn
  | spawn ht hp hq hg => exact h.spawn ht hp hq hg
  | settle ht he => exact h.settle ht hr
  | fill ht hp ho => exact h.fill ht hp
  | fillLast ht hp ho => exact h.fill ht hp
  | @fail r u cause id t s a slot ws ht hp =>
    refine h.modifyTask (fun t => t.abandon s a.candidate cause) ht rfl hr (fun _ => rfl)
      (fun _ => rfl) (fun i o ws' ha => ?_) (fun i _ ha => ?_) (.of_phase fun s' a' hs => ?_)
    · cases ha
      exact ⟨_, rfl, fun w hw => List.mem_cons_of_mem _ hw⟩
    · cases ha
    · cases hs
  | submitJoin => exact h.submitJoin
  | submitSpawn => exact h.submitSpawn hr

end Changes

end ValueGraph
