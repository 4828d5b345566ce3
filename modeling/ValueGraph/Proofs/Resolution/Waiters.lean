import ValueGraph.Proofs.Resolution.Claims

namespace ValueGraph

section Copies

/-- Those who are still to be told. -/
def Moment.due (m : Moment) : List Waiter :=
  match m.activity with
  | .telling _ _ due => due
  | _ => []

/-- How many times the tasks have that waiter. -/
def Resolution.copies (r : Resolution) (w : Waiter) : Nat :=
  total (fun t => t.waiters.count w) r.tasks.toList

def Moment.copies (m : Moment) (w : Waiter) : Nat := m.resolution.copies w + m.due.count w

namespace Resolution

variable {r : Resolution} {id u : TaskId} {t : Task} {w w' : Waiter}

theorem copies_modifyTask (r : Resolution) (id : TaskId) {f : Task → Task}
    (hf : ∀ t, (f t).waiters = t.waiters) :
    (r.modifyTask id f).copies w = r.copies w := by
  unfold copies modifyTask
  rw [Array.toList_modify]
  cases ht : r.tasks.toList[id]? with
  | none => rw [List.modify_eq_self (by simpa using ht)]
  | some t =>
    have h := total_modify (f := fun t : Task => t.waiters.count w) (g := f) ht
    simp only [hf] at h
    omega

theorem copies_setPhase {p : Phase} : (r.setPhase id p).copies w = r.copies w :=
  r.copies_modifyTask id (f := fun t => { t with phase := p }) fun _ => rfl

theorem copies_awaitTask : (r.awaitTask id u).copies w = r.copies w :=
  r.copies_modifyTask id (f := fun t => { t with waitingOn := t.waitingOn.insert u }) fun _ => rfl

theorem copies_addWaiter (ht : r.tasks[id]? = some t) :
    (r.addWaiter id w').copies w = r.copies w + [w'].count w := by
  have ht : r.tasks.toList[id]? = some t := by simpa using ht
  have h := total_modify (f := fun t : Task => t.waiters.count w)
    (g := fun t => { t with waiters := t.waiters ++ [w'] }) ht
  unfold copies addWaiter modifyTask
  simp only [Array.toList_modify, List.count_append] at h ⊢
  omega

theorem copies_spawn {q : Requirement} {d : Nat} :
    (r.spawn q w' d).copies w = r.copies w + [w'].count w := by
  simp [copies, spawn, total]

theorem copies_settle {o : Outcome} (ht : r.tasks[id]? = some t) :
    (r.settle id t o).copies w + t.waiters.count w = r.copies w := by
  have ht : r.tasks.toList[id]? = some t := by simpa using ht
  have h := total_modify (f := fun t : Task => t.waiters.count w)
    (g := fun t => { t with phase := .ofOutcome o, waiters := [], waitingOn := ∅ }) ht
  unfold copies settle modifyTask
  simp only [Array.toList_modify, List.count_nil] at h ⊢
  omega

theorem copies_eq_zero (h : ∀ (id : TaskId) t, r.tasks[id]? = some t → t.waiters = []) :
    r.copies w = 0 := by
  have hl : ∀ l : List Task, (∀ t ∈ l, t.waiters = []) →
      total (fun t => t.waiters.count w) l = 0 := by
    intro l
    induction l with
    | nil => exact fun _ => rfl
    | cons t l ih =>
      intro hl
      rw [total, hl t List.mem_cons_self, ih fun t ht => hl t (List.mem_cons_of_mem _ ht)]
      rfl
  apply hl
  intro t ht
  obtain ⟨id, hid⟩ := List.mem_iff_getElem?.1 ht
  exact h id t (by simpa using hid)

theorem copies_pos (ht : r.tasks[id]? = some t) (hw : w ∈ t.waiters) : 0 < r.copies w := by
  have ht : r.tasks.toList[id]? = some t := by simpa using ht
  have h := total_modify (f := fun t : Task => t.waiters.count w)
    (g := fun t => { t with waiters := [] }) ht
  have hcount : 0 < t.waiters.count w := List.count_pos_iff.2 hw
  simp only [List.count_nil] at h
  unfold copies
  omega

end Resolution

end Copies

section Awaited

/-- Does the task wait just as often as `copies` says, for each of its slots and generations? -/
structure Task.Awaits (t : Task) (copies : Nat → Nat → Nat) : Prop where
  outstanding : ∀ s a, t.phase = .resolveInputs s a → a.outstanding = a.slots.count none
  unfilled : ∀ s a (i : Nat), t.phase = .resolveInputs s a → a.slots[i]? = some none →
    copies i t.generation = 1
  current : ∀ i g, 0 < copies i g → g ≤ t.generation ∧ (g = t.generation →
    ∃ s a, t.phase = .resolveInputs s a ∧ a.slots[i]? = some none)
  waiters : t.isFinished → t.waiters = []

/-- The waiters are those that the slots and the submissions need, and old ones. -/
structure Awaited (m : Moment) : Prop where
  tasks : ∀ (id : TaskId) t, m.resolution.tasks[id]? = some t →
    t.Awaits fun i g => m.copies (.input id i g)
  noTask : ∀ id : TaskId, m.resolution.tasks[id]? = none → ∀ i g, m.copies (.input id i g) = 0
  submissions : ∀ (i : Nat) s, m.resolution.submissions[i]? = some s →
    m.copies (.submission i) = if s.outcome.isNone then 1 else 0
  noSubmission : ∀ i : Nat, m.resolution.submissions[i]? = none → m.copies (.submission i) = 0

namespace Task

variable {t t' : Task} {copies copies' : Nat → Nat → Nat}

theorem Awaits.congr (h : t.Awaits copies) (hp : t'.phase = t.phase)
    (hg : t'.generation = t.generation) (hw : t'.isFinished → t'.waiters = []) :
    t'.Awaits copies := by
  refine ⟨?_, ?_, ?_, hw⟩
  · rw [hp]
    exact h.outstanding
  · rw [hp, hg]
    exact h.unfilled
  · rw [hp, hg]
    exact h.current

/-- Where no slot is open, all waiters are old. -/
theorem Awaits.lt (h : t.Awaits copies)
    (hp : ∀ s a, t.phase = .resolveInputs s a → ∀ i : Nat, a.slots[i]? ≠ some none) {i g : Nat}
    (hi : 0 < copies i g) : g < t.generation := by
  obtain ⟨hle, hopen⟩ := h.current i g hi
  refine Nat.lt_of_le_of_ne hle fun hg => ?_
  obtain ⟨s, a, hs, ha⟩ := hopen hg
  exact hp s a hs i ha

theorem Awaits.of_lt (hlt : ∀ i g, 0 < copies i g → g < t.generation)
    (hp : ∀ s a, t.phase = .resolveInputs s a → a.slots = [] ∧ a.outstanding = 0)
    (hw : t.isFinished → t.waiters = []) : t.Awaits copies := by
  refine ⟨fun s a hs => ?_, fun s a i hs ha => ?_, fun i g hi => ?_, hw⟩
  · obtain ⟨hslots, ho⟩ := hp s a hs
    rw [hslots, ho]
    rfl
  · rw [(hp s a hs).1] at ha
    cases ha
  · have hg := hlt i g hi
    exact ⟨Nat.le_of_lt hg, fun he => absurd he (Nat.ne_of_lt hg)⟩

end Task

end Awaited

section Changes

variable {m m' : Moment} {id u : TaskId} {t : Task}

theorem Awaited.of_others (h : Awaited m) (id : TaskId)
    (hs : m'.resolution.submissions = m.resolution.submissions)
    (hsub : ∀ i, m'.copies (.submission i) = m.copies (.submission i))
    (hinput : ∀ i, i ≠ id → ∀ j g, m'.copies (.input i j g) = m.copies (.input i j g))
    (htasks : ∀ i : TaskId, i ≠ id → ∀ t', m'.resolution.tasks[i]? = some t' →
      t'.Awaits fun j g => m.copies (.input i j g))
    (hnone : ∀ i : TaskId, m'.resolution.tasks[i]? = none → m.resolution.tasks[i]? = none)
    (hid : ∀ t', m'.resolution.tasks[id]? = some t' →
      t'.Awaits fun j g => m'.copies (.input id j g))
    (hex : ∃ t', m'.resolution.tasks[id]? = some t') : Awaited m' := by
  refine ⟨fun i t' ht' => ?_, fun i hi j g => ?_, fun i s hi => ?_, fun i hi => ?_⟩
  · by_cases he : i = id
    · subst he
      exact hid t' ht'
    · simp only [hinput i he]
      exact htasks i he t' ht'
  · have hne : i ≠ id := by
      rintro rfl
      obtain ⟨t', ht'⟩ := hex
      rw [hi] at ht'
      cases ht'
    rw [hinput i hne]
    exact h.noTask i (hnone i hi) j g
  · rw [hsub]
    rw [hs] at hi
    exact h.submissions i s hi
  · rw [hsub]
    rw [hs] at hi
    exact h.noSubmission i hi

theorem Awaited.of_task (h : Awaited m) {x : Task} (hx : m.resolution.Puts m'.resolution id x)
    (hs : m'.resolution.submissions = m.resolution.submissions)
    (hsub : ∀ i, m'.copies (.submission i) = m.copies (.submission i))
    (hinput : ∀ i, i ≠ id → ∀ j g, m'.copies (.input i j g) = m.copies (.input i j g))
    (hid : x.Awaits fun j g => m'.copies (.input id j g)) : Awaited m' := by
  refine h.of_others id hs hsub hinput (fun i hi t' ht' => ?_) (fun i hi => ?_) (fun t' ht' => ?_)
    ⟨x, hx.self⟩
  · rw [hx.other (Ne.symm hi)] at ht'
    exact h.tasks i t' ht'
  · have hne : id ≠ i := by
      rintro rfl
      rw [hx.self] at hi
      cases hi
    rwa [hx.other hne] at hi
  · rw [hx.self] at ht'
    cases ht'
    exact hid

theorem Awaited.modifyTask (h : Awaited m) (f : Task → Task)
    (ht : m.resolution.tasks[id]? = some t)
    (htasks : m'.resolution.tasks = m.resolution.tasks.modify id f)
    (hs : m'.resolution.submissions = m.resolution.submissions) (hd : m'.due = m.due)
    (hf : ∀ t, (f t).waiters = t.waiters)
    (hid : (f t).Awaits fun j g => m.copies (.input id j g)) : Awaited m' := by
  have hcopies : ∀ w, m'.copies w = m.copies w := by
    intro w
    unfold Moment.copies
    rw [hd]
    have h := m.resolution.copies_modifyTask id (w := w) hf
    unfold Resolution.copies Resolution.modifyTask at h
    unfold Resolution.copies
    rw [htasks, h]
  refine h.of_task (Resolution.puts_modify htasks ht) hs (fun i => hcopies _)
    (fun i _ j g => hcopies _) ?_
  simp only [hcopies]
  exact hid

variable {r : Resolution} {s : Search} {a : Attempt} {o : Outcome} {ws : List Waiter}

theorem Task.Awaits.next {copies : Nat → Nat → Nat} (h : t.Awaits copies)
    (hp : t.phase = .resolveInputs s a) : copies a.slots.length t.generation = 0 := by
  -- A waiter of the current generation is one for a slot that is there.
  refine Nat.eq_zero_of_not_pos fun hpos => ?_
  obtain ⟨s', a', hp', ha⟩ := (h.current _ _ hpos).2 rfl
  rw [hp] at hp'
  cases hp'
  simp at ha

theorem Task.Awaits.push_some {copies : Nat → Nat → Nat} {v : ValueSpec} (h : t.Awaits copies)
    (hp : t.phase = .resolveInputs s a) :
    ({ t with phase := .resolveInputs s (a.push (some v)) } : Task).Awaits copies := by
  have hslot : ∀ i : Nat, (a.slots ++ [some v])[i]? = some none ↔ a.slots[i]? = some none := by
    intro i
    rw [List.getElem?_append]
    by_cases hi : i < a.slots.length
    · rw [if_pos hi]
    · rw [if_neg hi, List.getElem?_eq_none (Nat.le_of_not_lt hi)]
      cases i - a.slots.length <;> simp
  refine ⟨fun s' a' hp' => ?_, fun s' a' i hp' ha => ?_, fun i g hi => ?_, nofun⟩
  · cases hp'
    simp [Attempt.push, h.outstanding s a hp]
  · cases hp'
    exact h.unfilled s a i hp ((hslot i).1 ha)
  · obtain ⟨hle, hopen⟩ := h.current i g hi
    refine ⟨hle, fun hg => ?_⟩
    obtain ⟨s', a', hp', ha⟩ := hopen hg
    rw [hp] at hp'
    cases hp'
    exact ⟨s, _, rfl, (hslot i).2 ha⟩

theorem Task.Awaits.push_none {copies copies' : Nat → Nat → Nat} (h : t.Awaits copies)
    (hp : t.phase = .resolveInputs s a)
    (hc : ∀ i g, copies' i g = copies i g +
      if i = a.slots.length ∧ g = t.generation then 1 else 0) (ids : SortedSet TaskId) :
    ({ t with phase := .resolveInputs s (a.push none), waitingOn := ids } : Task).Awaits
      copies' := by
  have hslot : ∀ i : Nat, (a.slots ++ [none])[i]? = some none ↔
      a.slots[i]? = some none ∨ i = a.slots.length := by
    intro i
    rw [List.getElem?_append]
    by_cases hi : i < a.slots.length
    · rw [if_pos hi]
      simp [Nat.ne_of_lt hi]
    · rw [if_neg hi, List.getElem?_eq_none (Nat.le_of_not_lt hi)]
      simp [List.getElem?_singleton]
      omega
  refine ⟨fun s' a' hp' => ?_, fun s' a' i hp' ha => ?_, fun i g hi => ?_, nofun⟩
  · cases hp'
    simp [Attempt.push, h.outstanding s a hp]
  · cases hp'
    have hnext := h.next hp
    rw [hc]
    show copies i t.generation + _ = 1
    rcases (hslot i).1 ha with ha | rfl
    · have hlt : i < a.slots.length := (List.getElem?_eq_some_iff.1 ha).1
      rw [h.unfilled s a i hp ha, if_neg]
      exact fun he => Nat.ne_of_lt hlt he.1
    · rw [hnext, if_pos ⟨rfl, rfl⟩]
  · rw [hc] at hi
    show g ≤ t.generation ∧ (g = t.generation → _)
    -- The waiter is the new one, or was there before.
    by_cases he : i = a.slots.length ∧ g = t.generation
    · obtain ⟨rfl, rfl⟩ := he
      exact ⟨Nat.le_refl _, fun _ => ⟨s, _, rfl, (hslot _).2 (.inr rfl)⟩⟩
    · rw [if_neg he] at hi
      obtain ⟨hle, hopen⟩ := h.current i g hi
      refine ⟨hle, fun hg => ?_⟩
      obtain ⟨s', a', hp', ha⟩ := hopen hg
      rw [hp] at hp'
      cases hp'
      exact ⟨s, _, rfl, (hslot i).2 (.inl ha)⟩

theorem Task.Awaits.fill {copies copies' : Nat → Nat → Nat} {slot : Nat} {v : ValueSpec}
    (h : t.Awaits copies) (hp : t.phase = .resolveInputs s a)
    (hpos : 0 < copies slot t.generation)
    (hc : ∀ i g, copies i g = copies' i g + if i = slot ∧ g = t.generation then 1 else 0)
    (ids : SortedSet TaskId) :
    ({ t with phase := .resolveInputs s (a.fill slot v), waitingOn := ids } : Task).Awaits
      copies' := by
  obtain ⟨s', a', hp', hopen⟩ := (h.current _ _ hpos).2 rfl
  rw [hp] at hp'
  cases hp'
  have hfill : a.fill slot v =
      { a with slots := a.slots.set slot (some v), outstanding := a.outstanding - 1 } := by
    unfold Attempt.fill
    rw [hopen]
  have hlt : slot < a.slots.length := (List.getElem?_eq_some_iff.1 hopen).1
  have hslot : ∀ i : Nat, (a.slots.set slot (some v))[i]? = some none ↔
      a.slots[i]? = some none ∧ i ≠ slot := by
    intro i
    rw [List.getElem?_set]
    by_cases hi : slot = i
    · subst hi
      simp [hlt]
    · simp [hi, Ne.symm hi]
  have hgone : copies' slot t.generation = 0 := by
    have hone := h.unfilled s a slot hp hopen
    rw [hc, if_pos ⟨rfl, rfl⟩] at hone
    omega
  refine ⟨fun s' a' hp' => ?_, fun s' a' i hp' ha => ?_, fun i g hi => ?_, nofun⟩
  · cases hp'
    rw [hfill]
    have hget : a.slots[slot] = none := (List.getElem?_eq_some_iff.1 hopen).2
    have hcount := List.count_set (a := some v) (b := none) hlt
    rw [hget] at hcount
    show a.outstanding - 1 = (a.slots.set slot (some v)).count none
    rw [hcount, h.outstanding s a hp]
    simp
  · cases hp'
    rw [hfill] at ha
    obtain ⟨ha, hne⟩ := (hslot i).1 ha
    have hone := h.unfilled s a i hp ha
    rw [hc, if_neg fun he => hne he.1] at hone
    exact hone
  · have hi' : 0 < copies i g := by
      rw [hc]
      omega
    obtain ⟨hle, hopen'⟩ := h.current i g hi'
    refine ⟨hle, fun hg => ?_⟩
    obtain ⟨s', a', hp', ha⟩ := hopen' hg
    rw [hp] at hp'
    cases hp'
    refine ⟨s, _, rfl, ?_⟩
    rw [hfill]
    refine (hslot i).2 ⟨ha, ?_⟩
    rintro rfl
    rw [hg, hgone] at hi
    exact absurd hi (Nat.lt_irrefl 0)

theorem count_singleton {v w : Waiter} : [v].count w = if w = v then 1 else 0 := by
  rw [List.count_singleton]
  by_cases hv : w = v
  · simp [hv]
  · simp [hv, Ne.symm hv]

theorem copies_telling {v w : Waiter} :
    (⟨r, .telling u o (v :: ws)⟩ : Moment).copies w =
      (⟨r, .telling u o ws⟩ : Moment).copies w + if w = v then 1 else 0 := by
  show r.copies w + (v :: ws).count w = r.copies w + ws.count w + _
  rw [List.count_cons]
  by_cases hv : w = v
  · simp [hv]
    omega
  · simp [hv, Ne.symm hv]

theorem copies_told {r' : Resolution} {f : Task → Task} {v w : Waiter}
    (htasks : r'.tasks = r.tasks.modify id f) (hf : ∀ t, (f t).waiters = t.waiters) :
    (⟨r, .telling u o (v :: ws)⟩ : Moment).copies w =
      (⟨r', .telling u o ws⟩ : Moment).copies w + if w = v then 1 else 0 := by
  have hsame : r'.copies w = r.copies w := by
    rw [← r.copies_modifyTask id hf]
    unfold Resolution.copies Resolution.modifyTask
    rw [htasks]
  rw [copies_telling]
  unfold Moment.copies
  rw [hsame]
  rfl

theorem Awaited.stale {slot generation : Nat}
    (h : Awaited ⟨r, .telling u o (.input id slot generation :: ws)⟩)
    (hs : ∀ t, r.tasks[id]? = some t → t.generation = generation →
      ∀ s a, t.phase ≠ .resolveInputs s a) : Awaited ⟨r, .telling u o ws⟩ := by
  have hpos : 0 < (⟨r, .telling u o (.input id slot generation :: ws)⟩ : Moment).copies
      (.input id slot generation) := by
    rw [copies_telling, if_pos rfl]
    omega
  cases ht : r.tasks[id]? with
  | none => exact absurd (h.noTask id ht slot generation) (Nat.ne_of_gt hpos)
  | some t =>
    have hid := h.tasks id t ht
    -- The waiter is not the one that an open slot needs.
    have hold : ∀ s a, t.phase = .resolveInputs s a → generation ≠ t.generation :=
      fun s a hp hg => hs t ht hg.symm s a hp
    refine h.of_others id rfl (fun i => ?_) (fun i hi j g => ?_)
      (fun i _ t' ht' => h.tasks i t' ht') (fun i hi => hi) (fun t' ht' => ?_) ⟨t, ht⟩
    · simp [copies_telling]
    · simp [copies_telling, hi]
    · have he : t = t' := Option.some.inj (ht.symm.trans ht')
      subst he
      refine ⟨hid.outstanding, fun s a i hp ha => ?_, fun i g hi => ?_, hid.waiters⟩
      · have hone := hid.unfilled s a i hp ha
        rw [copies_telling, if_neg] at hone
        · exact hone
        · intro he
          injection he with _ _ hg
          exact hold s a hp hg.symm
      · apply hid.current i g
        rw [copies_telling]
        omega

theorem Awaited.tell {r' : Resolution} {slot : Nat}
    (h : Awaited ⟨r, .telling u o (.input id slot t.generation :: ws)⟩) (f : Task → Task)
    (ht : r.tasks[id]? = some t) (htasks : r'.tasks = r.tasks.modify id f)
    (hs : r'.submissions = r.submissions) (hf : ∀ t, (f t).waiters = t.waiters)
    (hid : ∀ copies copies' : Nat → Nat → Nat, t.Awaits copies → 0 < copies slot t.generation →
      (∀ i g, copies i g = copies' i g + if i = slot ∧ g = t.generation then 1 else 0) →
      (f t).Awaits copies') : Awaited ⟨r', .telling u o ws⟩ := by
  have hcopies : ∀ w, (⟨r, .telling u o (.input id slot t.generation :: ws)⟩ : Moment).copies w =
      (⟨r', .telling u o ws⟩ : Moment).copies w +
        if w = .input id slot t.generation then 1 else 0 := fun w => copies_told htasks hf
  refine h.of_task (Resolution.puts_modify htasks ht) hs (fun i => ?_) (fun i hi j g => ?_) ?_
  · simp [hcopies]
  · simp [hcopies, hi]
  · apply hid _ _ (h.tasks id t ht)
    · rw [copies_telling, if_pos rfl]
      omega
    · intro i g
      rw [hcopies]
      simp

theorem Task.Awaits.abandon {copies copies' : Nat → Nat → Nat} {x : Candidate} {cause : Failure}
    (h : t.Awaits copies) (hle : ∀ i g, copies' i g ≤ copies i g) :
    (t.abandon s x cause).Awaits copies' := by
  -- From the next generation on, all waiters that there are are old.
  refine .of_lt (fun i g hi => ?_) (fun s' a' hp => ?_) fun hf => ?_
  · have hg := (h.current i g (Nat.lt_of_lt_of_le hi (hle i g))).1
    exact Nat.lt_succ_of_le hg
  · cases hp
  · cases hf

theorem Awaited.note {index : Nat} {sub : Submission} {graph : Graph}
    (h : Awaited ⟨r, .telling u o (.submission index :: ws)⟩)
    (hs : r.submissions[index]? = some sub) :
    Awaited ⟨{ r.note index o with graph }, .telling u o ws⟩ := by
  have hcopies : ∀ w, (⟨r, .telling u o (.submission index :: ws)⟩ : Moment).copies w =
      (⟨{ r.note index o with graph }, .telling u o ws⟩ : Moment).copies w +
        if w = .submission index then 1 else 0 := fun w => copies_telling
  have hget : ∀ i : Nat, (r.note index o).submissions[i]? =
      if index = i then (r.submissions[i]?).map fun s => { s with outcome := some o }
      else r.submissions[i]? := fun i => Array.getElem?_modify
  refine ⟨fun i t ht => ?_, fun i hi j g => ?_, fun i s hi => ?_, fun i hi => ?_⟩
  · have h := h.tasks i t ht
    simpa [hcopies] using h
  · have h := h.noTask i hi j g
    simpa [hcopies] using h
  · have hi : (r.note index o).submissions[i]? = some s := hi
    rw [hget] at hi
    by_cases he : index = i
    · subst he
      have hone := h.submissions index sub hs
      rw [if_pos rfl, hs, Option.map_some] at hi
      cases hi
      rw [hcopies, if_pos rfl] at hone
      refine Nat.eq_zero_of_not_pos fun hpos => ?_
      split at hone <;> omega
    · rw [if_neg he] at hi
      have h := h.submissions i s hi
      rw [hcopies, if_neg (by simpa using Ne.symm he)] at h
      exact h
  · have hi : (r.note index o).submissions[i]? = none := hi
    rw [hget] at hi
    have hne : index ≠ i := by
      rintro rfl
      simp [hs] at hi
    rw [if_neg hne] at hi
    have h := h.noSubmission i hi
    rw [hcopies, if_neg (by simpa using Ne.symm hne)] at h
    exact h

theorem Moves.no_slots {p : Phase} (h : Moves c t p) :
    (∀ s a, t.phase ≠ .resolveInputs s a) ∧ ∀ s a, p ≠ .resolveInputs s a := by
  cases h with
  | seek hp => simp [hp]
  | askAll hp => simp [hp]
  | remembered hp => simp [hp]
  | exhaust hp => simp [hp]
  | skip hp => simp [hp]

theorem Ends.outstanding {g : Graph} (h : Ends c g t o) (hp : t.phase = .resolveInputs s a) :
    a.outstanding = 0 := by
  cases h with
  | committed hp' ho =>
    rw [hp] at hp'
    cases hp'
    exact ho
  | noTarget hp' | reuse hp' | missing hp' | source hp' | relabel hp' | noFunctions hp'
  | present hp' | exhausted hp' =>
    rw [hp] at hp'
    cases hp'

theorem Awaited.setPhase {r' : Resolution} {b b' : Activity} (h : Awaited ⟨r, b⟩) (f : Task → Task)
    (ht : r.tasks[id]? = some t) (hp : ∀ s a, t.phase ≠ .resolveInputs s a)
    (htasks : r'.tasks = r.tasks.modify id f) (hs : r'.submissions = r.submissions)
    (hd : (⟨r', b'⟩ : Moment).due = (⟨r, b⟩ : Moment).due)
    (hw : ∀ t, (f t).waiters = t.waiters) (hg : (f t).generation = t.generation)
    (hfin : (f t).isFinished = false)
    (hp' : ∀ s a, (f t).phase = .resolveInputs s a → a.slots = [] ∧ a.outstanding = 0) :
    Awaited ⟨r', b'⟩ := by
  refine h.modifyTask f ht htasks hs hd hw (.of_lt (fun i g hi => ?_) hp' ?_)
  · rw [hg]
    exact (h.tasks id t ht).lt (fun s a hs => absurd hs (hp s a)) hi
  · rw [hfin]
    nofun

theorem Awaited.settle {g : Graph} (h : Awaited ⟨r, .turn id⟩) (ht : r.tasks[id]? = some t)
    (he : Ends c g t o) : Awaited ⟨r.settle id t o, .telling id o t.waiters⟩ := by
  have hcopies : ∀ w, (⟨r.settle id t o, .telling id o t.waiters⟩ : Moment).copies w =
      (⟨r, .turn id⟩ : Moment).copies w := by
    intro w
    exact Resolution.copies_settle ht
  refine h.of_task (Resolution.puts_settle ht) rfl (fun i => hcopies _)
    (fun i _ j g => hcopies _) ?_
  simp only [hcopies]
  refine .of_lt (fun i g hi => ?_) (fun s a hp => ?_) fun _ => rfl
  · refine (h.tasks id t ht).lt (fun s a hp i ha => ?_) hi
    have ho := (h.tasks id t ht).outstanding s a hp
    rw [he.outstanding hp] at ho
    have hpos : 0 < a.slots.count none := List.count_pos_iff.2 (List.mem_of_getElem? ha)
    omega
  · cases o <;> cases hp

theorem Awaited.cancel (h : Awaited ⟨r, .idle⟩) : Awaited ⟨r.cancel, .idle⟩ := by
  -- Every task has ended, so nobody has waiters.
  have hwaiters : ∀ (i : TaskId) t', r.cancel.tasks[i]? = some t' →
      t'.waiters = [] ∧ t'.isFinished := by
    intro i t' ht'
    simp only [Resolution.cancel, Array.getElem?_map, Option.map_eq_some_iff] at ht'
    obtain ⟨t, ht, rfl⟩ := ht'
    split
    next hf => exact ⟨(h.tasks i t ht).waiters hf, hf⟩
    next => exact ⟨rfl, rfl⟩
  have hcopies : ∀ w, (⟨r.cancel, .idle⟩ : Moment).copies w = 0 := by
    intro w
    show r.cancel.copies w + 0 = 0
    rw [Resolution.copies_eq_zero fun i t' ht' => (hwaiters i t' ht').1]
  refine ⟨fun i t' ht' => ?_, fun i _ j g => hcopies _, fun i s hs => ?_, fun i _ => hcopies _⟩
  · obtain ⟨hw, hf⟩ := hwaiters i t' ht'
    refine .of_lt (fun j g hi => ?_) (fun s a hp => ?_) fun _ => hw
    · rw [hcopies] at hi
      exact absurd hi (Nat.lt_irrefl 0)
    · simp [Task.isFinished, hp] at hf
  · rw [hcopies]
    simp only [Resolution.cancel, Array.getElem?_map, Option.map_eq_some_iff] at hs
    obtain ⟨s', -, rfl⟩ := hs
    split
    next ho =>
      obtain ⟨o, ho⟩ := Option.isSome_iff_exists.1 ho
      rw [ho]
      rfl
    next => rfl

theorem Awaited.ask {r' : Resolution} (h : Awaited ⟨r, .asking id⟩) (ht : r.tasks[id]? = some t)
    (hp : t.phase = .resolveInputs s a) (hs : r'.submissions = r.submissions)
    (hsize : r.tasks.size ≤ r'.tasks.size) (ht' : r'.tasks[id]? = some t)
    (hcopies : ∀ w, r'.copies w =
      r.copies w + if w = .input id a.slots.length t.generation then 1 else 0)
    (htasks : ∀ i : TaskId, i ≠ id → ∀ t', r'.tasks[i]? = some t' →
      t'.Awaits fun j g => r.copies (.input i j g)) :
    Awaited ⟨(r'.awaitTask id u).setPhase id (.resolveInputs s (a.push none)), .asking id⟩ := by
  have hx := Resolution.puts_asking (u := u) (s := s) (a := a.push none) ht'
  have hc : ∀ w, (⟨(r'.awaitTask id u).setPhase id (.resolveInputs s (a.push none)),
      .asking id⟩ : Moment).copies w = (⟨r, .asking id⟩ : Moment).copies w +
        if w = .input id a.slots.length t.generation then 1 else 0 := by
    intro w
    show Resolution.copies _ w + 0 = r.copies w + 0 + _
    rw [Resolution.copies_setPhase, Resolution.copies_awaitTask, hcopies]
    omega
  refine h.of_others id hs (fun i => ?_) (fun i hi j g => ?_) (fun i hi t'' ht'' => ?_)
    (fun i hi => ?_) (fun t'' ht'' => ?_) ⟨_, hx.self⟩
  · simp [hc]
  · simp [hc, hi]
  · have ht'' := (hx.other (Ne.symm hi)).symm.trans ht''
    exact htasks i hi t'' ht''
  · have hne : id ≠ i := by
      rintro rfl
      have hi := hx.self.symm.trans hi
      cases hi
    have hi := (hx.other hne).symm.trans hi
    simp only [Array.getElem?_eq_none_iff] at hi ⊢
    exact Nat.le_trans hsize hi
  · have ht'' := hx.self.symm.trans ht''
    cases ht''
    refine (h.tasks id t ht).push_none hp (fun i g => ?_) _
    rw [hc]
    simp

theorem Awaited.submit {r' : Resolution} {sub : Submission} (h : Awaited ⟨r, .idle⟩)
    (hs : r'.submissions = r.submissions.push sub)
    (hcopies : ∀ w, r'.copies w = r.copies w +
      if w = .submission r.submissions.size ∧ sub.outcome.isNone then 1 else 0)
    (htasks : ∀ (i : TaskId) t', r'.tasks[i]? = some t' →
      t'.Awaits fun j g => r.copies (.input i j g))
    (hsize : r.tasks.size ≤ r'.tasks.size) : Awaited ⟨r', .idle⟩ := by
  have hc : ∀ w, (⟨r', .idle⟩ : Moment).copies w = (⟨r, .idle⟩ : Moment).copies w +
      if w = .submission r.submissions.size ∧ sub.outcome.isNone then 1 else 0 := by
    intro w
    show r'.copies w + 0 = r.copies w + 0 + _
    rw [hcopies]
    omega
  -- Only the last submission is new, and it has a waiter just if it has no outcome yet.
  refine ⟨fun i t' ht' => ?_, fun i hi j g => ?_, fun i s hi => ?_, fun i hi => ?_⟩
  · simp only [hc, reduceCtorEq, false_and, if_false, Nat.add_zero]
    exact htasks i t' ht'
  · have hi : r'.tasks[i]? = none := hi
    rw [hc, h.noTask i (by simp at hi ⊢; omega)]
    simp
  · have hi : r'.submissions[i]? = some s := hi
    rw [hs, Array.getElem?_push] at hi
    rw [hc]
    by_cases he : i = r.submissions.size
    · rw [if_pos he] at hi
      cases hi
      rw [h.noSubmission i (by simp [he])]
      simp [he]
    · rw [if_neg he] at hi
      rw [if_neg (by simp [he]), Nat.add_zero]
      exact h.submissions i s hi
  · have hi : r'.submissions[i]? = none := hi
    simp only [hs, Array.getElem?_eq_none_iff, Array.size_push] at hi
    rw [hc, h.noSubmission i (by simp; omega), if_neg]
    rintro ⟨he, -⟩
    cases he
    omega

theorem Awaited.tasks_addWaiter {b : Activity} {i : TaskId} {t' : Task} {w : Waiter}
    {q : Requirement} (h : Awaited ⟨r, b⟩) (hclaimed : r.Claimed)
    (hq : r.claims.get? q = some (.pending u))
    (ht' : (r.addWaiter u w).tasks[i]? = some t') :
    t'.Awaits fun j g => (⟨r, b⟩ : Moment).copies (.input i j g) := by
  obtain ⟨t, ht, -, hf⟩ := (hclaimed q u).1 hq
  unfold Resolution.addWaiter at ht'
  rw [Resolution.tasks_modifyTask] at ht'
  by_cases hi : u = i
  · subst hi
    rw [if_pos rfl, ht] at ht'
    cases ht'
    refine (h.tasks u t ht).congr rfl rfl fun hfin => ?_
    rw [show t.isFinished = true from hfin] at hf
    cases hf
  · rw [if_neg hi] at ht'
    exact h.tasks i t' ht'

theorem Awaited.tasks_spawn {b : Activity} {i : TaskId} {t' : Task} {w : Waiter} {q : Requirement}
    {d : Nat} (h : Awaited ⟨r, b⟩) (ht' : (r.spawn q w d).tasks[i]? = some t') :
    t'.Awaits fun j g => (⟨r, b⟩ : Moment).copies (.input i j g) := by
  rw [Resolution.tasks_spawn] at ht'
  split at ht'
  next hi =>
    cases ht'
    refine .of_lt (fun j g hpos => ?_) (fun s a hp => ?_) fun hf => ?_
    · rw [h.noTask i (by simp [hi])] at hpos
      exact absurd hpos (Nat.lt_irrefl 0)
    · cases hp
    · cases hf
  next => exact h.tasks i t' ht'

theorem Change.awaited (hc : Change c maxDepth m m') (hclaimed : m.resolution.Claimed)
    (hb : ∀ e, m'.activity ≠ .broken e) (h : Awaited m) : Awaited m' := by
  cases hc with
  | take | again | block | park | pass | resume | asked | add | told =>
    exact ⟨h.tasks, h.noTask, h.submissions, h.noSubmission⟩
  | refuseNode | refuseMark | submitRefused => exact absurd rfl (hb _)
  | cancel => exact h.cancel
  | @found r id t w target digest ht hp =>
    refine h.setPhase
      (fun t => { t with target := some target, phase := .checkLiveData { target, digest } }) ht
      (by simp [hp]) rfl rfl rfl (fun _ => rfl) rfl rfl fun s a hs => ?_
    cases hs
  | @move r id t p ht hm =>
    exact h.setPhase (fun t => { t with phase := p }) ht hm.no_slots.1 rfl rfl rfl (fun _ => rfl)
      rfl hm.not_isFinished.2 fun s a hp => absurd hp (hm.no_slots.2 s a)
  | @takeUp r id t s x xs ht hp =>
    refine h.setPhase
      (fun t => { t with
        phase := .resolveInputs { s with candidates := xs } { candidate := x } }) ht
      (by simp [hp]) rfl rfl rfl (fun _ => rfl) rfl rfl fun s a hp => ?_
    cases hp
    exact ⟨rfl, rfl⟩
  | @known r id t s a q v ht hp =>
    exact h.modifyTask (fun t => { t with phase := .resolveInputs s (a.push (some v)) }) ht rfl rfl
      rfl (fun _ => rfl) ((h.tasks _ _ ht).push_some hp)
  | @giveUp r id t s a q cause ht hp =>
    exact h.modifyTask (fun t => t.abandon s a.candidate cause) ht rfl rfl rfl (fun _ => rfl)
      ((h.tasks _ _ ht).abandon fun _ _ => Nat.le_refl _)
  | @join r id t s a q u ht hp hq hg hn =>
    obtain ⟨tu, hu, -⟩ := (hclaimed q u).1 hg
    have hne := Resolution.ne_of_closesCircle hn
    refine h.ask ht hp rfl ?_ (Resolution.tasks_addWaiter_of_ne ht hne)
      (fun w => ?_) fun i _ t' ht' => h.tasks_addWaiter hclaimed hg ht'
    · simp [Resolution.addWaiter, Resolution.modifyTask]
    · rw [Resolution.copies_addWaiter hu, count_singleton]
  | @spawn r id t s a q ht hp hq hg hd =>
    refine h.ask ht hp rfl ?_ (Resolution.tasks_spawn_of_some ht) (fun w => ?_)
      fun i _ t' ht' => h.tasks_spawn ht'
    · simp [Resolution.spawn]
    · rw [Resolution.copies_spawn, count_singleton]
  | settle ht he => exact h.settle ht he
  | stale hs => exact h.stale hs
  | @fill r u v id t s a slot ws ht hp | @fillLast r u v id t s a slot ws ht hp =>
    exact h.tell
      (fun t =>
        { t with phase := .resolveInputs s (a.fill slot v), waitingOn := t.waitingOn.erase u }) ht
      rfl rfl (fun _ => rfl) fun _ _ ht hpos hc => ht.fill hp hpos hc _
  | @fail r u cause id t s a slot ws ht hp =>
    refine h.tell (fun t => t.abandon s a.candidate cause) ht rfl rfl (fun _ => rfl)
      fun _ _ ht _ hc => ht.abandon fun i g => ?_
    rw [hc]
    exact Nat.le_add_right _ _
  | @lost r u o index ws hs =>
    have hzero := h.noSubmission index hs
    rw [copies_telling, if_pos rfl] at hzero
    omega
  | mark hs => exact h.note hs
  | note hs => exact h.note hs
  | submitKnown | submitFailed =>
    exact h.submit rfl (fun _ => by simp [Resolution.copies, Resolution.submit])
      (fun i t' ht' => h.tasks i t' ht') (Nat.le_refl _)
  | @submitJoin r q u hg =>
    obtain ⟨tu, hu, -⟩ := (hclaimed q u).1 hg
    refine h.submit rfl (fun w => ?_) (fun i t' ht' => h.tasks_addWaiter hclaimed hg ht') ?_
    · have hu : (r.submit q).tasks[u]? = some tu := hu
      rw [Resolution.copies_addWaiter hu, count_singleton]
      simp [Resolution.copies, Resolution.submit]
    · simp [Resolution.addWaiter, Resolution.modifyTask, Resolution.submit]
  | @submitSpawn r q hg =>
    refine h.submit rfl (fun w => ?_) (fun i t' ht' => h.tasks_spawn ht') ?_
    · rw [Resolution.copies_spawn, count_singleton]
      simp [Resolution.copies, Resolution.submit]
    · simp [Resolution.spawn, Resolution.submit]

end Changes

end ValueGraph
