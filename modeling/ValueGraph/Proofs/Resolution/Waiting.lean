import ValueGraph.Proofs.Resolution.Queue

namespace ValueGraph

section Relations

variable {α : Type} {R S : α → α → Prop} {a b i u : α}

/-- A path with one more edge takes it first after some steps, and last before some. -/
theorem transGen_of_edge (hS : ∀ a b, S a b → R a b ∨ a = i ∧ b = u)
    (h : Relation.TransGen S a b) :
    Relation.TransGen R a b ∨ Relation.ReflTransGen R a i ∧ Relation.ReflTransGen R u b := by
  induction h with
  | single hab =>
    rcases hS _ _ hab with hab | ⟨rfl, rfl⟩
    · exact .inl (.single hab)
    · exact .inr ⟨.refl, .refl⟩
  | tail _ hbc ih =>
    rcases ih with ih | ⟨hi, hu⟩
    · rcases hS _ _ hbc with hbc | ⟨rfl, rfl⟩
      · exact .inl (ih.tail hbc)
      · exact .inr ⟨ih.to_reflTransGen, .refl⟩
    · rcases hS _ _ hbc with hbc | ⟨rfl, rfl⟩
      · exact .inr ⟨hi, hu.tail hbc⟩
      · exact .inr ⟨hi, .refl⟩

theorem acyclic_of_edge (hR : ∀ a, ¬ Relation.TransGen R a a)
    (hS : ∀ a b, S a b → R a b ∨ a = i ∧ b = u) (hne : u ≠ i) (hn : ¬ Relation.TransGen R u i) :
    ∀ a, ¬ Relation.TransGen S a a := by
  intro a h
  -- A circle through the new edge would lead from `u` back to `i` without it.
  rcases transGen_of_edge hS h with h | ⟨hi, hu⟩
  · exact hR a h
  · rcases Relation.reflTransGen_iff_eq_or_transGen.1 (hu.trans hi) with he | h
    · exact hne he.symm
    · exact hn h

end Relations

namespace Resolution

variable {r r' : Resolution} {id i u : TaskId} {t : Task} {w : Waiter}

def WaitsFor (r : Resolution) (id u : TaskId) : Prop := u ∈ r.waitingOn id

theorem waitsFor_iff : r.WaitsFor id u ↔ ∃ t, r.tasks[id]? = some t ∧ u ∈ t.waitingOn := by
  unfold WaitsFor waitingOn
  cases r.tasks[id]? with
  | none => simp
  | some t => simp [SortedSet.mem_toList]

theorem waitsFor_lt (h : r.WaitsFor id u) : id < r.tasks.size := by
  obtain ⟨t, ht, -⟩ := waitsFor_iff.1 h
  exact (Array.getElem?_eq_some_iff.1 ht).1

/--
Nobody in `seen` waits for the target, and whom they wait for has been seen, is to be looked at yet,
or does not exist.
-/
def Searched (r : Resolution) (target : TaskId) (seen : SortedSet TaskId) (todo : List TaskId) :
    Prop :=
  ∀ v ∈ seen, ∀ x, r.WaitsFor v x → x ≠ target ∧ (x ∈ seen ∨ x ∈ todo ∨ r.tasks.size ≤ x)

section Search

variable {target v x : TaskId} {seen : SortedSet TaskId} {todo : List TaskId}

/-- Where nothing is left to be looked at, no path from what was seen leaves it. -/
theorem Searched.path (h : r.Searched target seen []) (hv : v ∈ seen)
    (hvx : Relation.TransGen r.WaitsFor v x) :
    x ≠ target ∧ (x ∈ seen ∨ r.tasks.size ≤ x) := by
  induction hvx with
  | single hvx => simpa using h v hv _ hvx
  | tail _ hxy ih =>
    rcases ih.2 with hx | hx
    · simpa using h _ hx _ hxy
    · exact absurd (waitsFor_lt hxy) (Nat.not_lt_of_le hx)

theorem Searched.visit (h : r.Searched target seen (id :: todo)) (hid : ¬ r.WaitsFor id target) :
    r.Searched target (seen.insert id) (r.waitingOn id ++ todo) := by
  intro v hv x hvx
  rcases SortedSet.mem_insert.1 hv with rfl | hv
  · refine ⟨?_, .inr (.inl (List.mem_append_left _ hvx))⟩
    rintro rfl
    exact hid hvx
  · obtain ⟨hne, hx | hx | hx⟩ := h v hv x hvx
    · exact ⟨hne, .inl (SortedSet.mem_insert.2 (.inr hx))⟩
    · rcases List.mem_cons.1 hx with rfl | hx
      · exact ⟨hne, .inl (SortedSet.mem_insert.2 (.inl rfl))⟩
      · exact ⟨hne, .inr (.inl (List.mem_append_right _ hx))⟩
    · exact ⟨hne, .inr (.inr hx)⟩

theorem Searched.skip (h : r.Searched target seen (id :: todo))
    (hid : id ∈ seen ∨ r.tasks.size ≤ id) : r.Searched target seen todo := by
  intro v hv x hvx
  obtain ⟨hne, hx | hx | hx⟩ := h v hv x hvx
  · exact ⟨hne, .inl hx⟩
  · rcases List.mem_cons.1 hx with rfl | hx
    · exact ⟨hne, hid.imp_right .inr⟩
    · exact ⟨hne, .inr (.inl hx)⟩
  · exact ⟨hne, .inr (.inr hx)⟩

/-- The search finds whoever is waited for. -/
theorem Searched.complete (hseen : r.Searched target seen todo)
    (h : r.leadsTo target seen todo = false) (hv : v ∈ seen ∨ v ∈ todo) :
    ¬ Relation.TransGen r.WaitsFor v target := by
  -- By the recursion of the search, which is over when nothing is left to be looked at.
  induction seen, todo using leadsTo.induct r with
  | case1 seen =>
    intro hpath
    rcases hv with hv | hv
    · exact (hseen.path hv hpath).1 rfl
    · cases hv
  | case2 seen id todo hid ih =>
    rw [leadsTo, dif_pos hid, Bool.or_eq_false_iff] at h
    obtain ⟨hnot, h⟩ := h
    have hnot : ¬ r.WaitsFor id target := by simpa [WaitsFor] using hnot
    refine ih (hseen.visit hnot) h ?_
    rcases hv with hv | hv
    · exact .inl (SortedSet.mem_insert.2 (.inr hv))
    · rcases List.mem_cons.1 hv with rfl | hv
      · exact .inl (SortedSet.mem_insert.2 (.inl rfl))
      · exact .inr (List.mem_append_right _ hv)
  | case3 seen id todo hid ih =>
    rw [leadsTo, dif_neg hid] at h
    have hskip : id ∈ seen ∨ r.tasks.size ≤ id := by
      by_cases hs : id ∈ seen
      · exact .inl hs
      · exact .inr (Nat.le_of_not_lt fun hlt => hid ⟨hlt, hs⟩)
    have hrest := ih (hseen.skip hskip) h
    rcases hv with hv | hv
    · exact hrest (.inl hv)
    · rcases List.mem_cons.1 hv with rfl | hv
      · rcases hskip with hs | hs
        · exact hrest (.inl hs)
        · intro hpath
          obtain ⟨y, hvy, -⟩ := Relation.TransGen.head'_iff.1 hpath
          exact Nat.not_lt_of_le hs (waitsFor_lt hvy)
      · exact hrest (.inr hv)

/-- The search finds nobody else. -/
theorem transGen_of_leadsTo (h : r.leadsTo target seen todo = true) :
    ∃ v ∈ todo, Relation.TransGen r.WaitsFor v target := by
  induction seen, todo using leadsTo.induct r with
  | case1 seen =>
    rw [leadsTo] at h
    cases h
  | case2 seen id todo hid ih =>
    rw [leadsTo, dif_pos hid, Bool.or_eq_true] at h
    rcases h with h | h
    · have hwaits : r.WaitsFor id target := by simpa [WaitsFor] using h
      exact ⟨id, List.mem_cons_self, .single hwaits⟩
    · obtain ⟨v, hv, hpath⟩ := ih h
      rcases List.mem_append.1 hv with hv | hv
      · exact ⟨id, List.mem_cons_self, .head hv hpath⟩
      · exact ⟨v, List.mem_cons_of_mem _ hv, hpath⟩
  | case3 seen id todo hid ih =>
    rw [leadsTo, dif_neg hid] at h
    obtain ⟨v, hv, hpath⟩ := ih h
    exact ⟨v, List.mem_cons_of_mem _ hv, hpath⟩

end Search

theorem not_transGen_of_waitsOn {target : TaskId} (h : r.waitsOn id target = false) :
    ¬ Relation.TransGen r.WaitsFor id target := by
  have hseen : r.Searched target ∅ [id] := fun v hv => absurd hv SortedSet.not_mem_empty
  exact hseen.complete h (.inr (List.mem_singleton_self id))

theorem not_transGen_of_closesCircle {slot generation : Nat}
    (h : r.closesCircle u (.input id slot generation) = false) :
    ¬ Relation.TransGen r.WaitsFor u id := by
  unfold closesCircle at h
  exact not_transGen_of_waitsOn (Bool.or_eq_false_iff.1 h).2

theorem reflTransGen_of_closesCircle {slot generation : Nat}
    (h : r.closesCircle u (.input id slot generation) = true) :
    Relation.ReflTransGen r.WaitsFor u id := by
  unfold closesCircle at h
  rcases Bool.or_eq_true_iff.1 h with h | h
  · rw [of_decide_eq_true h]
  · obtain ⟨v, hv, hpath⟩ := transGen_of_leadsTo h
    rw [List.mem_singleton.1 hv] at hpath
    exact hpath.to_reflTransGen

end Resolution

section Linked

/-- Who waits is told by those who have him as a waiter, and nobody waits for himself. -/
structure Linked (m : Moment) : Prop where
  acyclic : ∀ id, ¬ Relation.TransGen m.resolution.WaitsFor id id
  /-- A waiter that is not old is one whose task says that it waits. -/
  waits : ∀ (u id : TaskId) tu t j, m.resolution.tasks[u]? = some tu →
    .input id j t.generation ∈ tu.waiters → m.resolution.tasks[id]? = some t → u ∈ t.waitingOn
  /-- Only a task that has ended tells. -/
  teller : ∀ u o ws, m.activity = .telling u o ws →
    ∃ t, m.resolution.tasks[u]? = some t ∧ t.isFinished

variable {σ : Type} {c : Collaborators σ} {maxDepth : Nat} {m m' : Moment} {r : Resolution}
  {id u : TaskId} {t : Task} {s : Search} {a : Attempt} {o : Outcome} {ws : List Waiter}

theorem acyclic_mono (h : ∀ i, ¬ Relation.TransGen m.resolution.WaitsFor i i)
    (hw : ∀ i x, m'.resolution.WaitsFor i x → m.resolution.WaitsFor i x) (i : TaskId) :
    ¬ Relation.TransGen m'.resolution.WaitsFor i i :=
  fun hi => h i (Relation.TransGen.mono hw i i hi)

theorem Linked.teller_modifyTask {r' : Resolution} {v : Waiter}
    (h : Linked ⟨r, .telling u o (v :: ws)⟩) (f : Task → Task) (ht : r.tasks[id]? = some t)
    (hf : t.isFinished = false) (htasks : r'.tasks = r.tasks.modify id f) :
    ∃ t, r'.tasks[u]? = some t ∧ t.isFinished := by
  obtain ⟨tu, hu, hfin⟩ := h.teller u o _ rfl
  refine ⟨tu, ?_, hfin⟩
  rw [htasks, Array.getElem?_modify, if_neg, hu]
  rintro rfl
  rw [ht] at hu
  cases hu
  rw [hf] at hfin
  cases hfin

/--
A change of one task. Its waiters stay, or go; either it goes on waiting for those it waits for, or
no waiter of it is of its generation.
-/
theorem Linked.modifyTask (h : Linked m) (hw : Awaited m') (f : Task → Task)
    (ht : m.resolution.tasks[id]? = some t)
    (htasks : m'.resolution.tasks = m.resolution.tasks.modify id f)
    (hsub : ∀ u ∈ (f t).waitingOn, u ∈ t.waitingOn)
    (hwaiters : (f t).waiters = t.waiters ∨ (f t).waiters = [])
    (hkeep : (f t).generation = t.generation ∧
        (∀ u ∈ t.waitingOn, u ∈ (f t).waitingOn ∨
          ∀ tu, m.resolution.tasks[u]? = some tu → tu.waiters = []) ∨
      ∀ s a, (f t).phase = .resolveInputs s a → ∀ i : Nat, a.slots[i]? ≠ some none)
    (hteller : ∀ u o ws, m'.activity = .telling u o ws →
      ∃ t, m'.resolution.tasks[u]? = some t ∧ t.isFinished) : Linked m' := by
  have hx := Resolution.puts_modify htasks ht
  -- Every waiter was there before.
  have hold : ∀ (u : TaskId) tu, m'.resolution.tasks[u]? = some tu → ∃ tu₀,
      m.resolution.tasks[u]? = some tu₀ ∧ ∀ w ∈ tu.waiters, w ∈ tu₀.waiters := by
    intro u tu hu
    rcases hx.self_or_other hu with ⟨rfl, rfl⟩ | ⟨-, hu⟩
    · refine ⟨t, ht, fun w hw => ?_⟩
      rcases hwaiters with he | he
      · rwa [he] at hw
      · rw [he] at hw
        cases hw
    · exact ⟨tu, hu, fun w hw => hw⟩
  refine ⟨acyclic_mono h.acyclic fun i x hix => ?_, fun u i tu t' j hu hmem ht' => ?_, hteller⟩
  · obtain ⟨t', ht', hix⟩ := Resolution.waitsFor_iff.1 hix
    rcases hx.self_or_other ht' with ⟨rfl, rfl⟩ | ⟨-, ht'⟩
    · exact Resolution.waitsFor_iff.2 ⟨t, ht, hsub x hix⟩
    · exact Resolution.waitsFor_iff.2 ⟨t', ht', hix⟩
  · obtain ⟨tu₀, hu₀, hsub'⟩ := hold u tu hu
    have hmem₀ := hsub' _ hmem
    rcases hx.self_or_other ht' with ⟨rfl, rfl⟩ | ⟨-, ht'⟩
    · rcases hkeep with ⟨hg, hkeep⟩ | hnone
      · rw [hg] at hmem₀
        have hwait := h.waits u id tu₀ t j hu₀ hmem₀ ht
        rcases hkeep u hwait with hwait | hempty
        · exact hwait
        · rw [hempty tu₀ hu₀] at hmem₀
          cases hmem₀
      · -- No slot is open, so there are none but old waiters.
        have hpos : 0 < m'.copies (.input id j (f t).generation) :=
          Nat.lt_of_lt_of_le (Resolution.copies_pos hu hmem) (Nat.le_add_right _ _)
        have hlt := (hw.tasks id _ hx.self).lt hnone hpos
        exact absurd hlt (Nat.lt_irrefl _)
    · exact h.waits u i tu₀ t' j hu₀ hmem₀ ht'

theorem Linked.congr (h : Linked m) (htasks : m'.resolution.tasks = m.resolution.tasks)
    (hteller : ∀ u o ws, m'.activity = .telling u o ws →
      ∃ t, m'.resolution.tasks[u]? = some t ∧ t.isFinished) : Linked m' := by
  refine ⟨acyclic_mono h.acyclic fun i x hix => ?_, ?_, hteller⟩
  · rw [Resolution.waitsFor_iff, htasks] at hix
    exact Resolution.waitsFor_iff.2 hix
  · rw [htasks]
    exact h.waits

theorem Linked.ask {r' : Resolution} (h : Linked ⟨r, .asking id⟩) (ht' : r'.tasks[id]? = some t)
    (hne : u ≠ id) (hn : ¬ Relation.TransGen r'.WaitsFor u id)
    (hold : ∀ (i : TaskId) t', r'.tasks[i]? = some t' →
      (∃ t, r.tasks[i]? = some t ∧ t'.generation = t.generation ∧ t'.waitingOn = t.waitingOn) ∨
        t'.waitingOn = ∅ ∧ ∀ (v : TaskId) tv, r.tasks[v]? = some tv →
          ∀ j g, .input i j g ∉ tv.waiters)
    (hwaiters : ∀ (v : TaskId) tv', r'.tasks[v]? = some tv' → ∀ w ∈ tv'.waiters,
      (∃ tv, r.tasks[v]? = some tv ∧ w ∈ tv.waiters) ∨
        v = u ∧ w = .input id a.slots.length t.generation) :
    Linked ⟨(r'.awaitTask id u).setPhase id (.resolveInputs s (a.push none)), .asking id⟩ := by
  have hask := Resolution.puts_asking (u := u) (s := s) (a := a.push none) ht'
  -- Apart from the new edge, nobody waits for anyone new.
  have hbefore : ∀ i x, r'.WaitsFor i x → r.WaitsFor i x := by
    intro i x hix
    obtain ⟨t', hi, hx⟩ := Resolution.waitsFor_iff.1 hix
    rcases hold i t' hi with ⟨t₀, hi₀, -, hwait⟩ | ⟨hempty, -⟩
    · rw [hwait] at hx
      exact Resolution.waitsFor_iff.2 ⟨t₀, hi₀, hx⟩
    · rw [hempty] at hx
      exact absurd hx SortedSet.not_mem_empty
  have hacyclic : ∀ i, ¬ Relation.TransGen r'.WaitsFor i i := fun i hi =>
    h.acyclic i (Relation.TransGen.mono hbefore i i hi)
  refine ⟨acyclic_of_edge (i := id) (u := u) hacyclic (fun i x hix => ?_) hne hn,
    fun v i tv t'' j hv hmem hi => ?_, nofun⟩
  · obtain ⟨t', hi, hx⟩ := Resolution.waitsFor_iff.1 hix
    rcases hask.self_or_other hi with ⟨rfl, rfl⟩ | ⟨-, hi⟩
    · rcases SortedSet.mem_insert.1 hx with rfl | hx
      · exact .inr ⟨rfl, rfl⟩
      · exact .inl (Resolution.waitsFor_iff.2 ⟨t, ht', hx⟩)
    · exact .inl (Resolution.waitsFor_iff.2 ⟨t', hi, hx⟩)
  · have hv' : ∃ tv', r'.tasks[v]? = some tv' ∧ tv'.waiters = tv.waiters := by
      rcases hask.self_or_other hv with ⟨rfl, rfl⟩ | ⟨-, hv⟩
      · exact ⟨t, ht', rfl⟩
      · exact ⟨tv, hv, rfl⟩
    obtain ⟨tv', hv', hsame⟩ := hv'
    rw [← hsame] at hmem
    rcases hwaiters v tv' hv' _ hmem with ⟨tv₀, hv₀, hmem₀⟩ | ⟨rfl, he⟩
    · -- An old waiter: its task waits for `v` still.
      have hi' : ∃ t', r'.tasks[i]? = some t' ∧ t'.generation = t''.generation ∧
          ∀ x ∈ t'.waitingOn, x ∈ t''.waitingOn := by
        rcases hask.self_or_other hi with ⟨rfl, rfl⟩ | ⟨-, hi⟩
        · exact ⟨t, ht', rfl, fun x hx => SortedSet.mem_insert.2 (.inr hx)⟩
        · exact ⟨t'', hi, rfl, fun x hx => hx⟩
      obtain ⟨t', hi', hg, hsub⟩ := hi'
      rcases hold i t' hi' with ⟨t₀, hi₀, hg₀, hwait⟩ | ⟨-, hnone⟩
      · rw [← hg, hg₀] at hmem₀
        apply hsub
        rw [hwait]
        exact h.waits v i tv₀ t₀ j hv₀ hmem₀ hi₀
      · exact absurd hmem₀ (hnone v tv₀ hv₀ j _)
    · injection he with he _ _
      subst he
      have hi := hask.self.symm.trans hi
      cases hi
      exact SortedSet.mem_insert.2 (.inl rfl)

theorem Linked.cancel (h : Linked ⟨r, .idle⟩) (hw : Awaited ⟨r.cancel, .idle⟩) :
    Linked ⟨r.cancel, .idle⟩ := by
  have hfin : ∀ (i : TaskId) t', r.cancel.tasks[i]? = some t' → t'.isFinished ∧
      ∃ t, r.tasks[i]? = some t ∧ ∀ u ∈ t'.waitingOn, u ∈ t.waitingOn := by
    intro i t' ht'
    simp only [Resolution.cancel, Array.getElem?_map, Option.map_eq_some_iff] at ht'
    obtain ⟨t, ht, rfl⟩ := ht'
    split
    next hf => exact ⟨hf, t, ht, fun u hu => hu⟩
    next => exact ⟨rfl, t, ht, fun u hu => absurd hu SortedSet.not_mem_empty⟩
  refine ⟨acyclic_mono h.acyclic fun i x hix => ?_, fun u i tu t' j hu hmem ht' => ?_,
    fun u o ws ha => ?_⟩
  · obtain ⟨t', ht', hx⟩ := Resolution.waitsFor_iff.1 hix
    obtain ⟨-, t, ht, hsub⟩ := hfin i t' ht'
    exact Resolution.waitsFor_iff.2 ⟨t, ht, hsub x hx⟩
  · rw [(hw.tasks u tu hu).waiters (hfin u tu hu).1] at hmem
    cases hmem
  · cases ha

theorem Linked.abandon {x : Candidate} {cause : Failure} (h : Linked m) (hw : Awaited m')
    (ht : m.resolution.tasks[id]? = some t)
    (htasks : m'.resolution.tasks =
      m.resolution.tasks.modify id fun t => t.abandon s x cause)
    (hteller : ∀ u o ws, m'.activity = .telling u o ws →
      ∃ t, m'.resolution.tasks[u]? = some t ∧ t.isFinished) : Linked m' := by
  refine h.modifyTask hw (fun t => t.abandon s x cause) ht htasks ?_ (.inl rfl) (.inr ?_) hteller
  · intro u hu
    exact absurd hu SortedSet.not_mem_empty
  · intro s' a' hp
    cases hp

theorem Linked.settle (h : Linked ⟨r, .turn id⟩)
    (hw : Awaited ⟨r.settle id t o, .telling id o t.waiters⟩) (ht : r.tasks[id]? = some t) :
    Linked ⟨r.settle id t o, .telling id o t.waiters⟩ := by
  refine h.modifyTask hw
    (fun t => { t with phase := .ofOutcome o, waiters := [], waitingOn := ∅ }) ht rfl ?_
    (.inr rfl) (.inr ?_) ?_
  · intro u hu
    exact absurd hu SortedSet.not_mem_empty
  · intro s a hp
    cases o <;> cases hp
  · intro u o' ws hu
    cases hu
    exact ⟨_, (Resolution.puts_settle ht).self, isFinished_ofOutcome t o [] ∅⟩

theorem Linked.fill {v : ValueSpec} {slot : Nat} {ready : List TaskId}
    (h : Linked ⟨r, .telling u (.ok v) (.input id slot t.generation :: ws)⟩)
    (hw : Awaited ⟨r, .telling u (.ok v) (.input id slot t.generation :: ws)⟩)
    (hw' : Awaited ⟨{ r.fillSlot u id s a slot v with ready }, .telling u (.ok v) ws⟩)
    (ht : r.tasks[id]? = some t) (hp : t.phase = .resolveInputs s a) :
    Linked ⟨{ r.fillSlot u id s a slot v with ready }, .telling u (.ok v) ws⟩ := by
  obtain ⟨tu, hu, hfin⟩ := h.teller u _ _ rfl
  refine h.modifyTask hw'
    (fun t => { t with
      phase := .resolveInputs s (a.fill slot v), waitingOn := t.waitingOn.erase u }) ht rfl ?_
    (.inl rfl) (.inl ⟨rfl, ?_⟩) ?_
  · intro x hx
    exact (SortedSet.mem_erase.1 hx).1
  · intro x hx
    by_cases he : x = u
    · subst he
      refine .inr fun tx hx => ?_
      rw [hu] at hx
      cases hx
      exact (hw.tasks x tu hu).waiters hfin
    · exact .inl (SortedSet.mem_erase.2 ⟨hx, he⟩)
  · intro u' o' ws' he
    cases he
    exact h.teller_modifyTask
      (fun t => { t with
        phase := .resolveInputs s (a.fill slot v), waitingOn := t.waitingOn.erase u })
      ht (isFinished_of_resolveInputs hp) rfl

theorem Linked.join (h : Linked ⟨r, .asking id⟩) (ht : r.tasks[id]? = some t)
    (hn : r.closesCircle u (.input id a.slots.length t.generation) = false) :
    Linked ⟨((r.addWaiter u (.input id a.slots.length t.generation)).awaitTask id u).setPhase id
      (.resolveInputs s (a.push none)), .asking id⟩ := by
  have hne := Resolution.ne_of_closesCircle hn
  refine h.ask (Resolution.tasks_addWaiter_of_ne ht hne) hne (fun hpath => ?_)
    (fun i t' ht' => ?_) fun v tv' hv w hw => ?_
  · refine Resolution.not_transGen_of_closesCircle hn (Relation.TransGen.mono ?_ _ _ hpath)
    intro i x hix
    obtain ⟨t', ht', hx⟩ := Resolution.waitsFor_iff.1 hix
    obtain ⟨t₀, ws, ht₀, rfl, -⟩ := Resolution.exists_of_addWaiter ht'
    exact Resolution.waitsFor_iff.2 ⟨t₀, ht₀, hx⟩
  · obtain ⟨t₀, ws, ht₀, rfl, -⟩ := Resolution.exists_of_addWaiter ht'
    exact .inl ⟨t₀, ht₀, rfl, rfl⟩
  · obtain ⟨t₀, ws, ht₀, rfl, hmem⟩ := Resolution.exists_of_addWaiter hv
    exact (hmem w hw).imp_left fun hw => ⟨t₀, ht₀, hw⟩

theorem Linked.spawn {q : Requirement} (h : Linked ⟨r, .asking id⟩)
    (hw : Awaited ⟨r, .asking id⟩) (ht : r.tasks[id]? = some t) (d : Nat) :
    Linked ⟨((r.spawn q (.input id a.slots.length t.generation) d).awaitTask id
      r.tasks.size).setPhase id (.resolveInputs s (a.push none)), .asking id⟩ := by
  have hlt : id < r.tasks.size := (Array.getElem?_eq_some_iff.1 ht).1
  refine h.ask (Resolution.tasks_spawn_of_some ht) (Nat.ne_of_gt hlt) (fun hpath => ?_)
    (fun i t' ht' => ?_) fun v tv' hv w hmem => ?_
  · obtain ⟨y, hy, -⟩ := Relation.TransGen.head'_iff.1 hpath
    obtain ⟨t', ht', hx⟩ := Resolution.waitsFor_iff.1 hy
    rw [Resolution.tasks_spawn, if_pos rfl] at ht'
    cases ht'
    exact SortedSet.not_mem_empty hx
  · rw [Resolution.tasks_spawn] at ht'
    split at ht'
    next hi =>
      cases ht'
      refine .inr ⟨rfl, fun v tv hv j g hmem => ?_⟩
      have hpos : 0 < r.copies (.input i j g) := Resolution.copies_pos hv hmem
      have hzero : r.copies (.input i j g) + 0 = 0 := hw.noTask i (by simp [hi]) j g
      omega
    next => exact .inl ⟨t', ht', rfl, rfl⟩
  · rw [Resolution.tasks_spawn] at hv
    split at hv
    next hi =>
      cases hv
      exact .inr ⟨hi, List.mem_singleton.1 hmem⟩
    next => exact .inl ⟨tv', hv, hmem⟩

theorem Linked.submit {r' : Resolution} (h : Linked ⟨r, .idle⟩)
    (htasks : ∀ (i : TaskId) t', r'.tasks[i]? = some t' →
      (∃ t, r.tasks[i]? = some t ∧ t'.generation = t.generation ∧ t'.waitingOn = t.waitingOn ∧
        ∀ i j g, .input i j g ∈ t'.waiters → .input i j g ∈ t.waiters) ∨
      t'.waitingOn = ∅ ∧ (∀ i j g, .input i j g ∉ t'.waiters) ∧
        ∀ (v : TaskId) tv, r.tasks[v]? = some tv → ∀ j g, .input i j g ∉ tv.waiters) :
    Linked ⟨r', .idle⟩ := by
  refine ⟨acyclic_mono h.acyclic fun i x hix => ?_, fun u i tu t' j hu hmem ht' => ?_, nofun⟩
  · obtain ⟨t', ht', hx⟩ := Resolution.waitsFor_iff.1 hix
    rcases htasks i t' ht' with ⟨t, ht, -, hwait, -⟩ | ⟨hempty, -⟩
    · rw [hwait] at hx
      exact Resolution.waitsFor_iff.2 ⟨t, ht, hx⟩
    · rw [hempty] at hx
      exact absurd hx SortedSet.not_mem_empty
  · rcases htasks u tu hu with ⟨tu₀, hu₀, -, -, hsub⟩ | ⟨-, hnone, -⟩
    · have hmem₀ := hsub _ _ _ hmem
      rcases htasks i t' ht' with ⟨t, ht, hg, hwait, -⟩ | ⟨-, -, hnone⟩
      · rw [hg] at hmem₀
        rw [hwait]
        exact h.waits u i tu₀ t j hu₀ hmem₀ ht
      · exact absurd hmem₀ (hnone u tu₀ hu₀ j _)
    · exact absurd hmem (hnone _ _ _)

theorem Linked.submitJoin {q : Requirement} {index : Nat} (h : Linked ⟨r, .idle⟩) :
    Linked ⟨(r.submit q).addWaiter u (.submission index), .idle⟩ := by
  refine h.submit fun i t' ht' => .inl ?_
  obtain ⟨t, ws, ht, rfl, hws⟩ := Resolution.exists_of_addWaiter ht'
  refine ⟨t, ht, rfl, rfl, fun k j g hmem => ?_⟩
  rcases hws _ hmem with hmem | ⟨-, he⟩
  · exact hmem
  · cases he

theorem Linked.submitSpawn {q : Requirement} {index : Nat} (h : Linked ⟨r, .idle⟩)
    (hw : Awaited ⟨r, .idle⟩) :
    Linked ⟨(r.submit q).spawn q (.submission index) 0, .idle⟩ := by
  refine h.submit fun i t' ht' => ?_
  rw [Resolution.tasks_spawn] at ht'
  split at ht'
  next hi =>
    cases ht'
    refine .inr ⟨rfl, fun k j g hmem => ?_, fun v tv hv j g hmem => ?_⟩
    · cases List.mem_singleton.1 hmem
    · have hi : i = r.tasks.size := hi
      have hpos : 0 < r.copies (.input i j g) := Resolution.copies_pos hv hmem
      have hzero : r.copies (.input i j g) + 0 = 0 := hw.noTask i (by simp [hi]) j g
      omega
  next => exact .inl ⟨t', ht', rfl, rfl, fun _ _ _ hmem => hmem⟩

theorem Change.linked (hc : Change c maxDepth m m') (hw : Awaited m) (hw' : Awaited m')
    (h : Linked m) : Linked m' := by
  cases hc with
  | take | again | block | park | pass | resume | asked | add | refuseNode | refuseMark | told
  | submitKnown | submitRefused | submitFailed => exact h.congr rfl nofun
  | stale | lost | mark | note =>
    refine h.congr rfl fun u o ws he => ?_
    cases he
    exact h.teller _ _ _ rfl
  | cancel => exact h.cancel hw'
  | @found r id t w target digest ht hp =>
    exact h.modifyTask hw'
      (fun t => { t with target := some target, phase := .checkLiveData { target, digest } }) ht rfl
      (fun _ hu => hu) (.inl rfl) (.inl ⟨rfl, fun _ hu => .inl hu⟩) nofun
  | @move r id t p ht hm =>
    exact h.modifyTask hw' (fun t => { t with phase := p }) ht rfl
      (fun _ hu => hu) (.inl rfl) (.inl ⟨rfl, fun _ hu => .inl hu⟩) nofun
  | @takeUp r id t s x xs ht hp =>
    exact h.modifyTask hw'
      (fun t => { t with
        phase := .resolveInputs { s with candidates := xs } { candidate := x } }) ht
      rfl (fun _ hu => hu) (.inl rfl) (.inl ⟨rfl, fun _ hu => .inl hu⟩) nofun
  | @known r id t s a q v ht hp =>
    exact h.modifyTask hw' (fun t => { t with phase := .resolveInputs s (a.push (some v)) }) ht
      rfl (fun _ hu => hu) (.inl rfl) (.inl ⟨rfl, fun _ hu => .inl hu⟩) nofun
  | giveUp ht hp => exact h.abandon hw' ht rfl nofun
  | settle ht he => exact h.settle hw' ht
  | fill ht hp ho => exact h.fill hw hw' ht hp
  | fillLast ht hp ho => exact h.fill hw hw' ht hp
  | @fail r u cause id t s a slot ws ht hp =>
    refine h.abandon hw' ht rfl fun u o ws he => ?_
    cases he
    exact h.teller_modifyTask (fun t => t.abandon s a.candidate cause) ht
      (isFinished_of_resolveInputs hp) rfl
  | join ht hp hq hg hn => exact h.join ht hn
  | spawn ht => exact h.spawn hw ht _
  | submitJoin => exact h.submitJoin
  | submitSpawn => exact h.submitSpawn hw

end Linked

end ValueGraph
