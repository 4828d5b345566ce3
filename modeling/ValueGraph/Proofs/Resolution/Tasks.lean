import ValueGraph.Proofs.Resolution.Change

namespace ValueGraph.Resolution

variable {r : Resolution} {id i u : TaskId} {t : Task} {p : Phase} {w : Waiter}

theorem tasks_modifyTask {f : Task → Task} :
    (r.modifyTask id f).tasks[i]? = if id = i then (r.tasks[i]?).map f else r.tasks[i]? :=
  Array.getElem?_modify

theorem tasks_setPhase (ht : r.tasks[id]? = some t) :
    (r.setPhase id p).tasks[id]? = some { t with phase := p } := by
  unfold setPhase
  rw [tasks_modifyTask, if_pos rfl, ht, Option.map_some]

theorem tasks_settle {o : Outcome} :
    (r.settle id t o).tasks[i]? = if id = i then (r.tasks[i]?).map fun t =>
      { t with phase := .ofOutcome o, waiters := [], waitingOn := ∅ } else r.tasks[i]? :=
  tasks_modifyTask

theorem tasks_spawn {q : Requirement} {d : Nat} :
    (r.spawn q w d).tasks[i]? = if i = r.tasks.size then
      some { requirement := q, depth := d, waiters := [w] } else r.tasks[i]? := by
  unfold spawn
  rw [Array.getElem?_push]

theorem tasks_spawn_of_some {q : Requirement} {d : Nat} (ht : r.tasks[id]? = some t) :
    (r.spawn q w d).tasks[id]? = some t := by
  have hlt : id < r.tasks.size := (Array.getElem?_eq_some_iff.1 ht).1
  rw [tasks_spawn, if_neg (Nat.ne_of_lt hlt), ht]

theorem ne_of_closesCircle {slot generation : Nat}
    (h : r.closesCircle u (.input id slot generation) = false) : u ≠ id := by
  unfold closesCircle at h
  simp only [Bool.or_eq_false_iff, decide_eq_false_iff_not] at h
  exact h.1

theorem tasks_addWaiter_of_ne (ht : r.tasks[id]? = some t) (hu : u ≠ id) :
    (r.addWaiter u w).tasks[id]? = some t := by
  unfold addWaiter
  rw [tasks_modifyTask, if_neg hu, ht]

theorem exists_of_addWaiter (ht : (r.addWaiter u w).tasks[i]? = some t) :
    ∃ t₀ ws, r.tasks[i]? = some t₀ ∧ t = { t₀ with waiters := ws } ∧
      ∀ x ∈ ws, x ∈ t₀.waiters ∨ i = u ∧ x = w := by
  unfold addWaiter at ht
  rw [tasks_modifyTask] at ht
  split at ht
  next hi =>
    obtain ⟨t₀, ht₀, rfl⟩ := Option.map_eq_some_iff.1 ht
    refine ⟨t₀, t₀.waiters ++ [w], ht₀, rfl, fun x hx => ?_⟩
    rw [List.mem_append, List.mem_singleton] at hx
    exact hx.imp_right fun hx => ⟨hi.symm, hx⟩
  next => exact ⟨t, t.waiters, ht, rfl, fun x hx => .inl hx⟩

section Puts

variable {r' : Resolution} {x : Task}

/-- Is `x` the task at `id` after a change, and is each other task as it was? -/
def Puts (r r' : Resolution) (id : TaskId) (x : Task) : Prop :=
  ∀ i : TaskId, r'.tasks[i]? = if id = i then some x else r.tasks[i]?

theorem Puts.self (h : r.Puts r' id x) : r'.tasks[id]? = some x := by
  rw [h, if_pos rfl]

theorem Puts.other (h : r.Puts r' id x) (hi : id ≠ i) : r'.tasks[i]? = r.tasks[i]? := by
  rw [h, if_neg hi]

theorem Puts.self_or_other (h : r.Puts r' id x) (ht : r'.tasks[i]? = some t) :
    id = i ∧ x = t ∨ id ≠ i ∧ r.tasks[i]? = some t := by
  by_cases hi : id = i
  · subst hi
    rw [h.self] at ht
    exact .inl ⟨rfl, Option.some.inj ht⟩
  · rw [h.other hi] at ht
    exact .inr ⟨hi, ht⟩

theorem puts_modify {f : Task → Task} (htasks : r'.tasks = r.tasks.modify id f)
    (ht : r.tasks[id]? = some t) : r.Puts r' id (f t) := by
  intro i
  rw [htasks, Array.getElem?_modify]
  by_cases hi : id = i
  · subst hi
    rw [if_pos rfl, if_pos rfl, ht, Option.map_some]
  · rw [if_neg hi, if_neg hi]

theorem puts_spawn {q : Requirement} {d : Nat} :
    r.Puts (r.spawn q w d) r.tasks.size { requirement := q, depth := d, waiters := [w] } := by
  intro i
  rw [tasks_spawn]
  simp only [eq_comm]

theorem puts_modifyTask {f : Task → Task} (ht : r.tasks[id]? = some t) :
    r.Puts (r.modifyTask id f) id (f t) :=
  puts_modify rfl ht

theorem puts_setPhase (ht : r.tasks[id]? = some t) :
    r.Puts (r.setPhase id p) id { t with phase := p } :=
  puts_modifyTask ht

theorem puts_addWaiter (ht : r.tasks[u]? = some t) :
    r.Puts (r.addWaiter u w) u { t with waiters := t.waiters ++ [w] } :=
  puts_modifyTask ht

theorem puts_settle {o : Outcome} (ht : r.tasks[id]? = some t) :
    r.Puts (r.settle id t o) id { t with phase := .ofOutcome o, waiters := [], waitingOn := ∅ } :=
  puts_modify (f := fun t => { t with phase := .ofOutcome o, waiters := [], waitingOn := ∅ }) rfl ht

theorem puts_fillSlot {s : Search} {a : Attempt} {slot : Nat} {v : ValueSpec}
    (ht : r.tasks[id]? = some t) :
    r.Puts (r.fillSlot u id s a slot v) id
      { t with phase := .resolveInputs s (a.fill slot v), waitingOn := t.waitingOn.erase u } :=
  puts_modify (f := fun t => { t with
    phase := .resolveInputs s (a.fill slot v), waitingOn := t.waitingOn.erase u }) rfl ht

theorem puts_asking {s : Search} {a : Attempt} (ht : r.tasks[id]? = some t) :
    r.Puts ((r.awaitTask id u).setPhase id (.resolveInputs s a)) id
      { t with waitingOn := t.waitingOn.insert u, phase := .resolveInputs s a } := by
  intro i
  unfold setPhase awaitTask
  rw [tasks_modifyTask, tasks_modifyTask]
  by_cases hi : id = i
  · subst hi
    rw [if_pos rfl, if_pos rfl, if_pos rfl, ht]
    rfl
  · rw [if_neg hi, if_neg hi, if_neg hi]

end Puts

end ValueGraph.Resolution
