import ValueGraph.Proofs.Resolution.Tasks
import ValueGraph.Proofs.Graph.Operations
import ValueGraph.Resolution.Pump

namespace ValueGraph.Resolution

variable {r : Resolution} {id u : TaskId} {t : Task} {p : Phase}

section Tasks

theorem modifyTask_comm {f g : Task → Task} (h : ∀ t, f (g t) = g (f t)) {i j : TaskId} :
    (r.modifyTask i f).modifyTask j g = (r.modifyTask j g).modifyTask i f := by
  have ht : ((r.tasks.modify i f).modify j g) = ((r.tasks.modify j g).modify i f) := by
    apply Array.ext_getElem?
    intro k
    simp only [Array.getElem?_modify]
    cases r.tasks[k]? with
    | none => split <;> split <;> rfl
    | some t => split <;> split <;> simp [h]
  unfold modifyTask
  rw [ht]

theorem setPhase_setPhase {p' : Phase} : (r.setPhase id p).setPhase id p' = r.setPhase id p' := by
  have ht : ((r.tasks.modify id fun t => { t with phase := p }).modify id
      fun t => { t with phase := p' }) = r.tasks.modify id fun t => { t with phase := p' } := by
    apply Array.ext_getElem?
    intro k
    simp only [Array.getElem?_modify]
    cases r.tasks[k]? with
    | none => split <;> rfl
    | some t => split <;> rfl
  unfold setPhase modifyTask
  rw [ht]

theorem modifyTask_abandon_setPhase {s : Search} {x : Candidate} {cause : Failure} :
    ((r.setPhase id p).modifyTask id fun t => t.abandon s x cause) =
      r.modifyTask id fun t => t.abandon s x cause := by
  have ht : ((r.tasks.modify id fun t => { t with phase := p }).modify id
      fun t => t.abandon s x cause) = r.tasks.modify id fun t => t.abandon s x cause := by
    apply Array.ext_getElem?
    intro k
    simp only [Array.getElem?_modify]
    cases r.tasks[k]? with
    | none => split <;> rfl
    | some t => split <;> rfl
  unfold setPhase modifyTask
  rw [ht]

theorem addWaiter_setPhase {w : Waiter} :
    (r.setPhase id p).addWaiter u w = (r.addWaiter u w).setPhase id p := by
  unfold addWaiter setPhase
  apply modifyTask_comm
  intro t
  rfl

theorem awaitTask_setPhase {i : TaskId} :
    (r.setPhase id p).awaitTask i u = (r.awaitTask i u).setPhase id p := by
  unfold awaitTask setPhase
  apply modifyTask_comm
  intro t
  rfl

theorem spawn_setPhase {q : Requirement} {w : Waiter} {d : Nat} (hid : id < r.tasks.size) :
    (r.setPhase id p).spawn q w d = (r.spawn q w d).setPhase id p := by
  have ht (x : Task) : (r.tasks.modify id fun t => { t with phase := p }).push x =
      (r.tasks.push x).modify id fun t => { t with phase := p } := by
    apply Array.ext_getElem?
    intro k
    simp only [Array.getElem?_push, Array.getElem?_modify, Array.size_modify]
    by_cases hk : k = r.tasks.size
    · simp [hk, Nat.ne_of_lt hid]
    · simp [hk]
  unfold spawn setPhase modifyTask
  simp only [ht, Array.size_modify]

theorem waitingOn_setPhase {i : TaskId} : (r.setPhase id p).waitingOn i = r.waitingOn i := by
  unfold waitingOn setPhase
  rw [tasks_modifyTask]
  by_cases hi : id = i
  · rw [if_pos hi]
    cases r.tasks[i]? <;> rfl
  · rw [if_neg hi]

theorem leadsTo_setPhase {target : TaskId} {seen : SortedSet TaskId} {todo : List TaskId} :
    (r.setPhase id p).leadsTo target seen todo = r.leadsTo target seen todo := by
  have hsize : (r.setPhase id p).tasks.size = r.tasks.size := by simp [setPhase, modifyTask]
  induction seen, todo using leadsTo.induct r with
  | case1 seen => rw [leadsTo, leadsTo]
  | case2 seen i todo h ih =>
    rw [leadsTo, leadsTo, dif_pos h, dif_pos (hsize ▸ h), waitingOn_setPhase, ih]
  | case3 seen i todo h ih =>
    rw [leadsTo, leadsTo, dif_neg h, dif_neg (hsize ▸ h), ih]

theorem closesCircle_setPhase (id : TaskId) (p : Phase) {w : Waiter} :
    (r.setPhase id p).closesCircle u w = r.closesCircle u w := by
  cases w with
  | submission => rfl
  | input => simp only [closesCircle, waitsOn, leadsTo_setPhase]

end Tasks

section Attach

variable {maxDepth d : Nat} {q : Requirement} {w : Waiter}

theorem attach_cases (r : Resolution) (maxDepth : Nat) (q : Requirement) (w : Waiter) (d : Nat) :
    (∃ s, r.claims.get? q = some (.resolved s) ∧ r.attach maxDepth q w d = (.resolved s, r)) ∨
    (∃ f, r.attach maxDepth q w d = (.failed f, r) ∧
      (r.claims.get? q = some (.failed f) ∨
        (∃ u, r.claims.get? q = some (.pending u) ∧ r.closesCircle u w) ∨
        r.claims.get? q = none ∧ maxDepth < d)) ∨
    (∃ u, r.claims.get? q = some (.pending u) ∧ r.closesCircle u w = false ∧
      r.attach maxDepth q w d = (.waiting u, r.addWaiter u w)) ∨
    r.claims.get? q = none ∧ d ≤ maxDepth ∧
      r.attach maxDepth q w d = (.waiting r.tasks.size, r.spawn q w d) := by
  unfold attach
  cases hc : r.claims.get? q with
  | none =>
    dsimp only
    by_cases hd : maxDepth < d
    · exact .inr (.inl ⟨_, if_pos hd, .inr (.inr ⟨rfl, hd⟩)⟩)
    · exact .inr (.inr (.inr ⟨rfl, Nat.le_of_not_lt hd, if_neg hd⟩))
  | some claim =>
    cases claim with
    | resolved s => exact .inl ⟨s, rfl, rfl⟩
    | failed f => exact .inr (.inl ⟨f, rfl, .inl rfl⟩)
    | pending u =>
      dsimp only
      cases hn : r.closesCircle u w with
      | true => exact .inr (.inl ⟨_, rfl, .inr (.inl ⟨u, rfl, hn⟩)⟩)
      | false => exact .inr (.inr (.inl ⟨u, rfl, hn, rfl⟩))

theorem attach_failed {r' : Resolution} {f : Failure}
    (h : r.attach maxDepth q w d = (.failed f, r')) :
    r.claims.get? q = some (.failed f) ∨
      f = .ofKind .recursionDetected q ∧
        (∃ u, r.claims.get? q = some (.pending u) ∧ r.closesCircle u w = true) ∨
      f = .tooDeep q maxDepth ∧ maxDepth < d := by
  unfold attach at h
  split at h
  · cases h
  next f hf =>
    cases h
    exact .inl hf
  next u hu =>
    split at h
    next hcloses =>
      cases h
      exact .inr (.inl ⟨rfl, u, hu, hcloses⟩)
    · cases h
  · split at h
    next hdeep =>
      cases h
      exact .inr (.inr ⟨rfl, hdeep⟩)
    · cases h

/-- Whether a request is refused does not depend on the phase of a task. -/
theorem attach_setPhase_failed {f : Failure} (h : r.attach maxDepth q w d = (.failed f, r)) :
    (r.setPhase id p).attach maxDepth q w d = (.failed f, r.setPhase id p) := by
  have hclaims : (r.setPhase id p).claims = r.claims := rfl
  unfold attach at h ⊢
  rw [hclaims]
  cases hc : r.claims.get? q with
  | none =>
    rw [hc] at h
    dsimp only at h ⊢
    split at h
    next hd =>
      cases h
      rw [if_pos hd]
    next => cases h
  | some claim =>
    rw [hc] at h
    cases claim with
    | resolved s => cases h
    | failed f =>
      cases h
      rfl
    | pending u =>
      dsimp only at h ⊢
      rw [closesCircle_setPhase]
      split at h
      next hn =>
        cases h
        rw [if_pos hn]
      next => cases h

end Attach

section Turns

variable {σ : Type} (c : Collaborators σ) (maxDepth : Nat)

/-- What a task does in its turn ends as the turn says. -/
def Leads (id : TaskId) (m : Moment) : Turn × Resolution → Prop
  | (.again, r) | (.blocked, r) =>
    (∃ t, r.tasks[id]? = some t ∧ t.CanGoOn) ∧ Course c maxDepth m ⟨r, .turn id⟩
  | (.waiting, r) =>
    (∃ t s a, r.tasks[id]? = some t ∧ t.phase = .resolveInputs s a ∧ a.outstanding ≠ 0) ∧
      Course c maxDepth m ⟨r, .turn id⟩
  | (.done, r) => Course c maxDepth m ⟨r, .idle⟩
  | (.failed e, _) => ∃ r, Course c maxDepth m ⟨r, .broken e⟩

/-- A run of changes that ends as a call says: at rest, or with the graph's objection. -/
def Rests (S : Moment → Moment → Prop) (m : Moment) : Option GraphError × Resolution → Prop
  | (none, r) => Relation.ReflTransGen S m ⟨r, .idle⟩
  | (some e, _) => ∃ r, Relation.ReflTransGen S m ⟨r, .broken e⟩

variable {c maxDepth} {m m' : Moment} {o : Outcome}

theorem Leads.run {x : Turn × Resolution} (hr : Course c maxDepth m m')
    (h : Leads c maxDepth id m' x) :
    Leads c maxDepth id m x := by
  obtain ⟨turn, s⟩ := x
  cases turn with
  | again => exact ⟨h.1, hr.trans h.2⟩
  | waiting => exact ⟨h.1, hr.trans h.2⟩
  | blocked => exact ⟨h.1, hr.trans h.2⟩
  | done => exact hr.trans h
  | failed e =>
    obtain ⟨s, h⟩ := h
    exact ⟨s, hr.trans h⟩

theorem Leads.head {x : Turn × Resolution} (hc : Works c maxDepth m m')
    (h : Leads c maxDepth id m' x) : Leads c maxDepth id m x :=
  h.run (.single hc)

theorem Rests.head {S : Moment → Moment → Prop} {x : Option GraphError × Resolution}
    (hc : S m m') (h : Rests S m' x) : Rests S m x := by
  obtain ⟨e, s⟩ := x
  cases e with
  | none => exact Relation.ReflTransGen.head hc h
  | some e =>
    obtain ⟨s, h⟩ := h
    exact ⟨s, Relation.ReflTransGen.head hc h⟩

theorem Activity.telling_ne_idle {ws : List Waiter} : Activity.telling u o ws ≠ .idle :=
  nofun

theorem works_deliverInput {slot generation : Nat} {ws : List Waiter} :
    Works c maxDepth ⟨r, .telling u o (.input id slot generation :: ws)⟩
      ⟨r.deliverInput u id slot generation o, .telling u o ws⟩ := by
  unfold deliverInput
  cases ht : r.tasks[id]? with
  | none => exact ⟨Activity.telling_ne_idle, .stale (by simp [ht]), rfl⟩
  | some t =>
    dsimp only
    by_cases hg : t.generation = generation
    · subst hg
      rw [if_neg fun h => h rfl]
      split
      next s a hp =>
        cases o with
        | ok spec =>
          dsimp only
          split
          next ho => exact ⟨Activity.telling_ne_idle, .fillLast ht hp ho, rfl⟩
          next ho => exact ⟨Activity.telling_ne_idle, .fill ht hp ho, rfl⟩
        | error cause => exact ⟨Activity.telling_ne_idle, .fail ht hp, rfl⟩
      next hp =>
        refine ⟨Activity.telling_ne_idle, .stale fun t' ht' _ s a hp' => ?_, rfl⟩
        rw [ht] at ht'
        cases ht'
        exact hp s a hp'
    · rw [if_pos hg]
      refine ⟨Activity.telling_ne_idle, .stale fun t' ht' hg' => ?_, rfl⟩
      rw [ht] at ht'
      cases ht'
      exact absurd hg' hg

theorem rests_deliver {ws : List Waiter} :
    Rests (Works c maxDepth) ⟨r, .telling u o ws⟩ (deliver u o ws r) := by
  -- By induction on the waiters; an objection of the graph ends it at once.
  induction ws generalizing r with
  | nil => exact .single ⟨Activity.telling_ne_idle, .told, rfl⟩
  | cons w ws ih =>
    cases w with
    | input task slot generation => exact .head works_deliverInput ih
    | submission index =>
      unfold deliver finishSubmission
      cases hs : r.submissions[index]? with
      | none => exact .head ⟨Activity.telling_ne_idle, .lost hs, rfl⟩ ih
      | some s =>
        cases o with
        | error f => exact .head ⟨Activity.telling_ne_idle, .note hs, rfl⟩ ih
        | ok spec =>
          cases hm : r.graph.mark s.requirement spec with
          | ok g =>
            simp only [hm]
            exact .head ⟨Activity.telling_ne_idle, .mark hs hm, rfl⟩ ih
          | error e =>
            simp only [hm]
            exact ⟨r, .single ⟨Activity.telling_ne_idle, .refuseMark hs hm, rfl⟩⟩

theorem leads_finish (ht : r.tasks[id]? = some t) (he : Ends c r.graph t o) :
    Leads c maxDepth id ⟨r, .turn id⟩ (r.finish id o) := by
  have hrests : Rests (Works c maxDepth) ⟨r, .turn id⟩ (r.complete id o) := by
    unfold complete
    rw [ht]
    exact .head ⟨nofun, .settle ht he, rfl⟩ rests_deliver
  unfold finish
  split
  next hc =>
    rw [hc] at hrests
    exact hrests
  next hc =>
    rw [hc] at hrests
    exact hrests

end Turns

section Inputs

variable {σ : Type} {c : Collaborators σ} {maxDepth : Nat} {s : Search} {a : Attempt}

@[simp] theorem candidate_push {v : Option ValueSpec} : (a.push v).candidate = a.candidate := by
  cases v <;> rfl

@[simp] theorem length_slots_push {v : Option ValueSpec} :
    (a.push v).slots.length = a.slots.length + 1 := by
  cases v <;> simp [Attempt.push]

/-- What asking for one input leads to, the task counting as being in the phase that it takes. -/
def Asks (c : Collaborators σ) (maxDepth : Nat) (id : TaskId) (s : Search) (a : Attempt)
    (m : Moment) : Attachment × Resolution → Prop
  | (.resolved v, r) =>
    Works c maxDepth m ⟨r.setPhase id (.resolveInputs s (a.push (some v))), .asking id⟩
  | (.waiting u, r) =>
    Works c maxDepth m
      ⟨(r.awaitTask id u).setPhase id (.resolveInputs s (a.push none)), .asking id⟩
  | (.failed cause, r) =>
    Works c maxDepth m ⟨r.modifyTask id fun t => t.abandon s a.candidate cause, .turn id⟩

def AsksAll (c : Collaborators σ) (maxDepth : Nat) (id : TaskId) (s : Search) (x : Candidate)
    (m : Moment) : Except Failure Attempt × Resolution → Prop
  | (.ok a, r) => Course c maxDepth m ⟨r.setPhase id (.resolveInputs s a), .turn id⟩
  | (.error cause, r) =>
    Course c maxDepth m ⟨r.modifyTask id fun t => t.abandon s x cause, .turn id⟩

theorem AsksAll.head {x : Candidate} {m m' : Moment} {y : Except Failure Attempt × Resolution}
    (hc : Works c maxDepth m m') (h : AsksAll c maxDepth id s x m' y) :
    AsksAll c maxDepth id s x m y := by
  obtain ⟨answer, r⟩ := y
  cases answer with
  | ok a => exact Relation.ReflTransGen.head hc h
  | error cause => exact Relation.ReflTransGen.head hc h

theorem asks_attach {q : Requirement} (ht : r.tasks[id]? = some t) (hq : a.next? = some q) :
    Asks c maxDepth id s a ⟨r.setPhase id (.resolveInputs s a), .asking id⟩
      (r.attach maxDepth q (.input id a.slots.length t.generation) (t.depth + 1)) := by
  -- The program sets the phase when all inputs are asked for, and the changes set it with each,
  -- so that each arm moves the phase outwards and lets the later one overwrite it.
  have htp : (r.setPhase id (.resolveInputs s a)).tasks[id]? =
      some { t with phase := .resolveInputs s a } := tasks_setPhase ht
  have hlt : id < r.tasks.size := (Array.getElem?_eq_some_iff.1 ht).1
  obtain ⟨v, hc, h⟩ | ⟨f, h, -⟩ | ⟨u, hc, hn, h⟩ | ⟨hc, hd, h⟩ :=
    r.attach_cases maxDepth q (.input id a.slots.length t.generation) (t.depth + 1)
  · rw [h]
    have hk : Change c maxDepth _ _ := .known htp rfl hq hc
    rw [setPhase_setPhase] at hk
    exact ⟨nofun, hk, rfl⟩
  · -- The phase does not matter to the refusal, and giving the candidate up overwrites it.
    rw [h]
    have hk : Change c maxDepth _ _ := .giveUp htp rfl hq (attach_setPhase_failed h)
    rw [modifyTask_abandon_setPhase] at hk
    exact ⟨nofun, hk, rfl⟩
  · rw [h]
    rw [← closesCircle_setPhase id (.resolveInputs s a)] at hn
    have hk : Change c maxDepth _ _ := .join htp rfl hq hc hn
    rw [addWaiter_setPhase, awaitTask_setPhase, setPhase_setPhase] at hk
    exact ⟨nofun, hk, rfl⟩
  · rw [h]
    have hk : Change c maxDepth _ _ := .spawn htp rfl hq hc hd
    have hsize : (r.setPhase id (.resolveInputs s a)).tasks.size = r.tasks.size := by
      simp [setPhase, modifyTask]
    rw [hsize, spawn_setPhase hlt, awaitTask_setPhase, setPhase_setPhase] at hk
    exact ⟨nofun, hk, rfl⟩

theorem attach_resolved {q : Requirement} {w : Waiter} {d : Nat} {v : ValueSpec}
    {r' : Resolution} (h : r.attach maxDepth q w d = (.resolved v, r')) : r' = r := by
  obtain ⟨v, -, h'⟩ | ⟨f, h', -⟩ | ⟨u, -, -, h'⟩ | ⟨-, -, h'⟩ :=
    r.attach_cases maxDepth q w d
  all_goals rw [h] at h'; cases h'
  rfl

theorem tasks_awaitTask (maxDepth : Nat) (q : Requirement) (w : Waiter) (d : Nat) (u : TaskId)
    (ht : r.tasks[id]? = some t) :
    ∃ ws ids, ((r.attach maxDepth q w d).2.awaitTask id u).tasks[id]? =
      some { t with waiters := ws, waitingOn := ids } := by
  have ha : ∃ ws, (r.attach maxDepth q w d).2.tasks[id]? = some { t with waiters := ws } :=
    getElem?_attach ht
  obtain ⟨ws, ha⟩ := ha
  refine ⟨ws, t.waitingOn.insert u, ?_⟩
  unfold awaitTask
  rw [tasks_modifyTask, if_pos rfl, ha]
  rfl

theorem asksAll_attachInputs {generation depth : Nat} {qs : List Requirement}
    (ht : r.tasks[id]? = some t) (hg : t.generation = generation) (hd : t.depth + 1 = depth)
    (hqs : a.candidate.inputs.drop a.slots.length = qs) :
    AsksAll c maxDepth id s a.candidate ⟨r.setPhase id (.resolveInputs s a), .asking id⟩
      (attachInputs maxDepth id generation depth qs a r) := by
  -- By induction on the inputs that are left, which are those that have no slot yet.
  induction qs generalizing r a t with
  | nil =>
    refine Relation.ReflTransGen.single ⟨nofun, .asked (tasks_setPhase ht) rfl ?_, rfl⟩
    simpa [Attempt.next?] using hqs
  | cons q qs ih =>
    subst hg hd
    have hnext : a.next? = some q := by
      have h := congrArg List.head? hqs
      simpa [Attempt.next?, List.head?_drop] using h
    have hrest : a.candidate.inputs.drop (a.slots.length + 1) = qs := by
      rw [← List.tail_drop, hqs, List.tail_cons]
    have hask : Asks c maxDepth id s a _ _ := asks_attach ht hnext
    have htask := fun u => tasks_awaitTask maxDepth q (.input id a.slots.length t.generation)
      (t.depth + 1) u ht
    rw [attachInputs]
    cases hx : r.attach maxDepth q (.input id a.slots.length t.generation) (t.depth + 1) with
    | mk answer r' =>
      rw [hx] at hask htask
      cases answer with
      | resolved v =>
        obtain rfl := attach_resolved hx
        have hrun := ih (a := a.push (some v)) ht rfl rfl (by simpa using hrest)
        rw [candidate_push] at hrun
        exact hrun.head hask
      | waiting u =>
        obtain ⟨ws, ids, htask⟩ := htask u
        have hrun := ih (a := a.push none) htask rfl rfl (by simpa using hrest)
        rw [candidate_push] at hrun
        exact hrun.head hask
      | failed cause => exact .single hask

end Inputs

section Steps

variable {σ : Type} {c : Collaborators σ} {maxDepth : Nat} {w : σ} {s : Search}

theorem leads_again {r₀ : Resolution} (ht : ∃ t, r.tasks[id]? = some t ∧ t.CanGoOn)
    (h : Works c maxDepth ⟨r₀, .turn id⟩ ⟨r, .turn id⟩) :
    Leads c maxDepth id ⟨r₀, .turn id⟩ (.again, r) :=
  ⟨ht, .single h⟩

theorem leads_move (ht : r.tasks[id]? = some t) (hm : Moves c t p) :
    Leads c maxDepth id ⟨r, .turn id⟩ (.again, r.setPhase id p) := by
  refine leads_again ⟨_, tasks_setPhase ht, ?_⟩ ⟨nofun, .move ht hm, rfl⟩
  cases hm <;> exact trivial

theorem leads_resolveTarget (ht : r.tasks[id]? = some t) (hp : t.phase = .resolveTarget) :
    Leads c maxDepth id ⟨r, .turn id⟩ (r.resolveTarget c id t.requirement w).1 := by
  unfold resolveTarget
  split
  next target w' ha =>
    apply leads_again ?_ ⟨nofun, .found ht hp (congrArg Prod.fst ha), rfl⟩
    rw [tasks_modifyTask, if_pos rfl, ht]
    exact ⟨_, rfl, trivial⟩
  next w' ha => exact leads_finish ht (.noTarget hp (congrArg Prod.fst ha))
  next w' ha =>
    refine ⟨⟨t, ht, ?_⟩, .refl⟩
    unfold Task.CanGoOn
    rw [hp]
    trivial

theorem run_supply (maxDepth : Nat) (n : Node) (v : ValueSpec) (ht : r.tasks[id]? = some t)
    (ha : r.graph.producer? v = none → Adds c r.graph t (n.addOutput v)) :
    (∀ graph, r.graph.supply v n = .ok graph →
      (graph.producer? v).isSome ∧
        Course c maxDepth ⟨r, .turn id⟩ ⟨{ r with graph }, .turn id⟩) ∧
    (∀ e, r.graph.supply v n = .error e → Course c maxDepth ⟨r, .turn id⟩ ⟨r, .broken e⟩) := by
  unfold Graph.supply
  split
  next hs =>
    refine ⟨fun g h => ?_, fun e h => ?_⟩
    · cases h
      exact ⟨hs, .refl⟩
    · cases h
  next hs =>
    have hn : r.graph.producer? v = none := by simpa using hs
    cases hg : r.graph.add (n.addOutput v) with
    | ok x =>
      obtain ⟨i, g'⟩ := x
      refine ⟨fun g h => ?_, fun e h => ?_⟩
      · cases h
        refine ⟨Graph.isSome_producer?_of_add hg (.inl ?_),
          .single ⟨nofun, .add ht (ha hn) hg, rfl⟩⟩
        exact SortedSet.mem_insert.2 (.inl rfl)
      · cases h
    | error e =>
      refine ⟨fun g h => ?_, fun e' h => ?_⟩
      · cases h
      · cases h
        exact .single ⟨nofun, .refuseNode ht (ha hn) hg, rfl⟩

theorem leads_available {spec : ValueSpec} (ht : r.tasks[id]? = some t)
    (hp : t.phase = .checkLiveData s)
    (ha : (c.market s.target t.requirement w).1 = .available spec) :
    Leads c maxDepth id ⟨r, .turn id⟩
      (r.takeMarketData c.policy id t.requirement s (.available spec)) := by
  have hsource := run_supply maxDepth { function := .marketData, target := spec.target } spec ht
    (.source hp ha)
  unfold takeMarketData Graph.supplyMarketData
  simp only [bind, Except.bind, pure, Except.pure]
  cases hg : r.graph.supply spec { function := .marketData, target := spec.target } with
  | error e => exact ⟨r, hsource.2 e hg⟩
  | ok g =>
    obtain ⟨hs, hrun⟩ := hsource.1 g hg
    dsimp only
    -- Data that will do as it is ends the task; other data is copied to what was asked for.
    by_cases hq : t.requirement.satisfiedBy s.target.target spec
    · rw [if_pos hq]
      exact (leads_finish (r := { r with graph := g }) ht (.source hp ha hs hq)).run hrun
    · rw [if_neg hq]
      have hrelabel := run_supply (r := { r with graph := g }) maxDepth
        (({ function := .relabel, target := s.target.target } : Node).addInput spec)
        (t.relabelled c s spec) ht (.relabel hp ha hs hq)
      have hv : ({ name := t.requirement.name, target := s.target.target, properties :=
          c.policy.reconcile t.requirement spec } : ValueSpec) = t.relabelled c s spec := rfl
      rw [hv]
      cases hg' : g.supply (t.relabelled c s spec)
          (({ function := .relabel, target := s.target.target } : Node).addInput spec) with
      | error e => exact ⟨_, hrun.trans (hrelabel.2 e hg')⟩
      | ok g' =>
        obtain ⟨hs', hrun'⟩ := hrelabel.1 g' hg'
        exact (leads_finish (r := { r with graph := g' }) ht (.relabel hp ha hq hs')).run
          (hrun.trans hrun')

theorem leads_checkLiveData (ht : r.tasks[id]? = some t) (hp : t.phase = .checkLiveData s) :
    Leads c maxDepth id ⟨r, .turn id⟩ (r.checkLiveData c id t.requirement s w).1 := by
  unfold checkLiveData
  split
  next spec hf => exact leads_finish ht (.reuse hp hf)
  next =>
    cases ha : (c.market s.target t.requirement w).1 with
    | available spec =>
      simp only [ha]
      exact leads_available ht hp ha
    | missing =>
      simp only [ha]
      exact leads_finish ht (.missing hp ha)
    | wouldBlock =>
      simp only [ha]
      refine ⟨⟨t, ht, ?_⟩, .refl⟩
      unfold Task.CanGoOn
      rw [hp]
      trivial
    | notAvailable =>
      simp only [ha]
      exact leads_move ht (.seek hp ha)

theorem leads_takeCandidates {tried : SortedSet String} {all : List Candidate}
    (ht : r.tasks[id]? = some t) (hp : t.phase = .enumerate s) (htried : s.tried.getD ∅ = tried)
    (ha : (c.functions t.requirement.name s.target t.requirement.constraints w).1 = all) :
    Leads c maxDepth id ⟨r, .turn id⟩ (r.takeCandidates id t.requirement s tried all) := by
  subst htried ha
  unfold takeCandidates
  dsimp only
  split
  next h =>
    refine leads_finish ht (.noFunctions (w := w) hp ?_)
    obtain ⟨hall, htried⟩ := Bool.and_eq_true_iff.1 h
    -- No function was tried before either, so nothing was left out of the list.
    have hnone : ∀ f, f ∉ s.tried.getD ∅ := by
      intro f hf
      rw [SortedSet.isEmpty, List.isEmpty_iff] at htried
      rw [← SortedSet.mem_toList, htried] at hf
      cases hf
    simpa [hnone, ← List.eq_nil_iff_forall_not_mem] using hall
  next => exact leads_move ht (.askAll hp)

theorem leads_enumerate (ht : r.tasks[id]? = some t) (hp : t.phase = .enumerate s) :
    Leads c maxDepth id ⟨r, .turn id⟩ (r.enumerate c id t.requirement s w).1 := by
  unfold enumerate
  split
  next tried htried => exact leads_takeCandidates ht hp (by rw [htried]; rfl) rfl
  next htried =>
    split
    next w' ha => exact leads_takeCandidates ht hp (by rw [htried]; rfl) rfl
    next candidates w' _ ha => exact leads_move ht (.remembered hp htried (congrArg Prod.fst ha))

theorem leads_tryCandidate {x : Candidate} {xs : List Candidate} (ht : r.tasks[id]? = some t)
    (hp : t.phase = .nextCandidate s) (hc : s.candidates = x :: xs) :
    Leads c maxDepth id ⟨r, .turn id⟩
      (r.tryCandidate maxDepth id t { s with candidates := xs } x) := by
  unfold tryCandidate
  dsimp only
  by_cases hq : t.requirement.satisfiedBy s.target.target x.output
  · simp only [hq, Bool.not_true, Bool.false_eq_true, if_false]
    split
    next hs => exact leads_finish ht (.present hp hc hq hs)
    next hs =>
      have hn : r.graph.producer? x.output = none := by simpa using hs
      have htake : Works c maxDepth ⟨r, .turn id⟩ _ :=
        ⟨nofun, .takeUp ht hp hc hq hn, rfl⟩
      have hasks := (asksAll_attachInputs (s := { s with candidates := xs })
        (a := { candidate := x }) ht rfl rfl rfl).head htake
      have htask : ∃ ws ids, (attachInputs maxDepth id t.generation (t.depth + 1) x.inputs
          { candidate := x } r).2.tasks[id]? = some { t with waiters := ws, waitingOn := ids } :=
        getElem?_attachInputs ht
      obtain ⟨ws, ids, htask⟩ := htask
      split
      next cause r' ha =>
        simp only [List.drop_zero, List.length_nil] at hasks
        rw [ha] at hasks htask
        refine ⟨?_, hasks⟩
        rw [tasks_modifyTask, if_pos rfl, htask]
        exact ⟨_, rfl, trivial⟩
      next a r' ha =>
        simp only [List.drop_zero, List.length_nil] at hasks
        rw [ha] at hasks htask
        have hphase := tasks_setPhase (p := .resolveInputs { s with candidates := xs } a) htask
        by_cases ho : a.outstanding = 0
        · simp only [ho, if_true]
          exact ⟨⟨_, hphase, ho⟩, hasks⟩
        · simp only [ho, if_false]
          exact ⟨⟨_, _, a, hphase, rfl, ho⟩, hasks⟩
  · simp only [hq, Bool.not_false, if_true]
    exact leads_move ht (.skip hp hc hq)

theorem leads_nextCandidate (ht : r.tasks[id]? = some t) (hp : t.phase = .nextCandidate s) :
    Leads c maxDepth id ⟨r, .turn id⟩ (r.nextCandidate maxDepth id t s) := by
  unfold nextCandidate
  split
  next x xs hc => exact leads_tryCandidate ht hp hc
  next hc =>
    split
    next htried => exact leads_move ht (.exhaust hp hc htried)
    next htried => exact leads_finish ht (.exhausted hp hc (by simpa using htried))

theorem leads_commit {a : Attempt} (ht : r.tasks[id]? = some t)
    (hp : t.phase = .resolveInputs s a) (ho : a.outstanding = 0) :
    Leads c maxDepth id ⟨r, .turn id⟩ (r.commit c id t.requirement s a w).1 := by
  unfold commit
  -- Another task may have produced the output in the meantime.
  split
  next hs => exact leads_finish ht (.committed hp ho hs)
  next hs =>
    have hn : r.graph.producer? a.candidate.output = none := by simpa using hs
    have hadds : Adds c r.graph t _ := .commit hp ho hn
    split
    next e hg => exact ⟨r, .single ⟨nofun, .refuseNode ht hadds hg, rfl⟩⟩
    next i g hg =>
      have hs' : (g.producer? a.candidate.output).isSome := by
        apply Graph.isSome_producer?_of_add hg
        exact .inl (SortedSet.mem_ofList.2 List.mem_cons_self)
      exact .head ⟨nofun, .add ht hadds hg, rfl⟩
        (leads_finish (r := { r with graph := g }) ht (.committed hp ho hs'))

theorem leads_step :
    Leads c maxDepth id ⟨r, .turn id⟩ (r.step c maxDepth id w).1 := by
  unfold step
  split
  next ht => exact .single ⟨nofun, .pass (by simp [ht]), rfl⟩
  next t ht =>
    have hpass : t.isFinished → Course c maxDepth ⟨r, .turn id⟩ ⟨r, .idle⟩ := by
      intro hf
      refine .single ⟨nofun, .pass fun t' ht' => ?_, rfl⟩
      rw [ht] at ht'
      cases ht'
      exact hf
    split
    next hp => exact leads_resolveTarget ht hp
    next s hp => exact leads_checkLiveData ht hp
    next s hp => exact leads_enumerate ht hp
    next s hp => exact leads_nextCandidate ht hp
    next s a hp =>
      split
      next ho => exact leads_commit ht hp ho
      next ho => exact ⟨⟨t, s, a, ht, hp, ho⟩, .refl⟩
    next spec hp =>
      apply hpass
      unfold Task.isFinished
      rw [hp]
    next failure hp =>
      apply hpass
      unfold Task.isFinished
      rw [hp]

end Steps

end ValueGraph.Resolution
