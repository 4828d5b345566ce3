import ValueGraph.Proofs.Resolution.Grounded
import ValueGraph.Proofs.Value.Reconcile

namespace ValueGraph

section Answers

variable {σ : Type} {c : Collaborators σ} {g : Graph} {t t' : Task} {q : Requirement}
  {target : Option NamedTarget} {v : ValueSpec} {p : Phase}

namespace Collaborators

/-- Is the candidate an answer to a question about the requirement? -/
def Offers (c : Collaborators σ) (q : Requirement) (t : NamedTarget) (x : Candidate) : Prop :=
  (∃ w, x ∈ (c.functions q.name t q.constraints w).1) ∨
    ∃ id w, (c.functionById id q.name t q.constraints w).1 = some x

theorem exists_of_functionsById {t : NamedTarget} {ids : List String} {w : σ} {x : Candidate}
    (h : x ∈ (c.functionsById q t ids w).1) :
    ∃ id w, (c.functionById id q.name t q.constraints w).1 = some x := by
  induction ids generalizing w with
  | nil => cases h
  | cons id ids ih =>
    unfold functionsById at h
    rcases List.mem_append.1 h with h | h
    · exact ⟨id, w, by simpa using h⟩
    · exact ih h

theorem exists_of_remembered {digest : Option String} {t : NamedTarget} {w : σ} {x : Candidate}
    (h : x ∈ (c.remembered digest q t w).1) :
    ∃ id w, (c.functionById id q.name t q.constraints w).1 = some x := by
  unfold remembered at h
  split at h
  · exact exists_of_functionsById h
  · cases h

end Collaborators

/-- Does a phase go with the requirement, and with what its target has turned out to be? -/
def Phase.Fits (c : Collaborators σ) (q : Requirement) (target : Option NamedTarget) : Phase → Prop
  | .resolveTarget | .failed _ => True
  | .checkLiveData s | .enumerate s => target = some s.target
  | .nextCandidate s => target = some s.target ∧ ∀ x ∈ s.candidates, c.Offers q s.target x
  | .resolveInputs s a =>
    target = some s.target ∧ (∀ x ∈ s.candidates, c.Offers q s.target x) ∧
      c.Offers q s.target a.candidate ∧ q.satisfiedBy s.target.target a.candidate.output
  | .committed v => ∃ t, target = some t ∧ (q.constraints.Satisfiable → q.satisfiedBy t.target v)

theorem Phase.Fits.attempt {s : Search} {a a' : Attempt}
    (h : (Phase.resolveInputs s a).Fits c q target) (ha : a'.candidate = a.candidate) :
    (Phase.resolveInputs s a').Fits c q target := by
  obtain ⟨ht, hs, hx⟩ := h
  refine ⟨ht, hs, ?_⟩
  rw [ha]
  exact hx

/-- Has the task been answered what it goes by? -/
structure Task.Faithful (c : Collaborators σ) (t : Task) : Prop where
  target : ∀ target, t.target = some target →
    ∃ w, (c.target t.requirement.target w).1 = .resolved target
  phase : t.phase.Fits c t.requirement t.target

theorem Moves.fits (h : Moves c t p) (ht : t.phase.Fits c t.requirement t.target) :
    p.Fits c t.requirement t.target := by
  cases h with
  | seek hp =>
    rw [hp] at ht
    exact ht
  | @askAll s w hp =>
    rw [hp] at ht
    refine ⟨ht, fun x hx => ?_⟩
    exact .inl ⟨w, (List.mem_filter.1 hx).1⟩
  | @remembered s w candidates hp _ ha =>
    rw [hp] at ht
    exact ⟨ht, fun x hx => .inr (Collaborators.exists_of_remembered (ha ▸ hx))⟩
  | exhaust hp =>
    rw [hp] at ht
    exact ht.1
  | skip hp hc =>
    rw [hp] at ht
    refine ⟨ht.1, fun x hx => ht.2 x ?_⟩
    rw [hc]
    exact List.mem_cons_of_mem _ hx

/-- A value that ends a task meets its requirement, on each of the ways to it. -/
theorem Ends.fits (h : Ends c g t (.ok v)) (hc : c.policy.Chooses) (hg : g.Indexed)
    (ht : t.phase.Fits c t.requirement t.target) :
    (Phase.committed v).Fits c t.requirement t.target := by
  cases h with
  | reuse hp hf =>
    rw [hp] at ht
    obtain ⟨⟨-, hn, hv, hs⟩, -⟩ := hg.find?_eq_some_iff.1 hf
    refine ⟨_, ht, fun _ => ?_⟩
    simp [Requirement.satisfiedBy, hn, hv, hs]
  | source hp ha hs hq =>
    rw [hp] at ht
    exact ⟨_, ht, fun _ => hq⟩
  | @relabel s w spec hp =>
    rw [hp] at ht
    refine ⟨_, ht, fun hsat => ?_⟩
    -- The copy is made to fit, where each constraint can be met.
    have hr :
        t.requirement.constraints.satisfiedBy (c.policy.reconcile t.requirement spec) = true :=
      hc.satisfiedBy_reconcile hsat spec
    simp [Requirement.satisfiedBy, Task.relabelled, hr]
  | present hp hc hq =>
    rw [hp] at ht
    exact ⟨_, ht.1, fun _ => hq⟩
  | committed hp =>
    rw [hp] at ht
    exact ⟨_, ht.1, fun _ => ht.2.2.2⟩

end Answers

section Tasks

def Resolution.All (P : Task → Prop) (r : Resolution) : Prop :=
  ∀ (id : TaskId) t, r.tasks[id]? = some t → P t

variable {σ : Type} (c : Collaborators σ) (maxDepth : Nat) (m m' : Moment) (id : TaskId) (t : Task)

/-- What target and phase a task that was there may come to have in a change. -/
inductive Task.Becomes : Option NamedTarget → Phase → Prop
  | same : Becomes t.target t.phase
  | cancelled (hf : t.isFinished = false) (ha : m.activity = .idle)
    (hm : m' = ⟨m.resolution.cancel, .idle⟩) :
    Becomes t.target (.failed (.ofKind .cancelled t.requirement))
  | found {w target digest} (hp : t.phase = .resolveTarget)
    (ha : (c.target t.requirement.target w).1 = .resolved target) :
    Becomes (some target) (.checkLiveData { target, digest })
  | moved {p} (hm : Moves c t p) : Becomes t.target p
  | tookUp {s candidate candidates} (hp : t.phase = .nextCandidate s)
    (hc : s.candidates = candidate :: candidates)
    (hq : t.requirement.satisfiedBy s.target.target candidate.output) :
    Becomes t.target (.resolveInputs { s with candidates } { candidate })
  /-- An input has been asked for, or is there. -/
  | wentOn {s a a'} (hp : t.phase = .resolveInputs s a) (ha : a'.candidate = a.candidate) :
    Becomes t.target (.resolveInputs s a')
  | gaveUp {s a q cause} (ha : m.activity = .asking id) (hp : t.phase = .resolveInputs s a)
    (hq : a.next? = some q)
    (hf : m.resolution.attach maxDepth q (.input id a.slots.length t.generation) (t.depth + 1) =
      (.failed cause, m.resolution)) :
    Becomes t.target (t.abandon s a.candidate cause).phase
  | failed {s a u slot ws cause}
    (ha : m.activity = .telling u (.error cause) (.input id slot t.generation :: ws))
    (hp : t.phase = .resolveInputs s a) : Becomes t.target (t.abandon s a.candidate cause).phase
  | ended {o} (he : Ends c m.resolution.graph t o) : Becomes t.target (.ofOutcome o)

variable {c maxDepth m m' id t} {t' : Task} {target : Option NamedTarget} {p : Phase}

theorem Change.becomes (hc : Change c maxDepth m m') (ht' : m'.resolution.tasks[id]? = some t') :
    (∃ t, m.resolution.tasks[id]? = some t ∧ t'.requirement = t.requirement ∧
      t.Becomes c maxDepth m m' id t'.target t'.phase) ∨
    m.resolution.tasks[id]? = none ∧ t'.target = none ∧ t'.phase = .resolveTarget := by
  have hput : ∀ {u : TaskId} {t x : Task}, m.resolution.tasks[u]? = some t →
      m.resolution.Puts m'.resolution u x → x.requirement = t.requirement →
      t.Becomes c maxDepth m m' u x.target x.phase →
      ∃ t, m.resolution.tasks[id]? = some t ∧ t'.requirement = t.requirement ∧
        t.Becomes c maxDepth m m' id t'.target t'.phase := by
    intro u t x ht hputs hq hx
    rcases hputs.self_or_other ht' with ⟨rfl, rfl⟩ | ⟨-, ht'⟩
    · exact ⟨t, ht, hq, hx⟩
    · exact ⟨t', ht', rfl, .same⟩
  cases hc with
  | take | again | block | park | pass | resume | asked | add | refuseNode | stale | lost | mark
  | refuseMark | note | told | submitKnown | submitRefused | submitFailed =>
    exact .inl ⟨t', ht', rfl, .same⟩
  | cancel =>
    simp only [Resolution.cancel, Array.getElem?_map, Option.map_eq_some_iff] at ht'
    obtain ⟨t, ht, rfl⟩ := ht'
    refine .inl ⟨t, ht, ?_⟩
    split
    · exact ⟨rfl, .same⟩
    next hf => exact ⟨rfl, .cancelled (Bool.eq_false_iff.2 hf) rfl rfl⟩
  | found ht hp ha => exact .inl (hput ht (Resolution.puts_modifyTask ht) rfl (.found hp ha))
  | move ht hm => exact .inl (hput ht (Resolution.puts_setPhase ht) rfl (.moved hm))
  | takeUp ht hp hx hq =>
    exact .inl (hput ht (Resolution.puts_setPhase ht) rfl (.tookUp hp hx hq))
  | known ht hp => exact .inl (hput ht (Resolution.puts_setPhase ht) rfl (.wentOn hp rfl))
  | @join r i t s a q u ht hp hq hg hn =>
    have hasking := Resolution.puts_asking (u := u) (s := s) (a := a.push none)
      (Resolution.tasks_addWaiter_of_ne (w := .input i a.slots.length t.generation) ht
        (Resolution.ne_of_closesCircle hn))
    rcases hasking.self_or_other ht' with ⟨rfl, rfl⟩ | ⟨-, ht'⟩
    · exact .inl ⟨t, ht, rfl, .wentOn hp rfl⟩
    · obtain ⟨t₀, ws, ht₀, rfl, -⟩ := Resolution.exists_of_addWaiter ht'
      exact .inl ⟨t₀, ht₀, rfl, .same⟩
  | @spawn r i t s a q ht hp =>
    have hasking := Resolution.puts_asking (u := r.tasks.size) (s := s) (a := a.push none)
      (Resolution.tasks_spawn_of_some (q := q) (w := .input i a.slots.length t.generation)
        (d := t.depth + 1) ht)
    rcases hasking.self_or_other ht' with ⟨rfl, rfl⟩ | ⟨-, ht'⟩
    · exact .inl ⟨t, ht, rfl, .wentOn hp rfl⟩
    · rcases Resolution.puts_spawn.self_or_other ht' with ⟨rfl, rfl⟩ | ⟨-, ht'⟩
      · exact .inr ⟨Array.getElem?_eq_none (Nat.le_refl _), rfl, rfl⟩
      · exact .inl ⟨t', ht', rfl, .same⟩
  | giveUp ht hp hq hf =>
    exact .inl (hput ht (Resolution.puts_modifyTask ht) rfl (.gaveUp rfl hp hq hf))
  | settle ht he => exact .inl (hput ht (Resolution.puts_settle ht) rfl (.ended he))
  | fill ht hp | fillLast ht hp =>
    exact .inl (hput ht (Resolution.puts_fillSlot ht) rfl (.wentOn hp candidate_fill))
  | @fail r u cause i t s a slot ws ht hp =>
    exact .inl (hput ht
      (Resolution.puts_modify (f := fun t => t.abandon s a.candidate cause) rfl ht) rfl
      (.failed rfl hp))
  | submitJoin =>
    obtain ⟨t₀, ws, ht₀, rfl, -⟩ := Resolution.exists_of_addWaiter ht'
    exact .inl ⟨t₀, ht₀, rfl, .same⟩
  | submitSpawn =>
    rcases Resolution.puts_spawn.self_or_other ht' with ⟨rfl, rfl⟩ | ⟨-, ht'⟩
    · exact .inr ⟨Array.getElem?_eq_none (Nat.le_refl _), rfl, rfl⟩
    · exact .inl ⟨t', ht', rfl, .same⟩

theorem Task.Becomes.answered (h : t.Becomes c maxDepth m m' id target p) (ht : t.Faithful c)
    {n : NamedTarget} (hn : target = some n) :
    ∃ w, (c.target t.requirement.target w).1 = .resolved n := by
  cases h with
  | @found w _ _ _ ha =>
    cases hn
    exact ⟨w, ha⟩
  | same | cancelled | moved | tookUp | wentOn | gaveUp | failed | ended => exact ht.target n hn

theorem Task.Becomes.fits (h : t.Becomes c maxDepth m m' id target p) (hc : c.policy.Chooses)
    (hg : m.resolution.graph.Indexed) (ht : t.phase.Fits c t.requirement t.target) :
    p.Fits c t.requirement target := by
  cases h with
  | same => exact ht
  | cancelled => trivial
  | found => rfl
  | moved hm => exact hm.fits ht
  | tookUp hp hx hq =>
    rw [hp] at ht
    obtain ⟨htarget, hoffers⟩ := ht
    rw [hx] at hoffers
    exact ⟨htarget, fun y hy => hoffers y (List.mem_cons_of_mem _ hy),
      hoffers _ List.mem_cons_self, hq⟩
  | wentOn hp ha =>
    rw [hp] at ht
    exact ht.attempt ha
  | gaveUp _ hp | failed _ hp =>
    rw [hp] at ht
    exact ⟨ht.1, ht.2.1⟩
  | @ended o he =>
    cases o with
    | error f => trivial
    | ok v => exact he.fits hc hg ht

theorem Change.faithful (hc : Change c maxDepth m m') (hp : c.policy.Chooses)
    (hg : Grounded m) (h : m.resolution.All (·.Faithful c)) :
    m'.resolution.All (·.Faithful c) := by
  intro id t' ht'
  rcases hc.becomes ht' with ⟨t, ht, hq, hbecomes⟩ | ⟨-, htarget, hphase⟩
  · have hfaithful := h id t ht
    refine ⟨fun n hn => ?_, ?_⟩
    · rw [hq]
      exact hbecomes.answered hfaithful hn
    · rw [hq]
      exact hbecomes.fits hp hg.sound.indexed hfaithful.phase
  · refine ⟨fun n hn => ?_, ?_⟩
    · cases htarget.symm.trans hn
    · rw [hphase]
      trivial

end Tasks

end ValueGraph
