import ValueGraph.Proofs.Resolution.Failure
import ValueGraph.Proofs.Resolution.Fidelity
import ValueGraph.Proofs.Resolution.Oracle
import ValueGraph.Proofs.Resolution.Outcomes

namespace ValueGraph

namespace Oracle

variable {o : Oracle} {q : Requirement} {t : NamedTarget} {f : Failure} {B B' : Prop}

/--
Is it no failure of what can be met, unless for recursion? `B` says that nothing can recur, so that
there is no such excuse.
-/
structure Explains (o : Oracle) (B : Prop) (q : Requirement) (f : Failure) : Prop where
  derivable : o.Derivable q → f.involvesRecursion = true
  bounded : B → f.involvesRecursion = false

theorem Explains.mono (h : o.Explains B q f) (hB : B' → B) : o.Explains B' q f :=
  ⟨h.derivable, fun hb => h.bounded (hB hb)⟩

theorem explains_of_not_derivable (h : ¬ o.Derivable q) (hf : f.involvesRecursion = false) :
    o.Explains B q f :=
  ⟨fun hd => absurd hd h, fun _ => hf⟩

theorem not_derivable_of_notFound (h : o.target q.target = .notFound) : ¬ o.Derivable q := by
  intro hd
  cases hd with
  | available ht | computed ht =>
    rw [h] at ht
    cases ht

theorem Derivable.exists_candidate (h : o.Derivable q) (ht : o.target q.target = .resolved t)
    (hm : ∀ v, o.market t q ≠ .available v) :
    o.market t q = .notAvailable ∧ ∃ x ∈ o.functions q.name t q.constraints,
      q.satisfiedBy t.target x.output ∧ ∀ p ∈ x.inputs, o.Derivable p := by
  cases h with
  | available ht' hv =>
    rw [ht] at ht'
    cases ht'
    exact absurd hv (hm _)
  | computed ht' hno hx hs hi =>
    rw [ht] at ht'
    cases ht'
    exact ⟨hno, _, hx, hs, hi⟩

/-- Is the candidate no way to meet the requirement, or may it have failed for recursion? -/
def Spent (o : Oracle) (q : Requirement) (t : NamedTarget) (fs : List Failure) (x : Candidate) :
    Prop :=
  ¬ q.satisfiedBy t.target x.output ∨ (∃ p ∈ x.inputs, ¬ o.Derivable p) ∨
    Failure.anyInvolvesRecursion fs = true

theorem Spent.append {fs gs : List Failure} {x : Candidate} (h : o.Spent q t fs x) :
    o.Spent q t (fs ++ gs) x :=
  h.imp_right (Or.imp_right fun h => by simp [h])

end Oracle

section Phases

/-- Does a search go by what the oracle says? -/
structure Search.Informed (o : Oracle) (B : Prop) (q : Requirement) (s : Search) : Prop where
  target : o.target q.target = .resolved s.target
  failures : B → Failure.anyInvolvesRecursion s.failures = false
  offered : ∀ x ∈ s.candidates, x ∈ o.functions q.name s.target q.constraints

/--
Are the candidates of the catalog still to be tried, spent, or the one given? As long as the search
goes by memory, those of remembered functions are.
-/
def Search.Accounts (o : Oracle) (q : Requirement) (s : Search) (current : Option Candidate) :
    Prop :=
  ∀ x ∈ o.functions q.name s.target q.constraints,
    (∀ tried, s.tried = some tried → x.function.id ∈ tried) →
    x ∈ s.candidates ∨ o.Spent q s.target s.failures x ∨ current = some x

def Phase.Informed (o : Oracle) (B : Prop) (q : Requirement) : Phase → Prop
  | .resolveTarget | .committed _ => True
  | .checkLiveData s => s.Informed o B q ∧ s.tried = none
  | .enumerate s =>
    s.Informed o B q ∧ o.market s.target q = .notAvailable ∧
      ∀ x ∈ o.functions q.name s.target q.constraints, x.function.id ∈ s.tried.getD ∅ →
        o.Spent q s.target s.failures x
  | .nextCandidate s =>
    s.Informed o B q ∧ o.market s.target q = .notAvailable ∧ s.Accounts o q none
  | .resolveInputs s a =>
    s.Informed o B q ∧ o.market s.target q = .notAvailable ∧ s.Accounts o q (some a.candidate) ∧
      a.candidate ∈ o.functions q.name s.target q.constraints ∧
      q.satisfiedBy s.target.target a.candidate.output
  | .failed f => o.Explains B q f

variable {σ : Type} {c : Collaborators σ} {g : Graph} {o : Oracle} {B B' : Prop} {t : Task}
  {q p : Requirement} {s : Search} {a a' : Attempt} {x : Candidate} {xs : List Candidate}
  {cause f : Failure}

theorem Search.Informed.mono (h : s.Informed o B q) (hB : B' → B) : s.Informed o B' q :=
  ⟨h.target, fun hb => h.failures (hB hb), h.offered⟩

theorem Phase.Informed.mono {phase : Phase} (h : phase.Informed o B q) (hB : B' → B) :
    phase.Informed o B' q := by
  cases phase with
  | resolveTarget | committed => trivial
  | checkLiveData s => exact ⟨h.1.mono hB, h.2⟩
  | enumerate s => exact ⟨h.1.mono hB, h.2⟩
  | nextCandidate s => exact ⟨h.1.mono hB, h.2⟩
  | resolveInputs s a => exact ⟨h.1.mono hB, h.2⟩
  | failed f => exact Oracle.Explains.mono h hB

theorem Phase.Informed.attempt (h : (Phase.resolveInputs s a).Informed o B q)
    (ha : a'.candidate = a.candidate) : (Phase.resolveInputs s a').Informed o B q := by
  obtain ⟨hs, hm, hrest⟩ := h
  refine ⟨hs, hm, ?_⟩
  rw [ha]
  exact hrest

theorem Phase.Informed.needs (h : (Phase.resolveInputs s a).Informed o B q)
    (hp : p ∈ a.candidate.inputs) : o.Needs q p :=
  ⟨s.target, a.candidate, h.1.target, h.2.2.2.1, hp⟩

theorem Phase.Informed.takeUp (h : (Phase.nextCandidate s).Informed o B q)
    (hx : s.candidates = x :: xs) (hq : q.satisfiedBy s.target.target x.output)
    (ha : a.candidate = x) :
    (Phase.resolveInputs { s with candidates := xs } a).Informed o B q := by
  obtain ⟨hs, hm, hall⟩ := h
  have hoffered := hs.offered
  rw [hx] at hoffered
  refine ⟨⟨hs.target, hs.failures, fun y hy => hoffered y (List.mem_cons_of_mem _ hy)⟩,
    hm, fun y hy ht => ?_, ha ▸ hoffered x List.mem_cons_self, ha ▸ hq⟩
  rcases hall y hy ht with hy | hy | hy
  · rw [hx] at hy
    rcases List.mem_cons.1 hy with rfl | hy
    · exact .inr (.inr (congrArg some ha))
    · exact .inl hy
  · exact .inr (.inl hy)
  · cases hy

theorem Phase.Informed.abandon (h : (Phase.resolveInputs s a).Informed o B q)
    (hp : p ∈ a.candidate.inputs) (hf : o.Explains B p cause) :
    (Phase.nextCandidate { s with failures := s.failures ++
      [.ofCandidate q a.candidate.function.id cause] }).Informed o B q := by
  obtain ⟨hs, hm, hall, -⟩ := h
  refine ⟨⟨hs.target, fun hb => ?_, hs.offered⟩, hm, fun y hy ht => ?_⟩
  · simp [hs.failures hb, Failure.anyInvolvesRecursion, hf.bounded hb]
  · rcases hall y hy ht with hy | hy | hy
    · exact .inl hy
    · exact .inr (.inl hy.append)
    · cases hy
      refine .inr (.inl (.inr ?_))
      by_cases hd : o.Derivable p
      · exact .inr (by simp [Failure.anyInvolvesRecursion, hf.derivable hd])
      · exact .inl ⟨p, hp, hd⟩

theorem Phase.Informed.skip (h : (Phase.nextCandidate s).Informed o B q)
    (hx : s.candidates = x :: xs) (hn : ¬ q.satisfiedBy s.target.target x.output) :
    (Phase.nextCandidate { s with
      candidates := xs
      failures := s.failures ++ [.mismatch q x.function.id x.output] }).Informed o B q := by
  obtain ⟨hs, hm, hall⟩ := h
  refine ⟨⟨hs.target, fun hb => ?_, fun y hy => hs.offered y ?_⟩, hm, fun y hy ht => ?_⟩
  · simp [hs.failures hb, Failure.anyInvolvesRecursion]
  · rw [hx]
    exact List.mem_cons_of_mem _ hy
  · rcases hall y hy ht with hy | hy | hy
    · rw [hx] at hy
      rcases List.mem_cons.1 hy with rfl | hy
      · exact .inr (.inl (.inl hn))
      · exact .inl hy
    · exact .inr (.inl hy.append)
    · cases hy

theorem Moves.informed {phase : Phase} (h : Moves c t phase) (hc : c.Follows o)
    (hr : c.Recalls o) (ht : t.phase.Informed o B t.requirement) :
    phase.Informed o B t.requirement := by
  cases h with
  | @seek s w hp ha =>
    rw [hp] at ht
    refine ⟨ht.1, ?_, fun x _ hx => ?_⟩
    · rw [← hc.market s.target t.requirement w (by rw [ha]; exact nofun), ha]
    · rw [ht.2] at hx
      exact absurd hx SortedSet.not_mem_empty
  | @askAll s w hp =>
    rw [hp] at ht
    obtain ⟨hs, hm, htried⟩ := ht
    refine ⟨⟨hs.target, hs.failures, fun x hx => ?_⟩, hm, fun x hx _ => ?_⟩
    · have hx := (List.mem_filter.1 hx).1
      rwa [hc.functions] at hx
    · by_cases hid : x.function.id ∈ s.tried.getD ∅
      · exact .inr (.inl (htried x hx hid))
      · refine .inl (List.mem_filter.2 ⟨?_, decide_eq_true hid⟩)
        rwa [hc.functions]
  | @remembered s w candidates hp htried ha =>
    rw [hp] at ht
    obtain ⟨hs, hm, -⟩ := ht
    refine ⟨⟨hs.target, hs.failures, fun x hx => (hr _ _ _ w x (ha ▸ hx)).1⟩, hm,
      fun x hx hid => .inl ?_⟩
    -- The remembered candidate of that function is the only one that the catalog has of it.
    obtain ⟨y, hy, he⟩ := List.mem_map.1 (SortedSet.mem_ofList.1 (hid _ rfl))
    rw [(hr _ _ _ w y (ha ▸ hy)).2 x hx he.symm]
    exact hy
  | @exhaust s hp hx hsome =>
    rw [hp] at ht
    obtain ⟨hs, hm, hall⟩ := ht
    obtain ⟨tried, htried⟩ := Option.isSome_iff_exists.1 hsome
    refine ⟨hs, hm, fun x hmem hid => ?_⟩
    rw [htried, Option.getD_some] at hid
    have hx' := hall x hmem fun tried' he => by
      rw [htried] at he
      cases he
      exact hid
    rcases hx' with hx' | hx' | hx'
    · rw [hx] at hx'
      cases hx'
    · exact hx'
    · cases hx'
  | skip hp hx hn =>
    rw [hp] at ht
    exact ht.skip hx hn

theorem Ends.explains (h : Ends c g t (.error f)) (hc : c.Follows o)
    (ht : t.phase.Informed o B t.requirement) : o.Explains B t.requirement f := by
  cases h with
  | @noTarget w hp ha =>
    refine Oracle.explains_of_not_derivable (Oracle.not_derivable_of_notFound ?_) (by simp)
    rw [← hc.target _ w (by rw [ha]; exact nofun), ha]
  | @missing s w hp ha =>
    rw [hp] at ht
    have hm : o.market s.target t.requirement = .missing := by
      rw [← hc.market _ _ w (by rw [ha]; exact nofun), ha]
    refine Oracle.explains_of_not_derivable (fun hd => ?_) (by simp)
    have hno := (hd.exists_candidate ht.1.target (by rw [hm]; exact fun _ => nofun)).1
    rw [hm] at hno
    cases hno
  | @noFunctions s w hp ha =>
    rw [hp] at ht
    rw [hc.functions] at ha
    refine Oracle.explains_of_not_derivable (fun hd => ?_) (by simp)
    obtain ⟨-, x, hx, -⟩ := hd.exists_candidate ht.1.target (by rw [ht.2.1]; exact fun _ => nofun)
    rw [ha] at hx
    cases hx
  | @exhausted s hp hx htried =>
    rw [hp] at ht
    obtain ⟨hs, hm, hall⟩ := ht
    refine ⟨fun hd => ?_, fun hb => ?_⟩
    · obtain ⟨-, x, hmem, hsat, hi⟩ :=
        hd.exists_candidate hs.target (by rw [hm]; exact fun _ => nofun)
      -- The candidate that would do is spent, which leaves recursion for a reason.
      have hx' := hall x hmem fun tried he => by
        rw [htried] at he
        cases he
      rcases hx' with hx' | (hx' | ⟨p, hp, hno⟩ | hx') | hx'
      · rw [hx] at hx'
        cases hx'
      · exact absurd hsat hx'
      · exact absurd (hi p hp) hno
      · simpa using hx'
      · cases hx'
    · simpa using hs.failures hb

end Phases

section Changes

variable {σ : Type} {c : Collaborators σ} {maxDepth : Nat} {o : Oracle} {B B' : Prop}
  {m m' : Moment}

/-- Do all failures there are tell the truth? -/
structure Candid (o : Oracle) (B : Prop) (m : Moment) : Prop where
  tasks : ∀ (id : TaskId) t, m.resolution.tasks[id]? = some t →
    t.phase.Informed o B t.requirement
  /-- What failed for recursion is not remembered, so that a remembered failure is final. -/
  claims : ∀ q f, m.resolution.claims.get? q = some (.failed f) →
    ¬ o.Derivable q ∧ f.involvesRecursion = false
  told : ∀ u f ws, m.activity = .telling u (.error f) ws →
    ∃ t, m.resolution.tasks[u]? = some t ∧ o.Explains B t.requirement f
  outcomes : ∀ (i : Nat) s f, m.resolution.submissions[i]? = some s →
    s.outcome = some (.error f) → o.Explains B s.requirement f

theorem Candid.mono (h : Candid o B m) (hB : B' → B) : Candid o B' m where
  tasks id t ht := (h.tasks id t ht).mono hB
  claims := h.claims
  told u f ws ha := by
    obtain ⟨t, ht, hf⟩ := h.told u f ws ha
    exact ⟨t, ht, hf.mono hB⟩
  outcomes i s f hs hf := (h.outcomes i s f hs hf).mono hB

/-- May the task that asks for an input go on, as far as circles and the depth are concerned? -/
def Moment.Clear (maxDepth : Nat) (m : Moment) : Prop :=
  ∀ id t s a q, m.activity = .asking id → m.resolution.tasks[id]? = some t →
    t.phase = .resolveInputs s a → a.next? = some q →
    t.depth + 1 ≤ maxDepth ∧ ∀ u, m.resolution.claims.get? q = some (.pending u) →
      m.resolution.closesCircle u (.input id a.slots.length t.generation) = false

theorem Task.Becomes.informed {id : TaskId} {t : Task} {target : Option NamedTarget} {p : Phase}
    (hb : t.Becomes c maxDepth m m' id target p) (ho : c.Follows o) (hr : c.Recalls o)
    (hcalm : m.activity = .idle → m' ≠ ⟨m.resolution.cancel, .idle⟩) (hw : Wired m)
    (hclear : B → m.Clear maxDepth) (h : Candid o B m) (ht : m.resolution.tasks[id]? = some t) :
    p.Informed o B t.requirement := by
  have hi := h.tasks id t ht
  cases hb with
  | same => exact hi
  | cancelled _ ha hm => exact absurd hm (hcalm ha)
  | @found w target digest _ ha =>
    refine ⟨⟨?_, fun _ => rfl, nofun⟩, rfl⟩
    rw [← ho.target _ w (by rw [ha]; exact nofun), ha]
  | moved hm => exact hm.informed ho hr hi
  | tookUp hp hx hq =>
    rw [hp] at hi
    exact hi.takeUp hx hq rfl
  | wentOn hp ha =>
    rw [hp] at hi
    exact hi.attempt ha
  | @gaveUp s a q cause ha hp hq hf =>
    rw [hp] at hi
    refine hi.abandon (List.mem_of_getElem? hq) ?_
    rcases Resolution.attach_failed hf with hf | ⟨rfl, u, hu, hcloses⟩ | ⟨rfl, hdeep⟩
    · obtain ⟨hno, hf⟩ := h.claims q cause hf
      exact Oracle.explains_of_not_derivable hno hf
    · refine ⟨fun _ => by simp, fun hb => ?_⟩
      rw [(hclear hb id t s a q ha ht hp hq).2 u hu] at hcloses
      cases hcloses
    · refine ⟨fun _ => by simp, fun hb => ?_⟩
      exact absurd hdeep (Nat.not_lt_of_le (hclear hb id t s a q ha ht hp hq).1)
  | @failed s a u slot ws cause ha hp =>
    obtain ⟨tu, hu, hf⟩ := h.told u cause _ ha
    rw [hp] at hi
    exact hi.abandon (List.mem_of_getElem? (hw.input_of_telling ha hu ht hp)) hf
  | @ended out he =>
    cases out with
    | ok v => trivial
    | error f => exact he.explains ho hi

theorem Change.informed (hc : Change c maxDepth m m') (ho : c.Follows o) (hr : c.Recalls o)
    (hcalm : m.activity = .idle → m' ≠ ⟨m.resolution.cancel, .idle⟩) (hw : Wired m)
    (hclear : B → m.Clear maxDepth) (h : Candid o B m) :
    m'.resolution.All fun t => t.phase.Informed o B t.requirement := by
  intro id t' ht'
  rcases hc.becomes ht' with ⟨t, ht, hq, hbecomes⟩ | ⟨-, -, hphase⟩
  · rw [hq]
    exact hbecomes.informed ho hr hcalm hw hclear h ht
  · rw [hphase]
    trivial

/-- Only the end of a task makes a failure one to be remembered, and only without recursion. -/
theorem Change.failed_claims (hc : Change c maxDepth m m') (ho : c.Follows o) (h : Candid o B m)
    {q : Requirement} {f : Failure} (hq : m'.resolution.claims.get? q = some (.failed f)) :
    ¬ o.Derivable q ∧ f.involvesRecursion = false := by
  rcases hc.settled_before rfl hq with hq | ⟨id, t, out, ht, rfl, he, hf⟩
  · exact h.claims q f hq
  · obtain ⟨rfl, hno⟩ := Claim.ofOutcome?_eq_failed.1 hf
    refine ⟨fun hd => ?_, hno⟩
    rw [(he.explains ho (h.tasks id t ht)).derivable hd] at hno
    cases hno

theorem Change.failed_told (hc : Change c maxDepth m m') (ho : c.Follows o)
    (hclaimed : m.resolution.Claimed) (h : Candid o B m) {u : TaskId} {f : Failure}
    {ws : List Waiter} (ha : m'.activity = .telling u (.error f) ws) :
    ∃ t, m'.resolution.tasks[u]? = some t ∧ o.Explains B t.requirement f := by
  have hbefore : ∃ t, m.resolution.tasks[u]? = some t ∧ o.Explains B t.requirement f := by
    rcases hc.telling ha with ⟨w, ha⟩ | ⟨t, -, ht, -, he, -⟩
    · exact h.told u f _ ha
    · exact ⟨t, ht, he.explains ho (h.tasks u t ht)⟩
  obtain ⟨t, ht, hf⟩ := hbefore
  obtain ⟨t', ht', hq⟩ := hc.exists_task hclaimed ht
  exact ⟨t', ht', hq ▸ hf⟩

theorem Change.failed_outcomes (hc : Change c maxDepth m m')
    (hcalm : m.activity = .idle → m' ≠ ⟨m.resolution.cancel, .idle⟩) (haddressed : Addressed m)
    (h : Candid o B m) {i : Nat} {s : Submission} {f : Failure}
    (hs : m'.resolution.submissions[i]? = some s) (hf : s.outcome = some (.error f)) :
    o.Explains B s.requirement f := by
  rcases hc.outcome_before haddressed hs hf with hs | ⟨u, ws, ha, hq⟩ | hx | ⟨ha, hm, -⟩
  · exact h.outcomes i s f hs hf
  · obtain ⟨t, ht, he⟩ := h.told u f ws ha
    rw [hq t ht]
    exact he
  · obtain ⟨hno, hf⟩ := h.claims s.requirement f hx
    exact Oracle.explains_of_not_derivable hno hf
  · exact absurd hm (hcalm ha)

theorem Change.candid (hc : Change c maxDepth m m') (ho : c.Follows o) (hr : c.Recalls o)
    (hcalm : m.activity = .idle → m' ≠ ⟨m.resolution.cancel, .idle⟩)
    (hclaimed : m.resolution.Claimed) (hw : Wired m) (haddressed : Addressed m)
    (hclear : B → m.Clear maxDepth) (h : Candid o B m) : Candid o B m' :=
  ⟨hc.informed ho hr hcalm hw hclear h, fun _ _ => hc.failed_claims ho h,
    fun _ _ _ => hc.failed_told ho hclaimed h, fun _ _ _ => hc.failed_outcomes hcalm haddressed h⟩

end Changes

end ValueGraph
