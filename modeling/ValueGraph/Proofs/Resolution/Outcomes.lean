import ValueGraph.Proofs.Resolution.Requests

namespace ValueGraph

variable {σ : Type} {c : Collaborators σ} {maxDepth : Nat} {m m' : Moment}

section Outcomes

theorem Awaited.outcome_of_copies {i : Nat} {s : Submission} (h : Awaited m)
    (hpos : 0 < m.copies (.submission i)) (hs : m.resolution.submissions[i]? = some s) :
    s.outcome = none := by
  have hone := h.submissions i s hs
  cases ho : s.outcome with
  | none => rfl
  | some o =>
    rw [ho] at hone
    exact absurd hone (Nat.ne_of_gt hpos)

theorem Awaited.outcome_eq_none {r : Resolution} {u : TaskId} {o : Outcome} {i : Nat}
    {ws : List Waiter} {s : Submission}
    (h : Awaited ⟨r, .telling u o (.submission i :: ws)⟩) (hs : r.submissions[i]? = some s) :
    s.outcome = none := by
  refine h.outcome_of_copies ?_ hs
  rw [copies_telling, if_pos rfl]
  exact Nat.succ_pos _

theorem Awaited.outcome_of_waits {i : Nat} {s : Submission} {u : TaskId} {t : Task} (h : Awaited m)
    (ht : m.resolution.tasks[u]? = some t) (hi : .submission i ∈ t.waiters)
    (hs : m.resolution.submissions[i]? = some s) : s.outcome = none :=
  h.outcome_of_copies (Nat.lt_of_lt_of_le (Resolution.copies_pos ht hi) (Nat.le_add_right _ _)) hs

/-- Has the submission this outcome, or is it to be told so just now? -/
def Moment.Comes (m : Moment) (i : Nat) (o : Outcome) : Prop :=
  (∃ u ws, m.activity = .telling u o ws ∧ .submission i ∈ ws) ∨
    ∃ s, m.resolution.submissions[i]? = some s ∧ s.outcome = some o

theorem Resolution.submissions_note {r : Resolution} {i j : Nat} {o : Outcome} :
    (r.note i o).submissions[j]? = if i = j then (r.submissions[j]?).map fun s =>
      { s with outcome := some o } else r.submissions[j]? :=
  Array.getElem?_modify

theorem Moment.Comes.note {r : Resolution} {graph : Graph} {u : TaskId} {i j : Nat} {o o' : Outcome}
    {ws : List Waiter} {s : Submission} (hw : Awaited ⟨r, .telling u o (.submission j :: ws)⟩)
    (hs : r.submissions[j]? = some s)
    (h : (⟨r, .telling u o (.submission j :: ws)⟩ : Moment).Comes i o') :
    (⟨{ r.note j o with graph }, .telling u o ws⟩ : Moment).Comes i o' := by
  rcases h with ⟨u', ws', ha, hmem⟩ | ⟨s', hs', ho⟩
  · cases ha
    rcases List.mem_cons.1 hmem with he | hmem
    · cases he
      refine .inr ⟨{ s with outcome := some o }, ?_, rfl⟩
      show (r.note i o).submissions[i]? = _
      rw [Resolution.submissions_note, if_pos rfl, hs]
      rfl
    · exact .inl ⟨u, ws, rfl, hmem⟩
  · refine .inr ⟨s', ?_, ho⟩
    show (r.note j o).submissions[i]? = _
    rw [Resolution.submissions_note, if_neg, hs']
    rintro rfl
    rw [hs] at hs'
    cases hs'
    rw [hw.outcome_eq_none hs] at ho
    cases ho

theorem Moment.Comes.submit {r r' : Resolution} {s : Submission} {i : Nat} {o : Outcome}
    (h : (⟨r, .idle⟩ : Moment).Comes i o) (hs : r'.submissions = r.submissions.push s) :
    (⟨r', .idle⟩ : Moment).Comes i o := by
  rcases h with ⟨u, ws, ha, -⟩ | ⟨s', hs', ho⟩
  · cases ha
  · refine .inr ⟨s', ?_, ho⟩
    have hlt : i < r.submissions.size := (Array.getElem?_eq_some_iff.1 hs').1
    show r'.submissions[i]? = _
    rw [hs, Array.getElem?_push, if_neg (Nat.ne_of_lt hlt), hs']

/-- An outcome is final. -/
theorem Change.comes {i : Nat} {o : Outcome} (hc : Change c maxDepth m m') (hw : Awaited m)
    (hb : ∀ e, m'.activity ≠ .broken e) (h : m.Comes i o) : m'.Comes i o := by
  cases hc with
  | refuseNode | refuseMark | submitRefused => exact absurd rfl (hb _)
  | mark hs => exact h.note hw hs
  | note hs => exact h.note hw hs
  | stale | fill | fillLast | fail =>
    refine h.imp_left ?_
    rintro ⟨u, ws, ha, hmem⟩
    cases ha
    exact ⟨_, _, rfl, by simpa using hmem⟩
  | @lost r u o' index ws hs =>
    have hzero := hw.noSubmission index hs
    rw [copies_telling, if_pos rfl] at hzero
    omega
  | told =>
    refine h.imp_left ?_
    rintro ⟨u, ws, ha, hmem⟩
    cases ha
    cases hmem
  | submitKnown | submitFailed | submitJoin | submitSpawn => exact h.submit rfl
  | @cancel r =>
    rcases h with ⟨u, ws, ha, -⟩ | ⟨s, hs, ho⟩
    · cases ha
    · refine .inr ⟨s, ?_, ho⟩
      have hs : r.submissions[i]? = some s := hs
      show r.cancel.submissions[i]? = _
      simp [Resolution.cancel, hs, ho]
  | take | again | block | park | pass | resume | found | move | takeUp | known | join | spawn
  | giveUp | asked | add | settle =>
    rcases h with ⟨u, ws, ha, -⟩ | h
    · cases ha
    · exact .inr h

/-- Do the submissions wait for one task, or have they come to the same outcome? -/
def Moment.Twins (m : Moment) (i j : Nat) : Prop :=
  (∃ (u : TaskId) (t : Task), m.resolution.tasks[u]? = some t ∧ .submission i ∈ t.waiters ∧
    .submission j ∈ t.waiters) ∨ ∃ o, m.Comes i o ∧ m.Comes j o

theorem Moment.Comes.cancel {r : Resolution} {i : Nat} {u : TaskId} {t : Task}
    (hw : Awaited ⟨r, .idle⟩) (haddressed : Addressed ⟨r, .idle⟩) (ht : r.tasks[u]? = some t)
    (hi : .submission i ∈ t.waiters) :
    (⟨r.cancel, .idle⟩ : Moment).Comes i (.error (.ofKind .cancelled t.requirement)) := by
  have hq : r.requirements[i]? = some t.requirement := haddressed i _ ⟨u, t, ht, rfl, .inl hi⟩
  obtain ⟨s, hs, hq⟩ : ∃ s, r.submissions[i]? = some s ∧ s.requirement = t.requirement := by
    simpa [Resolution.requirements] using hq
  have hnone : s.outcome = none := hw.outcome_of_waits ht hi hs
  refine .inr ⟨{ s with outcome := some (.error (.ofKind .cancelled s.requirement)) }, ?_, ?_⟩
  · show r.cancel.submissions[i]? = _
    simp [Resolution.cancel, hs, hnone]
  · rw [hq]

/-- Submissions that wait for one task are told the same. -/
theorem Change.twins {i j : Nat} (hc : Change c maxDepth m m') (hclaimed : m.resolution.Claimed)
    (hw : Awaited m) (haddressed : Addressed m) (hb : ∀ e, m'.activity ≠ .broken e)
    (h : m.Twins i j) : m'.Twins i j := by
  rcases h with ⟨u, t, ht, hi, hj⟩ | ⟨o, hi, hj⟩
  · rcases (hc.taskChange hclaimed).waiters ht with ⟨t', ht', hsub⟩ | ⟨o, ha⟩ | ⟨hidle, rfl⟩
    · exact .inl ⟨u, t', ht', hsub hi, hsub hj⟩
    · exact .inr ⟨o, .inl ⟨u, _, ha, hi⟩, .inl ⟨u, _, ha, hj⟩⟩
    · obtain ⟨r, a⟩ := m
      cases hidle
      exact .inr ⟨_, .cancel hw haddressed ht hi, .cancel hw haddressed ht hj⟩
  · exact .inr ⟨o, hc.comes hw hb hi, hc.comes hw hb hj⟩

end Outcomes

section Backing

namespace Resolution

variable {r : Resolution} {i : Nat} {o : Outcome} {q q' : Requirement} {v : ValueSpec}

/-- Has a submission of the requirement been met by the value? -/
def Met (r : Resolution) (q : Requirement) (v : ValueSpec) : Prop :=
  ∃ (i : Nat) (s : Submission), r.submissions[i]? = some s ∧ s.requirement = q ∧
    s.outcome = some (.ok v)

theorem met_note {s : Submission} (hs : r.submissions[i]? = some s) (ho : s.outcome = none) :
    (r.note i o).Met q v ↔ s.requirement = q ∧ o = .ok v ∨ r.Met q v := by
  constructor
  · rintro ⟨j, s', hs', hq, hv⟩
    rw [submissions_note] at hs'
    split at hs'
    next he =>
      subst he
      rw [hs] at hs'
      cases hs'
      exact .inl ⟨hq, Option.some.inj hv⟩
    next => exact .inr ⟨j, s', hs', hq, hv⟩
  · rintro (⟨hq, rfl⟩ | ⟨j, s', hs', hq, hv⟩)
    · refine ⟨i, { s with outcome := some (.ok v) }, ?_, hq, rfl⟩
      rw [submissions_note, if_pos rfl, hs]
      rfl
    · refine ⟨j, s', ?_, hq, hv⟩
      rw [submissions_note, if_neg, hs']
      rintro rfl
      rw [hs] at hs'
      cases hs'
      rw [ho] at hv
      cases hv

theorem met_submit {o : Option Outcome} :
    (r.submit q' o).Met q v ↔ q' = q ∧ o = some (.ok v) ∨ r.Met q v := by
  constructor
  · rintro ⟨j, s, hs, hq, hv⟩
    unfold submit at hs
    dsimp only at hs
    rw [Array.getElem?_push] at hs
    split at hs
    · cases hs
      exact .inl ⟨hq, hv⟩
    · exact .inr ⟨j, s, hs, hq, hv⟩
  · rintro (⟨hq, ho⟩ | ⟨j, s, hs, hq, hv⟩)
    · exact ⟨r.submissions.size, { requirement := q', outcome := o }, Array.getElem?_push_size, hq,
        ho⟩
    · have hlt : j < r.submissions.size := (Array.getElem?_eq_some_iff.1 hs).1
      refine ⟨j, s, ?_, hq, hv⟩
      unfold submit
      dsimp only
      rw [Array.getElem?_push, if_neg (Nat.ne_of_lt hlt), hs]

theorem met_cancel : r.cancel.Met q v ↔ r.Met q v := by
  have hget : ∀ j : Nat, r.cancel.submissions[j]? = (r.submissions[j]?).map fun s =>
      if s.outcome.isSome then s
      else { s with outcome := some (.error (.ofKind .cancelled s.requirement)) } := by
    intro j
    simp [Resolution.cancel]
  constructor
  · rintro ⟨j, s', hs', hq, hv⟩
    rw [hget] at hs'
    obtain ⟨s, hs, rfl⟩ := Option.map_eq_some_iff.1 hs'
    split at hv
    next ho =>
      rw [if_pos ho] at hq
      exact ⟨j, s, hs, hq, hv⟩
    next => cases hv
  · rintro ⟨j, s, hs, hq, hv⟩
    refine ⟨j, s, ?_, hq, hv⟩
    rw [hget, hs, Option.map_some, if_pos (by rw [hv]; rfl)]

/-- Do terminal outputs back what they backed in `g` and what they have met, and nothing else? -/
def Backed (g : Graph) (r : Resolution) : Prop :=
  ∀ q v, q ∈ r.graph.backing.setAt v ↔ q ∈ g.backing.setAt v ∨ r.Met q v

theorem backed_initial (g : Graph) : ({ graph := g } : Resolution).Backed g := by
  refine fun q v => (or_iff_left ?_).symm
  rintro ⟨i, s, hs, -⟩
  cases hs

end Resolution

theorem Change.backed {g : Graph} (hc : Change c maxDepth m m') (hw : Awaited m)
    (hb : ∀ e, m'.activity ≠ .broken e) (h : m.resolution.Backed g) : m'.resolution.Backed g := by
  have hmarked : ∀ q' v', m.resolution.graph.mark q' v' = .ok m'.resolution.graph →
      (∀ q v, m'.resolution.Met q v ↔ q' = q ∧ v' = v ∨ m.resolution.Met q v) →
      m'.resolution.Backed g := by
    intro q' v' hg hmet q v
    rw [Graph.mem_backing_mark hg, h q v, hmet, and_comm, eq_comm (a := q)]
    exact or_left_comm
  have hsame : m'.resolution.graph.backing = m.resolution.graph.backing →
      (∀ q v, m'.resolution.Met q v ↔ m.resolution.Met q v) → m'.resolution.Backed g := by
    intro hg hmet q v
    rw [hg, hmet]
    exact h q v
  cases hc with
  | refuseNode | refuseMark | submitRefused => exact absurd rfl (hb _)
  | take | again | block | park | pass | resume | found | move | takeUp | known | join | spawn
  | giveUp | asked | settle | stale | fill | fillLast | fail | lost | told => exact h
  | add ht ha hg =>
    obtain ⟨rfl, -⟩ := Graph.link_of_add hg
    exact hsame Graph.backing_link fun q v => Iff.rfl
  | cancel => exact hsame rfl fun q v => Resolution.met_cancel
  | mark hs hg =>
    refine hmarked _ _ hg fun q v => (Resolution.met_note hs (hw.outcome_eq_none hs)).trans ?_
    rw [Except.ok.injEq]
  | note hs =>
    refine hsame rfl fun q v => (Resolution.met_note hs (hw.outcome_eq_none hs)).trans ?_
    simp
  | submitKnown hq hg =>
    refine hmarked _ _ hg fun q v => Resolution.met_submit.trans ?_
    rw [Option.some.injEq, Except.ok.injEq]
  | submitFailed | submitJoin | submitSpawn =>
    refine hsame rfl fun q v => Resolution.met_submit.trans ?_
    simp

end Backing

section Recorded

/-- Is it remembered that the requirement has come to that, if such an outcome is remembered? -/
def Resolution.Records (r : Resolution) (q : Requirement) (o : Outcome) : Prop :=
  ∀ x, Claim.ofOutcome? o = some x → r.claims.get? q = some x

/-- Is each outcome remembered, unless it comes of cancelling or of recursion? -/
structure Recorded (m : Moment) : Prop where
  told : ∀ u o ws, m.activity = .telling u o ws →
    ∃ t, m.resolution.tasks[u]? = some t ∧ m.resolution.Records t.requirement o
  outcomes : ∀ (i : Nat) s o, m.resolution.submissions[i]? = some s → s.outcome = some o →
    o = .error (.ofKind .cancelled s.requirement) ∨ m.resolution.Records s.requirement o

theorem recorded_initial {g : Graph} : Recorded ⟨{ graph := g }, .idle⟩ := by
  refine ⟨nofun, fun i s o hs => ?_⟩
  cases hs

theorem Recorded.resolved (h : Recorded m) {q : Requirement} {v : ValueSpec}
    (hq : m.resolution.Met q v) : m.resolution.Resolved q v := by
  obtain ⟨i, s, hs, rfl, hv⟩ := hq
  rcases h.outcomes i s _ hs hv with he | hr
  · cases he
  · exact hr _ rfl

theorem Change.records (hc : Change c maxDepth m m') (hclaimed : m.resolution.Claimed)
    {q : Requirement} {o : Outcome} (h : m.resolution.Records q o) : m'.resolution.Records q o :=
  fun x hx => hc.settled hclaimed (Claim.isPending_of_ofOutcome? hx) (h x hx)

theorem Change.recorded_told (hc : Change c maxDepth m m') (hclaimed : m.resolution.Claimed)
    (h : Recorded m) {u : TaskId} {o : Outcome} {ws : List Waiter}
    (ha : m'.activity = .telling u o ws) :
    ∃ t, m'.resolution.tasks[u]? = some t ∧ m'.resolution.Records t.requirement o := by
  have hbefore : ∃ t, m.resolution.tasks[u]? = some t ∧ m'.resolution.Records t.requirement o := by
    rcases hc.telling ha with ⟨w, ha⟩ | ⟨t, -, ht, -, -, hm⟩
    · obtain ⟨t, ht, hr⟩ := h.told u o _ ha
      exact ⟨t, ht, hc.records hclaimed hr⟩
    · refine ⟨t, ht, fun x hx => ?_⟩
      rw [hm]
      show (m.resolution.settleClaim t.requirement o).get? t.requirement = some x
      rw [Resolution.get?_settleClaim, if_pos rfl, hx]
  obtain ⟨t, ht, hr⟩ := hbefore
  obtain ⟨t', ht', hq⟩ := hc.exists_task hclaimed ht
  exact ⟨t', ht', hq ▸ hr⟩

/-- An outcome is one from before, or is being told, or remembered, or comes of cancelling. -/
theorem Change.outcome_before {i : Nat} {s : Submission} {o : Outcome}
    (hc : Change c maxDepth m m') (haddressed : Addressed m)
    (hs : m'.resolution.submissions[i]? = some s) (ho : s.outcome = some o) :
    m.resolution.submissions[i]? = some s ∨
    (∃ u ws, m.activity = .telling u o ws ∧
      ∀ t, m.resolution.tasks[u]? = some t → s.requirement = t.requirement) ∨
    m.resolution.claims.get? s.requirement = some (.settled o) ∨
    m.activity = .idle ∧ m' = ⟨m.resolution.cancel, .idle⟩ ∧
      o = .error (.ofKind .cancelled s.requirement) := by
  have hpush : ∀ s₀ : Submission, m'.resolution.submissions = m.resolution.submissions.push s₀ →
      (s₀.outcome = some o → m.resolution.claims.get? s₀.requirement = some (.settled o)) →
      m.resolution.submissions[i]? = some s ∨
        m.resolution.claims.get? s.requirement = some (.settled o) := by
    intro s₀ he hs₀
    rw [he, Array.getElem?_push] at hs
    split at hs
    · cases hs
      exact .inr (hs₀ ho)
    · exact .inl hs
  have hnote : ∀ (u : TaskId) (o' : Outcome) (ws : List Waiter) (j : Nat) (s₀ : Submission),
      m.activity = .telling u o' (.submission j :: ws) → m.resolution.submissions[j]? = some s₀ →
      (m.resolution.note j o').submissions[i]? = some s →
      m.resolution.submissions[i]? = some s ∨ ∃ u ws, m.activity = .telling u o ws ∧
        ∀ t, m.resolution.tasks[u]? = some t → s.requirement = t.requirement := by
    intro u o' ws j s₀ ha hj hs
    rw [Resolution.submissions_note] at hs
    split at hs
    next he =>
      subst he
      rw [hj] at hs
      cases hs
      cases ho
      obtain ⟨r, a⟩ := m
      cases ha
      refine .inr ⟨u, _, rfl, fun t ht => ?_⟩
      show s₀.requirement = t.requirement
      exact haddressed.requirement_eq ht hj
    next => exact .inl hs
  cases hc with
  | take | again | block | park | pass | resume | found | move | takeUp | known | join | spawn
  | giveUp | asked | add | refuseNode | settle | stale | fill | fillLast | fail | lost | refuseMark
  | told | submitRefused => exact .inl hs
  | cancel =>
    simp only [Resolution.cancel, Array.getElem?_map, Option.map_eq_some_iff] at hs
    obtain ⟨s₀, hs₀, rfl⟩ := hs
    split at ho
    next hsome =>
      rw [if_pos hsome]
      exact .inl hs₀
    next hnone =>
      rw [if_neg hnone]
      exact .inr (.inr (.inr ⟨rfl, rfl, (Option.some.inj ho).symm⟩))
  | mark hs₀ | note hs₀ => exact (hnote _ _ _ _ _ rfl hs₀ hs).imp_right .inl
  | submitKnown hg | submitFailed hg =>
    refine (hpush _ rfl fun he => ?_).imp_right fun hx => .inr (.inl hx)
    cases he
    exact hg
  | submitJoin | submitSpawn =>
    refine (hpush _ rfl fun he => ?_).imp_right fun hx => .inr (.inl hx)
    cases he

theorem Change.recorded_outcomes (hc : Change c maxDepth m m') (hclaimed : m.resolution.Claimed)
    (haddressed : Addressed m) (h : Recorded m) {i : Nat} {s : Submission} {o : Outcome}
    (hs : m'.resolution.submissions[i]? = some s) (ho : s.outcome = some o) :
    o = .error (.ofKind .cancelled s.requirement) ∨ m'.resolution.Records s.requirement o := by
  rcases hc.outcome_before haddressed hs ho with hs | ⟨u, ws, ha, hq⟩ | hx | ⟨-, -, he⟩
  · exact (h.outcomes i s o hs ho).imp_right (hc.records hclaimed)
  · obtain ⟨t, ht, hr⟩ := h.told u o ws ha
    exact .inr (hc.records hclaimed (hq t ht ▸ hr))
  · refine .inr (hc.records hclaimed fun x hx' => ?_)
    rw [Claim.eq_settled_of_ofOutcome? hx']
    exact hx
  · exact .inl he

theorem Change.recorded (hc : Change c maxDepth m m') (hclaimed : m.resolution.Claimed)
    (haddressed : Addressed m) (h : Recorded m) : Recorded m' :=
  ⟨fun _ _ _ => hc.recorded_told hclaimed h,
    fun _ _ _ => hc.recorded_outcomes hclaimed haddressed h⟩

end Recorded

namespace Resolution

section Enrolled

variable {r : Resolution} {q : Requirement} {i j : Nat} {s s' : Submission}

/-- Has nothing come to an end yet, and does each submission wait for the task at work on it? -/
structure Enrolled (r : Resolution) : Prop where
  pending : ∀ q x, r.claims.get? q = some x → ∃ (u : TaskId) (t : Task), x = .pending u ∧
    r.tasks[u]? = some t
  waits : ∀ (i : Nat) s, r.submissions[i]? = some s → ∃ (u : TaskId) (t : Task),
    r.claims.get? s.requirement = some (.pending u) ∧ r.tasks[u]? = some t ∧
      .submission i ∈ t.waiters

theorem Enrolled.enter {r' : Resolution} (h : r.Enrolled)
    (hs : r'.submissions = r.submissions.push { requirement := q })
    (hold : ∀ q u, r.claims.get? q = some (.pending u) → r'.claims.get? q = some (.pending u))
    (hnew : ∀ q' x, r'.claims.get? q' = some x → r.claims.get? q' = some x ∨ q' = q)
    (htasks : ∀ (u : TaskId) t, r.tasks[u]? = some t →
      ∃ t', r'.tasks[u]? = some t' ∧ t.waiters ⊆ t'.waiters)
    (hlast : ∃ (u : TaskId) (t : Task), r'.claims.get? q = some (.pending u) ∧
      r'.tasks[u]? = some t ∧ .submission r.submissions.size ∈ t.waiters) : r'.Enrolled := by
  obtain ⟨u₀, t₀, hq₀, hu₀, hmem₀⟩ := hlast
  refine ⟨fun q' x hx => ?_, fun i s hi => ?_⟩
  · rcases hnew q' x hx with hx | rfl
    · obtain ⟨u, t, rfl, hu⟩ := h.pending q' x hx
      obtain ⟨t', hu', -⟩ := htasks u t hu
      exact ⟨u, t', rfl, hu'⟩
    · rw [hq₀] at hx
      exact ⟨u₀, t₀, (Option.some.inj hx).symm, hu₀⟩
  · rw [hs, Array.getElem?_push] at hi
    split at hi
    next he =>
      cases hi
      subst he
      exact ⟨u₀, t₀, hq₀, hu₀, hmem₀⟩
    next =>
      obtain ⟨u, t, hq, hu, hmem⟩ := h.waits i s hi
      obtain ⟨t', hu', hsub⟩ := htasks u t hu
      exact ⟨u, t', hold _ _ hq, hu', hsub hmem⟩

theorem Enrolled.add (h : r.Enrolled) (q : Requirement) : (r.add maxDepth q).2.Enrolled := by
  obtain ⟨v, hc, -⟩ | ⟨f, hc, -⟩ | ⟨u, hc, ha⟩ | ⟨hc, ha⟩ := r.add_cases maxDepth q
  · obtain ⟨u, t, hu, -⟩ := h.pending q _ hc
    cases hu
  · obtain ⟨u, t, hu, -⟩ := h.pending q _ hc
    cases hu
  · rw [ha]
    obtain ⟨u', t, hu', ht⟩ := h.pending q _ hc
    cases hu'
    have hx := puts_addWaiter (r := r.submit q) (w := .submission r.submissions.size) ht
    refine h.enter rfl (fun _ _ hq => hq) (fun _ _ hx => .inl hx) (fun i t' ht' => ?_)
      ⟨u, _, hc, hx.self, by simp⟩
    refine hx.exists_waiters ht' (List.Subset.refl _) ?_
    rintro rfl
    cases ht.symm.trans ht'
    exact List.subset_append_left _ _
  · rw [ha]
    have hclaims : ((r.submit q).spawn q (.submission r.submissions.size) 0).claims =
        r.claims.insert q (.pending r.tasks.size) := rfl
    refine h.enter rfl (fun q' u hq' => ?_) (fun q' x hx => ?_) (fun i t ht => ?_)
      ⟨r.tasks.size, _, ?_, (tasks_spawn (r := r.submit q)).trans (if_pos rfl), by simp⟩
    · rw [hclaims, SortedMap.get?_insert, if_neg, hq']
      rintro rfl
      rw [hc] at hq'
      cases hq'
    · rw [hclaims, SortedMap.get?_insert] at hx
      split at hx
      next he => exact .inr he.symm
      next => exact .inl hx
    · exact ⟨t, tasks_spawn_of_some (r := r.submit q) ht, List.Subset.refl _⟩
    · rw [hclaims, SortedMap.get?_insert, if_pos rfl]

theorem Enrolled.adds {σ : Type} (c : Collaborators σ) (h : r.Enrolled) (qs : List Requirement) :
    (r.afterCalls c maxDepth (qs.map .add)).Enrolled := by
  induction qs generalizing r with
  | nil => exact h
  | cons q qs ih => exact ih (h.add q)

theorem enrolled_empty (configuration : String) :
    ({ graph := { configuration } } : Resolution).Enrolled := by
  refine ⟨nofun, fun i s hs => ?_⟩
  cases hs

theorem Enrolled.twins (h : r.Enrolled) (hi : r.submissions[i]? = some s)
    (hj : r.submissions[j]? = some s') (hq : s.requirement = s'.requirement) :
    (⟨r, .idle⟩ : Moment).Twins i j := by
  obtain ⟨u, t, hu, ht, hmem⟩ := h.waits i s hi
  obtain ⟨u', t', hu', ht', hmem'⟩ := h.waits j s' hj
  rw [← hq, hu] at hu'
  cases hu'
  rw [ht] at ht'
  cases ht'
  exact .inl ⟨u, t, ht, hmem, hmem'⟩

end Enrolled

section Calls

variable {σ : Type} (c : Collaborators σ) (maxDepth : Nat)

theorem kept_twins (P : Nat → Nat → Prop) :
    Kept (Change c maxDepth) fun m =>
      (Steady m ∧ Addressed m) ∧ ∀ i j, P i j → m.Twins i j where
  change hc h := by
    have hsteady := (kept_steady c maxDepth).change hc h.1.1
    have hclaimed := h.1.1.claimed
    exact ⟨⟨hsteady, hc.addressed hclaimed h.1.2⟩, fun i j hij =>
      hc.twins hclaimed h.1.1.awaited h.1.2 hsteady.grounded.whole (h.2 i j hij)⟩
  sound h := (kept_steady c maxDepth).sound h.1.1

theorem kept_backed (g : Graph) :
    Kept (Change c maxDepth) fun m => Steady m ∧ m.resolution.Backed g where
  change hc h := by
    have hsteady := (kept_steady c maxDepth).change hc h.1
    exact ⟨hsteady, hc.backed h.1.awaited hsteady.grounded.whole h.2⟩
  sound h := (kept_steady c maxDepth).sound h.1

variable {c maxDepth} {r : Resolution} {q : Requirement}

theorem mem_requirements : q ∈ r.requirements ↔
    ∃ (i : Nat) (s : Submission), r.submissions[i]? = some s ∧ s.requirement = q := by
  unfold requirements
  rw [List.mem_map]
  constructor
  · rintro ⟨s, hs, hq⟩
    obtain ⟨i, hi⟩ := List.mem_iff_getElem?.1 hs
    exact ⟨i, s, by simpa using hi, hq⟩
  · rintro ⟨i, s, hi, hq⟩
    exact ⟨s, List.mem_of_getElem? (i := i) (by simpa using hi), hq⟩

theorem exists_outcomeOf (hq : q ∈ r.requirements) : ∃ (i : Nat) (s : Submission),
    r.submissions[i]? = some s ∧ s.requirement = q ∧ r.outcomeOf q = s.outcome := by
  obtain ⟨i, s, hi, hs⟩ := mem_requirements.1 hq
  have hfind : (r.submissions.toList.find? (·.requirement = q)).isSome := by
    rw [List.find?_isSome]
    exact ⟨s, List.mem_of_getElem? (i := i) (by simpa using hi), by simpa using hs⟩
  obtain ⟨s', hs'⟩ := Option.isSome_iff_exists.1 hfind
  obtain ⟨j, hj⟩ := List.mem_iff_getElem?.1 (List.mem_of_find?_eq_some hs')
  refine ⟨j, s', by simpa using hj, by simpa using List.find?_some hs', ?_⟩
  unfold outcomeOf
  rw [hs']
  rfl

theorem outcomeOf_eq_none (hq : q ∉ r.requirements) : r.outcomeOf q = none := by
  have hfind : r.submissions.toList.find? (·.requirement = q) = none := by
    rw [List.find?_eq_none]
    intro s hs he
    exact hq (List.mem_map.2 ⟨s, hs, by simpa using he⟩)
  unfold outcomeOf
  rw [hfind]
  rfl

theorem Done.isSome_outcomeOf (h : r.Done) (hq : q ∈ r.requirements) : (r.outcomeOf q).isSome := by
  obtain ⟨i, s, hi, -, ho⟩ := exists_outcomeOf hq
  rw [ho]
  exact h.outcomes (s.requirement, s.outcome) <| List.mem_map_of_mem <|
    List.mem_of_getElem? (i := i) (by simpa using hi)

theorem met_of_outcomeOf {v : ValueSpec} (h : r.outcomeOf q = some (.ok v)) : r.Met q v := by
  by_cases hq : q ∈ r.requirements
  · obtain ⟨i, s, hi, hs, ho⟩ := exists_outcomeOf hq
    exact ⟨i, s, hi, hs, ho.symm.trans h⟩
  · rw [outcomeOf_eq_none hq] at h
    cases h

/-- Have submissions of one requirement the same outcome? -/
def Uniform (r : Resolution) : Prop :=
  ∀ (i j : Nat) s s', r.submissions[i]? = some s → r.submissions[j]? = some s' →
    s.requirement = s'.requirement → s.outcome = s'.outcome

theorem Uniform.outcomeOf_eq {i : Nat} {s : Submission} (h : r.Uniform)
    (hi : r.submissions[i]? = some s) : r.outcomeOf s.requirement = s.outcome := by
  obtain ⟨j, s', hj, hq, ho⟩ := exists_outcomeOf (mem_requirements.2 ⟨i, s, hi, rfl⟩)
  rw [ho]
  exact h j i s' s hj hi hq

theorem Uniform.outcomes_eq (h : r.Uniform) :
    r.outcomes = r.requirements.map fun q => (q, r.outcomeOf q) := by
  unfold outcomes requirements
  rw [List.map_map]
  apply List.map_congr_left
  intro s hs
  obtain ⟨i, hi⟩ := List.mem_iff_getElem?.1 hs
  simp [h.outcomeOf_eq (i := i) (by simpa using hi)]

theorem Uniform.met_iff {v : ValueSpec} (h : r.Uniform) :
    r.Met q v ↔ r.outcomeOf q = some (.ok v) := by
  refine ⟨?_, met_of_outcomeOf⟩
  rintro ⟨i, s, hi, rfl, hv⟩
  rw [h.outcomeOf_eq hi, hv]

theorem outcome_of_comes {i : Nat} {o : Outcome} {s : Submission}
    (h : (⟨r, .idle⟩ : Moment).Comes i o) (hs : r.submissions[i]? = some s) :
    s.outcome = some o := by
  rcases h with ⟨u, ws, ha, -⟩ | ⟨s', hs', ho⟩
  · cases ha
  · have hs' : r.submissions[i]? = some s' := hs'
    rw [hs] at hs'
    cases hs'
    exact ho

theorem outcome_eq_of_twins {i j : Nat} {s s' : Submission} (h : Awaited ⟨r, .idle⟩)
    (htwins : (⟨r, .idle⟩ : Moment).Twins i j) (hi : r.submissions[i]? = some s)
    (hj : r.submissions[j]? = some s') : s.outcome = s'.outcome := by
  rcases htwins with ⟨u, t, ht, hwi, hwj⟩ | ⟨o, hci, hcj⟩
  · rw [h.outcome_of_waits ht hwi hi, h.outcome_of_waits ht hwj hj]
  · rw [outcome_of_comes hci hi, outcome_of_comes hcj hj]

/--
Requirements are submitted first, and then nothing more. Once all is done each of them has one
outcome, however often it was submitted, and the terminal outputs back just those that were met.
-/
theorem outcomes_afterCalls (configuration : String) (qs : List Requirement)
    {calls : List (Call σ)} (hsubmits : ∀ x ∈ calls, x.submits = [])
    (hr : afterCalls c maxDepth { graph := { configuration } } (qs.map .add ++ calls) = r)
    (hdone : r.Done) :
    r.outcomes = qs.map (fun q => (q, r.outcomeOf q)) ∧ (∀ q ∈ qs, (r.outcomeOf q).isSome) ∧
      ∀ q v, q ∈ r.graph.backing.setAt v ↔ r.outcomeOf q = some (.ok v) := by
  let r₀ := afterCalls c maxDepth { graph := { configuration } } (qs.map .add)
  have hsteady := steady_initial (Graph.sound_empty configuration)
  have hr₀ : r₀.requirements = qs := by
    have hadds : (qs.map .add : List (Call σ)).flatMap (·.submits) = qs := by
      simp [List.flatMap_map, Call.submits]
    exact (requirements_afterCalls hsteady _).trans hadds
  obtain ⟨⟨hsteady₀, haddressed₀⟩, -⟩ := (kept_twins c maxDepth fun _ _ => False).afterCalls
    ⟨⟨hsteady, addressed_initial⟩, nofun⟩ (qs.map .add)
  have henrolled : r₀.Enrolled := (enrolled_empty configuration).adds c qs
  -- The submissions are the same after the last of them was made, and twins are told alike.
  have hafter : afterCalls c maxDepth r₀ calls = r := by
    rw [← hr]
    exact List.foldl_append.symm
  have hrequirements : r.requirements = qs := by
    rw [← hafter, requirements_afterCalls hsteady₀, hr₀, List.flatMap_eq_nil_iff.2 hsubmits,
      List.append_nil]
  obtain ⟨⟨hsteady', -⟩, htwins⟩ := (kept_twins c maxDepth fun i j =>
    (⟨r₀, .idle⟩ : Moment).Twins i j).afterCalls ⟨⟨hsteady₀, haddressed₀⟩, fun _ _ h => h⟩ calls
  have hbacked : r.Backed { configuration } := hr ▸
    ((kept_backed c maxDepth { configuration }).afterCalls ⟨hsteady, backed_initial _⟩ _).2
  have hbacked : ∀ q v, q ∈ r.graph.backing.setAt v ↔ r.Met q v := fun q v =>
    (hbacked q v).trans (or_iff_right SortedSet.not_mem_empty)
  rw [hafter] at hsteady' htwins
  have huniform : r.Uniform := by
    intro i j s s' hi hj hq
    have hget : ∀ (k : Nat) x, r.submissions[k]? = some x →
        ∃ x₀, r₀.submissions[k]? = some x₀ ∧ x₀.requirement = x.requirement := by
      intro k x hk
      have hx : r.requirements[k]? = some x.requirement := by
        simp [requirements, hk]
      rw [hrequirements, ← hr₀] at hx
      simpa [requirements] using hx
    obtain ⟨s₀, hi₀, hs₀⟩ := hget i s hi
    obtain ⟨s₀', hj₀, hs₀'⟩ := hget j s' hj
    exact outcome_eq_of_twins hsteady'.awaited
      (htwins i j (henrolled.twins hi₀ hj₀ (by rw [hs₀, hs₀', hq]))) hi hj
  refine ⟨?_, fun q hq => ?_, fun q v => (hbacked q v).trans huniform.met_iff⟩
  · rw [huniform.outcomes_eq, hrequirements]
  · exact hdone.isSome_outcomeOf (hrequirements ▸ hq)

end Calls

end Resolution

end ValueGraph
