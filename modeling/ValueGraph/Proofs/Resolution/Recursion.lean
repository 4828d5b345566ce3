import ValueGraph.Proofs.Resolution.Explanation
import ValueGraph.Proofs.Resolution.Soundness

namespace ValueGraph

variable {σ : Type} {c : Collaborators σ} {maxDepth : Nat} {o : Oracle} {B : Prop} {m m' : Moment}

section Descends

/-- Does each task lie at its depth under a submitted requirement, and wait for its needs only? -/
structure Descends (o : Oracle) (m : Moment) : Prop where
  chain : ∀ (u : TaskId) t, m.resolution.tasks[u]? = some t →
    ∃ q ∈ m.resolution.requirements, o.Reaches q t.depth t.requirement
  waits : ∀ u x, m.resolution.WaitsFor u x → ∃ t tx, m.resolution.tasks[u]? = some t ∧
    m.resolution.tasks[x]? = some tx ∧ o.Needs t.requirement tx.requirement

theorem Candid.needs (h : Candid o B m) {q : Requirement} {u : TaskId} {slot generation d : Nat}
    (hx : m.Requests m' q (.input u slot generation) d) :
    ∃ t, m.resolution.tasks[u]? = some t ∧ o.Needs t.requirement q ∧ d = t.depth + 1 := by
  cases hx with
  | @input id t s a q hm ht hp hq =>
    have hi := h.tasks u t ht
    rw [hp] at hi
    exact ⟨t, ht, hi.needs (List.mem_of_getElem? hq), rfl⟩

theorem Change.descends (hc : Change c maxDepth m m') (hclaimed : m.resolution.Claimed)
    (hcandid : Candid o B m) (h : Descends o m) : Descends o m' := by
  have hmem : ∀ q ∈ m.resolution.requirements, q ∈ m'.resolution.requirements := fun q hq =>
    hc.requirements_prefix.subset hq
  refine ⟨fun u t' ht' => ?_, fun u x hux => ?_⟩
  · rcases (hc.taskChange hclaimed).origin ht' with ⟨t, ht, hcont⟩ | ⟨-, w, hx, -⟩
    · obtain ⟨q, hq, hreach⟩ := h.chain u t ht
      rw [hcont.requirement, hcont.depth]
      exact ⟨q, hmem q hq, hreach⟩
    · cases w with
      | submission i =>
        generalize hd : t'.depth = d at hx
        cases hx with
        | submission hm hr =>
          refine ⟨t'.requirement, ?_, .refl⟩
          rw [hr]
          exact List.mem_append_right _ (List.mem_singleton_self _)
      | input id slot generation =>
        obtain ⟨t, ht, hneeds, hd⟩ := hcandid.needs hx
        obtain ⟨q, hq, hreach⟩ := h.chain id t ht
        rw [hd]
        exact ⟨q, hmem q hq, hreach.step hneeds⟩
  · obtain ⟨t', ht', hx⟩ := Resolution.waitsFor_iff.1 hux
    rcases (hc.taskChange hclaimed).origin ht' with ⟨t, ht, hcont⟩ | ⟨-, w, -, -, hnone⟩
    · rcases hcont.waitingOn x hx with hx | ⟨q, slot, tx, hr, htx, rfl⟩
      · obtain ⟨t₀, tx, ht₀, htx, hneeds⟩ := h.waits u x (Resolution.waitsFor_iff.2 ⟨t, ht, hx⟩)
        rw [ht] at ht₀
        cases ht₀
        obtain ⟨tx', htx', hq⟩ := hc.exists_task hclaimed htx
        exact ⟨t', tx', ht', htx', by rw [hcont.requirement, hq]; exact hneeds⟩
      · obtain ⟨t₀, ht₀, hneeds, -⟩ := hcandid.needs hr
        rw [ht] at ht₀
        cases ht₀
        exact ⟨t', tx, ht', htx, by rw [hcont.requirement]; exact hneeds⟩
    · rw [hnone] at hx
      exact absurd hx SortedSet.not_mem_empty

/-- Whom a task waits for is at work on what its requirement needs, at some remove. -/
theorem Descends.reaches (h : Descends o m) {u x : TaskId} {t : Task}
    (ht : m.resolution.tasks[u]? = some t)
    (hux : Relation.ReflTransGen m.resolution.WaitsFor u x) :
    ∃ tx n, m.resolution.tasks[x]? = some tx ∧ o.Reaches t.requirement n tx.requirement := by
  induction hux with
  | refl => exact ⟨t, 0, ht, .refl⟩
  | tail _ hxy ih =>
    obtain ⟨tx, n, htx, hreach⟩ := ih
    obtain ⟨tx', ty, htx', hty, hneeds⟩ := h.waits _ _ hxy
    rw [htx] at htx'
    cases htx'
    exact ⟨ty, n + 1, hty, hreach.step hneeds⟩

/-- Where no chain is too long, neither a circle nor the depth stops a request for an input. -/
theorem Descends.clear (h : Descends o m) (hclaimed : m.resolution.Claimed)
    (hcandid : Candid o B m) (hb : ∀ q ∈ m.resolution.requirements, o.Bounded maxDepth q) :
    m.Clear maxDepth := by
  intro id t s a q hm ht hp hq
  have hneeds : o.Needs t.requirement q := by
    have hi := hcandid.tasks id t ht
    rw [hp] at hi
    exact hi.needs (List.mem_of_getElem? hq)
  obtain ⟨q₀, hq₀, hreach⟩ := h.chain id t ht
  refine ⟨hb q₀ hq₀ _ _ (hreach.step hneeds), fun u hu => ?_⟩
  rw [Bool.eq_false_iff]
  intro hcloses
  -- The way back would make the input a need of itself.
  obtain ⟨tu, htu, rfl, -⟩ := (hclaimed q u).1 hu
  obtain ⟨t', n, ht', hback⟩ := h.reaches htu (Resolution.reflTransGen_of_closesCircle hcloses)
  rw [ht] at ht'
  cases ht'
  exact (hb q₀ hq₀).not_reaches (hreach.step hneeds) (hback.step hneeds)

end Descends

section Calls

/-- Is nothing that was submitted at the head of a chain that is too long? -/
def Oracle.Shallow (o : Oracle) (maxDepth : Nat) (qs : List Requirement) : Prop :=
  ∀ q ∈ qs, o.Bounded maxDepth q

/-- All that is known of failures at any moment. -/
structure Genuine (o : Oracle) (maxDepth : Nat) (m : Moment) : Prop where
  steady : Steady m
  addressed : Addressed m
  candid : Candid o (o.Shallow maxDepth m.resolution.requirements) m
  descends : Descends o m

theorem Calm.genuine (hc : Calm c maxDepth m m') (ho : c.Follows o) (hr : c.Recalls o)
    (h : Genuine o maxDepth m) : Genuine o maxDepth m' := by
  have hsteady := (Resolution.kept_steady c maxDepth).change hc.change h.steady
  rcases hc.resume_or_change with ⟨r, rfl, rfl⟩ | ⟨hc, hcalm⟩
  · exact ⟨hsteady, h.addressed, ⟨h.candid.tasks, h.candid.claims, nofun, h.candid.outcomes⟩,
      ⟨h.descends.chain, h.descends.waits⟩⟩
  · have hclaimed := h.steady.claimed
    refine ⟨hsteady, hc.addressed hclaimed h.addressed, ?_,
      hc.descends hclaimed h.candid h.descends⟩
    have hcandid := hc.candid ho hr hcalm hclaimed h.steady.wired h.addressed
      (h.descends.clear hclaimed h.candid) h.candid
    exact hcandid.mono fun hb q hq => hb q (hc.requirements_prefix.subset hq)

namespace Resolution

variable (c maxDepth)

theorem kept_genuine (ho : c.Follows o) (hr : c.Recalls o) :
    Kept (Calm c maxDepth) (Genuine o maxDepth) where
  change hc h := hc.genuine ho hr h
  sound h := (kept_steady c maxDepth).sound h.steady

theorem genuine_initial {g : Graph} (hg : g.Sound) :
    Genuine o maxDepth ⟨{ graph := g }, .idle⟩ := by
  have hnone : ∀ (i : TaskId) t, ({ graph := g } : Resolution).tasks[i]? ≠ some t := by
    intro i t ht
    cases ht
  refine ⟨steady_initial hg, addressed_initial,
    ⟨fun id t ht => ?_, nofun, nofun, fun i s f hs => ?_⟩,
    ⟨fun u t ht => ?_, fun u x hux => ?_⟩⟩
  · exact absurd ht (hnone id t)
  · cases hs
  · exact absurd ht (hnone u t)
  · obtain ⟨t, ht, -⟩ := waitsFor_iff.1 hux
    exact absurd ht (hnone u t)

/--
Where answers depend on the question only, but for lookups that would have to wait, and nothing is
remembered from before or cancelled, what can be met fails for recursion only, and never so that the
failure is remembered. If no chain of inputs from what was submitted is longer than the depth limit,
then no failure has to do with recursion, and what can be met is met if it gets an outcome at all.
-/
theorem genuine_afterCalls (configuration : String) (os : List Graph.Operation)
    {calls : List (Call σ)} (ho : c.Follows o) (hd : c.digests = none)
    (hcalls : ∀ x ∈ calls, ¬ x.Cancels) :
    let r := afterCalls c maxDepth { graph := .after configuration os } calls
    (∀ q f, (q, some (.error f)) ∈ r.outcomes → o.Derivable q → f.involvesRecursion = true) ∧
      (∀ (id : TaskId) t f, r.tasks[id]? = some t → t.phase = .failed f →
        o.Derivable t.requirement → f.involvesRecursion = true) ∧
      (∀ q f, r.claims.get? q = some (.failed f) → ¬ o.Derivable q) ∧
      (o.Shallow maxDepth r.requirements →
        (∀ q f, (q, some (.error f)) ∈ r.outcomes → f.involvesRecursion = false) ∧
        (∀ (id : TaskId) t f, r.tasks[id]? = some t → t.phase = .failed f →
          f.involvesRecursion = false) ∧
        (∀ q f, r.claims.get? q = some (.failed f) → f.involvesRecursion = false) ∧
        ∀ q out, (q, some out) ∈ r.outcomes → o.Derivable q → ∃ v, out = .ok v) := by
  intro r
  have hr : Genuine o maxDepth ⟨r, .idle⟩ := (kept_genuine c maxDepth ho
    (Collaborators.recalls_of_digests_eq_none hd)).calm_afterCalls
    (genuine_initial maxDepth (Graph.sound_after configuration os)) hcalls
  have houtcomes : ∀ q f, (q, some (.error f)) ∈ r.outcomes →
      o.Explains (o.Shallow maxDepth r.requirements) q f := by
    intro q f hq
    obtain ⟨s, hs, he⟩ := List.mem_map.1 hq
    obtain ⟨rfl, hf⟩ := Prod.ext_iff.1 he
    obtain ⟨i, hi⟩ := List.mem_iff_getElem?.1 hs
    exact hr.candid.outcomes i s f (by simpa using hi) hf
  have htasks : ∀ (id : TaskId) t f, r.tasks[id]? = some t → t.phase = .failed f →
      o.Explains (o.Shallow maxDepth r.requirements) t.requirement f := by
    intro id t f ht hf
    have hi := hr.candid.tasks id t ht
    rw [hf] at hi
    exact hi
  refine ⟨fun q f hq => (houtcomes q f hq).derivable,
    fun id t f ht hf => (htasks id t f ht hf).derivable, fun q f hq => (hr.candid.claims q f hq).1,
    fun hb => ⟨fun q f hq => (houtcomes q f hq).bounded hb,
      fun id t f ht hf => (htasks id t f ht hf).bounded hb,
      fun q f hq => (hr.candid.claims q f hq).2, fun q out hq hderivable => ?_⟩⟩
  cases out with
  | ok v => exact ⟨v, rfl⟩
  | error f =>
    have hf := houtcomes q f hq
    have hno := hf.bounded hb
    rw [hf.derivable hderivable] at hno
    cases hno

section Example

def price : Requirement := ⟨"Price", bond, ∅⟩

def quote : Requirement := ⟨"Quote", bond, ∅⟩

def waiting : List (Call World) :=
  [.add price, .round (fun w => (false, w)) {},
    .round (fun w => (false, w)) { marketDelays := { general := .forever } }, .resume] ++
  List.replicate 9 (.round (fun w => (false, w)) {})

theorem needs_quoted {q p : Requirement} (h : quoted.oracle.Needs q p) :
    q.name = "Price" ∧ p = quote := by
  obtain ⟨t, x, -, hx, hp⟩ := h
  have hx : x ∈ ((SortedMap.insert ∅ "Price" _).get? q.name).getD [] := hx
  rw [SortedMap.get?_insert] at hx
  split at hx
  next hq =>
    rw [Option.getD_some, List.mem_singleton] at hx
    subst hx
    exact ⟨hq.symm, List.mem_singleton.1 hp⟩
  next => cases hx

theorem reaches_quoted {q p : Requirement} {n : Nat} (h : quoted.oracle.Reaches q n p) :
    n = 0 ∧ p = q ∨ n = 1 ∧ p = quote := by
  induction h with
  | refl => exact .inl ⟨rfl, rfl⟩
  | @step n p p' _ hn ih =>
    obtain ⟨hname, rfl⟩ := needs_quoted hn
    rcases ih with ⟨rfl, -⟩ | ⟨-, rfl⟩
    · exact .inr ⟨rfl, rfl⟩
    · exact absurd hname (by decide)

theorem bounded_quoted (q : Requirement) : quoted.oracle.Bounded 1 q := by
  intro n p h
  rcases reaches_quoted h with ⟨rfl, -⟩ | ⟨rfl, -⟩
  · exact Nat.zero_le 1
  · exact Nat.le_refl 1

theorem derivable_quoted : quoted.oracle.Derivable price := by
  refine .computed (t := { target := bond }) rfl rfl List.mem_cons_self rfl fun p hp => ?_
  rw [List.mem_singleton.1 hp]
  exact .available (t := { target := bond }) rfl rfl

theorem outcomes_waiting : ∃ out, (afterCalls quoted.collaborators 1
    { graph := .after "Default" [] } waiting).outcomes = [(price, some out)] := ⟨_, rfl⟩

theorem genuine_afterCalls_waiting :
    let c := quoted.collaborators
    let r := afterCalls c 1 { graph := .after "Default" [] } waiting
    c.Follows quoted.oracle ∧ c.digests = none ∧ (∀ x ∈ waiting, ¬ x.Cancels) ∧
      quoted.oracle.Shallow 1 r.requirements ∧ quoted.oracle.Derivable price ∧
      ∃ v, (price, some (.ok v)) ∈ r.outcomes := by
  intro c r
  have hcalls : ∀ x ∈ waiting, ¬ x.Cancels := by
    simp [waiting, Call.Cancels]
  obtain ⟨out, houtcomes⟩ := outcomes_waiting
  have hshallow : quoted.oracle.Shallow 1 r.requirements := fun q _ => bounded_quoted q
  obtain ⟨-, -, -, hmet⟩ := genuine_afterCalls c 1 "Default" [] quoted.follows_oracle rfl hcalls
  have hout : (price, some out) ∈ r.outcomes := by
    rw [houtcomes]
    exact List.mem_cons_self
  obtain ⟨v, rfl⟩ := (hmet hshallow).2.2.2 price out hout derivable_quoted
  exact ⟨quoted.follows_oracle, rfl, hcalls, hshallow, derivable_quoted, v, hout⟩

end Example

end Resolution

end Calls

end ValueGraph
