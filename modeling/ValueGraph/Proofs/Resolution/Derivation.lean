import ValueGraph.Proofs.Resolution.Growth
import ValueGraph.Proofs.Resolution.Recursion

namespace ValueGraph

namespace Oracle

/-- What comes into the graph as the requirement is met. -/
inductive Brings (o : Oracle) (p : Policy) (q : Requirement) : ValueSpec → Prop
  | source {t v} (ht : o.target q.target = .resolved t) (hm : o.market t q = .available v) :
    Brings o p q v
  | relabelled {t v} (ht : o.target q.target = .resolved t) (hm : o.market t q = .available v) :
    Brings o p q { name := q.name, target := t.target, properties := p.reconcile q v }
  | computed {t x v} (ht : o.target q.target = .resolved t) (hm : o.market t q = .notAvailable)
    (hx : x ∈ o.functions q.name t q.constraints) (hs : q.satisfiedBy t.target x.output)
    (hi : ∀ p ∈ x.inputs, o.Derivable p) (hv : v = x.output ∨ v ∈ x.extra) : Brings o p q v

/-- Is the requirement submitted, or needed for one that is, at some remove? -/
def Demands (o : Oracle) (qs : List Requirement) (q : Requirement) : Prop :=
  ∃ p ∈ qs, ∃ n, o.Reaches p n q

/-- Can each demand be met by itself that a value would meet which is brought for another? -/
def SelfReliant (o : Oracle) (p : Policy) (qs : List Requirement) : Prop :=
  ∀ q q' t v, o.Demands qs q → o.Demands qs q' → o.target q.target = .resolved t →
    o.Brings p q' v → q.satisfiedBy t.target v → o.Derivable q

variable {o : Oracle} {p : Policy} {qs qs' : List Requirement} {q : Requirement}

theorem Demands.mono (h : o.Demands qs q) (hqs : qs ⊆ qs') : o.Demands qs' q := by
  obtain ⟨p, hp, hreach⟩ := h
  exact ⟨p, hqs hp, hreach⟩

theorem SelfReliant.anti (h : o.SelfReliant p qs') (hqs : qs ⊆ qs') : o.SelfReliant p qs :=
  fun q q' t v hq hq' => h q q' t v (hq.mono hqs) (hq'.mono hqs)

end Oracle

section Tasks

variable {σ : Type} {c : Collaborators σ} {o : Oracle} {B : Prop} {g : Graph} {t : Task} {n : Node}
  {v : ValueSpec}

theorem Adds.brings (h : Adds c g t n) (hc : c.Follows o)
    (ht : t.phase.Informed o B t.requirement)
    (hi : ∀ s a, t.phase = .resolveInputs s a → a.outstanding = 0 →
      ∀ p ∈ a.candidate.inputs, o.Derivable p)
    (hv : v ∈ n.outputs) : o.Brings c.policy t.requirement v := by
  have havailable : ∀ {s : Search} {w v},
      (c.market s.target t.requirement w).1 = .available v →
      o.market s.target t.requirement = .available v := by
    intro s w v ha
    rw [← hc.market _ _ w (by rw [ha]; exact nofun), ha]
  cases h with
  | source hp ha =>
    rw [hp] at ht
    rcases SortedSet.mem_insert.1 hv with rfl | hv
    · exact .source ht.1.target (havailable ha)
    · exact absurd hv SortedSet.not_mem_empty
  | relabel hp ha =>
    rw [hp] at ht
    rcases SortedSet.mem_insert.1 hv with rfl | hv
    · exact .relabelled ht.1.target (havailable ha)
    · exact absurd hv SortedSet.not_mem_empty
  | @commit s a hp ho =>
    have hinputs := hi s a hp ho
    rw [hp] at ht
    obtain ⟨hs, hm, -, hx, hsat⟩ := ht
    refine .computed hs.target hm hx hsat hinputs ?_
    exact (List.mem_cons.1 (SortedSet.mem_ofList.1 hv)).imp_right fun hv => (List.mem_filter.1 hv).1

theorem Ends.derivable (h : Ends c g t (.ok v)) (hc : c.Follows o) (hg : g.Indexed)
    (ht : t.phase.Informed o B t.requirement)
    (hmeets : ∀ target, o.target t.requirement.target = .resolved target →
      (g.producer? v).isSome → t.requirement.satisfiedBy target.target v →
      o.Derivable t.requirement) : o.Derivable t.requirement := by
  have hproduced := h.produced hg
  have havailable : ∀ {s : Search} {w v}, o.target t.requirement.target = .resolved s.target →
      (c.market s.target t.requirement w).1 = .available v → o.Derivable t.requirement := by
    intro s w v htarget ha
    refine .available htarget (v := v) ?_
    rw [← hc.market _ _ w (by rw [ha]; exact nofun), ha]
  cases h with
  | reuse hp hf =>
    rw [hp] at ht
    obtain ⟨⟨-, hn, hv, hs⟩, -⟩ := hg.find?_eq_some_iff.1 hf
    exact hmeets _ ht.1.target hproduced (by simp [Requirement.satisfiedBy, hn, hv, hs])
  | source hp ha | relabel hp ha =>
    rw [hp] at ht
    exact havailable ht.1.target ha
  | present hp hx hq =>
    rw [hp] at ht
    exact hmeets _ ht.1.target hproduced hq
  | committed hp =>
    rw [hp] at ht
    exact hmeets _ ht.1.target hproduced ht.2.2.2.2

end Tasks

section Changes

variable {σ : Type} {c : Collaborators σ} {maxDepth : Nat} {o : Oracle} {m m' : Moment}

/-- Was all that there is brought for a demand, and is all that was resolved derivable? -/
structure Sustained (o : Oracle) (p : Policy) (m : Moment) : Prop where
  brought : ∀ v, (m.resolution.graph.producer? v).isSome →
    ∃ q, o.Demands m.resolution.requirements q ∧ o.Brings p q v
  derivable : ∀ q v, m.resolution.Resolved q v → o.Derivable q

theorem Change.sustained (hc : Change c maxDepth m m') (ho : c.Follows o)
    (hgenuine : Genuine o maxDepth m)
    (hreliant : o.SelfReliant c.policy m.resolution.requirements)
    (h : Sustained o c.policy m) : Sustained o c.policy m' := by
  have hdemands : ∀ (id : TaskId) t, m.resolution.tasks[id]? = some t →
      o.Demands m.resolution.requirements t.requirement := by
    intro id t ht
    obtain ⟨q, hq, hreach⟩ := hgenuine.descends.chain id t ht
    exact ⟨q, hq, _, hreach⟩
  have hbrought : ∀ v, (m.resolution.graph.producer? v).isSome →
      ∃ q, o.Demands m'.resolution.requirements q ∧ o.Brings c.policy q v := by
    intro v hv
    obtain ⟨q, hq, hb⟩ := h.brought v hv
    exact ⟨q, hq.mono hc.requirements_prefix.subset, hb⟩
  refine ⟨fun v hv => ?_, fun q v hq => ?_⟩
  · rcases hc.graph_cases with ⟨id, t, n, i, hturn, ht, hadds, hg⟩ | ⟨q, s, hg⟩ | hg
    · obtain ⟨he, -⟩ := Graph.link_of_add hg
      rw [he, Graph.producer?_link] at hv
      split at hv
      next hmem =>
        refine ⟨t.requirement, (hdemands id t ht).mono hc.requirements_prefix.subset,
          hadds.brings ho (hgenuine.candid.tasks id t ht) (fun s a hp hfull p hp' => ?_) hmem⟩
        -- The candidate has its inputs, each of which was resolved.
        have hall := Resolution.forall₂_resolved hgenuine.steady.wired hgenuine.steady.awaited
          (by rw [hturn]; exact nofun) ht hp hfull
        obtain ⟨j, hj, rfl⟩ := List.getElem_of_mem hp'
        exact h.derivable _ _ ((List.forall₂_iff_get.1 hall).2 j hj (hall.length_eq ▸ hj))
      next => exact hbrought v hv
    · rw [Graph.producer?_of_mark hg] at hv
      exact hbrought v hv
    · rw [hg] at hv
      exact hbrought v hv
  · rcases hc.resolved_before hq with hq | ⟨id, t, ht, rfl, he⟩
    · exact h.derivable q v hq
    · refine he.derivable ho hgenuine.steady.grounded.sound.indexed (hgenuine.candid.tasks id t ht)
        fun target htarget hv hsat => ?_
      obtain ⟨q', hq', hb⟩ := h.brought v hv
      exact hreliant _ q' target v (hdemands id t ht) hq' htarget hb hsat

end Changes

namespace Resolution

section Calls

variable {σ : Type} {c : Collaborators σ} {maxDepth : Nat} {o : Oracle}

theorem kept_sustained (ho : c.Follows o) (hr : c.Recalls o) :
    Kept (Calm c maxDepth) fun m => Genuine o maxDepth m ∧ Recorded m ∧
      (o.SelfReliant c.policy m.resolution.requirements → Sustained o c.policy m) where
  change hcalm h := by
    obtain ⟨hgenuine, hrecorded, hsustained⟩ := h
    refine ⟨hcalm.genuine ho hr hgenuine,
      hcalm.change.recorded hgenuine.steady.claimed hgenuine.addressed hrecorded,
      fun hreliant => ?_⟩
    have hreliant := hreliant.anti hcalm.change.requirements_prefix.subset
    exact hcalm.change.sustained ho hgenuine hreliant (hsustained hreliant)
  sound h := (kept_genuine c maxDepth ho hr).sound h.1

/-- What becomes of requirements that are submitted, in that order, before anything is resolved. -/
def resolveAll (c : Collaborators σ) (maxDepth : Nat) (configuration : String)
    (qs : List Requirement) (w : σ) : Resolution :=
  afterCalls c maxDepth { graph := { configuration } } (qs.map .add ++ [.pump (false, ·) w])

variable (c maxDepth) (configuration : String) (qs : List Requirement) (w : σ) {q : Requirement}

theorem requirements_resolveAll : (resolveAll c maxDepth configuration qs w).requirements = qs := by
  have hadds : (qs.map .add ++ [.pump (false, ·) w] : List (Call σ)).flatMap (·.submits) = qs := by
    simp [List.flatMap_map, Call.submits]
  exact (requirements_afterCalls (steady_initial (Graph.sound_empty configuration)) _).trans hadds

variable {c qs w}

theorem isSome_outcomeOf_resolveAll {P : σ → Prop} (hp : c.Prompt P) (hw : P w) (hq : q ∈ qs) :
    ((resolveAll c maxDepth configuration qs w).outcomeOf q).isSome := by
  let r := afterCalls c maxDepth { graph := { configuration } } (qs.map .add)
  have hsteady : Steady ⟨r, .idle⟩ :=
    steady_afterCalls c maxDepth (Graph.sound_empty configuration) _
  have hpump : resolveAll c maxDepth configuration qs w =
      (r.pump c maxDepth (false, ·) w).1.2 := by
    unfold resolveAll afterCalls
    rw [List.foldl_append]
    show (r.pumped c maxDepth (false, ·) w).2 = _
    unfold pumped
    split
    next hx => rw [hx]
    next hx => rw [hx]
  obtain ⟨-, -, hdone⟩ := pump_prompt maxDepth hp hw hsteady (suspended_adds qs)
  rw [← hpump] at hdone
  rw [← requirements_resolveAll c maxDepth configuration qs w] at hq
  exact hdone.isSome_outcomeOf hq

variable (ho : c.Follows o) (hr : c.Recalls o)
include ho hr

theorem genuine_resolveAll (qs : List Requirement) (w : σ) :
    let r := resolveAll c maxDepth configuration qs w
    Genuine o maxDepth ⟨r, .idle⟩ ∧ Recorded ⟨r, .idle⟩ ∧
      (o.SelfReliant c.policy r.requirements → Sustained o c.policy ⟨r, .idle⟩) := by
  refine (kept_sustained ho hr).calm_afterCalls ⟨genuine_initial maxDepth
    (Graph.sound_empty configuration), recorded_initial, fun _ => ⟨fun v hv => ?_, nofun⟩⟩ ?_
  · cases hv
  · intro x hx
    rcases List.mem_append.1 hx with hx | hx
    · obtain ⟨q, -, rfl⟩ := List.mem_map.1 hx
      exact id
    · rw [List.mem_singleton.1 hx]
      exact fun ⟨w, hw⟩ => Bool.false_ne_true hw

/-- What is met can be met by itself, where all that is demanded can. -/
theorem derivable_of_outcomeOf (hs : o.SelfReliant c.policy qs) {v : ValueSpec}
    (h : (resolveAll c maxDepth configuration qs w).outcomeOf q = some (.ok v)) :
    o.Derivable q := by
  obtain ⟨-, hrecorded, hsustained⟩ := genuine_resolveAll maxDepth configuration ho hr qs w
  rw [requirements_resolveAll] at hsustained
  exact (hsustained hs).derivable q v (hrecorded.resolved (met_of_outcomeOf h))

/-- What can be met by itself is met, if recursion does not get in the way. -/
theorem exists_outcomeOf_of_derivable {P : σ → Prop} (hp : c.Prompt P) (hw : P w) (hq : q ∈ qs)
    (hd : o.Derivable q) :
    ∃ out, (resolveAll c maxDepth configuration qs w).outcomeOf q = some out ∧
      (∀ f, out = .error f → f.involvesRecursion = true) ∧
      (o.Shallow maxDepth qs → ∃ v, out = .ok v) := by
  obtain ⟨hgenuine, -, -⟩ := genuine_resolveAll maxDepth configuration ho hr qs w
  have hrequirements : (resolveAll c maxDepth configuration qs w).requirements = qs :=
    requirements_resolveAll c maxDepth configuration qs w
  obtain ⟨out, hout⟩ := Option.isSome_iff_exists.1
    (isSome_outcomeOf_resolveAll maxDepth configuration hp hw hq)
  have hexplains : ∀ f, out = .error f → o.Explains (o.Shallow maxDepth qs) q f := by
    rintro f rfl
    obtain ⟨i, s, hi, rfl, hs⟩ := exists_outcomeOf (hrequirements ▸ hq)
    have hf := hgenuine.candid.outcomes i s f hi (hs.symm.trans hout)
    rwa [hrequirements] at hf
  refine ⟨out, hout, fun f hf => (hexplains f hf).derivable hd, fun hb => ?_⟩
  cases out with
  | ok v => exact ⟨v, rfl⟩
  | error f =>
    have hno := (hexplains f rfl).bounded hb
    rw [(hexplains f rfl).derivable hd] at hno
    cases hno

/-- Where recursion cannot get in the way either, just that is met which can be met by itself. -/
theorem met_iff_derivable {P : σ → Prop} (hp : c.Prompt P) (hw : P w)
    (hs : o.SelfReliant c.policy qs) (hb : o.Shallow maxDepth qs) (hq : q ∈ qs) :
    (∃ v, (resolveAll c maxDepth configuration qs w).outcomeOf q = some (.ok v)) ↔
      o.Derivable q := by
  refine ⟨fun ⟨v, hv⟩ => derivable_of_outcomeOf maxDepth configuration ho hr hs hv, fun hd => ?_⟩
  obtain ⟨out, hout, -, hok⟩ :=
    exists_outcomeOf_of_derivable maxDepth configuration ho hr hp hw hq hd
  obtain ⟨v, rfl⟩ := hok hb
  exact ⟨v, hout⟩

end Calls

end Resolution

end ValueGraph
