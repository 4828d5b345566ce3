import ValueGraph.Proofs.Compile.Build
import ValueGraph.Proofs.Resolution.SingleFlight
import ValueGraph.Proofs.Resolution.Siblings

namespace ValueGraph.Resolution

variable {σ : Type} {c : Collaborators σ} {maxDepth : Nat} {r : Resolution} {q : Requirement}
  {v : ValueSpec}

section Order

/-- Does each submission fare as the next one of its requirement, unless it failed in passing? -/
def Ranked (r : Resolution) : Prop :=
  ∀ (j i : Nat) s s', j < i → r.submissions[j]? = some s → r.submissions[i]? = some s' →
    s.requirement = s'.requirement →
      (∃ f, s.outcome = some (.error f) ∧ f.Passing) ∨ (⟨r, .idle⟩ : Moment).Twins j i

theorem ranked_initial {g : Graph} : ({ graph := g } : Resolution).Ranked := by
  intro j i s s' _ hj
  cases hj

theorem Ranked.call (hr : r.Ranked) (h : InFlight ⟨r, .idle⟩) (x : Call σ) :
    (r.call c maxDepth x).2.Ranked := by
  intro j i s s' hji hj hi hq
  have hsettles : r.Settles (r.call c maxDepth x).2 := h.settles [x]
  have hpassing : ∀ s₀, r.submissions[j]? = some s₀ →
      (∃ f, s₀.outcome = some (.error f) ∧ f.Passing) →
      ∃ f, s.outcome = some (.error f) ∧ f.Passing := by
    rintro s₀ hs₀ ⟨f, hf, hp⟩
    have hkept := hsettles.outcomes j s₀ hs₀ (by rw [hf]; rfl)
    cases hj.symm.trans hkept
    exact ⟨f, hf, hp⟩
  by_cases hlt : i < r.submissions.size
  · obtain ⟨s₀, hs₀, hq₀⟩ := exists_before c maxDepth h.steady [x] (hji.trans hlt) hj
    obtain ⟨s₀', hs₀', hq₀'⟩ := exists_before c maxDepth h.steady [x] hlt hi
    rcases hr j i s₀ s₀' hji hs₀ hs₀' (by rw [hq₀, hq, hq₀']) with hf | htwins
    · exact .inl (hpassing s₀ hs₀ hf)
    · refine .inr (((kept_twins c maxDepth fun j' i' => j' = j ∧ i' = i).call
        ⟨⟨h.steady, h.addressed⟩, ?_⟩ x).2.2 j i ⟨rfl, rfl⟩)
      rintro j' i' ⟨rfl, rfl⟩
      exact htwins
  · -- The later one is the one that is submitted now.
    have hsize : (r.call c maxDepth x).2.submissions.size =
        r.submissions.size + x.submits.length := by
      have hrequirements : (r.call c maxDepth x).2.requirements = r.requirements ++ x.submits :=
        requirements_call h.steady x
      simpa [requirements] using congrArg List.length hrequirements
    have hi' : i < (r.call c maxDepth x).2.submissions.size := (Array.getElem?_eq_some_iff.1 hi).1
    rw [hsize] at hi'
    cases x with
    | add q =>
      obtain rfl : i = r.submissions.size :=
        Nat.le_antisymm (Nat.le_of_lt_succ hi') (Nat.le_of_not_lt hlt)
      obtain ⟨s₁, hs₁, rfl⟩ := exists_added maxDepth r q
      cases hi.symm.trans hs₁
      obtain ⟨s₀, hs₀, hq₀⟩ := exists_before c maxDepth h.steady [.add s'.requirement] hji hj
      by_cases hf : ∃ f, s₀.outcome = some (.error f) ∧ f.Passing
      · exact .inl (hpassing s₀ hs₀ hf)
      · have htwins :
            (⟨(r.add maxDepth s₀.requirement).2, .idle⟩ : Moment).Twins j r.submissions.size :=
          twins_add h hs₀ fun f ho hp => hf ⟨f, ho, hp⟩
        rw [hq₀, hq] at htwins
        exact .inr htwins
    | round | pump | resume | cancel => exact absurd hi' hlt

theorem ranked_afterCalls (hr : r.Ranked) (h : InFlight ⟨r, .idle⟩) (calls : List (Call σ)) :
    (r.afterCalls c maxDepth calls).Ranked := by
  induction calls generalizing r with
  | nil => exact hr
  | cons x calls ih => exact ih (hr.call h x) ((kept_inFlight c maxDepth).call h x).2

end Order

section Outcomes

def outcomesOf (r : Resolution) (q : Requirement) : List (Option Outcome) :=
  (r.submissions.toList.filter (·.requirement = q)).map (·.outcome)

theorem outcomeOf_eq_head? : r.outcomeOf q = (r.outcomesOf q).head?.bind id := by
  unfold outcomeOf outcomesOf
  rw [List.head?_map, List.head?_filter]
  cases r.submissions.toList.find? (·.requirement = q) <;> rfl

theorem mem_outcomesOf {o : Option Outcome} : o ∈ r.outcomesOf q ↔ (q, o) ∈ r.outcomes := by
  unfold outcomesOf outcomes
  simp only [List.mem_map, List.mem_filter, Prod.mk.injEq, decide_eq_true_eq]
  exact exists_congr fun s => ⟨fun h => ⟨h.1.1, h.1.2, h.2⟩, fun h => ⟨⟨h.1, h.2.1⟩, h.2.2⟩⟩

theorem Ranked.pairwise (h : r.Ranked) (hw : Awaited ⟨r, .idle⟩) (q : Requirement) :
    (r.outcomesOf q).Pairwise fun o o' =>
      (∃ f, o = some (.error f) ∧ f.Passing) ∨ o = o' := by
  have hall : r.submissions.toList.Pairwise fun s s' => s.requirement = s'.requirement →
      (∃ f, s.outcome = some (.error f) ∧ f.Passing) ∨ s.outcome = s'.outcome := by
    rw [List.pairwise_iff_getElem]
    intro j i hj hi hji hq
    have hget : ∀ (k : Nat) (hk : k < r.submissions.toList.length),
        r.submissions[k]? = some r.submissions.toList[k] := by
      intro k hk
      simp
    exact (h j i _ _ hji (hget j hj) (hget i hi) hq).imp_right fun htwins =>
      outcome_eq_of_twins hw htwins (hget j hj) (hget i hi)
  unfold outcomesOf
  rw [List.pairwise_map]
  refine (hall.filter _).imp_of_mem fun hs hs' hss' => hss' ?_
  rw [of_decide_eq_true (List.mem_filter.1 hs).2, of_decide_eq_true (List.mem_filter.1 hs').2]

theorem exists_eq_append_of_pairwise {l : List (Option Outcome)}
    (h : l.Pairwise fun o o' => (∃ f, o = some (.error f) ∧ f.Passing) ∨ o = o')
    (hv : some (.ok v) ∈ l) : ∃ (fs : List Failure) (n : Nat), (∀ f ∈ fs, f.Passing) ∧
      l = fs.map (fun f => some (.error f)) ++ List.replicate (n + 1) (some (.ok v)) := by
  induction l with
  | nil => cases hv
  | cons o l ih =>
    obtain ⟨ho, hl⟩ := List.pairwise_cons.1 h
    by_cases hov : o = some (.ok v)
    · subst hov
      have hall : l = List.replicate l.length (some (.ok v)) := by
        refine List.eq_replicate_of_mem fun o' ho' => ?_
        rcases ho o' ho' with ⟨f, hf, -⟩ | he
        · cases hf
        · exact he.symm
      refine ⟨[], l.length, nofun, ?_⟩
      rw [List.replicate_succ, ← hall]
      rfl
    · have hmem : some (.ok v) ∈ l := (List.mem_cons.1 hv).resolve_left (Ne.symm hov)
      obtain ⟨f, rfl, hf⟩ := (ho _ hmem).resolve_right hov
      obtain ⟨fs, n, hfs, rfl⟩ := ih hl hmem
      exact ⟨f :: fs, n, List.forall_mem_cons.2 ⟨hf, hfs⟩, rfl⟩

end Outcomes

section Backing

/--
Where a requirement backs an output, and did not do so to begin with, it backs no other. Some of its
submissions may have failed in passing; all that came after them were met by that output. Only such
failures are in the report, and the first of them is what the requirement is said to have come to.
-/
theorem outcomeOf_of_backing (configuration : String) (os : List Graph.Operation)
    (calls : List (Call σ)) (q : Requirement) (v : ValueSpec) :
    let g := Graph.after configuration os
    let r := afterCalls c maxDepth { graph := g } calls
    (∀ v, q ∉ g.backing.setAt v) → q ∈ r.graph.backing.setAt v →
      (∀ v', q ∈ r.graph.backing.setAt v' → v' = v) ∧
      ∃ fs : List Failure, (∀ f ∈ fs, f.Passing) ∧
        (∃ n, r.outcomesOf q =
          fs.map (fun f => some (.error f)) ++ List.replicate (n + 1) (some (.ok v))) ∧
        r.outcomeOf q = (fs.map Except.error ++ [Except.ok v]).head? ∧
        ∀ b : Build, b.resolution = r → ∀ f, (q, f) ∈ b.report.failures ↔ f ∈ fs := by
  intro g r hg hv
  have hinitial := inFlight_initial (Graph.sound_after configuration os)
  have h : InFlight ⟨r, .idle⟩ := (kept_inFlight c maxDepth).afterCalls hinitial calls
  have hbacked : r.Backed g :=
    ((kept_backed c maxDepth g).afterCalls ⟨hinitial.steady, backed_initial g⟩ calls).2
  have hmet : ∀ v', q ∈ r.graph.backing.setAt v' → r.Met q v' := fun v' hv' =>
    ((hbacked q v').1 hv').resolve_left (hg v')
  refine ⟨fun v' hv' => ?_, ?_⟩
  · have hresolved : r.claims.get? q = some (.resolved v) := h.recorded.resolved (hmet v hv)
    cases hresolved.symm.trans (h.recorded.resolved (hmet v' hv'))
    rfl
  · obtain ⟨i, s, hs, rfl, ho⟩ := hmet v hv
    have hmem : some (.ok v) ∈ r.outcomesOf s.requirement := by
      rw [mem_outcomesOf, ← ho]
      exact List.mem_map_of_mem (Array.mem_toList_iff.2 (Array.mem_of_getElem? hs))
    obtain ⟨fs, n, hfs, hall⟩ := exists_eq_append_of_pairwise
      ((ranked_afterCalls ranked_initial hinitial calls).pairwise h.steady.awaited _) hmem
    refine ⟨fs, hfs, ⟨n, hall⟩, ?_, fun b hb f => ?_⟩
    · rw [outcomeOf_eq_head?, hall]
      cases fs <;> rfl
    · rw [Build.failures_report, mem_failuresAmong, hb, ← mem_outcomesOf, hall]
      simp [List.mem_replicate]

end Backing

section Example

/--
The curve is asked for before the price, of which it is made by preference. The price fails for that
reason, and is asked for once more when the curve is there.
-/
def retried : Resolution :=
  afterCalls circular.collaborators 16 { graph := Graph.after "Default" [] }
    [.add curve, .add price, .pump (false, ·) {}, .add price, .pump (false, ·) {}]

theorem price_mem_backing_retried :
    price ∈ retried.graph.backing.setAt ⟨"Price", bond, ∅⟩ := by
  have h : decide (price ∈ retried.graph.backing.setAt ⟨"Price", bond, ∅⟩) = true := by cbv
  exact of_decide_eq_true h

/-- The price is in the graph in the end, and yet is said to have failed, and reported. -/
theorem outcomeOf_price_retried :
    (∃ v, price ∈ retried.graph.backing.setAt v) ∧
      (∃ f, retried.outcomeOf price = some (.error f)) ∧
      ∃ f, (price, f) ∈ ({ config := {}, resolution := retried } : Build).report.failures := by
  refine ⟨⟨_, price_mem_backing_retried⟩, ?_, ?_⟩
  · have hsome : (retried.outcomeOf price).isSome := by cbv
    have hno : (retried.outcomeOf price).bind Except.toOption = none := by cbv
    obtain ⟨o, ho⟩ := Option.isSome_iff_exists.1 hsome
    rw [ho] at hno ⊢
    cases o with
    | ok v => cases hno
    | error f => exact ⟨f, rfl⟩
  · have hreport : ({ config := {}, resolution := retried } : Build).report.failures.map (·.1) =
        [price] := by cbv
    have hmem : price ∈ ({ config := {}, resolution := retried } : Build).report.failures.map
        (·.1) := by
      rw [hreport]
      exact List.mem_singleton_self price
    obtain ⟨⟨q, f⟩, hf, rfl⟩ := List.mem_map.1 hmem
    exact ⟨f, hf⟩

theorem outcomeOf_of_backing_retried :
    (∀ v, price ∉ (Graph.after "Default" []).backing.setAt v) ∧
      price ∈ retried.graph.backing.setAt ⟨"Price", bond, ∅⟩ ∧
      ∃ fs : List Failure, (∀ f ∈ fs, f.Passing) ∧
        retried.outcomeOf price =
          (fs.map Except.error ++ [Except.ok (⟨"Price", bond, ∅⟩ : ValueSpec)]).head? := by
  have hg : ∀ v, price ∉ (Graph.after "Default" []).backing.setAt v := fun _ =>
    SortedSet.not_mem_empty
  obtain ⟨-, fs, hfs, -, ho, -⟩ := outcomeOf_of_backing "Default" [] _ price _ hg
    price_mem_backing_retried
  exact ⟨hg, price_mem_backing_retried, fs, hfs, ho⟩

end Example

end ValueGraph.Resolution
