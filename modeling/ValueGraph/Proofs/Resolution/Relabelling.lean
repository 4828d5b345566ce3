import ValueGraph.Proofs.Graph.Operations
import ValueGraph.Proofs.Value.Reconcile
import ValueGraph.Resolution.Step

namespace ValueGraph

/-- What market data are supplied as: themselves where they will do, else a copy. -/
def Policy.supplied (p : Policy) (q : Requirement) (t : Target) (s : ValueSpec) : ValueSpec :=
  if q.satisfiedBy t s then s else { name := q.name, target := t, properties := p.reconcile q s }

namespace Graph

theorem exists_supply (g : Graph) (s : ValueSpec) (n : Node) (hn : n.outputs = ∅) :
    ∃ g', g.supply s n = .ok g' ∧ (g'.producer? s).isSome := by
  unfold supply
  split
  next hs => exact ⟨g, rfl, hs⟩
  next hs =>
    have hnone : ∀ u ∈ (n.addOutput s).outputs, g.producer? u = none := by
      intro u hu
      unfold Node.addOutput at hu
      rw [hn, SortedSet.mem_insert] at hu
      rcases hu with rfl | hu
      · simpa using hs
      · exact absurd hu SortedSet.not_mem_empty
    have hadd := add_eq_link hnone
    refine ⟨g.link (n.addOutput s), by rw [hadd]; rfl, isSome_producer?_of_add hadd (.inl ?_)⟩
    exact SortedSet.mem_insert.2 (.inl rfl)

theorem exists_supplyMarketData (g : Graph) (p : Policy) (q : Requirement) (t : Target)
    (s : ValueSpec) : ∃ g', g.supplyMarketData p q t s = .ok (p.supplied q t s, g') ∧
      (g'.producer? (p.supplied q t s)).isSome := by
  obtain ⟨g', hg', hs⟩ :=
    exists_supply g s { function := .marketData, target := s.target } rfl
  unfold supplyMarketData Policy.supplied
  simp only [hg', bind, Except.bind, pure, Except.pure]
  by_cases hq : q.satisfiedBy t s
  · rw [if_pos hq, if_pos hq]
    exact ⟨g', rfl, hs⟩
  · obtain ⟨g'', hg'', hs'⟩ := exists_supply g' ⟨q.name, t, p.reconcile q s⟩
      (({ function := .relabel, target := t } : Node).addInput s) rfl
    rw [if_neg hq, if_neg hq, hg'']
    exact ⟨g'', rfl, hs'⟩

end Graph

section Supplied

variable {p : Policy} {q : Requirement} {t : Target} {s : ValueSpec}

/-- The value has the name and the target that were asked for, so its properties decide. -/
theorem Policy.Chooses.satisfiedBy_supplied_iff (hp : p.Chooses) :
    q.satisfiedBy t (p.supplied q t s) = true ↔
      ∀ name, ¬ q.constraints.StarvedAt s.properties name := by
  unfold Policy.supplied
  split
  next hq =>
    have hprops : q.constraints.satisfiedBy s.properties = true := by
      unfold Requirement.satisfiedBy at hq
      exact (Bool.and_eq_true_iff.1 hq).2
    simp only [hq, true_iff]
    exact Properties.not_starvedAt_of_satisfiedBy hprops
  next =>
    rw [← hp.satisfiedBy_reconcile_iff q s]
    simp [Requirement.satisfiedBy]

/--
Market data are always supplied, and the graph produces what they are supplied as. Each constraint
of the requirement is met by the properties of a copy unless it is starved, so what is supplied
satisfies the requirement just if no property is starved.
-/
theorem supplies_unless_starved (hp : p.Chooses) (g : Graph) (q : Requirement) (t : Target)
    (s : ValueSpec) :
    (∀ name wanted, q.constraints.get? name = some wanted →
      ∃ fitted, (p.reconcile q s).get? name = some fitted ∧
        (fitted.serves wanted = true ↔ ¬ q.constraints.StarvedAt s.properties name)) ∧
    (q.constraints.satisfiedBy (p.reconcile q s) = true ↔
      ∀ name, ¬ q.constraints.StarvedAt s.properties name) ∧
    ∃ g', g.supplyMarketData p q t s = .ok (p.supplied q t s, g') ∧
      (g'.producer? (p.supplied q t s)).isSome ∧
      (q.satisfiedBy t (p.supplied q t s) = true ↔
        ∀ name, ¬ q.constraints.StarvedAt s.properties name) := by
  obtain ⟨g', hg', hs⟩ := g.exists_supplyMarketData p q t s
  exact ⟨fun _ _ hw => hp.reconcile_serves_iff s hw, hp.satisfiedBy_reconcile_iff q s, g', hg', hs,
    hp.satisfiedBy_supplied_iff⟩

end Supplied

section Example

def inNoCurrency : Requirement where
  name := "DiscountCurve"
  target := .known ⟨.security, "Bond"⟩
  constraints := Properties.set ∅ "Ccy" (.among ∅)

def curveWith (name value : String) : ValueSpec where
  name := "Curve"
  target := ⟨.security, "Gilt"⟩
  properties := Properties.withValue ∅ name value

/-- A curve in dollars stays in dollars when it is copied, and is not what was asked for. -/
theorem supplied_usd :
    let t : Target := ⟨.security, "Bond"⟩
    let copy := Policy.lowest.supplied inNoCurrency t (curveWith "Ccy" "USD")
    let g : Graph := { configuration := "Default" }
    Policy.lowest.Chooses ∧
      inNoCurrency.constraints.satisfiedBy
        (Policy.lowest.reconcile inNoCurrency (curveWith "Ccy" "USD")) = false ∧
      (g.supplyMarketData .lowest inNoCurrency t (curveWith "Ccy" "USD")).toOption.map (·.1) =
        some copy ∧
      copy.properties.get? "Ccy" = some (.single "USD") ∧
      inNoCurrency.satisfiedBy t copy = false :=
  ⟨Policy.chooses_lowest, by decide +kernel, by decide +kernel, by decide +kernel,
    by decide +kernel⟩

/-- A curve that no currency is known of is published as one in any. -/
theorem supplies_unless_starved_rated :
    let t : Target := ⟨.security, "Bond"⟩
    let copy := Policy.lowest.supplied inNoCurrency t (curveWith "Rating" "AA")
    let g : Graph := { configuration := "Default" }
    Policy.lowest.Chooses ∧
      inNoCurrency.constraints.get? "Ccy" = some (.among ∅) ∧
      (∃ fitted,
        (Policy.lowest.reconcile inNoCurrency (curveWith "Rating" "AA")).get? "Ccy" = some fitted ∧
        fitted.serves (.among ∅) = true) ∧
      (∃ g', g.supplyMarketData .lowest inNoCurrency t (curveWith "Rating" "AA") =
        .ok (copy, g') ∧ (g'.producer? copy).isSome) ∧
      inNoCurrency.satisfiedBy t copy = true := by
  intro t copy g
  have hp := Policy.chooses_lowest
  have hw : inNoCurrency.constraints.get? "Ccy" = some (.among ∅) := by decide +kernel
  have hfed (name : String) :
      ¬ inNoCurrency.constraints.StarvedAt (curveWith "Rating" "AA").properties name := by
    rintro ⟨-, hname, hlisted⟩
    unfold inNoCurrency at hname
    rw [Properties.get?_set] at hname
    split at hname
    next he =>
      subst he
      revert hlisted
      decide +kernel
    next => cases hname
  obtain ⟨hmet, -, g', hg', hs, hv⟩ :=
    supplies_unless_starved hp g inNoCurrency t (curveWith "Rating" "AA")
  obtain ⟨fitted, hfitted, hserves⟩ := hmet "Ccy" _ hw
  exact ⟨hp, hw, ⟨fitted, hfitted, hserves.2 (hfed "Ccy")⟩, ⟨g', hg', hs⟩, hv.2 hfed⟩

end Example

end ValueGraph
