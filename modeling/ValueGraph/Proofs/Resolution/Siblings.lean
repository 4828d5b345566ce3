import Mathlib
import ValueGraph.Proofs.Resolution.Derivation

namespace ValueGraph

namespace Resolution

section Siblings

variable {σ : Type} {c : Collaborators σ} {maxDepth : Nat} {o : Oracle} {P : σ → Prop}

/--
Answers depend on the question only, are given at once, and nothing is remembered from before. What
is met when it is submitted alone has an outcome among others, wherever it stands; and if it is not
met, then for recursion. For recursion it can fail only if there is a chain of inputs from what was
submitted that is longer than the depth limit. All this goes for a requirement that relies on
nothing which is brought for others.
-/
theorem exists_outcomeOf_among (configuration : String) {q : Requirement} {qs : List Requirement}
    {v : ValueSpec} {w w' : σ} (ho : c.Follows o) (hp : c.Prompt P) (hd : c.digests = none)
    (hw : P w') (hs : o.SelfReliant c.policy [q]) (hq : q ∈ qs)
    (h : (resolveAll c maxDepth configuration [q] w).outcomeOf q = some (.ok v)) :
    ∃ out, (resolveAll c maxDepth configuration qs w').outcomeOf q = some out ∧
      (∀ f, out = .error f → f.involvesRecursion = true) ∧
      (o.Shallow maxDepth qs → ∃ v', out = .ok v') := by
  have hr : c.Recalls o := Collaborators.recalls_of_digests_eq_none hd
  have hderivable : o.Derivable q := derivable_of_outcomeOf maxDepth configuration ho hr hs h
  exact exists_outcomeOf_of_derivable maxDepth configuration ho hr hp hw hq hderivable

end Siblings

section Example

def curve : Requirement := ⟨"Curve", bond, ∅⟩

/-- A price needs a surface and a curve; the curve comes with the surface, and in no other way. -/
def fitted : Services where
  source := .fixed (SortedMap.insert (SortedMap.insert ∅ "Surface" [{
      function := .computation "Fit" ∅
      output := ⟨"Surface", bond, ∅⟩
      extra := [⟨"Curve", bond, ∅⟩] }])
    "Price" [{
      function := .computation "Pricer" ∅
      output := ⟨"Price", bond, ∅⟩
      inputs := [⟨"Surface", bond, ∅⟩, curve] }])

/-- A price needs a curve, which is made of the price by preference, and of nothing otherwise. -/
def circular : Services where
  source := .fixed (SortedMap.insert (SortedMap.insert ∅ "Curve" [{
      function := .computation "Implied" ∅
      output := ⟨"Curve", bond, ∅⟩
      inputs := [price] }, {
      function := .computation "Bootstrap" ∅
      output := ⟨"Curve", bond, ∅⟩ }])
    "Price" [{
      function := .computation "Pricer" ∅
      output := ⟨"Price", bond, ∅⟩
      inputs := [curve] }])

/--
The price is met alone but not after the curve: in one case because the curve has failed by the time
the surface is there, in the other because the curve waits for the price when the price asks for it.
-/
theorem outcomeOf_price_after_curve :
    let alone (s : Services) := (resolveAll s.collaborators 16 "Default" [price] {}).outcomeOf price
    let after (s : Services) :=
      (resolveAll s.collaborators 16 "Default" [curve, price] {}).outcomeOf price
    (fitted.collaborators.Follows fitted.oracle ∧ fitted.collaborators.Prompt World.Immediate ∧
      fitted.collaborators.digests = none ∧ (∃ v, alone fitted = some (.ok v)) ∧
      ∃ f, after fitted = some (.error f) ∧ f.involvesRecursion = false) ∧
    circular.collaborators.Follows circular.oracle ∧
      circular.collaborators.Prompt World.Immediate ∧ circular.collaborators.digests = none ∧
      (∃ v, alone circular = some (.ok v)) ∧
      ∃ f, after circular = some (.error f) ∧ f.involvesRecursion = true :=
  ⟨⟨fitted.follows_oracle, fitted.prompt, rfl, ⟨_, by cbv⟩, _, by cbv, by cbv⟩,
    circular.follows_oracle, circular.prompt, rfl, ⟨_, by cbv⟩, _, by cbv, by cbv⟩

theorem demands_quoted {q : Requirement} (h : quoted.oracle.Demands [price] q) :
    quoted.oracle.Derivable q := by
  obtain ⟨p, hp, n, hreach⟩ := h
  rw [List.mem_singleton.1 hp] at hreach
  rcases reaches_quoted hreach with ⟨-, rfl⟩ | ⟨-, rfl⟩
  · exact derivable_quoted
  · exact .available (t := { target := bond }) rfl rfl

theorem exists_outcomeOf_among_quote :
    let c := quoted.collaborators
    c.Follows quoted.oracle ∧ c.Prompt World.Immediate ∧ c.digests = none ∧
      World.Immediate {} ∧ quoted.oracle.SelfReliant c.policy [price] ∧
      (∃ v, (resolveAll c 1 "Default" [price] {}).outcomeOf price = some (.ok v)) ∧
      quoted.oracle.Shallow 1 [quote, price] ∧
      ∃ v, (resolveAll c 1 "Default" [quote, price] {}).outcomeOf price = some (.ok v) := by
  intro c
  have hs : quoted.oracle.SelfReliant c.policy [price] := fun q _ _ _ hq _ _ _ _ =>
    demands_quoted hq
  have halone : ∃ v, (resolveAll c 1 "Default" [price] {}).outcomeOf price = some (.ok v) :=
    ⟨_, by cbv⟩
  have hw : World.Immediate {} := ⟨rfl, rfl⟩
  have hq : price ∈ [quote, price] := by simp
  obtain ⟨v, hv⟩ := halone
  obtain ⟨out, hout, -, hmet⟩ := exists_outcomeOf_among "Default" quoted.follows_oracle
    quoted.prompt rfl hw hs hq hv
  have hb : quoted.oracle.Shallow 1 [quote, price] := fun q _ => bounded_quoted q
  obtain ⟨v', rfl⟩ := hmet hb
  exact ⟨quoted.follows_oracle, quoted.prompt, rfl, hw, hs, ⟨v, hv⟩, hb, v', hout⟩

end Example

end Resolution

end ValueGraph
