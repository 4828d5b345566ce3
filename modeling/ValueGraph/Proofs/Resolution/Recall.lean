import Mathlib
import ValueGraph.Proofs.Resolution.Derivation

namespace ValueGraph

section Catalog

variable {catalog : Catalog} {name : String} {t : Target} {constraints : Properties}
  {x y : Candidate}

/-- Is each function registered once at most for any value and target? -/
def Catalog.Distinct (catalog : Catalog) : Prop :=
  ∀ e ∈ catalog.entries, ∀ e' ∈ catalog.entries, ∀ name t, e.isFor name t → e'.isFor name t →
    e.function.id = e'.function.id → e = e'

theorem Catalog.mem_candidates :
    x ∈ catalog.candidates name t constraints ↔ ∃ e ∈ catalog.entries, e.isFor name t ∧
      e.candidate t = x ∧ constraints.satisfiedBy x.output.properties := by
  unfold candidates
  simp only [List.mem_filter, List.mem_map, List.mem_mergeSort]
  constructor
  · rintro ⟨⟨e, ⟨he, hfor⟩, hx⟩, hs⟩
    exact ⟨e, he, hfor, hx, hs⟩
  · rintro ⟨e, he, hfor, hx, hs⟩
    exact ⟨⟨e, ⟨he, hfor⟩, hx⟩, hs⟩

theorem Catalog.Distinct.candidateById (h : catalog.Distinct) {id : String}
    (hx : catalog.candidateById id name t constraints = some x) :
    x ∈ catalog.candidates name t constraints ∧
      ∀ y ∈ catalog.candidates name t constraints, y.function.id = x.function.id → y = x := by
  have hs := List.find?_some hx
  obtain ⟨e, he, rfl⟩ := List.mem_map.1 (List.mem_of_find?_eq_some hx)
  simp only [List.mem_filter, Bool.and_eq_true, decide_eq_true_eq] at he
  obtain ⟨he, -, hfor⟩ := he
  refine ⟨mem_candidates.2 ⟨e, he, hfor, rfl, hs⟩, fun y hy hid => ?_⟩
  obtain ⟨e', he', hfor', rfl, -⟩ := mem_candidates.1 hy
  rw [h e' he' e he name t hfor' hfor hid]

theorem Services.recalls {s : Services} (hs : s.source = .indexed catalog)
    (hd : catalog.Distinct) : s.collaborators.Recalls s.oracle := by
  intro digest q t w x hx
  obtain ⟨id, w, hx⟩ := Collaborators.exists_of_remembered hx
  have hx : (s.functionById id q.name t q.constraints w).1 = some x := hx
  unfold Services.functionById at hx
  rw [hs] at hx
  have hfunctions : s.oracle.functions q.name t q.constraints =
      catalog.candidates q.name t.target q.constraints := by
    show s.source.candidates q.name t.target q.constraints = _
    rw [hs]
    rfl
  rw [hfunctions]
  exact hd.candidateById hx

end Catalog

namespace Resolution

/--
A catalog has each function once for a value, lookups do not have to wait, and whatever is
remembered at first. Then a requirement is met just if it is met without any memory, if none relies
on what is brought for others, and no chain of inputs is longer than the depth limit.
-/
theorem met_iff_met_without_memory (s : Services) {catalog : Catalog}
    (hsource : s.source = .indexed catalog) (hd : catalog.Distinct) (maxDepth : Nat)
    (configuration : String) {qs : List Requirement} {q : Requirement} {w w' : World}
    (hw : w.Immediate) (hw' : w'.Immediate) (hs : s.oracle.SelfReliant s.policy qs)
    (hb : s.oracle.Shallow maxDepth qs) (hq : q ∈ qs) :
    (∃ v, (resolveAll s.collaborators maxDepth configuration qs w).outcomeOf q = some (.ok v)) ↔
      ∃ v, (resolveAll { s with memory := none }.collaborators maxDepth configuration qs
        w').outcomeOf q = some (.ok v) := by
  have hmemory := met_iff_derivable maxDepth configuration s.follows_oracle
    (Services.recalls hsource hd) s.prompt hw hs hb hq
  have hnone := met_iff_derivable maxDepth configuration { s with memory := none }.follows_oracle
    (Collaborators.recalls_of_digests_eq_none rfl) { s with memory := none }.prompt hw' hs hb hq
  exact hmemory.trans hnone.symm

section Example

/-- A function that is registered twice for a price, with a quote that is not there and without. -/
def doubled : Services where
  source := .indexed { entries := [
    { function := .computation "Pricer" ∅, name := "Price", inputs := [("Quote", ∅)] },
    { function := .computation "Pricer" ∅, name := "Price" }] }
  memory := some .learning

def met : World where
  memory := { precedents := [{
    digest := Memory.digest bond, name := "Price", constraints := ∅, function := "Pricer" }] }

theorem outcomeOf_price_doubled :
    (∃ v, (resolveAll { doubled with memory := none }.collaborators 16 "Default" [price]
      met).outcomeOf price = some (.ok v)) ∧
    ∃ f, (resolveAll doubled.collaborators 16 "Default" [price] met).outcomeOf price =
      some (.error f) := ⟨⟨_, by cbv⟩, _, by cbv⟩

def marking : Catalog where
  entries := [
    { function := .computation "Marker" ∅, name := "Price" },
    { function := .computation "Pricer" ∅, name := "Price" }]

def marked : Services where
  source := .indexed marking
  memory := some .learning

theorem distinct_marking : marking.Distinct := by
  have hids : (marking.entries.map (·.function.id)).Nodup := by decide
  intro e he e' he' _ _ _ _ hid
  exact List.inj_on_of_nodup_map hids he he' hid

theorem reaches_marked {q p : Requirement} {n : Nat} (h : marked.oracle.Reaches q n p) :
    n = 0 ∧ p = q := by
  cases h with
  | refl => exact ⟨rfl, rfl⟩
  | step _ hn =>
    obtain ⟨t, x, -, hx, hp⟩ := hn
    obtain ⟨e, he, -, rfl, -⟩ := Catalog.mem_candidates.1 hx
    have hinputs : ∀ e ∈ marking.entries, e.inputs = [] := by simp [marking]
    obtain ⟨input, hmem, -⟩ := List.mem_map.1 hp
    rw [hinputs e he] at hmem
    cases hmem

theorem selfReliant_marked : marked.oracle.SelfReliant marked.policy [price] := by
  rintro q - t v ⟨p, hp, n, hreach⟩ - - - -
  obtain rfl : q = price := (reaches_marked hreach).2.trans (List.mem_singleton.1 hp)
  exact .computed (t := { target := bond }) rfl rfl
    (Catalog.mem_candidates.2 ⟨_, List.mem_cons_self, rfl, rfl, rfl⟩) rfl nofun

theorem met_iff_met_without_memory_marked :
    let w := met
    let resolved (s : Services) := ∃ v, (resolveAll s.collaborators 16 "Default" [price]
      w).outcomeOf price = some (.ok v)
    marking.Distinct ∧ w.Immediate ∧ marked.oracle.SelfReliant marked.policy [price] ∧
      marked.oracle.Shallow 16 [price] ∧ resolved marked ∧
      (resolved marked ↔ resolved { marked with memory := none }) := by
  intro w resolved
  have hw : w.Immediate := ⟨rfl, rfl⟩
  have hb : marked.oracle.Shallow 16 [price] := fun q _ n p h =>
    (reaches_marked h).1 ▸ Nat.zero_le 16
  have hiff : resolved marked ↔ resolved { marked with memory := none } :=
    met_iff_met_without_memory marked rfl distinct_marking 16 "Default" hw hw selfReliant_marked hb
      List.mem_cons_self
  exact ⟨distinct_marking, hw, selfReliant_marked, hb, ⟨_, by cbv⟩, hiff⟩

end Example

end Resolution

end ValueGraph
