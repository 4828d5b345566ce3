import Mathlib
import ValueGraph.Resolution.Services

namespace ValueGraph

namespace CatalogEntry

variable {e : CatalogEntry} {l : List CatalogEntry}

def preferred? : List CatalogEntry → Option CatalogEntry
  | [] => none
  | e :: l =>
    match preferred? l with
    | none => some e
    | some e' => if e'.priority ≤ e.priority then some e else some e'

theorem preferred?_eq_none_iff : preferred? l = none ↔ l = [] := by
  cases l with
  | nil => exact iff_of_true rfl rfl
  | cons e l =>
    refine iff_of_false ?_ (List.cons_ne_nil _ _)
    unfold preferred?
    split
    · exact nofun
    · split <;> exact nofun

/-- The entries before the preferred one have a lower priority, and those after it no higher one. -/
theorem preferred?_eq_some (h : preferred? l = some e) : ∃ before after,
    l = before ++ e :: after ∧ (∀ b ∈ before, b.priority < e.priority) ∧
      ∀ b ∈ after, b.priority ≤ e.priority := by
  induction l generalizing e with
  | nil => cases h
  | cons a l ih =>
    unfold preferred? at h
    split at h
    next hl =>
      cases h
      rw [preferred?_eq_none_iff.1 hl]
      exact ⟨[], [], rfl, nofun, nofun⟩
    next e' hl =>
      obtain ⟨before, after, hsplit, hbefore, hafter⟩ := ih hl
      split at h
      next hle =>
        cases h
        refine ⟨[], l, rfl, nofun, fun b hb => ?_⟩
        rw [hsplit] at hb
        rcases List.mem_append.1 hb with hb | hb
        · exact (hbefore b hb).le.trans hle
        rcases List.mem_cons.1 hb with rfl | hb
        · exact hle
        · exact (hafter b hb).trans hle
      next hlt =>
        cases h
        refine ⟨a :: before, after, congrArg (a :: ·) hsplit, fun b hb => ?_, hafter⟩
        rcases List.mem_cons.1 hb with rfl | hb
        · exact not_le.1 hlt
        · exact hbefore b hb

theorem preferred?_append (before : List CatalogEntry) {after : List CatalogEntry}
    (hbefore : ∀ b ∈ before, b.priority < e.priority)
    (hafter : ∀ b ∈ after, b.priority ≤ e.priority) :
    preferred? (before ++ e :: after) = some e := by
  induction before with
  | nil =>
    rw [List.nil_append, preferred?]
    split
    · rfl
    next e' hl =>
      obtain ⟨_, _, rfl, -⟩ := preferred?_eq_some hl
      rw [if_pos (hafter e' (by simp))]
  | cons b before ih =>
    obtain ⟨hb, hbefore⟩ := List.forall_mem_cons.1 hbefore
    rw [List.cons_append, preferred?, ih hbefore]
    exact if_neg (not_le.2 hb)

/-- Entries are ranked by falling priority, and those of one priority stay in their order. -/
theorem find?_mergeSort (p : CatalogEntry → Bool) :
    (l.mergeSort fun a b => b.priority ≤ a.priority).find? p = preferred? (l.filter p) := by
  have htrans (a b c : CatalogEntry) (hab : decide (b.priority ≤ a.priority) = true)
      (hbc : decide (c.priority ≤ b.priority) = true) : decide (c.priority ≤ a.priority) = true := by
    simp only [decide_eq_true_eq] at *
    omega
  have htotal (a b : CatalogEntry) :
      (decide (b.priority ≤ a.priority) || decide (a.priority ≤ b.priority)) = true := by
    simp only [Bool.or_eq_true, decide_eq_true_eq]
    omega
  induction l with
  | nil => simp [preferred?]
  | cons a l ih =>
    -- The entry goes before all that it is no worse than, wherever these came from.
    obtain ⟨l₁, l₂, hsort, hrest, hbetter⟩ := List.mergeSort_cons htrans htotal a l
    have hsorted := List.pairwise_mergeSort htrans htotal (a :: l)
    rw [hsort] at hsorted ⊢
    rw [hrest] at ih
    by_cases ha : p a = true
    · rw [List.filter_cons_of_pos ha, preferred?, ← ih, List.find?_append, List.find?_append]
      cases h₁ : l₁.find? p with
      | some b =>
        have hlt := hbetter b (List.mem_of_find?_eq_some h₁)
        simp only [Bool.not_eq_true', decide_eq_false_iff_not] at hlt
        simp [hlt]
      | none =>
        rw [List.find?_cons_of_pos ha]
        cases h₂ : l₂.find? p with
        | none => rfl
        | some b =>
          have hle := (List.pairwise_cons.1 (List.pairwise_append.1 hsorted).2.1).1 b
            (List.mem_of_find?_eq_some h₂)
          simp only [decide_eq_true_eq] at hle
          simp [hle]
    · rw [List.filter_cons_of_neg ha, ← ih, List.find?_append, List.find?_append,
        List.find?_cons_of_neg ha]

end CatalogEntry

namespace Catalog

variable (c : Catalog) (id name : String) (t : Target) (constraints : Properties)

/-- The entries of that function that offer what is asked for, in the order of registration. -/
def offers : List CatalogEntry :=
  c.entries.filter fun e => e.function.id = id && e.isFor name t &&
    constraints.satisfiedBy (e.candidate t).output.properties

theorem candidateById_eq : c.candidateById id name t constraints =
    (c.offers id name t constraints).head?.map (·.candidate t) := by
  unfold candidateById offers
  rw [List.find?_map, List.head?_filter, List.find?_filter]
  simp [Bool.and_assoc]

theorem find?_candidates : (c.candidates name t constraints).find? (·.function.id = id) =
    (CatalogEntry.preferred? (c.offers id name t constraints)).map (·.candidate t) := by
  unfold candidates offers
  dsimp only
  rw [List.find?_filter, List.find?_map, CatalogEntry.find?_mergeSort, List.filter_filter]
  congr 2
  refine List.filter_congr fun e _ => ?_
  simp only [Function.comp_apply, CatalogEntry.candidate]
  grind

end Catalog

namespace Services

/--
Directly a function offers what its entry registered first does, and in the list what the first of
its entries of the highest priority does. Either way it offers something or not, and it offers the
same just if these two entries do, as where the one registered first has the highest priority.
-/
theorem functionById_indexed_listed (s : Services) (c : Catalog) (id name : String)
    (t : NamedTarget) (constraints : Properties) (w : World) :
    let offers := c.offers id name t.target constraints
    let direct := ({ s with source := .indexed c }.functionById id name t constraints w).1
    let listed := ({ s with source := .listed c }.functionById id name t constraints w).1
    direct = offers.head?.map (·.candidate t.target) ∧
      (∀ x, listed = some x ↔ ∃ before e after, offers = before ++ e :: after ∧
        (∀ b ∈ before, b.priority < e.priority) ∧ (∀ b ∈ after, b.priority ≤ e.priority) ∧
          e.candidate t.target = x) ∧
      (direct = none ↔ listed = none) ∧
      (direct = listed ↔ ∀ first ∈ offers.head?, ∀ before e after, offers = before ++ e :: after →
        (∀ b ∈ before, b.priority < e.priority) → (∀ b ∈ after, b.priority ≤ e.priority) →
          first.candidate t.target = e.candidate t.target) ∧
      ((∀ first ∈ offers.head?, ∀ e ∈ offers, e.priority ≤ first.priority) → direct = listed) := by
  intro offers direct listed
  have hdirect : direct = offers.head?.map (·.candidate t.target) :=
    c.candidateById_eq id name t.target constraints
  have hlisted : listed = (CatalogEntry.preferred? offers).map (·.candidate t.target) :=
    c.find?_candidates id name t.target constraints
  refine ⟨hdirect, fun x => ?_, ?_, ?_, fun hhighest => ?_⟩
  · rw [hlisted, Option.map_eq_some_iff]
    constructor
    · rintro ⟨e, he, rfl⟩
      obtain ⟨before, after, hsplit, hbefore, hafter⟩ := CatalogEntry.preferred?_eq_some he
      exact ⟨before, e, after, hsplit, hbefore, hafter, rfl⟩
    · rintro ⟨before, e, after, hsplit, hbefore, hafter, rfl⟩
      exact ⟨e, hsplit ▸ CatalogEntry.preferred?_append before hbefore hafter, rfl⟩
  · rw [hdirect, hlisted, Option.map_eq_none_iff, Option.map_eq_none_iff, List.head?_eq_none_iff,
      CatalogEntry.preferred?_eq_none_iff]
  · rw [hdirect, hlisted]
    constructor
    · intro h first hfirst before e after hsplit hbefore hafter
      rw [hfirst, hsplit, CatalogEntry.preferred?_append before hbefore hafter] at h
      exact Option.some.inj h
    · intro h
      cases hp : CatalogEntry.preferred? offers with
      | none => rw [CatalogEntry.preferred?_eq_none_iff.1 hp]; rfl
      | some e =>
        obtain ⟨before, after, hsplit, hbefore, hafter⟩ := CatalogEntry.preferred?_eq_some hp
        cases hf : offers.head? with
        | none => rw [List.head?_eq_none_iff.1 hf] at hp; cases hp
        | some first => exact congrArg some (h first hf before e after hsplit hbefore hafter)
  · rw [hdirect, hlisted]
    generalize offers = l at hhighest
    cases l with
    | nil => rfl
    | cons first l =>
      have hl : CatalogEntry.preferred? (first :: l) = some first :=
        CatalogEntry.preferred?_append [] nofun fun b hb =>
          hhighest first rfl b (List.mem_cons_of_mem _ hb)
      rw [hl]
      rfl

section Example

/-- A function for a price that is registered twice: from a quote, and preferably from a trade. -/
def revised : Catalog where
  entries := [
    { function := .computation "Pricer" ∅, name := "Price", inputs := [("Quote", ∅)] },
    { function := .computation "Pricer" ∅, name := "Price", inputs := [("Trade", ∅)]
      priority := 1 }]

/-- The direct way prices from the quote, although the list has the trade first. -/
theorem functionById_revised :
    let t : NamedTarget := { target := ⟨.security, "Bond"⟩ }
    let offered (source : FunctionSource) :=
      ({ source : Services }.functionById "Pricer" "Price" t ∅ {}).1.map
        fun x => x.inputs.map (·.name)
    offered (.indexed revised) = some ["Quote"] ∧ offered (.listed revised) = some ["Trade"] ∧
      ({ source := .indexed revised : Services }.functionById "Pricer" "Price" t ∅ {}).1 ≠
        ({ source := .listed revised : Services }.functionById "Pricer" "Price" t ∅ {}).1 := by
  intro t offered
  have hdirect : offered (.indexed revised) = some ["Quote"] := by cbv
  have hlisted : offered (.listed revised) = some ["Trade"] := by
    show ((revised.candidates "Price" t.target ∅).find? _).map _ = _
    rw [Catalog.find?_candidates]
    cbv
  refine ⟨hdirect, hlisted, fun h => ?_⟩
  have hsame : offered (.indexed revised) = offered (.listed revised) :=
    congrArg (Option.map fun x : Candidate => x.inputs.map (·.name)) h
  rw [hdirect, hlisted] at hsame
  exact absurd hsame (by decide)

end Example

end Services

end ValueGraph
