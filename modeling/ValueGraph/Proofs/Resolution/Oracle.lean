import ValueGraph.Proofs.Resolution.Promptness
import ValueGraph.Resolution.Services

namespace ValueGraph

/-- One answer for every question. -/
structure Oracle where
  target : TargetRef → TargetAnswer
  market : NamedTarget → Requirement → MarketAnswer
  functions : (name : String) → NamedTarget → Properties → List Candidate

/-- Are all answers those of the oracle, but for lookups that would have to wait? -/
structure Collaborators.Follows {σ : Type} (c : Collaborators σ) (o : Oracle) : Prop where
  target : ∀ ref w, (c.target ref w).1 ≠ .wouldBlock → (c.target ref w).1 = o.target ref
  market : ∀ t q w, (c.market t q w).1 ≠ .wouldBlock → (c.market t q w).1 = o.market t q
  functions : ∀ name t constraints w,
    (c.functions name t constraints w).1 = o.functions name t constraints

/-- Is each remembered candidate one of the oracle's, and the only one of its function? -/
def Collaborators.Recalls {σ : Type} (c : Collaborators σ) (o : Oracle) : Prop :=
  ∀ digest q t w, ∀ x ∈ (c.remembered digest q t w).1, x ∈ o.functions q.name t q.constraints ∧
    ∀ y ∈ o.functions q.name t q.constraints, y.function.id = x.function.id → y = x

theorem Collaborators.recalls_of_digests_eq_none {σ : Type} {c : Collaborators σ} {o : Oracle}
    (h : c.digests = none) : c.Recalls o := by
  intro digest q t w x hx
  rw [c.remembered_eq_nil h] at hx
  cases hx

namespace Oracle

/-- Can the requirement be met, given enough time? -/
inductive Derivable (o : Oracle) : Requirement → Prop
  | available {q t v} (ht : o.target q.target = .resolved t)
    (hm : o.market t q = .available v) : Derivable o q
  | computed {q t x} (ht : o.target q.target = .resolved t)
    (hm : o.market t q = .notAvailable) (hx : x ∈ o.functions q.name t q.constraints)
    (hs : q.satisfiedBy t.target x.output) (hi : ∀ p ∈ x.inputs, Derivable o p) : Derivable o q

/-- Is `p` an input of some candidate for `q`? -/
def Needs (o : Oracle) (q p : Requirement) : Prop :=
  ∃ t x, o.target q.target = .resolved t ∧ x ∈ o.functions q.name t q.constraints ∧ p ∈ x.inputs

/-- Does a chain of inputs, that many candidates long, lead from one requirement to the other? -/
inductive Reaches (o : Oracle) (q : Requirement) : Nat → Requirement → Prop
  | refl : Reaches o q 0 q
  | step {n p p'} (h : Reaches o q n p) (hn : o.Needs p p') : Reaches o q (n + 1) p'

/-- Is every chain from the requirement that long at most? Then none of them runs in a circle. -/
def Bounded (o : Oracle) (length : Nat) (q : Requirement) : Prop :=
  ∀ n p, o.Reaches q n p → n ≤ length

variable {o : Oracle} {q p p' : Requirement} {n k length : Nat}

theorem Reaches.trans (h : o.Reaches q n p) (h' : o.Reaches p k p') : o.Reaches q (n + k) p' := by
  induction h' with
  | refl => exact h
  | step _ hn ih => exact ih.step hn

/-- A chain that comes back could be made as long as one likes. -/
theorem Bounded.not_reaches (hb : o.Bounded length q) (h : o.Reaches q n p) :
    ¬ o.Reaches p (k + 1) p := by
  intro hcircle
  have hlong : ∀ times, ∃ n, times ≤ n ∧ o.Reaches q n p := by
    intro times
    induction times with
    | zero => exact ⟨n, Nat.zero_le n, h⟩
    | succ times ih =>
      obtain ⟨n, hle, hn⟩ := ih
      exact ⟨n + (k + 1), by omega, hn.trans hcircle⟩
  obtain ⟨n, hle, hn⟩ := hlong (length + 1)
  exact absurd (hb n p hn) (by omega)

end Oracle

def Services.oracle (s : Services) : Oracle where
  target := s.targets.resolve
  market t q := s.market.lookup t.target q
  functions name t constraints := s.source.candidates name t.target constraints

theorem TargetTable.resolve_ne_wouldBlock (table : TargetTable) (ref : TargetRef) :
    table.resolve ref ≠ .wouldBlock := by
  unfold resolve
  split
  · exact nofun
  · split <;> exact nofun

theorem MarketTable.lookup_ne_wouldBlock (table : MarketTable) (t : Target) (q : Requirement) :
    table.lookup t q ≠ .wouldBlock := by
  unfold lookup
  split
  · exact nofun
  · split <;> exact nofun

theorem Services.follows_oracle (s : Services) : s.collaborators.Follows s.oracle where
  target ref w h := by
    have hs : (s.collaborators.target ref w).1 = if (w.targetDelays.next (toString ref)).1
        then .wouldBlock else s.targets.resolve ref := rfl
    rw [hs] at h ⊢
    split at h
    · exact absurd rfl h
    next hno => rw [if_neg hno]; rfl
  market t q w h := by
    have hs : (s.collaborators.market t q w).1 = if (w.marketDelays.next q.name).1
        then .wouldBlock else s.market.lookup t.target q := rfl
    rw [hs] at h ⊢
    split at h
    · exact absurd rfl h
    next hno => rw [if_neg hno]; rfl
  functions _ _ _ _ := rfl

def World.Immediate (w : World) : Prop := w.targetDelays = {} ∧ w.marketDelays = {}

theorem Delays.next_empty (key : String) : ({} : Delays).next key = (false, {}) := rfl

theorem Services.prompt (s : Services) : s.collaborators.Prompt World.Immediate where
  target ref w hw := by
    show (s.target ref w).1 ≠ _ ∧ World.Immediate (s.target ref w).2
    unfold Services.target
    rw [hw.1, Delays.next_empty]
    exact ⟨s.targets.resolve_ne_wouldBlock ref, rfl, hw.2⟩
  market t q w hw := by
    show (s.marketData t q w).1 ≠ _ ∧ World.Immediate (s.marketData t q w).2
    unfold Services.marketData
    rw [hw.2, Delays.next_empty]
    exact ⟨s.market.lookup_ne_wouldBlock t.target q, hw.1, rfl⟩
  functions _ _ _ _ hw := hw
  functionById id name t constraints w hw := by
    show World.Immediate (s.functionById id name t constraints w).2
    unfold Services.functionById
    split <;> exact hw
  digests memory hm w hw := by
    obtain ⟨mode, -, rfl⟩ := Option.map_eq_some_iff.1 hm
    refine ⟨fun _ => hw, fun _ _ => hw, fun digest name constraints id => ?_⟩
    show World.Immediate (if mode = .learning then _ else w)
    split
    · exact hw
    · exact hw

end ValueGraph
