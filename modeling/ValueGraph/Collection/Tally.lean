import ValueGraph.Collection.SortedMap

namespace ValueGraph.SortedMap

variable {κ : Type} [Ord κ] [DecidableEq κ]

/-- Does `m` hold the counts that `f` gives, with entries for what there is of only? -/
def Tallies (m : SortedMap κ Nat) (f : κ → Nat) : Prop :=
  ∀ k, m.get? k = if f k = 0 then none else some (f k)

variable [Std.TransOrd κ]

def increment (m : SortedMap κ Nat) (k : κ) : SortedMap κ Nat := m.insert k ((m.get? k).getD 0 + 1)

/-- The entry goes when nothing is left to count. -/
def decrement (m : SortedMap κ Nat) (k : κ) : SortedMap κ Nat :=
  match m.get? k with
  | none => m
  | some n => if n - 1 = 0 then m.erase k else m.insert k (n - 1)

section Lemmas

variable {m : SortedMap κ Nat} {f : κ → Nat} {k : κ}

omit [Std.TransOrd κ] in
theorem Tallies.mem_iff (h : m.Tallies f) : k ∈ m ↔ 0 < f k := by
  rw [mem_iff_isSome_get?, h]
  split <;> simp <;> omega

variable [Std.LawfulEqOrd κ]

theorem Tallies.increment (h : m.Tallies f) (k : κ) :
    (m.increment k).Tallies fun k' => f k' + if k = k' then 1 else 0 := fun k' => by
  simp only [SortedMap.increment, get?_insert, h k']
  by_cases hk : k = k'
  · subst hk
    rw [h k]
    by_cases hf : f k = 0 <;> simp [hf]
  · simp [hk]

theorem Tallies.decrement (h : m.Tallies f) (k : κ) :
    (m.decrement k).Tallies fun k' => f k' - if k = k' then 1 else 0 := fun k' => by
  unfold SortedMap.decrement
  by_cases hk : k = k'
  · subst hk
    rw [h k]
    by_cases hf : f k = 0
    · simp [hf, h k]
    · simp only [hf, if_false, if_true]
      split <;> simp_all
  · have hm := h k'
    split
    · simpa [hk] using hm
    · split <;> simpa [hk] using hm

end Lemmas

end ValueGraph.SortedMap
