import ValueGraph.Collection.SortedMap

namespace ValueGraph.SortedMap

variable {κ α : Type} [Ord κ] [Ord α] [DecidableEq κ] [DecidableEq α]

def setAt (m : SortedMap κ (SortedSet α)) (k : κ) : SortedSet α := (m.get? k).getD ∅

section Changes

variable [Std.TransOrd κ] [Std.TransOrd α]

def addAt (m : SortedMap κ (SortedSet α)) (k : κ) (a : α) : SortedMap κ (SortedSet α) :=
  m.insert k ((m.setAt k).insert a)

def addAllAt (m : SortedMap κ (SortedSet α)) (k : κ) (s : SortedSet α) :
    SortedMap κ (SortedSet α) :=
  m.insert k (m.setAt k ∪ s)

/-- Takes `a` out of the set under `k`; the entry goes with the last member. -/
def dropAt (m : SortedMap κ (SortedSet α)) (k : κ) (a : α) : SortedMap κ (SortedSet α) :=
  match m.get? k with
  | none => m
  | some s => if (s.erase a).isEmpty then m.erase k else m.insert k (s.erase a)

end Changes

section Lemmas

variable {m : SortedMap κ (SortedSet α)} {k k' : κ} {a b : α} {s : SortedSet α}

omit [DecidableEq α] in
theorem mem_setAt : a ∈ m.setAt k ↔ ∃ s, m.get? k = some s ∧ a ∈ s := by
  unfold setAt
  cases m.get? k <;> simp

omit [DecidableEq α] in
@[simp] theorem setAt_erase : (m.erase k).setAt k' = if k = k' then ∅ else m.setAt k' := by
  unfold setAt
  rw [get?_erase]
  split <;> rfl

omit [DecidableEq α] in
theorem get?_eq_setAt (h : ∀ s, m.get? k = some s → ∃ a, a ∈ s) :
    m.get? k = if (m.setAt k).isEmpty then none else some (m.setAt k) := by
  unfold setAt
  cases hs : m.get? k with
  | none => rfl
  | some s =>
    obtain ⟨a, ha⟩ := h s hs
    have hne : s.isEmpty = false := List.isEmpty_eq_false_iff_exists_mem.2 ⟨a, ha⟩
    simp [hne]

omit [DecidableEq α] in
theorem ext_mem_setAt [Std.TransOrd κ] [Std.TransOrd α] {n : SortedMap κ (SortedSet α)}
    (hm : ∀ k s, m.get? k = some s → ∃ a, a ∈ s) (hn : ∀ k s, n.get? k = some s → ∃ a, a ∈ s)
    (h : ∀ k a, a ∈ m.setAt k ↔ a ∈ n.setAt k) : m = n := by
  refine ext_get? fun k => ?_
  have hset : m.setAt k = n.setAt k := SortedSet.ext_mem (h k)
  rw [get?_eq_setAt (hm k), get?_eq_setAt (hn k), hset]

variable [Std.TransOrd κ] [Std.LawfulEqOrd κ]

omit [DecidableEq α] in
@[simp] theorem setAt_insert : (m.insert k s).setAt k' = if k = k' then s else m.setAt k' := by
  unfold setAt
  rw [get?_insert]
  split <;> rfl

variable [Std.TransOrd α] [Std.LawfulEqOrd α]

omit [DecidableEq α] in
@[simp] theorem mem_setAt_addAt : b ∈ (m.addAt k a).setAt k' ↔ k = k' ∧ b = a ∨ b ∈ m.setAt k' := by
  unfold addAt
  rw [setAt_insert]
  split <;> simp_all

omit [DecidableEq α] in
@[simp] theorem mem_setAt_addAllAt :
    b ∈ (m.addAllAt k s).setAt k' ↔ k = k' ∧ b ∈ s ∨ b ∈ m.setAt k' := by
  unfold addAllAt
  rw [setAt_insert]
  split <;> simp_all [or_comm]

omit [Std.TransOrd α] [Std.LawfulEqOrd α] in
@[simp] theorem mem_setAt_dropAt [Std.TransOrd α] :
    b ∈ (m.dropAt k a).setAt k' ↔ b ∈ m.setAt k' ∧ ¬ (k = k' ∧ b = a) := by
  unfold dropAt
  split
  next h =>
    refine (and_iff_left_of_imp fun hb => ?_).symm
    rintro ⟨rfl, -⟩
    obtain ⟨s, hs, -⟩ := mem_setAt.1 hb
    simp [h] at hs
  next s h =>
    obtain rfl : m.setAt k = s := by simp [setAt, h]
    split
    next he =>
      have hnot : ¬ (b ∈ m.setAt k ∧ b ≠ a) := fun hb => by
        have hb : b ∈ ((m.setAt k).erase a).toList := SortedSet.mem_erase.2 hb
        simp [List.isEmpty_iff.1 he] at hb
      rw [setAt_erase]
      split
      next hk =>
        subst hk
        exact iff_of_false SortedSet.not_mem_empty fun hb => hnot ⟨hb.1, fun h => hb.2 ⟨rfl, h⟩⟩
      next hk => simp [hk]
    next =>
      rw [setAt_insert]
      split
      next hk => subst hk; simp
      next hk => simp [hk]

section Folds

variable {γ : Type} {l : List γ} {key : γ → κ} {f : γ → α}

omit [DecidableEq α] in
theorem mem_setAt_foldl_addAt :
    b ∈ (l.foldl (fun m c => m.addAt (key c) (f c)) m).setAt k ↔
      (∃ c ∈ l, key c = k ∧ b = f c) ∨ b ∈ m.setAt k := by
  induction l generalizing m with
  | nil => simp
  | cons c l ih => rw [List.foldl_cons, ih, mem_setAt_addAt]; grind

omit [Std.LawfulEqOrd α] in
theorem mem_setAt_foldl_dropAt :
    b ∈ (l.foldl (fun m c => m.dropAt (key c) (f c)) m).setAt k ↔
      b ∈ m.setAt k ∧ ∀ c ∈ l, ¬ (key c = k ∧ b = f c) := by
  induction l generalizing m with
  | nil => simp
  | cons c l ih => rw [List.foldl_cons, ih, mem_setAt_dropAt]; grind

end Folds

end Lemmas

end ValueGraph.SortedMap
