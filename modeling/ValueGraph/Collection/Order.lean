namespace ValueGraph

theorem eq_of_compareOn_eq {α β : Type} [Ord β] [Std.LawfulEqOrd β] {key : α → β} {a b : α}
    (h : compareOn key a b = .eq) : key a = key b :=
  Std.LawfulEqCmp.eq_of_compare h

theorem lawfulEqCmp_of_key {α β : Type} [Ord β] [Std.LawfulEqOrd β] {f : α → β}
    (h : ∀ a b, f a = f b → a = b) : Std.LawfulEqCmp (compareOn f) where
  compare_self {a} := by simp only [compareOn, Std.ReflCmp.compare_self]
  eq_of_compare {a b} hab := h a b (eq_of_compareOn_eq hab)

theorem lawfulEqCmp_of_keys {α β γ : Type} [Ord β] [Ord γ] [Std.LawfulEqOrd β] [Std.LawfulEqOrd γ]
    {f : α → β} {g : α → γ} (h : ∀ a b, f a = f b → g a = g b → a = b) :
    Std.LawfulEqCmp (compareLex (compareOn f) (compareOn g)) where
  compare_self {a} := by
    simp only [compareLex, compareOn, Std.ReflCmp.compare_self]; rfl
  eq_of_compare {a b} hab := by
    rw [compareLex, Ordering.then_eq_eq] at hab
    exact h a b (eq_of_compareOn_eq hab.1) (eq_of_compareOn_eq hab.2)

theorem lawfulEqCmp_of_three_keys {α β γ δ : Type} [Ord β] [Ord γ] [Ord δ] [Std.LawfulEqOrd β]
    [Std.LawfulEqOrd γ] [Std.LawfulEqOrd δ] {f : α → β} {g : α → γ} {k : α → δ}
    (h : ∀ a b, f a = f b → g a = g b → k a = k b → a = b) :
    Std.LawfulEqCmp (compareLex (compareOn f) (compareLex (compareOn g) (compareOn k))) where
  compare_self {a} := by
    simp only [compareLex, compareOn, Std.ReflCmp.compare_self]; rfl
  eq_of_compare {a b} hab := by
    simp only [compareLex, Ordering.then_eq_eq] at hab
    exact h a b (eq_of_compareOn_eq hab.1) (eq_of_compareOn_eq hab.2.1)
      (eq_of_compareOn_eq hab.2.2)

/-- Lists that are pairwise in an asymmetric relation are equal if their members are the same. -/
theorem eq_of_pairwise {α : Type} {r : α → α → Prop} (asymm : ∀ {a b}, r a b → ¬ r b a)
    {l m : List α} (hl : l.Pairwise r) (hm : m.Pairwise r) (h : ∀ a, a ∈ l ↔ a ∈ m) : l = m := by
  induction l generalizing m with
  | nil =>
    cases m with
    | nil => rfl
    | cons b m => exact absurd ((h b).2 List.mem_cons_self) List.not_mem_nil
  | cons a l ih =>
    cases m with
    | nil => exact absurd ((h a).1 List.mem_cons_self) List.not_mem_nil
    | cons b m =>
      have hl := List.pairwise_cons.1 hl
      have hm := List.pairwise_cons.1 hm
      obtain rfl : a = b := by
        rcases List.mem_cons.1 ((h a).1 List.mem_cons_self) with hab | hab
        · exact hab
        rcases List.mem_cons.1 ((h b).2 List.mem_cons_self) with hba | hba
        · exact hba.symm
        · exact (asymm (hm.1 a hab) (hl.1 b hba)).elim
      refine congrArg (a :: ·) (ih hl.2 hm.2 fun x => ⟨fun hx => ?_, fun hx => ?_⟩)
      · rcases List.mem_cons.1 ((h x).1 (List.mem_cons_of_mem a hx)) with rfl | hx'
        · exact (asymm (hl.1 x hx) (hl.1 x hx)).elim
        · exact hx'
      · rcases List.mem_cons.1 ((h x).2 (List.mem_cons_of_mem a hx)) with rfl | hx'
        · exact (asymm (hm.1 x hx) (hm.1 x hx)).elim
        · exact hx'

theorem not_lt_of_lt {α : Type} [Ord α] [Std.TransOrd α] {a b : α} (h : compare a b = .lt) :
    compare b a ≠ .lt := fun h' => by
  have := Std.TransCmp.lt_trans h h'
  simp [Std.ReflCmp.compare_self] at this

end ValueGraph
