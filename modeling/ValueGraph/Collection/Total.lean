namespace ValueGraph

def total {α : Type} (f : α → Nat) : List α → Nat
  | [] => 0
  | a :: l => f a + total f l

variable {α : Type} {f : α → Nat}

theorem total_modify {g : α → α} {l : List α} {i : Nat} {a : α} (h : l[i]? = some a) :
    total f (l.modify i g) + f a = total f l + f (g a) := by
  induction l generalizing i with
  | nil => simp at h
  | cons b l ih =>
    cases i with
    | zero =>
      obtain rfl : b = a := by simpa using h
      simp only [List.modify_zero_cons, total]
      omega
    | succ i =>
      have := ih (i := i) (by simpa using h)
      simp only [List.modify_succ_cons, total]
      omega

@[simp] theorem total_append {l m : List α} : total f (l ++ m) = total f l + total f m := by
  induction l with
  | nil => simp [total]
  | cons a l ih => simp only [List.cons_append, total, ih]; omega

theorem length_filter_lt {p q : α → Bool} {l : List α} {a : α} (ha : a ∈ l)
    (hp : p a = true) (hq : q a = false) (h : ∀ b, q b = true → p b = true) :
    (l.filter q).length < (l.filter p).length := by
  have hfilter : l.filter q = (l.filter p).filter q := by
    rw [List.filter_filter]
    exact List.filter_congr fun b _ => by cases hb : q b <;> simp [hb, h]
  rw [hfilter, List.length_filter_lt_length_iff_exists]
  exact ⟨a, List.mem_filter.2 ⟨ha, hp⟩, by simp [hq]⟩

end ValueGraph
