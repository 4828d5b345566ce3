import ValueGraph.Collection.SortedSet

namespace ValueGraph

structure SortedMap (κ β : Type) [Ord κ] where
  entries : List (κ × β)
  ascending : entries.Pairwise fun a b => compare a.1 b.1 = .lt
deriving DecidableEq

namespace SortedMap

variable {κ β γ : Type} [Ord κ]

def empty : SortedMap κ β := ⟨[], .nil⟩

instance : Inhabited (SortedMap κ β) := ⟨empty⟩

instance : EmptyCollection (SortedMap κ β) := ⟨empty⟩

def size (m : SortedMap κ β) : Nat := m.entries.length

def isEmpty (m : SortedMap κ β) : Bool := m.entries.isEmpty

def keys (m : SortedMap κ β) : List κ := m.entries.map (·.1)

def values (m : SortedMap κ β) : List β := m.entries.map (·.2)

def keySet (m : SortedMap κ β) : SortedSet κ := ⟨m.keys, List.pairwise_map.2 m.ascending⟩

def get? [DecidableEq κ] (m : SortedMap κ β) (k : κ) : Option β :=
  (m.entries.find? (·.1 = k)).map (·.2)

instance [DecidableEq κ] : Membership κ (SortedMap κ β) := ⟨fun m k => (m.get? k).isSome⟩

instance [DecidableEq κ] (k : κ) (m : SortedMap κ β) : Decidable (k ∈ m) :=
  inferInstanceAs (Decidable ((m.get? k).isSome = true))

def insertAscending (k : κ) (v : β) : List (κ × β) → List (κ × β)
  | [] => [(k, v)]
  | e :: l =>
    match compare k e.1 with
    | .lt => (k, v) :: e :: l
    | .eq => (k, v) :: l
    | .gt => e :: insertAscending k v l

theorem eq_or_mem_of_mem_insertAscending {k : κ} {v : β} {e : κ × β} {l : List (κ × β)}
    (h : e ∈ insertAscending k v l) : e = (k, v) ∨ e ∈ l := by
  induction l with
  | nil => simpa [insertAscending] using h
  | cons c l ih =>
    rw [insertAscending] at h
    split at h <;> grind

theorem pairwise_insertAscending [Std.TransOrd κ] (k : κ) (v : β) {l : List (κ × β)}
    (h : l.Pairwise fun a b => compare a.1 b.1 = .lt) :
    (insertAscending k v l).Pairwise fun a b => compare a.1 b.1 = .lt := by
  induction l with
  | nil => simp [insertAscending]
  | cons b l ih =>
    have hb := List.pairwise_cons.1 h
    rw [insertAscending]
    split
    case h_1 hkb =>
      refine List.pairwise_cons.2 ⟨fun c hc => ?_, h⟩
      rcases List.mem_cons.1 hc with rfl | hc
      · exact hkb
      · exact Std.TransCmp.lt_trans hkb (hb.1 c hc)
    case h_2 hkb =>
      exact List.pairwise_cons.2 ⟨fun c hc => Std.TransCmp.lt_of_eq_of_lt hkb (hb.1 c hc), hb.2⟩
    case h_3 hkb =>
      refine List.pairwise_cons.2 ⟨fun c hc => ?_, ih hb.2⟩
      rcases eq_or_mem_of_mem_insertAscending hc with rfl | hc
      · exact Std.OrientedCmp.gt_iff_lt.1 hkb
      · exact hb.1 c hc

def insert [Std.TransOrd κ] (m : SortedMap κ β) (k : κ) (v : β) : SortedMap κ β :=
  ⟨insertAscending k v m.entries, pairwise_insertAscending k v m.ascending⟩

/-- Of two entries with one key the later is kept. -/
def ofList [Std.TransOrd κ] (l : List (κ × β)) : SortedMap κ β :=
  l.foldl (fun m e => m.insert e.1 e.2) empty

def filter (p : κ → β → Bool) (m : SortedMap κ β) : SortedMap κ β :=
  ⟨m.entries.filter fun e => p e.1 e.2, m.ascending.filter _⟩

def erase [DecidableEq κ] (m : SortedMap κ β) (k : κ) : SortedMap κ β :=
  m.filter fun k' _ => k' ≠ k

def modify [DecidableEq κ] [Std.TransOrd κ] (m : SortedMap κ β) (k : κ) (f : β → β) :
    SortedMap κ β :=
  match m.get? k with
  | some v => m.insert k (f v)
  | none => m

def mapValues (f : κ → β → γ) (m : SortedMap κ β) : SortedMap κ γ :=
  ⟨m.entries.map fun e => (e.1, f e.1 e.2), List.pairwise_map.2 m.ascending⟩

def compareEntry [Ord β] : κ × β → κ × β → Ordering :=
  compareLex (compareOn Prod.fst) (compareOn Prod.snd)

instance [Ord β] : Ord (SortedMap κ β) :=
  ⟨fun m n => List.compareLex compareEntry m.entries n.entries⟩

section Order

variable [Ord β]

instance [Std.TransOrd κ] [Std.TransOrd β] :
    Std.TransCmp (compareEntry : κ × β → κ × β → Ordering) :=
  inferInstanceAs (Std.TransCmp (compareLex (compareOn Prod.fst) (compareOn Prod.snd)))

instance [Std.LawfulEqOrd κ] [Std.LawfulEqOrd β] :
    Std.LawfulEqCmp (compareEntry : κ × β → κ × β → Ordering) where
  compare_self := by simp [compareEntry, compareLex, compareOn]
  eq_of_compare {a b} h := by
    simp only [compareEntry, compareLex, compareOn, Ordering.then_eq_eq,
      Std.LawfulEqCmp.compare_eq_iff_eq] at h
    exact Prod.ext h.1 h.2

theorem transCmp_entries [Std.TransOrd κ] [Std.TransOrd β] :
    Std.TransCmp (List.compareLex (compareEntry : κ × β → κ × β → Ordering)) := inferInstance

theorem lawfulEqCmp_entries [Std.LawfulEqOrd κ] [Std.LawfulEqOrd β] :
    Std.LawfulEqCmp (List.compareLex (compareEntry : κ × β → κ × β → Ordering)) := inferInstance

instance [Std.TransOrd κ] [Std.TransOrd β] : Std.TransOrd (SortedMap κ β) where
  eq_swap := transCmp_entries.eq_swap
  isLE_trans := transCmp_entries.isLE_trans

instance [Std.LawfulEqOrd κ] [Std.LawfulEqOrd β] : Std.LawfulEqOrd (SortedMap κ β) where
  compare_self := lawfulEqCmp_entries.compare_self
  eq_of_compare {m n} h := by
    have h : m.entries = n.entries := lawfulEqCmp_entries.eq_of_compare h
    cases m; cases n; simp_all

end Order

section Lemmas

variable [DecidableEq κ] {k k' : κ} {v : β} {m : SortedMap κ β}

theorem mem_iff_isSome_get? : k ∈ m ↔ (m.get? k).isSome := .rfl

@[simp] theorem get?_empty : (∅ : SortedMap κ β).get? k = none := rfl

theorem find?_insertAscending [Std.LawfulEqOrd κ] {l : List (κ × β)} :
    (insertAscending k v l).find? (·.1 = k') =
      if k = k' then some (k, v) else l.find? (·.1 = k') := by
  induction l with
  | nil => simp only [insertAscending, List.find?_cons]; grind
  | cons e l ih =>
    rw [insertAscending]
    split
    case h_1 => simp only [List.find?_cons]; grind
    case h_2 hke => have := Std.LawfulEqCmp.eq_of_compare hke; simp only [List.find?_cons]; grind
    case h_3 hke =>
      have : k ≠ e.1 := fun h => by simp [h] at hke
      simp only [List.find?_cons, ih]; grind

@[simp] theorem get?_insert [Std.TransOrd κ] [Std.LawfulEqOrd κ] :
    (m.insert k v).get? k' = if k = k' then some v else m.get? k' := by
  simp only [get?, insert, find?_insertAscending]
  split <;> rfl

@[simp] theorem mem_insert [Std.TransOrd κ] [Std.LawfulEqOrd κ] :
    k' ∈ m.insert k v ↔ k = k' ∨ k' ∈ m := by
  simp only [mem_iff_isSome_get?, get?_insert]
  split <;> simp_all

theorem length_filter_insert_lt [Std.TransOrd κ] [Std.LawfulEqOrd κ] {l : List κ} (hk : k ∈ l)
    (hm : m.get? k = none) :
    (l.filter (· ∉ m.insert k v)).length < (l.filter (· ∉ m)).length := by
  refine length_filter_lt hk (by simp [mem_iff_isSome_get?, hm]) (by simp) fun k' hk' => ?_
  simp only [mem_insert, decide_eq_true_eq, not_or] at hk' ⊢
  exact hk'.2

@[simp] theorem get?_erase : (m.erase k).get? k' = if k = k' then none else m.get? k' := by
  simp only [get?, erase, filter]
  induction m.entries with
  | nil => simp
  | cons e l ih => simp only [List.filter_cons, List.find?_cons]; grind

theorem get?_eq_some_iff [Std.TransOrd κ] : m.get? k = some v ↔ (k, v) ∈ m.entries := by
  obtain ⟨l, hl⟩ := m
  simp only [get?, Option.map_eq_some_iff]
  induction l with
  | nil => simp
  | cons e l ih =>
    have he := List.pairwise_cons.1 hl
    by_cases hk : e.1 = k
    · subst hk
      have hnot (v : β) : (e.1, v) ∉ l := fun h => by
        simpa [Std.ReflCmp.compare_self] using he.1 _ h
      simp only [List.find?_cons, decide_true, List.mem_cons, hnot, or_false]
      grind
    · simp only [List.find?_cons, hk, decide_false, ih he.2, List.mem_cons]
      grind

theorem mem_keySet [Std.TransOrd κ] : k ∈ m.keySet ↔ k ∈ m := by
  rw [mem_iff_isSome_get?, Option.isSome_iff_exists]
  simp only [get?_eq_some_iff]
  show k ∈ m.keys ↔ _
  simp [keys]

@[simp] theorem get?_filter [Std.TransOrd κ] {p : κ → β → Bool} :
    (m.filter p).get? k = (m.get? k).filter (p k) := by
  refine Option.ext fun v => ?_
  simp only [get?_eq_some_iff, Option.filter_eq_some_iff, filter, List.mem_filter]

@[simp] theorem get?_mapValues {f : κ → β → γ} : (m.mapValues f).get? k = (m.get? k).map (f k) := by
  simp only [get?, mapValues]
  induction m.entries with
  | nil => rfl
  | cons e l ih =>
    by_cases hk : e.1 = k
    · subst hk; simp
    · simpa [List.find?_cons, hk] using ih

@[simp] theorem get?_modify [Std.TransOrd κ] [Std.LawfulEqOrd κ] {f : β → β} :
    (m.modify k f).get? k' = if k = k' then (m.get? k').map f else m.get? k' := by
  unfold modify
  split
  next v h => rw [get?_insert]; split <;> simp_all
  next h =>
    split
    next hk => subst hk; simp [h]
    next => rfl

theorem get?_foldl_insert [Std.TransOrd κ] [Std.LawfulEqOrd κ] {l : List κ} :
    (l.foldl (fun m k => m.insert k v) m).get? k' = if k' ∈ l then some v else m.get? k' := by
  induction l generalizing m with
  | nil => simp
  | cons k l ih => rw [List.foldl_cons, ih, get?_insert]; grind

theorem get?_foldl_erase {l : List κ} :
    (l.foldl erase m).get? k' = if k' ∈ l then none else m.get? k' := by
  induction l generalizing m with
  | nil => simp
  | cons k l ih => rw [List.foldl_cons, ih, get?_erase]; grind

theorem get?_foldl_modify [Std.TransOrd κ] [Std.LawfulEqOrd κ] {l : List κ} {f : β → β}
    (hl : l.Nodup) :
    (l.foldl (fun m k => m.modify k f) m).get? k' =
      if k' ∈ l then (m.get? k').map f else m.get? k' := by
  induction l generalizing m with
  | nil => simp
  | cons k l ih =>
    obtain ⟨hk, hl⟩ := List.nodup_cons.1 hl
    rw [List.foldl_cons, ih hl, get?_modify]
    grind

omit [DecidableEq κ] in
theorem nodup_entries [Std.ReflOrd κ] : m.entries.Nodup :=
  m.ascending.imp fun {a b} h he => by
    subst he
    simp [Std.ReflCmp.compare_self] at h

omit [DecidableEq κ] in
theorem nodup_keys [Std.ReflOrd κ] : m.keys.Nodup := by
  apply List.pairwise_map.2
  apply m.ascending.imp
  intro a b h he
  rw [he] at h
  simp [Std.ReflCmp.compare_self] at h

theorem entries_insert_perm [Std.TransOrd κ] [Std.LawfulEqOrd κ] :
    (m.insert k v).entries.Perm ((k, v) :: (m.erase k).entries) := by
  have hk : (k, v) ∉ (m.erase k).entries := by
    rw [← get?_eq_some_iff, get?_erase]
    simp
  refine (List.perm_ext_iff_of_nodup nodup_entries
    (List.nodup_cons.2 ⟨hk, nodup_entries⟩)).2 fun (k', v') => ?_
  rw [List.mem_cons, ← get?_eq_some_iff, ← get?_eq_some_iff, get?_insert, get?_erase]
  grind

theorem entries_perm_erase [Std.TransOrd κ] (h : m.get? k = some v) :
    m.entries.Perm ((k, v) :: (m.erase k).entries) := by
  have hk : (k, v) ∉ (m.erase k).entries := by
    rw [← get?_eq_some_iff, get?_erase]
    simp
  refine (List.perm_ext_iff_of_nodup nodup_entries
    (List.nodup_cons.2 ⟨hk, nodup_entries⟩)).2 fun (k', v') => ?_
  rw [List.mem_cons, ← get?_eq_some_iff, ← get?_eq_some_iff, get?_erase]
  grind

theorem ext_get? [Std.TransOrd κ] {n : SortedMap κ β} (h : ∀ k, m.get? k = n.get? k) : m = n := by
  have he : ∀ e, e ∈ m.entries ↔ e ∈ n.entries := fun (k, v) => by
    rw [← get?_eq_some_iff, ← get?_eq_some_iff, h]
  obtain ⟨l, hl⟩ := m
  obtain ⟨l', hl'⟩ := n
  obtain rfl : l = l' := eq_of_pairwise not_lt_of_lt hl hl' he
  rfl

theorem erase_eq_self [Std.TransOrd κ] (h : m.get? k = none) : m.erase k = m := by
  refine ext_get? fun k' => ?_
  rw [get?_erase]
  split <;> simp_all

theorem erase_insert [Std.TransOrd κ] [Std.LawfulEqOrd κ] (h : m.get? k = none) :
    (m.insert k v).erase k = m := by
  refine ext_get? fun k' => ?_
  rw [get?_erase, get?_insert]
  split <;> simp_all

omit [DecidableEq κ] in
theorem insertAscending_append [Std.OrientedOrd κ] {l : List (κ × β)}
    (h : ∀ e ∈ l, compare e.1 k = .lt) : insertAscending k v l = l ++ [(k, v)] := by
  induction l with
  | nil => rfl
  | cons e l ih =>
    have he : compare k e.1 = .gt := Std.OrientedCmp.gt_iff_lt.2 (h e List.mem_cons_self)
    rw [insertAscending, he]
    exact congrArg (e :: ·) (ih fun e' he' => h e' (List.mem_cons_of_mem _ he'))

omit [DecidableEq κ] in
theorem entries_foldl_insert [Std.TransOrd κ] {l : List (κ × β)}
    (h : (m.entries ++ l).Pairwise fun a b => compare a.1 b.1 = .lt) :
    (l.foldl (fun m e => m.insert e.1 e.2) m).entries = m.entries ++ l := by
  induction l generalizing m with
  | nil => exact (List.append_nil _).symm
  | cons e l ih =>
    have hlast : (m.insert e.1 e.2).entries = m.entries ++ [e] :=
      insertAscending_append fun e' he' =>
        (List.pairwise_append.1 h).2.2 e' he' e List.mem_cons_self
    rw [List.append_cons, ← hlast] at h ⊢
    exact ih h

omit [DecidableEq κ] in
theorem entries_ofList [Std.TransOrd κ] {l : List (κ × β)}
    (h : l.Pairwise fun a b => compare a.1 b.1 = .lt) : (ofList l).entries = l :=
  entries_foldl_insert h

omit [DecidableEq κ] in
@[simp] theorem ofList_entries [Std.TransOrd κ] : ofList m.entries = m := by
  have h := entries_ofList m.ascending
  cases hm : ofList m.entries
  simp_all

end Lemmas

end SortedMap

end ValueGraph
