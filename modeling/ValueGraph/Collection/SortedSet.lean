import ValueGraph.Collection.Order
import ValueGraph.Collection.Total

namespace ValueGraph

/-- A finite set, listed in strictly ascending order. -/
structure SortedSet (α : Type) [Ord α] where
  toList : List α
  ascending : toList.Pairwise fun a b => compare a b = .lt
deriving DecidableEq

namespace SortedSet

variable {α : Type} [Ord α]

def empty : SortedSet α := ⟨[], .nil⟩

instance : Inhabited (SortedSet α) := ⟨empty⟩

instance : EmptyCollection (SortedSet α) := ⟨empty⟩

def singleton (a : α) : SortedSet α := ⟨[a], List.pairwise_singleton ..⟩

def size (s : SortedSet α) : Nat := s.toList.length

def isEmpty (s : SortedSet α) : Bool := s.toList.isEmpty

instance : Membership α (SortedSet α) := ⟨fun s a => a ∈ s.toList⟩

instance [DecidableEq α] (a : α) (s : SortedSet α) : Decidable (a ∈ s) :=
  inferInstanceAs (Decidable (a ∈ s.toList))

theorem mem_toList {a : α} {s : SortedSet α} : a ∈ s.toList ↔ a ∈ s := .rfl

/-- Puts `a` before the first larger element and in place of an equal one. -/
def insertAscending (a : α) : List α → List α
  | [] => [a]
  | b :: l =>
    match compare a b with
    | .lt => a :: b :: l
    | .eq => a :: l
    | .gt => b :: insertAscending a l

theorem eq_or_mem_of_mem_insertAscending {a b : α} {l : List α}
    (h : b ∈ insertAscending a l) : b = a ∨ b ∈ l := by
  induction l with
  | nil => simpa [insertAscending] using h
  | cons c l ih =>
    rw [insertAscending] at h
    split at h <;> grind

theorem pairwise_insertAscending [Std.TransOrd α] (a : α) {l : List α}
    (h : l.Pairwise fun a b => compare a b = .lt) :
    (insertAscending a l).Pairwise fun a b => compare a b = .lt := by
  induction l with
  | nil => simp [insertAscending]
  | cons b l ih =>
    have hb := List.pairwise_cons.1 h
    rw [insertAscending]
    split
    case h_1 hab =>
      refine List.pairwise_cons.2 ⟨fun c hc => ?_, h⟩
      rcases List.mem_cons.1 hc with rfl | hc
      · exact hab
      · exact Std.TransCmp.lt_trans hab (hb.1 c hc)
    case h_2 hab =>
      exact List.pairwise_cons.2 ⟨fun c hc => Std.TransCmp.lt_of_eq_of_lt hab (hb.1 c hc), hb.2⟩
    case h_3 hab =>
      refine List.pairwise_cons.2 ⟨fun c hc => ?_, ih hb.2⟩
      rcases eq_or_mem_of_mem_insertAscending hc with rfl | hc
      · exact Std.OrientedCmp.gt_iff_lt.1 hab
      · exact hb.1 c hc

def insert [Std.TransOrd α] (s : SortedSet α) (a : α) : SortedSet α :=
  ⟨insertAscending a s.toList, pairwise_insertAscending a s.ascending⟩

def ofList [Std.TransOrd α] (l : List α) : SortedSet α := l.foldl insert empty

def union [Std.TransOrd α] (s t : SortedSet α) : SortedSet α := t.toList.foldl insert s

instance [Std.TransOrd α] : Union (SortedSet α) := ⟨union⟩

def filter (p : α → Bool) (s : SortedSet α) : SortedSet α :=
  ⟨s.toList.filter p, s.ascending.filter _⟩

def erase [DecidableEq α] (s : SortedSet α) (a : α) : SortedSet α := s.filter (· ≠ a)

def meets [DecidableEq α] (s t : SortedSet α) : Bool := s.toList.any (· ∈ t)

instance : Ord (SortedSet α) := ⟨compareOn toList⟩

instance [Std.TransOrd α] : Std.TransOrd (SortedSet α) :=
  inferInstanceAs (Std.TransCmp (compareOn toList))

instance [Std.LawfulEqOrd α] : Std.LawfulEqOrd (SortedSet α) :=
  lawfulEqCmp_of_key fun ⟨_, _⟩ ⟨_, _⟩ h => by cases h; rfl

section Lemmas

variable {a b : α} {s t : SortedSet α}

@[simp] theorem not_mem_empty : a ∉ (∅ : SortedSet α) := List.not_mem_nil

theorem exists_mem_iff : (∃ a, a ∈ s) ↔ s ≠ ∅ := by
  constructor
  · rintro ⟨a, ha⟩ rfl
    exact not_mem_empty ha
  · intro hne
    obtain ⟨l, hl⟩ := s
    cases l with
    | nil => exact absurd rfl hne
    | cons a l => exact ⟨a, List.mem_cons_self⟩

@[simp] theorem mem_singleton : b ∈ singleton a ↔ b = a := List.mem_singleton

@[simp] theorem mem_filter {p : α → Bool} : a ∈ s.filter p ↔ a ∈ s ∧ p a = true :=
  List.mem_filter

@[simp] theorem mem_erase [DecidableEq α] : b ∈ s.erase a ↔ b ∈ s ∧ b ≠ a := by
  simp [erase]

theorem mem_foldl_erase [DecidableEq α] {l : List α} : b ∈ l.foldl erase s ↔ b ∈ s ∧ b ∉ l := by
  induction l generalizing s with
  | nil => simp
  | cons a l ih => rw [List.foldl_cons, ih, mem_erase, List.mem_cons]; grind

theorem nodup_toList [Std.ReflOrd α] : s.toList.Nodup :=
  s.ascending.imp fun {a b} h he => by
    subst he
    simp [Std.ReflCmp.compare_self] at h

theorem mem_insertAscending [Std.LawfulEqOrd α] {l : List α} :
    b ∈ insertAscending a l ↔ b = a ∨ b ∈ l := by
  refine ⟨eq_or_mem_of_mem_insertAscending, fun h => ?_⟩
  induction l with
  | nil => simpa [insertAscending] using h
  | cons c l ih =>
    rw [insertAscending]
    split
    case h_1 => grind
    case h_2 hac => have := Std.LawfulEqCmp.eq_of_compare hac; grind
    case h_3 => grind

variable [Std.TransOrd α] [Std.LawfulEqOrd α]

@[simp] theorem mem_insert : b ∈ s.insert a ↔ b = a ∨ b ∈ s := mem_insertAscending

theorem mem_foldl_insert {l : List α} : b ∈ l.foldl insert s ↔ b ∈ s ∨ b ∈ l := by
  induction l generalizing s with
  | nil => simp
  | cons a l ih => rw [List.foldl_cons, ih, mem_insert, List.mem_cons]; grind

@[simp] theorem mem_ofList {l : List α} : b ∈ ofList l ↔ b ∈ l :=
  mem_foldl_insert.trans (or_iff_right List.not_mem_nil)

@[simp] theorem mem_union : b ∈ s ∪ t ↔ b ∈ s ∨ b ∈ t := mem_foldl_insert

theorem length_filter_insert_lt [DecidableEq α] {l : List α} (ha : a ∈ l) (hs : a ∉ s) :
    (l.filter (· ∉ s.insert a)).length < (l.filter (· ∉ s)).length := by
  refine length_filter_lt ha (by simpa using hs) (by simp) fun b hb => ?_
  simp only [mem_insert, decide_eq_true_eq, not_or] at hb ⊢
  exact hb.2

omit [Std.LawfulEqOrd α] in
theorem find?_toList_eq_some_iff {p : α → Bool} :
    s.toList.find? p = some a ↔ (a ∈ s ∧ p a) ∧ ∀ b, b ∈ s ∧ p b → (compare a b).isLE := by
  obtain ⟨l, hl⟩ := s
  show l.find? p = some a ↔ (a ∈ l ∧ p a) ∧ ∀ b, b ∈ l ∧ p b → (compare a b).isLE
  induction l with
  | nil => simp
  | cons c l ih =>
    obtain ⟨hc, hl⟩ := List.pairwise_cons.1 hl
    rw [List.find?_cons]
    cases hp : p c with
    | true =>
      constructor
      · intro h
        cases h
        refine ⟨⟨List.mem_cons_self, hp⟩, fun b ⟨hb, _⟩ => ?_⟩
        rcases List.mem_cons.1 hb with rfl | hb
        · simp [Std.ReflCmp.compare_self]
        · rw [hc b hb]
          rfl
      · rintro ⟨⟨ha, -⟩, hleast⟩
        rcases List.mem_cons.1 ha with rfl | ha
        · rfl
        · have hle := hleast c ⟨List.mem_cons_self, hp⟩
          rw [Std.OrientedOrd.eq_swap, hc a ha] at hle
          cases hle
    | false =>
      refine (ih hl).trans ?_
      constructor
      · rintro ⟨⟨ha, hpa⟩, hleast⟩
        refine ⟨⟨List.mem_cons_of_mem _ ha, hpa⟩, fun b ⟨hb, hpb⟩ => ?_⟩
        rcases List.mem_cons.1 hb with rfl | hb
        · simp [hp] at hpb
        · exact hleast b ⟨hb, hpb⟩
      · rintro ⟨⟨ha, hpa⟩, hleast⟩
        rcases List.mem_cons.1 ha with rfl | ha
        · simp [hp] at hpa
        · exact ⟨⟨ha, hpa⟩, fun b ⟨hb, hpb⟩ => hleast b ⟨List.mem_cons_of_mem _ hb, hpb⟩⟩

omit [Std.LawfulEqOrd α] in
theorem ext_mem (h : ∀ a, a ∈ s ↔ a ∈ t) : s = t := by
  obtain ⟨l, hl⟩ := s
  obtain ⟨m, hm⟩ := t
  obtain rfl : l = m := eq_of_pairwise not_lt_of_lt hl hm h
  rfl

@[simp] theorem ofList_toList : ofList s.toList = s :=
  ext_mem fun _ => mem_ofList

end Lemmas

end SortedSet

end ValueGraph
