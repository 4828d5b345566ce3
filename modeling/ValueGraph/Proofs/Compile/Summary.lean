import Mathlib
import ValueGraph.Compile.Report
import ValueGraph.Collection.Order

namespace ValueGraph

namespace Failure

variable {f g : Failure}

def subject (f : Failure) : String :=
  match f.detail with
  | some detail => ": " ++ detail
  | none => " for " ++ f.requirement.name

theorem identity_eq_append (f : Failure) : f.identity = toString f.kind ++ f.subject := by
  unfold identity subject
  cases f.detail <;> exact String.append_assoc

theorem kind_eq_of_begins : ∀ k k' : FailureKind,
    (toString k).toList <+: (toString k').toList → k = k' := by
  intro k k'
  cases k <;> cases k' <;> decide

theorem kind_eq_of_append_eq {k k' : FailureKind} {s s' : String}
    (h : toString k ++ s = toString k' ++ s') : k = k' := by
  have hl : (toString k).toList ++ s.toList = (toString k').toList ++ s'.toList := by
    rw [← String.toList_append, ← String.toList_append, h]
  have hk : (toString k).toList <+: (toString k).toList ++ s.toList := List.prefix_append _ _
  have hk' : (toString k').toList <+: (toString k).toList ++ s.toList :=
    hl ▸ List.prefix_append _ _
  rcases List.prefix_or_prefix_of_prefix hk hk' with hp | hp
  · exact kind_eq_of_begins k k' hp
  · exact (kind_eq_of_begins k' k hp).symm

/-- A detail is told from the name of a value by what comes before it. -/
theorem subject_eq_iff : f.subject = g.subject ↔
    f.detail = g.detail ∧ (f.detail = none → f.requirement.name = g.requirement.name) := by
  have hdiffer : ∀ d n : String, ": " ++ d ≠ " for " ++ n := by
    intro d n h
    have hhead := congrArg (fun s : String => s.toList.head?) h
    simp [String.toList_append] at hhead
  unfold subject
  cases f.detail with
  | some d =>
    cases g.detail with
    | some d' => simp
    | none => simp [hdiffer]
  | none =>
    cases g.detail with
    | some d' => simp [(hdiffer _ _).symm]
    | none => simp

theorem identity_eq_iff : f.identity = g.identity ↔ f.kind = g.kind ∧ f.detail = g.detail ∧
    (f.detail = none → f.requirement.name = g.requirement.name) := by
  rw [identity_eq_append, identity_eq_append]
  constructor
  · intro h
    have hkind := kind_eq_of_append_eq h
    rw [hkind, String.append_right_inj] at h
    exact ⟨hkind, subject_eq_iff.1 h⟩
  · rintro ⟨hkind, hsubject⟩
    rw [hkind, subject_eq_iff.2 hsubject]

end Failure

namespace FailureGroup

variable {g h : FailureGroup}

def outline (g : FailureGroup) : String × FailureKind × Nat := (g.identity, g.kind, g.occurrences)

theorem precedes_iff : g.precedes h = true ↔
    h.occurrences < g.occurrences ∨ g.occurrences = h.occurrences ∧ g.identity ≤ h.identity := by
  simp [precedes]

theorem precedes_trans (g h g' : FailureGroup) (h₁ : g.precedes h = true) (h₂ : h.precedes g' = true) :
    g.precedes g' = true := by
  rw [precedes_iff] at *
  rcases h₁ with h₁ | ⟨h₁, hi⟩
  · exact .inl (by omega)
  rcases h₂ with h₂ | ⟨h₂, hi'⟩
  · exact .inl (by omega)
  · exact .inr ⟨h₁.trans h₂, String.le_trans hi hi'⟩

theorem precedes_total (g h : FailureGroup) : (g.precedes h || h.precedes g) = true := by
  rw [Bool.or_eq_true, precedes_iff, precedes_iff]
  rcases Nat.lt_trichotomy g.occurrences h.occurrences with hlt | heq | hlt
  · exact .inr (.inl hlt)
  · rcases String.le_total g.identity h.identity with hi | hi
    · exact .inl (.inr ⟨heq, hi⟩)
    · exact .inr (.inr ⟨heq.symm, hi⟩)
  · exact .inl (.inl hlt)

end FailureGroup

namespace FailureReport

variable {r r' : FailureReport} {l : List Failure} {i : String} {g : FailureGroup}

section Groups

def groupOf (l : List Failure) (i : String) : Option FailureGroup :=
  (l.find? (·.identity = i)).map fun f =>
    { identity := i, kind := f.kind, occurrences := l.countP (·.identity = i), first := f }

theorem get?_count {groups : SortedMap String FailureGroup} {f : Failure} :
    (count groups f).get? i =
      if f.identity = i then some (((groups.get? i).map (·.increment)).getD (.ofFailure f))
      else groups.get? i := by
  unfold count
  by_cases hi : f.identity = i
  · subst hi
    cases hg : groups.get? f.identity <;> simp
  · cases hg : groups.get? f.identity <;> simp [hi]

/-- The groups so far are those of the failures so far. -/
theorem get?_foldl_count : (l.foldl count ∅).get? i = groupOf l i := by
  induction l using List.reverseRecOn with
  | nil => rfl
  | append_singleton l f ih =>
    rw [List.foldl_append, List.foldl_cons, List.foldl_nil, get?_count, ih]
    unfold groupOf
    by_cases hi : f.identity = i
    · cases hl : l.find? (·.identity = i) with
      | none =>
        -- The first failure with this identity starts its group.
        have hzero : l.countP (·.identity = i) = 0 := by
          rw [List.countP_eq_zero]
          exact List.find?_eq_none.1 hl
        simp [hl, hi, hzero, FailureGroup.ofFailure]
      | some f' => simp [hl, hi, FailureGroup.increment]
    · simp [hi, List.find?_append]

theorem identity_of_groupOf (h : groupOf l i = some g) : g.identity = i := by
  obtain ⟨f, -, rfl⟩ := Option.map_eq_some_iff.1 h
  rfl

theorem mem_values_iff : g ∈ r.groups.values ↔
    groupOf (r.failures.map (·.2)) g.identity = some g := by
  unfold SortedMap.values groups
  rw [← get?_foldl_count, SortedMap.get?_eq_some_iff, List.mem_map]
  constructor
  · rintro ⟨⟨i, g⟩, hmem, rfl⟩
    have hi := identity_of_groupOf (get?_foldl_count ▸ SortedMap.get?_eq_some_iff.2 hmem)
    rw [hi]
    exact hmem
  · exact fun h => ⟨_, h, rfl⟩

theorem map_identity_values : r.groups.values.map (·.identity) = r.groups.keys := by
  unfold SortedMap.values SortedMap.keys
  rw [List.map_map]
  refine List.map_congr_left fun e he => ?_
  exact identity_of_groupOf (get?_foldl_count ▸ SortedMap.get?_eq_some_iff.2 he)

end Groups

section Summary

theorem perm_summary : r.summary.Perm r.groups.values := List.mergeSort_perm _ _

theorem nodup_identity_summary : (r.summary.map (·.identity)).Nodup := by
  rw [(perm_summary.map _).nodup_iff, map_identity_values]
  exact SortedMap.nodup_keys

theorem mem_summary_iff : g ∈ r.summary ↔
    (r.failures.find? (·.2.identity = g.identity)).map (·.2) = some g.first ∧
      g.kind = g.first.kind ∧ g.occurrences = r.failures.countP (·.2.identity = g.identity) := by
  rw [perm_summary.mem_iff, mem_values_iff]
  unfold groupOf
  rw [List.find?_map, List.countP_map, Option.map_map]
  obtain ⟨i, k, n, f⟩ := g
  cases hf : r.failures.find? (·.2.identity = i) with
  | none => simp [Function.comp_def, hf]
  | some e =>
    simp only [Function.comp_def, hf, Option.map_some, Option.some.injEq, FailureGroup.mk.injEq,
      true_and]
    grind

theorem identity_mem_summary_iff :
    i ∈ r.summary.map (·.identity) ↔ i ∈ r.failures.map (·.2.identity) := by
  rw [List.mem_map, List.mem_map]
  constructor
  · rintro ⟨g, hg, rfl⟩
    obtain ⟨e, he, -⟩ := Option.map_eq_some_iff.1 (mem_summary_iff.1 hg).1
    exact ⟨e, List.mem_of_find?_eq_some he, by simpa using List.find?_some he⟩
  · rintro ⟨e, he, hi⟩
    have hsome : (r.failures.find? (·.2.identity = i)).isSome :=
      List.find?_isSome.2 ⟨e, he, by simpa using hi⟩
    obtain ⟨e', he'⟩ := Option.isSome_iff_exists.1 hsome
    let g : FailureGroup := ⟨i, e'.2.kind, r.failures.countP (·.2.identity = i), e'.2⟩
    exact ⟨g, mem_summary_iff.2 ⟨by rw [he', Option.map_some], rfl, rfl⟩, rfl⟩

theorem kind_of_mem_summary (hg : g ∈ r.summary) {f : Failure} (hf : f.identity = g.identity) :
    f.kind = g.kind := by
  obtain ⟨hfirst, hkind, -⟩ := mem_summary_iff.1 hg
  obtain ⟨e, he, hef⟩ := Option.map_eq_some_iff.1 hfirst
  have hid : e.2.identity = g.identity := by simpa using List.find?_some he
  rw [hkind, ← hef]
  exact (Failure.identity_eq_iff.1 (hf.trans hid.symm)).1

theorem sum_occurrences : (r.summary.map (·.occurrences)).sum = r.size := by
  let ids := r.failures.map (·.2.identity)
  have hcounts : r.summary.map (·.occurrences) =
      (r.summary.map (·.identity)).map fun i => ids.count i := by
    rw [List.map_map]
    refine List.map_congr_left fun g hg => ?_
    rw [(mem_summary_iff.1 hg).2.2, Function.comp_apply, List.count_eq_countP, List.countP_map]
    rfl
  have hperm : (r.summary.map (·.identity)).Perm ids.dedup :=
    (List.perm_ext_iff_of_nodup nodup_identity_summary ids.nodup_dedup).2 fun i => by
      rw [identity_mem_summary_iff, List.mem_dedup]
  calc (r.summary.map (·.occurrences)).sum
      = (ids.dedup.map fun i => ids.count i).sum := by rw [hcounts, (hperm.map _).sum_eq]
    _ = ids.length := List.sum_map_count_dedup_eq_length ids
    _ = r.size := List.length_map _

/-- Does the outline come first, for its count, or its identity where the counts are equal? -/
def Ahead (x y : String × FailureKind × Nat) : Prop := y.2.2 < x.2.2 ∨ x.2.2 = y.2.2 ∧ x.1 < y.1

theorem pairwise_ahead : (r.summary.map (·.outline)).Pairwise Ahead := by
  have hsorted : r.summary.Pairwise fun g h => g.precedes h = true :=
    List.pairwise_mergeSort FailureGroup.precedes_trans FailureGroup.precedes_total _
  have hdistinct := List.pairwise_map.1 (nodup_identity_summary (r := r))
  rw [List.pairwise_map]
  refine (hsorted.and hdistinct).imp fun {g h} ⟨hle, hne⟩ => ?_
  rcases FailureGroup.precedes_iff.1 hle with hlt | ⟨heq, hid⟩
  · exact .inl hlt
  · exact .inr ⟨heq, Std.lt_of_le_of_ne hid hne⟩

theorem not_ahead_of_ahead {x y : String × FailureKind × Nat} (h : Ahead x y) : ¬ Ahead y x := by
  unfold Ahead at *
  rcases h with h | ⟨h, hlt⟩
  · omega
  · rintro (h' | ⟨-, hlt'⟩)
    · omega
    · exact String.lt_asymm hlt hlt'

theorem mem_outlines_iff {k : FailureKind} {n : Nat} : (i, k, n) ∈ r.summary.map (·.outline) ↔
    (∃ e ∈ r.failures, e.2.identity = i ∧ e.2.kind = k) ∧
      n = r.failures.countP (·.2.identity = i) := by
  rw [List.mem_map]
  constructor
  · rintro ⟨g, hg, ho⟩
    cases ho
    have hi : g.identity ∈ r.summary.map (·.identity) := List.mem_map_of_mem hg
    obtain ⟨e, he, hid⟩ := List.mem_map.1 (identity_mem_summary_iff.1 hi)
    exact ⟨⟨e, he, hid, kind_of_mem_summary hg hid⟩, (mem_summary_iff.1 hg).2.2⟩
  · rintro ⟨⟨e, he, rfl, rfl⟩, rfl⟩
    obtain ⟨g, hg, hid⟩ := List.mem_map.1
      (identity_mem_summary_iff.2 (List.mem_map.2 ⟨e, he, rfl⟩))
    refine ⟨g, hg, ?_⟩
    unfold FailureGroup.outline
    rw [kind_of_mem_summary hg hid.symm, (mem_summary_iff.1 hg).2.2, hid]

/-- Are these groups the failures of the report, sorted out by identity? -/
structure Partitioned (r : FailureReport) (groups : List FailureGroup) : Prop where
  /-- Each identity that a record has is there once, and no other. -/
  distinct : (groups.map (·.identity)).Nodup
  identities : ∀ i, i ∈ groups.map (·.identity) ↔ ∃ e ∈ r.failures, e.2.identity = i
  occurrences : ∀ g ∈ groups, g.occurrences = r.failures.countP (·.2.identity = g.identity)
  size : (groups.map (·.occurrences)).sum = r.size
  first : ∀ g ∈ groups,
    (r.failures.find? (·.2.identity = g.identity)).map (·.2) = some g.first
  kind : ∀ g ∈ groups, ∀ e ∈ r.failures, e.2.identity = g.identity → e.2.kind = g.kind
  /-- The more frequent groups come first, then those with the smaller identity. -/
  ordered : groups.Pairwise fun g h =>
    h.occurrences < g.occurrences ∨ g.occurrences = h.occurrences ∧ g.identity < h.identity
  /-- The records in another order have the same groups but for the examples. -/
  reordered : ∀ r' : FailureReport, r'.failures.Perm r.failures →
    r'.summary.map (·.outline) = groups.map (·.outline)

theorem partitioned_summary (r : FailureReport) : r.Partitioned r.summary where
  distinct := nodup_identity_summary
  identities i := identity_mem_summary_iff.trans List.mem_map
  occurrences g hg := (mem_summary_iff.1 hg).2.2
  size := sum_occurrences
  first g hg := (mem_summary_iff.1 hg).1
  kind g hg e _ he := kind_of_mem_summary hg he
  ordered := List.pairwise_map.1 pairwise_ahead
  reordered r' h := by
    refine eq_of_pairwise not_ahead_of_ahead pairwise_ahead pairwise_ahead fun ⟨i, k, n⟩ => ?_
    rw [mem_outlines_iff, mem_outlines_iff, h.countP_eq]
    simp only [h.mem_iff]

end Summary

end FailureReport

end ValueGraph
