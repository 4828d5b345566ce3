import Mathlib
import ValueGraph.Graph.Trace
import ValueGraph.Proofs.Graph.Agreement

namespace ValueGraph.Trace

variable {g : Graph} {levels : SortedMap NodeId Nat} {todo rest : List (Way × ValueSpec)}
  {es before after seen : List Entry} {e f : Entry} {way : Way} {s : ValueSpec}
  {id p : NodeId} {n : Node} {k : Nat}

section Steps

def markFor (g : Graph) (levels : SortedMap NodeId Nat) (s : ValueSpec) : Mark :=
  match g.source? s with
  | none => .outside
  | some (id, n) =>
    match levels.get? id with
    | some level => .repeated level
    | none => .expanded id n

def note (levels : SortedMap NodeId Nat) (e : Entry) : SortedMap NodeId Nat :=
  match e.mark with
  | .expanded id _ => levels.insert id e.way.level
  | _ => levels

/-- The inputs that an entry calls for, each with the way to it. -/
def Entry.inputs (e : Entry) : List (Way × ValueSpec) :=
  match e.mark with
  | .expanded _ n => below e.way n.inputs.toList
  | _ => []

def Entry.opens? (e : Entry) : Option NodeId :=
  match e.mark with
  | .expanded id _ => some id
  | _ => none

@[simp] theorem entries_nil : entries g levels [] = [] := by simp [entries]

theorem entries_cons :
    entries g levels ((way, s) :: todo) =
      let e : Entry := ⟨way, s, markFor g levels s⟩
      e :: entries g (note levels e) (e.inputs ++ todo) := by
  rw [entries]
  split
  next hs => simp [markFor, hs, note, Entry.inputs]
  next id n hs =>
    split
    next level hl => simp [markFor, hs, hl, note, Entry.inputs]
    next hl => simp [markFor, hs, hl, note, Entry.inputs]

theorem entries_induction {motive : SortedMap NodeId Nat → List (Way × ValueSpec) → Prop}
    (nil : ∀ levels, motive levels [])
    (cons : ∀ levels way s todo,
      (let e : Entry := ⟨way, s, markFor g levels s⟩
      motive (note levels e) (e.inputs ++ todo)) → motive levels ((way, s) :: todo))
    (levels : SortedMap NodeId Nat) (todo : List (Way × ValueSpec)) : motive levels todo := by
  induction levels, todo using entries.induct g with
  | case1 levels => exact nil levels
  | case2 levels way s todo hs ih =>
    exact cons _ _ _ _ (by simpa [markFor, hs, note, Entry.inputs] using ih)
  | case3 levels way s todo id n hs level hl ih =>
    exact cons _ _ _ _ (by simpa [markFor, hs, hl, note, Entry.inputs] using ih)
  | case4 levels way s todo id n hs hl ih =>
    exact cons _ _ _ _ (by simpa [markFor, hs, hl, note, Entry.inputs] using ih)

theorem entries_append :
    entries g levels (todo ++ rest) =
      entries g levels todo ++ entries g ((entries g levels todo).foldl note levels) rest := by
  induction levels, todo using entries_induction (g := g) with
  | nil levels => simp
  | cons levels way s todo ih =>
    rw [List.cons_append, entries_cons, entries_cons]
    simp only [List.append_assoc] at ih
    simp [ih]

end Steps

section Levels

theorem level_of_mem_below {inputs : List ValueSpec} {t : Way × ValueSpec}
    (ht : t ∈ below way inputs) : t.1.level = way.level + 1 := by
  obtain ⟨⟨s, i⟩, -, rfl⟩ := List.mem_map.1 ht
  simp [Way.level]

theorem level_of_mem_inputs {t : Way × ValueSpec} (ht : t ∈ e.inputs) :
    t.1.level = e.way.level + 1 := by
  unfold Entry.inputs at ht
  split at ht
  · exact level_of_mem_below ht
  · cases ht

theorem le_level_of_mem_entries (htodo : ∀ t ∈ todo, k ≤ t.1.level)
    (he : e ∈ entries g levels todo) : k ≤ e.way.level := by
  induction levels, todo using entries_induction (g := g) with
  | nil levels => simp at he
  | cons levels way s todo ih =>
    rw [entries_cons] at he
    have hway : k ≤ way.level := htodo _ List.mem_cons_self
    rcases List.mem_cons.1 he with rfl | he
    · exact hway
    · refine ih (fun t ht => ?_) he
      rcases List.mem_append.1 ht with ht | ht
      · rw [level_of_mem_inputs ht]
        exact Nat.le_succ_of_le hway
      · exact htodo t (List.mem_cons_of_mem _ ht)

theorem filter_entries (htodo : ∀ t ∈ todo, k ≤ t.1.level) :
    ((entries g levels todo).filter (·.way.level = k)).map (fun e => (e.way, e.spec)) =
      todo.filter (·.1.level = k) := by
  induction levels, todo using entries_induction (g := g) with
  | nil levels => simp
  | cons levels way s todo ih =>
    rw [entries_cons]
    have hway : k ≤ way.level := htodo _ List.mem_cons_self
    -- The inputs of the first are all further down.
    have hdeep : ∀ e : Entry, e.way = way → e.inputs.filter (·.1.level = k) = [] := by
      rintro e rfl
      refine List.filter_eq_nil_iff.2 fun t ht => ?_
      rw [level_of_mem_inputs ht]
      simpa using Nat.ne_of_gt (Nat.lt_succ_of_le hway)
    have ih := ih fun t ht => by
      rcases List.mem_append.1 ht with ht | ht
      · rw [level_of_mem_inputs ht]
        exact Nat.le_succ_of_le hway
      · exact htodo t (List.mem_cons_of_mem _ ht)
    rw [List.filter_append, hdeep _ rfl, List.nil_append] at ih
    rw [List.filter_cons, List.filter_cons, ← ih]
    split <;> simp_all

def Stacked (todo : List (Way × ValueSpec)) : Prop :=
  todo.Pairwise fun t u => u.1.level ≤ t.1.level

theorem Stacked.next (h : Stacked ((e.way, s) :: todo)) : Stacked (e.inputs ++ todo) := by
  obtain ⟨htop, htodo⟩ := List.pairwise_cons.1 h
  refine List.pairwise_append.2 ⟨List.pairwise_of_forall_mem_list ?_, htodo, fun t ht u hu => ?_⟩
  · intro t ht u hu
    rw [level_of_mem_inputs ht, level_of_mem_inputs hu]
  · rw [level_of_mem_inputs ht]
    exact Nat.le_succ_of_le (htop u hu)

end Levels

section Marks

theorem source?_eq_some_iff (h : g.Indexed) :
    g.source? s = some (id, n) ↔ g.Produces id s ∧ g.node? id = some n := by
  simp only [Graph.source?, Option.bind_eq_bind, Option.bind_eq_some_iff, Option.pure_def,
    Option.some.injEq, Prod.mk.injEq, ← h.producers]
  constructor
  · rintro ⟨i, hi, m, hm, rfl, rfl⟩
    exact ⟨hi, hm⟩
  · rintro ⟨hi, hn⟩
    exact ⟨id, hi, n, hn, rfl, rfl⟩

theorem source?_eq_none_iff (h : g.Indexed) :
    g.source? s = none ↔ ∀ id, ¬ g.Produces id s := by
  constructor
  · rintro hs id ⟨n, hn, hout⟩
    have hs' := (source?_eq_some_iff h).2 ⟨⟨n, hn, hout⟩, hn⟩
    rw [hs] at hs'
    cases hs'
  · intro hno
    rw [Option.eq_none_iff_forall_ne_some]
    rintro ⟨id, n⟩ hs
    exact hno id ((source?_eq_some_iff h).1 hs).1

theorem mem_note : id ∈ note levels e ↔ id ∈ levels ∨ e.opens? = some id := by
  unfold note Entry.opens?
  split <;> simp [or_comm, eq_comm]

/-- Do the levels tell what the entries so far have expanded? -/
structure Noted (g : Graph) (seen : List Entry) (levels : SortedMap NodeId Nat) : Prop where
  level : ∀ id k, levels.get? id = some k → ∃ e ∈ seen, e.opens? = some id ∧ e.way.level = k
  met : ∀ e ∈ seen, ∀ id n, g.source? e.spec = some (id, n) → id ∈ levels

theorem noted_nil : Noted g [] ∅ := ⟨fun _ _ h => by simp at h, fun _ h => by simp at h⟩

theorem Noted.next (h : Noted g seen levels) (he : e.mark = markFor g levels e.spec) :
    Noted g (seen ++ [e]) (note levels e) := by
  constructor
  · intro id k hk
    -- Either this entry expands the node, or one before it did.
    have hcases : e.opens? = some id ∧ e.way.level = k ∨ levels.get? id = some k := by
      unfold note at hk
      unfold Entry.opens?
      split at hk
      next i n hm =>
        rw [SortedMap.get?_insert] at hk
        split at hk
        next hi => exact .inl ⟨by rw [hi], by simpa using hk⟩
        next => exact .inr hk
      next => exact .inr hk
    rcases hcases with hopens | hk
    · exact ⟨e, by simp, hopens⟩
    · obtain ⟨f, hf, hopens⟩ := h.level id k hk
      exact ⟨f, by simp [hf], hopens⟩
  · intro f hf id n hs
    rw [mem_note]
    rcases List.mem_append.1 hf with hf | hf
    · exact .inl (h.met f hf id n hs)
    · obtain rfl := List.mem_singleton.1 hf
      cases hl : levels.get? id with
      | some k => exact .inl (by simp [SortedMap.mem_iff_isSome_get?, hl])
      | none => exact .inr (by simp [Entry.opens?, he, markFor, hs, hl])

/-- Where the list is cut, it goes on with the inputs of the entry there. -/
theorem exists_cut (h : entries g levels todo = before ++ e :: after) (hs : Stacked todo)
    (hnoted : Noted g seen levels) :
    ∃ levels' rest, Noted g (seen ++ before) levels' ∧ e.mark = markFor g levels' e.spec ∧
      Stacked ((e.way, e.spec) :: rest) ∧
      after = entries g (note levels' e) (e.inputs ++ rest) := by
  induction levels, todo using entries_induction (g := g) generalizing before seen with
  | nil levels => simp at h
  | cons levels way s todo ih =>
    rw [entries_cons] at h
    cases before with
    | nil =>
      obtain ⟨rfl, rfl⟩ := List.cons.inj h
      exact ⟨levels, todo, by simpa using hnoted, rfl, hs, rfl⟩
    | cons f before =>
      obtain ⟨rfl, htail⟩ := List.cons.inj h
      simpa using ih htail (Stacked.next hs) (hnoted.next rfl)

/-- What the mark of an entry says of its value, where the entries before it are given. -/
def Entry.Tells (g : Graph) (before : List Entry) (e : Entry) : Prop :=
  match e.mark with
  | .outside => ∀ id, ¬ g.Produces id e.spec
  | .repeated level => ∃ id, g.Produces id e.spec ∧
      ∃ f ∈ before, f.opens? = some id ∧ f.way.level = level
  | .expanded id n => g.Produces id e.spec ∧ g.node? id = some n ∧
      ∀ f ∈ before, ¬ g.Produces id f.spec

theorem Noted.tells (h : Noted g before levels) (hg : g.Indexed)
    (he : e.mark = markFor g levels e.spec) : e.Tells g before := by
  unfold Entry.Tells
  rw [he, markFor]
  cases hs : g.source? e.spec with
  | none => exact (source?_eq_none_iff hg).1 hs
  | some source =>
    obtain ⟨id, n⟩ := source
    obtain ⟨hp, hn⟩ := (source?_eq_some_iff hg).1 hs
    cases hl : levels.get? id with
    | some k => simpa only [hl] using ⟨id, hp, h.level id k hl⟩
    | none =>
      simp only [hl]
      refine ⟨hp, hn, fun f hf hpf => ?_⟩
      have hmet := h.met f hf id n ((source?_eq_some_iff hg).2 ⟨hpf, hn⟩)
      simp [SortedMap.mem_iff_isSome_get?, hl] at hmet

end Marks

section Beneath

/-- The entries beneath `e`, where `after` are the entries that follow it. -/
def Entry.beneath (e : Entry) (after : List Entry) : List Entry :=
  after.takeWhile (e.way.level < ·.way.level)

/-- The entries one level beneath `e`, where `after` are the entries that follow it. -/
def Entry.children (e : Entry) (after : List Entry) : List Entry :=
  (e.beneath after).filter (·.way.level = e.way.level + 1)

theorem beneath_entries (hs : Stacked ((e.way, e.spec) :: rest)) :
    e.beneath (entries g levels (e.inputs ++ rest)) = entries g levels e.inputs := by
  have hdeep : ∀ f ∈ entries g levels e.inputs, e.way.level < f.way.level := fun f hf =>
    le_level_of_mem_entries (fun t ht => (level_of_mem_inputs ht).ge) hf
  unfold Entry.beneath
  rw [entries_append, List.takeWhile_append_of_pos (by simpa using hdeep)]
  -- The list goes on at the level of the entry or above it.
  suffices hrest : ∀ levels, (entries g levels rest).takeWhile (e.way.level < ·.way.level) = [] by
    rw [hrest, List.append_nil]
  intro levels
  cases rest with
  | nil => simp
  | cons t rest =>
    obtain ⟨way, s⟩ := t
    have htop : way.level ≤ e.way.level := (List.pairwise_cons.1 hs).1 (way, s) (by simp)
    rw [entries_cons, List.takeWhile_cons_of_neg (by simpa using htop)]

theorem children_entries (hs : Stacked ((e.way, e.spec) :: rest)) :
    (e.children (entries g levels (e.inputs ++ rest))).map (fun f => (f.way, f.spec)) =
      e.inputs := by
  unfold Entry.children
  rw [beneath_entries hs, filter_entries fun t ht => (level_of_mem_inputs ht).ge,
    List.filter_eq_self.2 fun t ht => by simpa using level_of_mem_inputs ht]

end Beneath

section Expansions

/-- The nodes that are expanded, in the order of the entries. -/
def opened (es : List Entry) : List NodeId := es.filterMap Entry.opens?

def inputCount (g : Graph) (id : NodeId) : Nat := (g.node? id).elim 0 (·.inputs.size)

theorem opened_cons : opened (e :: es) = e.opens?.toList ++ opened es := by
  unfold opened
  cases h : e.opens? <;> simp [h]

theorem opens?_eq_some_iff : e.opens? = some id ↔ ∃ n, e.mark = .expanded id n := by
  unfold Entry.opens?
  split <;> simp_all

theorem inputs_eq_nil (h : e.opens? = none) : e.inputs = [] := by
  unfold Entry.opens? at h
  unfold Entry.inputs
  cases hmark : e.mark <;> simp_all

theorem markFor_eq_expanded_iff :
    markFor g levels s = .expanded id n ↔ g.source? s = some (id, n) ∧ id ∉ levels := by
  unfold markFor
  rw [SortedMap.mem_iff_isSome_get?]
  grind

theorem nodup_opened : (opened (entries g levels todo)).Nodup ∧
    ∀ id ∈ opened (entries g levels todo), id ∉ levels := by
  induction levels, todo using entries_induction (g := g) with
  | nil levels => simp [opened]
  | cons levels way s todo ih =>
    rw [entries_cons, opened_cons]
    obtain ⟨honce, hnew⟩ := ih
    simp only [mem_note, not_or] at hnew
    cases hopens : Entry.opens? ⟨way, s, markFor g levels s⟩ with
    | none => simpa using ⟨honce, fun id hid => (hnew id hid).1⟩
    | some id =>
      obtain ⟨n, hmark⟩ := opens?_eq_some_iff.1 hopens
      have hid : id ∉ levels := (markFor_eq_expanded_iff.1 hmark).2
      simp only [Option.toList_some, List.singleton_append, List.nodup_cons, List.mem_cons]
      refine ⟨⟨fun hmem => (hnew id hmem).2 hopens, honce⟩, ?_⟩
      rintro i (rfl | hi)
      · exact hid
      · exact (hnew i hi).1

/-- Each entry that does not stand for what was to be listed stands for an input. -/
theorem length_entries (h : g.Indexed) : (entries g levels todo).length =
    todo.length + ((opened (entries g levels todo)).map (inputCount g)).sum := by
  induction levels, todo using entries_induction (g := g) with
  | nil levels => simp [opened]
  | cons levels way s todo ih =>
    rw [entries_cons, opened_cons, List.length_cons, ih, List.map_append, List.sum_append,
      List.length_append, List.length_cons]
    suffices hcount : (Entry.inputs ⟨way, s, markFor g levels s⟩).length =
        ((Entry.opens? ⟨way, s, markFor g levels s⟩).toList.map (inputCount g)).sum by omega
    unfold Entry.inputs Entry.opens?
    cases hmark : markFor g levels s with
    | outside => rfl
    | repeated level => rfl
    | expanded id n =>
      obtain ⟨-, hn⟩ := (source?_eq_some_iff h).1 (markFor_eq_expanded_iff.1 hmark).1
      simp [inputCount, hn, below, SortedSet.size]

theorem map_below (way : Way) (inputs : List ValueSpec) : (below way inputs).map (·.2) = inputs := by
  unfold below
  rw [List.map_map]
  exact List.zipIdx_map_fst 0 inputs

theorem exists_of_mem_inputs {t : Way × ValueSpec} (ht : t ∈ e.inputs) :
    ∃ id n, e.mark = .expanded id n ∧ t.2 ∈ n.inputs := by
  unfold Entry.inputs at ht
  split at ht
  next id n hmark =>
    refine ⟨id, n, hmark, SortedSet.mem_toList.1 ?_⟩
    rw [← map_below e.way n.inputs.toList]
    exact List.mem_map_of_mem ht
  next => cases ht

/-- What is expanded leads to what was to be listed. -/
theorem exists_path (h : g.Indexed) (hid : id ∈ opened (entries g levels todo)) :
    ∃ t ∈ todo, ∃ p, g.Produces p t.2 ∧ Relation.ReflTransGen g.Feeds id p := by
  induction levels, todo using entries_induction (g := g) with
  | nil levels => simp [opened] at hid
  | cons levels way s todo ih =>
    rw [entries_cons, opened_cons, List.mem_append, Option.mem_toList] at hid
    rcases hid with hopens | hid
    · obtain ⟨n, hmark⟩ := opens?_eq_some_iff.1 hopens
      obtain ⟨hp, -⟩ := (source?_eq_some_iff h).1 (markFor_eq_expanded_iff.1 hmark).1
      exact ⟨_, List.mem_cons_self, id, hp, .refl⟩
    · obtain ⟨t, ht, p, hp, hpath⟩ := ih hid
      rcases List.mem_append.1 ht with ht | ht
      · -- The value is an input of the node that the first entry expands.
        obtain ⟨id, n, hmark, hin⟩ := exists_of_mem_inputs ht
        obtain ⟨hs, hn⟩ := (source?_eq_some_iff h).1 (markFor_eq_expanded_iff.1 hmark).1
        exact ⟨_, List.mem_cons_self, id, hs, hpath.tail ⟨t.2, hp, n, hn, hin⟩⟩
      · exact ⟨t, List.mem_cons_of_mem _ ht, p, hp, hpath⟩

end Expansions

section Explanation

/-- Do the entries tell how `s`, which the node `p` produces, comes about? -/
structure Explains (g : Graph) (p : NodeId) (s : ValueSpec) (es : List Entry) : Prop where
  /-- The value stands at the top, with its producer. -/
  top : ∃ n after, es = ⟨[], s, .expanded p n⟩ :: after
  /-- A node is expanded where it is met first, and referred to from there on. -/
  marks : ∀ before e after, es = before ++ e :: after → e.Tells g before
  /-- Beneath a node that is expanded stand its inputs, each once and in order. -/
  inputs : ∀ before e after id n, es = before ++ e :: after → e.mark = .expanded id n →
    (e.children after).map (fun f => (f.way, f.spec)) = below e.way n.inputs.toList
  /-- Nothing stands beneath the other entries. -/
  ends : ∀ before e after, es = before ++ e :: after → e.opens? = none → e.beneath after = []
  once : (opened es).Nodup
  /-- The nodes that are expanded are those that the producer depends on. -/
  closure : ∀ id, id ∈ opened es ↔ Relation.ReflTransGen g.Feeds id p
  length : ∀ ids : Finset NodeId, (∀ id, id ∈ ids ↔ Relation.ReflTransGen g.Feeds id p) →
    es.length = 1 + ∑ id ∈ ids, inputCount g id

section Cut

variable (hes : entries g ∅ [([], s)] = before ++ e :: after)
include hes

theorem tells_of_cut (h : g.Indexed) : e.Tells g before := by
  obtain ⟨levels, rest, hnoted, hmark, -⟩ :=
    exists_cut hes (List.pairwise_singleton ..) noted_nil
  exact hnoted.tells h hmark

theorem children_of_cut : (e.children after).map (fun f => (f.way, f.spec)) = e.inputs := by
  obtain ⟨levels, rest, -, -, hstacked, rfl⟩ :=
    exists_cut hes (List.pairwise_singleton ..) noted_nil
  exact children_entries hstacked

theorem beneath_of_cut (hopens : e.opens? = none) : e.beneath after = [] := by
  obtain ⟨levels, rest, -, -, hstacked, rfl⟩ :=
    exists_cut hes (List.pairwise_singleton ..) noted_nil
  rw [beneath_entries hstacked, inputs_eq_nil hopens, entries_nil]

end Cut

variable (h : g.Indexed)
include h

theorem exists_top (hp : g.Produces p s) :
    ∃ n after, entries g ∅ [([], s)] = ⟨[], s, .expanded p n⟩ :: after := by
  obtain ⟨n, hn, hs⟩ := hp
  have hnew : p ∉ (∅ : SortedMap NodeId Nat) := by simp [SortedMap.mem_iff_isSome_get?]
  have hmark : markFor g ∅ s = .expanded p n :=
    markFor_eq_expanded_iff.2 ⟨(source?_eq_some_iff h).2 ⟨⟨n, hn, hs⟩, hn⟩, hnew⟩
  rw [entries_cons, hmark]
  exact ⟨n, _, rfl⟩

theorem mem_opened_of_feeds {c : NodeId} (hc : c ∈ opened (entries g ∅ [([], s)]))
    (hfeeds : g.Feeds p c) : p ∈ opened (entries g ∅ [([], s)]) := by
  obtain ⟨e, he, hopens⟩ := List.mem_filterMap.1 hc
  obtain ⟨n, hmark⟩ := opens?_eq_some_iff.1 hopens
  obtain ⟨before, after, hes⟩ := List.append_of_mem he
  have htells := tells_of_cut hes h
  simp only [Entry.Tells, hmark] at htells
  -- The input through which `p` feeds it has an entry.
  obtain ⟨v, hpv, m, hm, hv⟩ := hfeeds
  obtain rfl : n = m := by simpa [htells.2.1] using hm
  have hspecs := congrArg (List.map (·.2)) (children_of_cut hes)
  rw [Entry.inputs, hmark, map_below, List.map_map] at hspecs
  rw [← SortedSet.mem_toList, ← hspecs] at hv
  obtain ⟨f, hf, rfl⟩ := List.mem_map.1 hv
  have hf : f ∈ entries g ∅ [([], s)] := by
    have hafter := (List.takeWhile_sublist _).subset (List.mem_filter.1 hf).1
    simp [hes, hafter]
  -- That entry expands `p`, or an earlier one did.
  obtain ⟨before', after', hes'⟩ := List.append_of_mem hf
  have htells := tells_of_cut hes' h
  unfold Entry.Tells at htells
  split at htells
  next => exact absurd hpv (htells p)
  next =>
    obtain ⟨i, hi, f', hf', hopens', -⟩ := htells
    obtain rfl := h.unique hi hpv
    exact List.mem_filterMap.2 ⟨f', by simp [hes', hf'], hopens'⟩
  next i m hmark' =>
    obtain rfl := h.unique htells.1 hpv
    exact List.mem_filterMap.2 ⟨f, hf, opens?_eq_some_iff.2 ⟨m, hmark'⟩⟩

theorem mem_opened_iff (hp : g.Produces p s) :
    id ∈ opened (entries g ∅ [([], s)]) ↔ Relation.ReflTransGen g.Feeds id p := by
  constructor
  · intro hid
    obtain ⟨t, ht, q, hq, hpath⟩ := exists_path h hid
    obtain rfl := List.mem_singleton.1 ht
    rwa [h.unique hp hq]
  · intro hpath
    induction hpath using Relation.ReflTransGen.head_induction_on with
    | refl =>
      obtain ⟨n, after, htop⟩ := exists_top h hp
      simp [htop, opened_cons, Entry.opens?]
    | head hfeeds _ ih => exact mem_opened_of_feeds h ih hfeeds

theorem explains_entries (hp : g.Produces p s) : Explains g p s (entries g ∅ [([], s)]) where
  top := exists_top h hp
  marks before e after hes := tells_of_cut hes h
  inputs before e after id n hes hmark := by
    rw [children_of_cut hes, Entry.inputs, hmark]
  ends before e after hes := beneath_of_cut hes
  once := nodup_opened.1
  closure id := mem_opened_iff h hp
  length ids hids := by
    have hopened : ids = (opened (entries g ∅ [([], s)])).toFinset := by
      ext id
      rw [hids, List.mem_toFinset, mem_opened_iff h hp]
    rw [length_entries h, hopened, List.sum_toFinset _ nodup_opened.1, List.length_singleton]

theorem render_of_produces (hp : g.Produces p s) (ledger : Option Ledger) :
    render g s ledger = s!"PRODUCTION TRACE for {s}:\n" ++ rule ++
      String.join ((entries g ∅ [([], s)]).map (·.line g ledger)) := by
  have hsource : (g.source? s).isSome := by
    obtain ⟨n, hn, hs⟩ := hp
    rw [(source?_eq_some_iff h).2 ⟨⟨n, hn, hs⟩, hn⟩]
    rfl
  unfold render
  rw [if_pos hsource]

end Explanation

/--
Whatever is done to a graph, the trace of a value that it produces explains how the value comes
about, an entry to each line.
-/
theorem explains_after (configuration : String) (os : List Graph.Operation) (p : NodeId)
    (s : ValueSpec) (ledger : Option Ledger) (hp : (Graph.after configuration os).Produces p s) :
    let g := Graph.after configuration os
    Explains g p s (entries g ∅ [([], s)]) ∧
      render g s ledger = s!"PRODUCTION TRACE for {s}:\n" ++ rule ++
        String.join ((entries g ∅ [([], s)]).map (·.line g ledger)) := by
  intro g
  have h : g.Indexed := (Graph.sound_after configuration os).indexed
  exact ⟨explains_entries h hp, render_of_produces h hp ledger⟩

def valueOf (name : String) : ValueSpec := ⟨name, ⟨.security, "Bond"⟩, ∅⟩

/-- Fits a curve to the last one and to a quote, and tells the rate as well. -/
def fitting : Node where
  function := .computation "Fit" ∅
  target := ⟨.security, "Bond"⟩
  inputs := .ofList [valueOf "Curve", valueOf "Quote"]
  outputs := .ofList [valueOf "Curve", valueOf "Rate"]

def pricing : Node where
  function := .computation "Price" ∅
  target := ⟨.security, "Bond"⟩
  inputs := .ofList [valueOf "Curve", valueOf "Rate"]
  outputs := .singleton (valueOf "Price")

/-- A node that reads its own output, and that another reads twice. -/
theorem explains_after_fitting :
    let g := Graph.after "Default" [.add fitting, .add pricing]
    g.Feeds 0 0 ∧ g.Produces 1 (valueOf "Price") ∧
      Explains g 1 (valueOf "Price") (entries g ∅ [([], valueOf "Price")]) := by
  intro g
  have hfits : g.node? 0 = some fitting := by decide +kernel
  have hprices : g.Produces 1 (valueOf "Price") := ⟨pricing, by decide +kernel, by decide +kernel⟩
  refine ⟨⟨valueOf "Curve", ⟨fitting, hfits, ?_⟩, fitting, hfits, ?_⟩, hprices, ?_⟩
  · decide +kernel
  · decide +kernel
  · exact (explains_after "Default" [.add fitting, .add pricing] 1 (valueOf "Price") none hprices).1

end ValueGraph.Trace
