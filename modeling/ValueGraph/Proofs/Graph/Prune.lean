import Mathlib.Data.Fintype.Card
import Mathlib.Data.Fintype.EquivFin
import Mathlib.Logic.Relation
import ValueGraph.Proofs.Graph.Operations

namespace ValueGraph.Graph

variable {g g' g'' : Graph} {id p c : NodeId} {n : Node} {s : ValueSpec}

section Trimmed

/-- Is `g'` what trimming may leave of `g`? -/
structure Trimmed (g g' : Graph) : Prop where
  produces : ∀ id s, g'.Produces id s → g.Produces id s
  reads : ∀ id s, g'.Reads id s → g.Reads id s
  /-- What is still read is produced as before. -/
  supplied : ∀ p c s, g.Produces p s → g'.Reads c s → g'.Produces p s
  backing : g'.backing = g.backing
  external : ∀ s ∈ g'.external, s ∈ g.external

theorem Trimmed.refl (g : Graph) : g.Trimmed g :=
  ⟨fun _ _ h => h, fun _ _ h => h, fun _ _ _ h _ => h, rfl, fun _ h => h⟩

theorem Trimmed.trans (h : g.Trimmed g') (h' : g'.Trimmed g'') : g.Trimmed g'' where
  produces id s hs := h.produces id s (h'.produces id s hs)
  reads id s hs := h.reads id s (h'.reads id s hs)
  supplied p c s hp hc := h'.supplied p c s (h.supplied p c s hp (h'.reads c s hc)) hc
  backing := h'.backing.trans h.backing
  external s hs := h.external s (h'.external s hs)

/-- Links may go, and none comes. -/
theorem Trimmed.acyclic (h : g.Trimmed g') (hg : ∀ i, ¬ Relation.TransGen g.Feeds i i)
    (i : NodeId) : ¬ Relation.TransGen g'.Feeds i i := by
  intro hi
  refine hg i (Relation.TransGen.mono (fun p c hpc => ?_) i i hi)
  obtain ⟨s, hp, hc⟩ := hpc
  exact ⟨s, h.produces p s hp, h.reads c s hc⟩

theorem Indexed.trimmed_detach (h : g.Indexed) (hn : g.node? id = some n)
    (hno : ∀ s ∈ n.outputs, g.isNeeded s = false) : g.Trimmed (g.detach id n) := by
  refine ⟨fun i s hs => (produces_detach.1 hs).2, fun i s hs => (reads_detach.1 hs).2,
    fun p c s hp hc => ?_, SortedMap.ext_get? fun s => ?_, fun s hs => (mem_external_detach.1 hs).1⟩
  · refine (h.produces_detach_iff hn).2 ⟨hp, fun hs => ?_⟩
    exact (isNeeded_eq_false h (hno s hs)).2 c (reads_detach.1 hc).2
  · rw [get?_backing_detach]
    split
    next hs => exact (isNeeded_eq_false h (hno s hs)).1.symm
    next => rfl

theorem Indexed.trimmed_dropOutput (h : g.Indexed) (hs : g.Produces id s)
    (hr : ∀ c, ¬ g.Reads c s) : g.Trimmed (Graph.dropOutput id g s) := by
  refine ⟨fun i t ht => ((produces_dropOutput h hs).1 ht).1, fun i t ht => reads_dropOutput.1 ht,
    fun p c t hp hc => (produces_dropOutput h hs).2 ⟨hp, ?_⟩, rfl,
    fun t ht => (SortedSet.mem_erase.1 ht).1⟩
  rintro rfl
  exact hr c (reads_dropOutput.1 hc)

theorem Sound.trimmed_foldl_dropOutput {outputs : List ValueSpec} (h : g.Sound)
    (hnodup : outputs.Nodup) (hs : ∀ s ∈ outputs, g.Produces id s)
    (hr : ∀ s ∈ outputs, ∀ c, ¬ g.Reads c s) (hb : ∀ s ∈ outputs, g.backing.get? s = none) :
    g.Trimmed (outputs.foldl (Graph.dropOutput id) g) := by
  induction outputs generalizing g with
  | nil => exact .refl g
  | cons s outputs ih =>
    obtain ⟨hnot, hnodup⟩ := List.nodup_cons.1 hnodup
    have hs' := hs s List.mem_cons_self
    have hr' := hr s List.mem_cons_self
    refine (h.indexed.trimmed_dropOutput hs' hr').trans
      (ih (h.dropOutput hs' hr' (hb s List.mem_cons_self)) hnodup (fun t ht => ?_)
        (fun t ht c hc => hr t (List.mem_cons_of_mem _ ht) c (reads_dropOutput.1 hc))
        fun t ht => hb t (List.mem_cons_of_mem _ ht))
    refine (produces_dropOutput h.indexed hs').2 ⟨hs t (List.mem_cons_of_mem _ ht), ?_⟩
    rintro rfl
    exact hnot ht

end Trimmed

section Weight

theorem total_perm {α : Type} {f : α → Nat} {l m : List α} (h : l.Perm m) :
    total f l = total f m := by
  induction h with
  | nil => rfl
  | cons a _ ih => simp only [total, ih]
  | swap a b l => simp only [total]; omega
  | trans _ _ ih ih' => exact ih.trans ih'

def weightBut (g : Graph) (id : NodeId) : Nat :=
  total (fun n : Node => n.outputs.size + 1) (g.nodes.erase id).values

theorem weight_eq (hn : g.node? id = some n) :
    g.weight = n.outputs.size + 1 + g.weightBut id := by
  have hperm := (SortedMap.entries_perm_erase hn).map Prod.snd
  exact total_perm hperm

theorem weight_detach : (g.detach id n).weight = g.weightBut id := by
  unfold weight weightBut
  rw [nodes_detach]

theorem weight_dropOutput (hn : g.node? id = some n) :
    (dropOutput id g s).weight = (n.outputs.erase s).size + 1 + g.weightBut id := by
  have hnodes : (dropOutput id g s).nodes = g.nodes.insert id (n.removeOutput s) := by
    have hn : g.nodes.get? id = some n := hn
    show g.nodes.modify id _ = _
    unfold SortedMap.modify
    rw [hn]
  have hperm := (SortedMap.entries_insert_perm (m := g.nodes) (k := id)
    (v := n.removeOutput s)).map Prod.snd
  unfold weight
  rw [hnodes]
  exact total_perm hperm

theorem weight_dropOutput_lt (hn : g.node? id = some n) (hs : s ∈ n.outputs) :
    (dropOutput id g s).weight < g.weight := by
  have hlt : (n.outputs.erase s).size < n.outputs.size :=
    List.length_filter_lt_length_iff_exists.2 ⟨s, hs, by simp⟩
  rw [weight_dropOutput hn, weight_eq hn]
  omega

theorem weight_foldl_dropOutput_le (outputs : List ValueSpec) :
    (outputs.foldl (Graph.dropOutput id) g).weight ≤ g.weight := by
  induction outputs generalizing g with
  | nil => exact Nat.le_refl _
  | cons s outputs ih =>
    refine Nat.le_trans ih ?_
    cases hn : g.node? id with
    | none =>
      have hnodes : (dropOutput id g s).nodes = g.nodes := by
        have hn : g.nodes.get? id = none := hn
        show g.nodes.modify id _ = _
        unfold SortedMap.modify
        rw [hn]
      unfold weight
      rw [hnodes]
    | some n =>
      rw [weight_dropOutput hn, weight_eq hn]
      have hle : (n.outputs.erase s).size ≤ n.outputs.size := List.length_filter_le ..
      omega

end Weight

section Needed

/-- Has the node outputs, and is each of them needed? -/
def NeededAt (g : Graph) (id : NodeId) : Prop :=
  ∀ n, g.node? id = some n → (∃ s, s ∈ n.outputs) ∧ ∀ s ∈ n.outputs, g.isNeeded s

theorem Sound.trimmed_trim (h : g.Sound) (id : NodeId) : g.Trimmed (g.trim id) := by
  unfold Graph.trim
  split
  · exact .refl g
  next n hn =>
    have hno : ∀ s ∈ n.outputs.filter fun s => !g.isNeeded s, g.isNeeded s = false :=
      fun s hs => by simpa using (SortedSet.mem_filter.1 hs).2
    dsimp only
    split
    next hsize =>
      refine h.indexed.trimmed_detach hn fun s hs => hno s ?_
      have hall := List.length_filter_eq_length_iff.1 hsize
      exact SortedSet.mem_filter.2 ⟨hs, hall s hs⟩
    next =>
      exact h.trimmed_foldl_dropOutput SortedSet.nodup_toList
        (fun s hs => ⟨n, hn, (SortedSet.mem_filter.1 hs).1⟩)
        (fun s hs => (isNeeded_eq_false h.indexed (hno s hs)).2)
        fun s hs => (isNeeded_eq_false h.indexed (hno s hs)).1

/-- Trimming a node changes nothing about what is needed, or there is less afterwards. -/
theorem trim_cases (g : Graph) (id : NodeId) :
    g.trim id = g ∧ g.NeededAt id ∨ (g.trim id).weight < g.weight := by
  unfold Graph.trim
  split
  next hn =>
    refine .inl ⟨rfl, fun n hn' => ?_⟩
    rw [hn] at hn'
    cases hn'
  next n hn =>
    dsimp only
    split
    · refine .inr ?_
      rw [weight_detach, weight_eq hn]
      omega
    next hsize =>
      cases hl : (n.outputs.filter fun s => !g.isNeeded s).toList with
      | nil =>
        have hall : ∀ s ∈ n.outputs, g.isNeeded s := by
          intro s hs
          by_contra hno
          have hmem : s ∈ n.outputs.filter fun s => !g.isNeeded s :=
            SortedSet.mem_filter.2 ⟨hs, by simpa using hno⟩
          rw [← SortedSet.mem_toList, hl] at hmem
          cases hmem
        refine .inl ⟨rfl, fun m hm => ?_⟩
        rw [hn] at hm
        cases hm
        refine ⟨?_, hall⟩
        cases ho : n.outputs.toList with
        | nil =>
          -- Then all outputs would go, as there are none.
          refine absurd ?_ hsize
          unfold SortedSet.size
          rw [hl, ho]
        | cons s outputs => exact ⟨s, by rw [← SortedSet.mem_toList, ho]; exact List.mem_cons_self⟩
      | cons s outputs =>
        have hs : s ∈ n.outputs.filter fun s => !g.isNeeded s := by
          rw [← SortedSet.mem_toList, hl]
          exact List.mem_cons_self
        exact .inr (Nat.lt_of_le_of_lt (weight_foldl_dropOutput_le outputs)
          (weight_dropOutput_lt hn (SortedSet.mem_filter.1 hs).1))

theorem foldl_trim_cases (g : Graph) (ids : List NodeId) :
    ids.foldl trim g = g ∧ (∀ id ∈ ids, g.NeededAt id) ∨
      (ids.foldl trim g).weight < g.weight := by
  induction ids generalizing g with
  | nil => exact .inl ⟨rfl, nofun⟩
  | cons id ids ih =>
    rw [List.foldl_cons]
    rcases g.trim_cases id with ⟨hsame, hid⟩ | hlt
    · rw [hsame]
      refine (ih g).imp_left fun ⟨hfold, hids⟩ => ⟨hfold, fun i hi => ?_⟩
      rcases List.mem_cons.1 hi with rfl | hi
      · exact hid
      · exact hids i hi
    · refine .inr (Nat.lt_of_le_of_lt ?_ hlt)
      rcases ih (g.trim id) with ⟨hfold, -⟩ | hlt'
      · rw [hfold]
      · exact Nat.le_of_lt hlt'

theorem Sound.trimmed_foldl_trim (h : g.Sound) (ids : List NodeId) :
    g.Trimmed (ids.foldl Graph.trim g) := by
  induction ids generalizing g with
  | nil => exact .refl g
  | cons id ids ih => exact (h.trimmed_trim id).trans (ih (h.trim id))

theorem Sound.trimmed_prune (h : g.Sound) : g.Trimmed g.prune := by
  induction g using Graph.prune.induct with
  | case1 g hlt ih =>
    rw [Graph.prune, if_pos hlt]
    exact (h.trimmed_foldl_trim g.ids).trans (ih (h.foldl_trim g.ids))
  | case2 g hlt =>
    rw [Graph.prune, if_neg hlt]
    exact .refl g

/-- When pruning stops, each node that is left has outputs, and each of these is needed. -/
theorem neededAt_prune (g : Graph) (id : NodeId) : g.prune.NeededAt id := by
  induction g using Graph.prune.induct with
  | case1 g hlt ih =>
    rw [Graph.prune, if_pos hlt]
    exact ih
  | case2 g hlt =>
    rw [Graph.prune, if_neg hlt]
    rcases g.foldl_trim_cases g.ids with ⟨-, hall⟩ | hlt'
    · intro n hn
      exact hall id (List.mem_map.2 ⟨(id, n), SortedMap.get?_eq_some_iff.1 hn, rfl⟩) n hn
    · exact absurd hlt' hlt

theorem Indexed.isNeeded_iff (h : g.Indexed) :
    g.isNeeded s ↔ g.isTerminal s ∨ g.isExternal s ∨ ∃ c, g.Reads c s := by
  have hread : (g.readers.setAt s).isEmpty = false ↔ ∃ c, g.Reads c s := by
    simp only [← h.readers, SortedSet.isEmpty, List.isEmpty_eq_false_iff, ne_eq,
      List.eq_nil_iff_forall_not_mem, SortedSet.mem_toList]
    grind
  unfold isNeeded
  rw [Bool.or_eq_true, Bool.or_eq_true, Bool.not_eq_true', hread, or_assoc]

/--
Where no node depends on itself, each node of which all outputs are needed is there for an output
that is terminal or read outside.
-/
theorem Sound.exists_end (h : g.Sound) (hacyclic : ∀ i, ¬ Relation.TransGen g.Feeds i i)
    (hneeded : ∀ i, g.NeededAt i) (hid : g.contains id) :
    ∃ t s, Relation.ReflTransGen g.Feeds id t ∧ g.Produces t s ∧
      (g.isTerminal s ∨ g.isExternal s) := by
  -- There are finitely many nodes, so that no path goes on forever.
  let R : Fin g.unused → Fin g.unused → Prop := fun x y => Relation.TransGen g.Feeds y x
  have : IsTrans _ R := ⟨fun _ _ _ hab hbc => hbc.trans hab⟩
  have : Std.Irrefl R := ⟨fun x => hacyclic x⟩
  have hwf : WellFounded R := Finite.wellFounded_of_trans_of_irrefl R
  obtain ⟨x, hx⟩ : ∃ x : Fin g.unused, x.1 = id := ⟨⟨id, (h.ids.used id hid).1⟩, rfl⟩
  induction x using hwf.induction generalizing id with
  | _ x ih =>
    subst hx
    obtain ⟨n, hn⟩ := Option.isSome_iff_exists.1 hid
    obtain ⟨⟨s, hs⟩, hall⟩ := hneeded x n hn
    rcases h.indexed.isNeeded_iff.1 (hall s hs) with hterm | hexternal | ⟨c, hreads⟩
    · exact ⟨x, s, .refl, ⟨n, hn, hs⟩, .inl hterm⟩
    · exact ⟨x, s, .refl, ⟨n, hn, hs⟩, .inr hexternal⟩
    · -- A reader of the output is nearer to such an output.
      have hfeeds : g.Feeds x c := ⟨s, ⟨n, hn, hs⟩, hreads⟩
      obtain ⟨m, hm, -⟩ := hreads
      have hcontains : g.contains c := by simp [Graph.contains, hm]
      obtain ⟨t, v, hpath, ht⟩ :=
        ih ⟨c, (h.ids.used c hcontains).1⟩ (.single hfeeds) hcontains rfl
      exact ⟨t, v, hpath.head hfeeds, ht⟩

/-- Where nothing is read outside either, each such node is there for a terminal output. -/
theorem Sound.exists_terminal (h : g.Sound) (hacyclic : ∀ i, ¬ Relation.TransGen g.Feeds i i)
    (hexternal : ∀ s, s ∉ g.external) (hneeded : ∀ i, g.NeededAt i) (hid : g.contains id) :
    ∃ t s, Relation.ReflTransGen g.Feeds id t ∧ g.Produces t s ∧ g.isTerminal s := by
  obtain ⟨t, s, hpath, hs, hend⟩ := h.exists_end hacyclic hneeded hid
  exact ⟨t, s, hpath, hs, hend.resolve_right fun he => hexternal s (of_decide_eq_true he)⟩

end Needed

end ValueGraph.Graph
