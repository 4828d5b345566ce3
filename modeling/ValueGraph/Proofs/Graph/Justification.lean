import ValueGraph.Proofs.Graph.Agreement
import ValueGraph.Proofs.Graph.Prune

namespace ValueGraph

/-- Is `n'` the node `n` without some of its outputs? -/
structure Node.Pared (n n' : Node) : Prop where
  function : n'.function = n.function
  target : n'.target = n.target
  inputs : n'.inputs = n.inputs
  outputs : ∀ s ∈ n'.outputs, s ∈ n.outputs
  /-- A flag goes with its output, and only so. -/
  terminal : ∀ s, s ∈ n'.terminal ↔ s ∈ n.terminal ∧ (s ∈ n.outputs → s ∈ n'.outputs)

namespace Node

variable {n n' n'' : Node} {outputs : List ValueSpec}

theorem Pared.refl (n : Node) : n.Pared n :=
  ⟨rfl, rfl, rfl, fun _ h => h, fun _ => (and_iff_left fun h => h).symm⟩

theorem Pared.trans (h : n.Pared n') (h' : n'.Pared n'') : n.Pared n'' := by
  refine ⟨h'.function.trans h.function, h'.target.trans h.target, h'.inputs.trans h.inputs,
    fun s hs => h.outputs s (h'.outputs s hs), fun s => ?_⟩
  have hs := h.outputs s
  have hs' := h'.outputs s
  rw [h'.terminal, h.terminal]
  grind

theorem Pared.eq (h : n.Pared n') (h' : n.Pared n'') (hout : ∀ s, s ∈ n'.outputs ↔ s ∈ n''.outputs) :
    n' = n'' := by
  have houtputs : n'.outputs = n''.outputs := SortedSet.ext_mem hout
  have hterminal : n'.terminal = n''.terminal := by
    apply SortedSet.ext_mem
    intro s
    rw [h.terminal, h'.terminal, hout]
  have hfunction := h.function.trans h'.function.symm
  have htarget := h.target.trans h'.target.symm
  have hinputs := h.inputs.trans h'.inputs.symm
  cases n'
  cases n''
  simp_all

theorem foldl_removeOutput : outputs.foldl removeOutput n =
    { n with
      outputs := outputs.foldl SortedSet.erase n.outputs
      terminal := outputs.foldl SortedSet.erase n.terminal } := by
  induction outputs generalizing n with
  | nil => rfl
  | cons s outputs ih =>
    rw [List.foldl_cons, ih]
    rfl

theorem pared_foldl_removeOutput (h : ∀ s ∈ outputs, s ∈ n.outputs) :
    n.Pared (outputs.foldl removeOutput n) := by
  rw [foldl_removeOutput]
  refine ⟨rfl, rfl, rfl, fun s hs => (SortedSet.mem_foldl_erase.1 hs).1, fun s => ?_⟩
  have hs := h s
  simp only [SortedSet.mem_foldl_erase]
  grind

end Node

namespace Graph

variable {g g' g'' : Graph} {id i : NodeId} {n : Node} {s : ValueSpec} {ids : List NodeId}

section Justified

/-- Does the choice of nodes, and of outputs of theirs, need nothing that is not in it? -/
structure Justified (g : Graph) (nodes : NodeId → Prop) (outputs : NodeId → ValueSpec → Prop) :
    Prop where
  output : ∀ id s, outputs id s → nodes id ∧ g.Produces id s
  needed : ∀ id s, outputs id s → g.isTerminal s ∨ g.isExternal s ∨ ∃ c, nodes c ∧ g.Reads c s
  node : ∀ id, nodes id → ∃ s, outputs id s

variable {nodes : NodeId → Prop} {outputs : NodeId → ValueSpec → Prop}

theorem Justified.mono (h : g.Justified nodes outputs) (hbacking : g'.backing = g.backing)
    (hexternal : g'.external = g.external)
    (hproduces : ∀ id s, outputs id s → g.Produces id s → g'.Produces id s)
    (hreads : ∀ c s, nodes c → g.Reads c s → g'.Reads c s) : g'.Justified nodes outputs where
  output id s hs := ⟨(h.output id s hs).1, hproduces id s hs (h.output id s hs).2⟩
  needed id s hs := by
    unfold isTerminal isExternal
    rw [hbacking, hexternal]
    refine (h.needed id s hs).imp_right (Or.imp_right ?_)
    rintro ⟨c, hc, hr⟩
    exact ⟨c, hc, hreads c s hc hr⟩
  node := h.node

theorem Justified.isNeeded (h : g.Justified nodes outputs) (hg : g.Indexed)
    (hs : outputs id s) : g.isNeeded s := by
  refine hg.isNeeded_iff.2 ((h.needed id s hs).imp_right (Or.imp_right ?_))
  rintro ⟨c, -, hc⟩
  exact ⟨c, hc⟩

/-- Where all nodes have outputs, and all outputs are needed, the whole graph is justified. -/
theorem Indexed.justified_self (h : g.Indexed) (hall : ∀ id, g.NeededAt id) :
    g.Justified (fun id => g.contains id) g.Produces where
  output id s hs := ⟨hs.contains, hs⟩
  needed := by
    rintro id s ⟨n, hn, hs⟩
    refine (h.isNeeded_iff.1 ((hall id n hn).2 s hs)).imp_right (Or.imp_right ?_)
    rintro ⟨c, n, hn, hs⟩
    exact ⟨c, by simp [Graph.contains, hn], n, hn, hs⟩
  node id hid := by
    obtain ⟨n, hn⟩ := Option.isSome_iff_exists.1 hid
    obtain ⟨⟨s, hs⟩, -⟩ := hall id n hn
    exact ⟨s, n, hn, hs⟩

end Justified

section Trim

theorem node?_foldl_dropOutput {outputs : List ValueSpec} :
    (outputs.foldl (dropOutput id) g).node? i =
      if id = i then (g.node? i).map fun n => outputs.foldl Node.removeOutput n
      else g.node? i := by
  induction outputs generalizing g with
  | nil => simp
  | cons s outputs ih =>
    rw [List.foldl_cons, ih, node?_dropOutput]
    by_cases hi : id = i
    · simp only [if_pos hi, Option.map_map]
      rfl
    · simp only [if_neg hi]

theorem external_foldl_dropOutput {outputs : List ValueSpec} :
    (outputs.foldl (dropOutput id) g).external = outputs.foldl SortedSet.erase g.external := by
  induction outputs generalizing g with
  | nil => rfl
  | cons s outputs ih =>
    rw [List.foldl_cons, ih]
    rfl

theorem size_foldl_dropOutput {outputs : List ValueSpec} :
    (outputs.foldl (dropOutput id) g).size = g.size := by
  induction outputs generalizing g with
  | nil => rfl
  | cons s outputs ih =>
    rw [List.foldl_cons, ih]
    show (g.nodes.modify id _).entries.length = g.nodes.entries.length
    unfold SortedMap.modify
    split
    next n hn =>
      rw [SortedMap.entries_insert_perm.length_eq, (SortedMap.entries_perm_erase hn).length_eq]
      rfl
    next => rfl

theorem isSpare_iff (hn : g.node? id = some n) :
    g.isSpare id ↔ (n.outputs.filter fun s => !g.isNeeded s).size = n.outputs.size := by
  unfold isSpare
  rw [hn]
  exact List.all_eq_true.trans List.length_filter_eq_length_iff.symm

/-- What trimming does to a graph: nothing, or a node goes, or outputs of one that stays. -/
theorem trim_eq (g : Graph) (id : NodeId) :
    g.node? id = none ∧ g.trim id = g ∨
      ∃ n, g.node? id = some n ∧
        (g.isSpare id ∧ g.trim id = g.detach id n ∨
          ¬ g.isSpare id ∧ g.trim id =
            (n.outputs.filter fun s => !g.isNeeded s).toList.foldl (dropOutput id) g) := by
  unfold trim
  split
  next hn => exact .inl ⟨hn, rfl⟩
  next n hn =>
    refine .inr ⟨n, hn, ?_⟩
    rw [isSpare_iff hn]
    dsimp only
    split
    next hsize => exact .inl ⟨hsize, rfl⟩
    next hsize => exact .inr ⟨hsize, rfl⟩

theorem isNeeded_of_isSpare (h : g.isSpare id) (hn : g.node? id = some n) (hs : s ∈ n.outputs) :
    g.isNeeded s = false := by
  unfold isSpare at h
  rw [hn] at h
  simpa using List.all_eq_true.1 h s hs

/-- Is `g'` what is left of `g` if some of what nobody needs is taken out? -/
structure Spares (g g' : Graph) : Prop where
  node : ∀ i n', g'.node? i = some n' → ∃ n, g.node? i = some n ∧ n.Pared n'
  needed : ∀ i s, g.Produces i s → g.isNeeded s → g'.Produces i s
  backing : g'.backing = g.backing
  external : g'.external = g.external

theorem Sound.spares_trim (h : g.Sound) (id : NodeId) : g.Spares (g.trim id) := by
  have hbacking : (g.trim id).backing = g.backing := (h.trimmed_trim id).backing
  rcases g.trim_eq id with ⟨hn, he⟩ | ⟨n, hn, ⟨hspare, he⟩ | ⟨hspare, he⟩⟩
  · rw [he]
    exact ⟨fun i n hi => ⟨n, hi, .refl n⟩, fun _ _ hs _ => hs, rfl, rfl⟩
  · have hno (s : ValueSpec) (hs : s ∈ n.outputs) : g.isNeeded s = false :=
      isNeeded_of_isSpare hspare hn hs
    refine ⟨fun i n' hi => ?_, fun i s hp hs => ?_, hbacking, ?_⟩
    · rw [he, node?_detach] at hi
      split at hi
      · cases hi
      · exact ⟨n', hi, .refl n'⟩
    · rw [he, h.indexed.produces_detach_iff hn]
      refine ⟨hp, fun hout => ?_⟩
      rw [hno s hout] at hs
      cases hs
    · rw [he]
      apply SortedSet.ext_mem
      intro s
      rw [mem_external_detach]
      refine and_iff_left_of_imp fun hs hout => ?_
      have hneeded := h.indexed.isNeeded_iff.2 (.inr (.inl (decide_eq_true hs)))
      rw [hno s hout] at hneeded
      cases hneeded
  · have hdropped (s : ValueSpec) : s ∈ (n.outputs.filter fun s => !g.isNeeded s).toList ↔
        s ∈ n.outputs ∧ g.isNeeded s = false := by
      rw [SortedSet.mem_toList, SortedSet.mem_filter, Bool.not_eq_true']
    refine ⟨fun i n' hi => ?_, fun i s hp hs => ?_, hbacking, ?_⟩
    · rw [he, node?_foldl_dropOutput] at hi
      split at hi
      · obtain ⟨m, hm, rfl⟩ := Option.map_eq_some_iff.1 hi
        refine ⟨m, hm, Node.pared_foldl_removeOutput fun s hs => ?_⟩
        subst_vars
        rw [hn] at hm
        cases hm
        exact ((hdropped s).1 hs).1
      · exact ⟨n', hi, .refl n'⟩
    · obtain ⟨m, hm, hout⟩ := hp
      unfold Produces
      rw [he, node?_foldl_dropOutput]
      split
      · refine ⟨_, by rw [hm]; rfl, ?_⟩
        show s ∈ (List.foldl Node.removeOutput m _).outputs
        rw [Node.foldl_removeOutput]
        refine SortedSet.mem_foldl_erase.2 ⟨hout, fun hmem => ?_⟩
        rw [((hdropped s).1 hmem).2] at hs
        cases hs
      · exact ⟨m, hm, hout⟩
    · rw [he, external_foldl_dropOutput]
      apply SortedSet.ext_mem
      intro s
      rw [SortedSet.mem_foldl_erase, hdropped]
      refine and_iff_left_of_imp fun hs hout => ?_
      have hneeded := h.indexed.isNeeded_iff.2 (.inr (.inl (decide_eq_true hs)))
      rw [hout.2] at hneeded
      cases hneeded

/-- A choice that justifies itself has nothing that nobody needs. -/
theorem Spares.justified {nodes : NodeId → Prop} {outputs : NodeId → ValueSpec → Prop}
    (h : g.Spares g') (hg : g.Indexed) (hj : g.Justified nodes outputs) :
    g'.Justified nodes outputs := by
  have hproduces (id : NodeId) (s : ValueSpec) (hs : outputs id s) : g'.Produces id s :=
    h.needed id s (hj.output id s hs).2 (hj.isNeeded hg hs)
  refine hj.mono h.backing h.external (fun id s hs _ => hproduces id s hs) ?_
  rintro c s hc ⟨n, hn, hs⟩
  obtain ⟨t, ht⟩ := hj.node c hc
  obtain ⟨n', hn', -⟩ := hproduces c t ht
  obtain ⟨m, hm, hpared⟩ := h.node c n' hn'
  rw [hn] at hm
  cases hm
  exact ⟨n', hn', hpared.inputs ▸ hs⟩

theorem size_trim (g : Graph) (id : NodeId) :
    (if g.isSpare id then 1 else 0) + (g.trim id).size = g.size := by
  rcases g.trim_eq id with ⟨hn, he⟩ | ⟨n, hn, ⟨hspare, he⟩ | ⟨hspare, he⟩⟩
  · have hno : g.isSpare id = false := by
      unfold isSpare
      rw [hn]
    rw [hno, he]
    exact Nat.zero_add _
  · have hsize : (g.nodes.erase id).entries.length + 1 = g.nodes.entries.length :=
      (SortedMap.entries_perm_erase hn).length_eq.symm
    have hleft : (g.detach id n).size = (g.nodes.erase id).entries.length :=
      congrArg SortedMap.size nodes_detach
    have hall : g.size = g.nodes.entries.length := rfl
    rw [if_pos hspare, he]
    omega
  · rw [if_neg hspare, he, size_foldl_dropOutput]
    exact Nat.zero_add _

end Trim

section Runs

/-- Trimming keeps what justifies itself, in whatever order the nodes are looked at. -/
theorem Sound.justified_foldl_trim {nodes : NodeId → Prop} {outputs : NodeId → ValueSpec → Prop}
    (h : g.Sound) (hj : g.Justified nodes outputs) (ids : List NodeId) :
    (ids.foldl Graph.trim g).Justified nodes outputs := by
  induction ids generalizing g with
  | nil => exact hj
  | cons id ids ih => exact ih (h.trim id) ((h.spares_trim id).justified h.indexed hj)

theorem Sound.pared_foldl_trim (h : g.Sound) (ids : List NodeId) {n' : Node}
    (hn : (ids.foldl Graph.trim g).node? i = some n') : ∃ n, g.node? i = some n ∧ n.Pared n' := by
  induction ids generalizing g with
  | nil => exact ⟨n', hn, .refl n'⟩
  | cons id ids ih =>
    obtain ⟨m, hm, hm'⟩ := ih (h.trim id) hn
    obtain ⟨n, hn, hnm⟩ := (h.spares_trim id).node i m hm
    exact ⟨n, hn, hnm.trans hm'⟩

theorem Sound.external_foldl_trim (h : g.Sound) (ids : List NodeId) :
    (ids.foldl Graph.trim g).external = g.external := by
  induction ids generalizing g with
  | nil => rfl
  | cons id ids ih => exact (ih (h.trim id)).trans (h.spares_trim id).external

theorem size_foldl_trim (g : Graph) (ids : List NodeId) :
    removals ids g + (ids.foldl Graph.trim g).size = g.size := by
  induction ids generalizing g with
  | nil => exact Nat.zero_add _
  | cons id ids ih =>
    rw [List.foldl_cons, removals, Nat.add_assoc, ih (g.trim id)]
    exact g.size_trim id

theorem Sound.justified_trimmed (h : g.Sound) (ids : List NodeId)
    (hall : ∀ id, (ids.foldl Graph.trim g).NeededAt id) :
    g.Justified (fun id => (ids.foldl Graph.trim g).contains id) (ids.foldl Graph.trim g).Produces := by
  have htrimmed := h.trimmed_foldl_trim ids
  refine ((h.foldl_trim ids).indexed.justified_self hall).mono htrimmed.backing.symm
    (h.external_foldl_trim ids).symm (fun id s hs _ => htrimmed.produces id s hs)
    fun c s _ hr => htrimmed.reads c s hr

/-- Two orders of trimming to the end leave the same nodes. -/
theorem Sound.nodes_trimmed_eq (h : g.Sound) {ids ids' : List NodeId}
    (hall : ∀ id, (ids.foldl Graph.trim g).NeededAt id)
    (hall' : ∀ id, (ids'.foldl Graph.trim g).NeededAt id) :
    (ids.foldl Graph.trim g).nodes = (ids'.foldl Graph.trim g).nodes := by
  -- What one of them leaves justifies itself, so that the other leaves it too.
  have hle := h.justified_foldl_trim (h.justified_trimmed ids hall) ids'
  have hge := h.justified_foldl_trim (h.justified_trimmed ids' hall') ids
  have hcontains (i : NodeId) :
      ((ids.foldl Graph.trim g).node? i).isSome ↔ ((ids'.foldl Graph.trim g).node? i).isSome := by
    constructor
    · intro hi
      obtain ⟨s, hs⟩ := hle.node i hi
      exact (hle.output i s hs).2.contains
    · intro hi
      obtain ⟨s, hs⟩ := hge.node i hi
      exact (hge.output i s hs).2.contains
  apply SortedMap.ext_get?
  intro i
  show (ids.foldl Graph.trim g).node? i = (ids'.foldl Graph.trim g).node? i
  cases hn : (ids.foldl Graph.trim g).node? i with
  | none =>
    have hnone : (ids'.foldl Graph.trim g).node? i = none := by
      simpa [hn] using hcontains i
    exact hnone.symm
  | some n =>
    have hsome := hcontains i
    rw [hn] at hsome
    obtain ⟨n', hn'⟩ := Option.isSome_iff_exists.1 (hsome.1 rfl)
    obtain ⟨m, hm, hpared⟩ := h.pared_foldl_trim ids hn
    obtain ⟨m', hm', hpared'⟩ := h.pared_foldl_trim ids' hn'
    rw [hm] at hm'
    cases hm'
    rw [hn']
    refine congrArg some (hpared.eq hpared' fun s => ?_)
    have hs : (ids.foldl Graph.trim g).Produces i s ↔ (ids'.foldl Graph.trim g).Produces i s :=
      ⟨fun hs => (hle.output i s hs).2, fun hs => (hge.output i s hs).2⟩
    simpa [Produces, hn, hn'] using hs

end Runs

section Prune

/-- Pruning makes passes over all nodes, so many that one more would change nothing. -/
theorem exists_prune_eq (g : Graph) : ∃ k, g.prune = trimAll^[k] g := by
  induction g using prune.induct with
  | case1 g hlt ih =>
    obtain ⟨k, hk⟩ := ih
    rw [prune, if_pos hlt]
    exact ⟨k + 1, hk⟩
  | case2 g hlt =>
    rw [prune, if_neg hlt]
    exact ⟨0, rfl⟩

theorem trimAll_prune (g : Graph) : g.prune.trimAll = g.prune := by
  induction g using prune.induct with
  | case1 g hlt ih =>
    rw [prune, if_pos hlt]
    exact ih
  | case2 g hlt =>
    rw [prune, if_neg hlt]
    rcases g.foldl_trim_cases g.ids with ⟨hsame, -⟩ | hlt'
    · exact hsame
    · exact absurd hlt' hlt

theorem exists_foldl_trim (g : Graph) : ∃ ids : List NodeId, g.prune = ids.foldl Graph.trim g := by
  induction g using prune.induct with
  | case1 g hlt ih =>
    obtain ⟨ids, hids⟩ := ih
    rw [prune, if_pos hlt]
    exact ⟨g.ids ++ ids, hids.trans List.foldl_append.symm⟩
  | case2 g hlt =>
    rw [prune, if_neg hlt]
    exact ⟨[], rfl⟩

theorem pruned_add_size_prune (g : Graph) : g.pruned + g.prune.size = g.size := by
  induction g using prune.induct with
  | case1 g hlt ih =>
    rw [prune, pruned, if_pos hlt, if_pos hlt, Nat.add_assoc, ih]
    exact g.size_foldl_trim g.ids
  | case2 g hlt =>
    rw [prune, pruned, if_neg hlt, if_neg hlt]
    exact Nat.zero_add _

theorem prune_prune (g : Graph) : g.prune.prune = g.prune := by
  rw [prune, trimAll_prune, if_neg (Nat.lt_irrefl _)]

theorem pruned_prune (g : Graph) : g.prune.pruned = 0 := by
  rw [pruned, trimAll_prune, if_neg (Nat.lt_irrefl _)]

end Prune

section Survivors

theorem Sound.contains_prune_of_path (h : g.Sound) {t : NodeId}
    (hpath : Relation.ReflTransGen g.Feeds id t) (hs : g.Produces t s)
    (hend : g.isTerminal s ∨ g.isExternal s) : g.prune.contains id := by
  -- The nodes with such links are a choice that justifies itself.
  let Leads : NodeId → Prop := fun i =>
    ∃ t s, Relation.ReflTransGen g.Feeds i t ∧ g.Produces t s ∧ (g.isTerminal s ∨ g.isExternal s)
  have hj : g.Justified Leads fun i s => Leads i ∧ g.Produces i s ∧
      (g.isTerminal s ∨ g.isExternal s ∨ ∃ c, Leads c ∧ g.Reads c s) := by
    refine ⟨fun i s hs => ⟨hs.1, hs.2.1⟩, fun i s hs => hs.2.2, fun i hi => ?_⟩
    obtain ⟨t, s, hpath, hs, hend⟩ := hi
    rcases Relation.ReflTransGen.cases_head hpath with rfl | ⟨c, ⟨v, hv, hc⟩, hct⟩
    · exact ⟨s, ⟨i, s, .refl, hs, hend⟩, hs, hend.imp_right .inl⟩
    · exact ⟨v, ⟨t, s, hpath, hs, hend⟩, hv, .inr (.inr ⟨c, ⟨t, s, hct, hs, hend⟩, hc⟩)⟩
  obtain ⟨ids, hids⟩ := g.exists_foldl_trim
  have hkept := h.justified_foldl_trim hj ids
  obtain ⟨v, hv⟩ := hkept.node id ⟨t, s, hpath, hs, hend⟩
  rw [hids]
  exact (hkept.output id v hv).2.contains

theorem Sound.isNeeded_prune_iff (h : g.Sound) :
    g.prune.isNeeded s ↔ g.isTerminal s ∨ g.isExternal s ∨ ∃ c, g.prune.Reads c s := by
  obtain ⟨ids, hids⟩ := g.exists_foldl_trim
  have hexternal : g.prune.external = g.external := hids ▸ h.external_foldl_trim ids
  rw [h.prune.indexed.isNeeded_iff]
  unfold isTerminal isExternal
  rw [h.trimmed_prune.backing, hexternal]

theorem Sound.exists_produces_prune_iff (h : g.Sound) (hs : g.Produces id s) :
    (∃ i, g.prune.Produces i s) ↔
      g.isTerminal s ∨ g.isExternal s ∨ ∃ c, g.prune.Reads c s := by
  rw [← h.isNeeded_prune_iff, h.prune.indexed.isNeeded_iff]
  constructor
  · rintro ⟨i, n, hn, hs⟩
    exact h.prune.indexed.isNeeded_iff.1 ((g.neededAt_prune i n hn).2 s hs)
  · rintro (hterminal | hexternal | ⟨c, hc⟩)
    · obtain ⟨⟨i, n, hn, ho, -⟩, -⟩ := h.prune.agrees.terminal s hterminal
      exact ⟨i, n, hn, ho⟩
    · exact h.prune.indexed.external s (of_decide_eq_true hexternal)
    · exact ⟨id, h.trimmed_prune.supplied id c s hs hc⟩

/-- In a graph without circles a node stays just if it is there for the sake of such an output. -/
theorem Sound.contains_prune_iff (h : g.Sound) (hacyclic : ∀ i, ¬ Relation.TransGen g.Feeds i i) :
    g.prune.contains id ↔ ∃ t s, Relation.ReflTransGen g.Feeds id t ∧ g.Produces t s ∧
      (g.isTerminal s ∨ g.isExternal s) := by
  constructor
  · intro hid
    have htrimmed := h.trimmed_prune
    obtain ⟨t, s, hpath, hs, hend⟩ :=
      h.prune.exists_end (htrimmed.acyclic hacyclic) g.neededAt_prune hid
    refine ⟨t, s, Relation.ReflTransGen.mono ?_ _ _ hpath, htrimmed.produces t s hs, ?_⟩
    · rintro p c ⟨v, hp, hc⟩
      exact ⟨v, htrimmed.produces p v hp, htrimmed.reads c v hc⟩
    · refine hend.imp (fun hs => ?_) fun hs => decide_eq_true (htrimmed.external s ?_)
      · unfold isTerminal at hs
        rwa [htrimmed.backing] at hs
      · exact of_decide_eq_true hs
  · rintro ⟨t, s, hpath, hs, hend⟩
    exact h.contains_prune_of_path hpath hs hend

end Survivors

section Exact

/-- Is `g'` what pruning is to make of `g`, so many nodes fewer? -/
structure PrunesTo (g g' : Graph) (removed : Nat) : Prop where
  justified : g.Justified (fun id => g'.contains id) g'.Produces
  /-- No choice that justifies itself has a node or an output more. -/
  largest : ∀ nodes outputs, g.Justified nodes outputs →
    (∀ id, nodes id → g'.contains id) ∧ ∀ id s, outputs id s → g'.Produces id s
  node : ∀ id n', g'.node? id = some n' → ∃ n, g.node? id = some n ∧ n.Pared n'
  backing : g'.backing = g.backing
  removed : removed + g'.size = g.size
  /-- In a graph without circles, what stays is there for a terminal or an external output. -/
  acyclic : (∀ i, ¬ Relation.TransGen g.Feeds i i) → ∀ id, g'.contains id ↔
    ∃ t s, Relation.ReflTransGen g.Feeds id t ∧ g.Produces t s ∧ (g.isTerminal s ∨ g.isExternal s)
  /-- Whatever the order, trimming nodes until that changes nothing comes to the same. -/
  order : ∀ ids : List NodeId,
    (∀ id, (ids.foldl Graph.trim g).trim id = ids.foldl Graph.trim g) →
      (ids.foldl Graph.trim g).nodes = g'.nodes

theorem neededAt_of_trim_eq (h : g.trim id = g) : g.NeededAt id := by
  rcases g.trim_cases id with ⟨-, hneeded⟩ | hlt
  · exact hneeded
  · rw [h] at hlt
    exact absurd hlt (Nat.lt_irrefl _)

theorem Sound.prunesTo_prune (h : g.Sound) : g.PrunesTo g.prune g.pruned := by
  obtain ⟨ids, hids⟩ := g.exists_foldl_trim
  have hall (id : NodeId) : (ids.foldl Graph.trim g).NeededAt id := hids ▸ g.neededAt_prune id
  refine ⟨hids ▸ h.justified_trimmed ids hall, fun nodes outputs hj => ?_, fun id n' hn => ?_,
    h.trimmed_prune.backing, g.pruned_add_size_prune, fun hacyclic id => ?_, fun ids' hend => ?_⟩
  · have hkept := h.justified_foldl_trim hj ids
    rw [← hids] at hkept
    refine ⟨fun id hid => ?_, fun id s hs => (hkept.output id s hs).2⟩
    obtain ⟨s, hs⟩ := hkept.node id hid
    exact (hkept.output id s hs).2.contains
  · exact h.pared_foldl_trim ids (hids ▸ hn)
  · exact h.contains_prune_iff hacyclic
  · rw [hids]
    exact h.nodes_trimmed_eq (fun id => neededAt_of_trim_eq (hend id)) hall

/--
Pruning makes passes over the nodes until one changes nothing, which comes to pass for any graph.
It leaves the largest part that justifies itself, and says how many nodes have gone. A second time
it changes nothing and none go.
-/
theorem after_prunesTo (configuration : String) (os : List Operation) :
    let g := after configuration os
    (∃ k, g.prune = trimAll^[k] g) ∧ g.prune.trimAll = g.prune ∧ g.PrunesTo g.prune g.pruned ∧
      g.prune.prune = g.prune ∧ g.prune.pruned = 0 := by
  intro g
  have h : g.Sound := sound_after configuration os
  exact ⟨g.exists_prune_eq, g.trimAll_prune, h.prunesTo_prune, g.prune_prune, g.pruned_prune⟩

end Exact

end Graph

end ValueGraph
