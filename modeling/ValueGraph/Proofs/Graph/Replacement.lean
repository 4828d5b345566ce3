import ValueGraph.Proofs.Graph.Backing

namespace ValueGraph

namespace Node

variable {n old new : Node} {s t : ValueSpec} {f f' : ValueSpec → ValueSpec}

section Rename

def renameInputs (f : ValueSpec → ValueSpec) (n : Node) : Node :=
  { n with inputs := .ofList (n.inputs.toList.map f) }

theorem renameInputs_of_inputs {inputs : SortedSet ValueSpec}
    (h : ∀ t, t ∈ inputs ↔ ∃ s ∈ n.inputs, f s = t) :
    n.renameInputs f = { n with inputs } := by
  have hset : SortedSet.ofList (n.inputs.toList.map f) = inputs := by
    apply SortedSet.ext_mem
    intro t
    rw [SortedSet.mem_ofList, List.mem_map]
    exact (h t).symm
  rw [renameInputs, hset]

theorem mem_renameInputs : t ∈ (n.renameInputs f).inputs ↔ ∃ s ∈ n.inputs, f s = t := by
  simp [renameInputs, SortedSet.mem_toList]

theorem renameInputs_eq_self (h : ∀ s ∈ n.inputs, f s = s) : n.renameInputs f = n := by
  show n.renameInputs f = { n with inputs := n.inputs }
  refine renameInputs_of_inputs fun t => ?_
  constructor
  · intro ht
    exact ⟨t, ht, h t ht⟩
  · rintro ⟨s, hs, rfl⟩
    rwa [h s hs]

theorem renameInputs_id : n.renameInputs id = n := renameInputs_eq_self fun _ _ => rfl

theorem renameInputs_renameInputs :
    (n.renameInputs f).renameInputs f' = n.renameInputs (f' ∘ f) := by
  refine renameInputs_of_inputs fun t => ?_
  simp [renameInputs, SortedSet.mem_toList]

/-- If what is renamed once keeps its new name, the inputs are the same only if none is renamed. -/
theorem inputs_renameInputs_eq_iff (hf : ∀ s, f (f s) = f s) :
    (n.renameInputs f).inputs = n.inputs ↔ ∀ s ∈ n.inputs, f s = s := by
  constructor
  · intro h t ht
    rw [← h, mem_renameInputs] at ht
    obtain ⟨s, -, rfl⟩ := ht
    exact hf s
  · intro h
    rw [renameInputs_eq_self h]

theorem replaceInput_eq_renameInputs :
    n.replaceInput s t = n.renameInputs fun u => if u = s then t else u := by
  unfold replaceInput
  split
  next hs =>
    refine (renameInputs_of_inputs fun u => ?_).symm
    rw [SortedSet.mem_insert, SortedSet.mem_erase]
    grind
  next hs => exact (renameInputs_of_inputs fun u => by grind).symm

end Rename

section Counterpart

/-- Is `t` the least output with the name and the properties of `s`? -/
def IsCounterpart (n : Node) (s t : ValueSpec) : Prop :=
  (t ∈ n.outputs ∧ t.name = s.name ∧ t.properties = s.properties) ∧
    ∀ u ∈ n.outputs, u.name = s.name → u.properties = s.properties → (compare t u).isLE

theorem counterpart?_eq_some_iff : n.counterpart? s = some t ↔ n.IsCounterpart s t := by
  refine SortedSet.find?_toList_eq_some_iff.trans ?_
  simp only [Bool.and_eq_true, decide_eq_true_eq, and_imp]
  rfl

theorem counterpart?_of_counterpart? (h : n.counterpart? s = some t) :
    n.counterpart? t = some t := by
  have ⟨⟨_, hname, hproperties⟩, _⟩ := counterpart?_eq_some_iff.1 h
  unfold counterpart? at h ⊢
  rwa [hname, hproperties]

/-- What is read in place of `s` when `new` takes the place of `old`. -/
def successor (old new : Node) (s : ValueSpec) : ValueSpec :=
  if s ∈ old.outputs then (new.counterpart? s).getD s else s

theorem successor_eq (hs : s ∈ old.outputs) (hc : new.counterpart? s = some t) :
    old.successor new s = t := by
  rw [successor, if_pos hs, hc]
  rfl

/-- A value that was taken over once is not taken over again by another. -/
theorem successor_successor :
    old.successor new (old.successor new s) = old.successor new s := by
  by_cases hs : s ∈ old.outputs
  · cases hc : new.counterpart? s with
    | none => simp [successor, hs, hc]
    | some t =>
      rw [successor_eq hs hc]
      by_cases ht : t ∈ old.outputs
      · exact successor_eq ht (counterpart?_of_counterpart? hc)
      · rw [successor, if_neg ht]
  · simp [successor, hs]

theorem exists_counterpart? (hs : s ∈ new.outputs) : ∃ t, new.counterpart? s = some t := by
  apply Option.isSome_iff_exists.1
  unfold counterpart?
  rw [List.find?_isSome]
  exact ⟨s, hs, by simp⟩

theorem successor_of_isCounterpart (hs : s ∈ old.outputs) (hc : new.IsCounterpart s t) :
    old.successor new s = t :=
  successor_eq hs (counterpart?_eq_some_iff.2 hc)

theorem successor_eq_self_iff : old.successor new s = s ↔
    (s ∈ old.outputs → ∀ t, new.IsCounterpart s t → t = s) := by
  simp only [← counterpart?_eq_some_iff]
  by_cases hs : s ∈ old.outputs
  · cases hc : new.counterpart? s with
    | none => simp [successor, hs, hc]
    | some t => simp [successor_eq hs hc, hs]
  · simp [successor, hs]

theorem isCounterpart_of_successor_eq (hs : s ∈ old.outputs) (hs' : s ∈ new.outputs)
    (h : old.successor new s = s) : new.IsCounterpart s s := by
  obtain ⟨t, ht⟩ := exists_counterpart? hs'
  have hc := counterpart?_eq_some_iff.1 ht
  obtain rfl := successor_eq_self_iff.1 h hs t hc
  exact hc

theorem successor_mem_outputs_iff : old.successor new s ∈ new.outputs ↔
    s ∈ new.outputs ∨ s ∈ old.outputs ∧ ∃ t, new.IsCounterpart s t := by
  simp only [← counterpart?_eq_some_iff]
  by_cases hs : s ∈ old.outputs
  · cases hc : new.counterpart? s with
    | none => simp [successor, hs, hc]
    | some t =>
      have ht : t ∈ new.outputs := List.mem_of_find?_eq_some hc
      simp [successor_eq hs hc, ht, hs]
  · simp [successor, hs]

end Counterpart

end Node

namespace Graph

variable {g g' : Graph} {id i j : NodeId} {m n old new : Node} {s : ValueSpec}

section Handovers

def Handover.rename (h : Handover) (s : ValueSpec) : ValueSpec := if s = h.old then h.new else s

/-- Handovers one after another do no more than each of them alone. -/
theorem foldl_rename {hs : List Handover} (hall : ∀ h ∈ hs, old.successor new h.old = h.new)
    (hs' : (∃ h ∈ hs, h.old = s) ∨ old.successor new s = s) :
    hs.foldl (fun s h => h.rename s) s = old.successor new s := by
  induction hs generalizing s with
  | nil => exact (hs'.resolve_left (by simp)).symm
  | cons h hs ih =>
    have hall' : ∀ h ∈ hs, old.successor new h.old = h.new := fun h hh =>
      hall h (List.mem_cons_of_mem _ hh)
    rw [List.foldl_cons, Handover.rename]
    split
    next he =>
      -- The value that is read from now on is what `s` becomes, and becomes nothing else.
      rw [← hall h List.mem_cons_self, ← he, ih hall' (.inr Node.successor_successor),
        Node.successor_successor]
    next hne =>
      refine ih hall' (hs'.imp_left ?_)
      rintro ⟨h', hh', rfl⟩
      rcases List.mem_cons.1 hh' with rfl | hh'
      · exact absurd rfl hne
      · exact ⟨h', hh', rfl⟩

theorem foldl_rename_handovers :
    (fun s => (g.handovers old new).foldl (fun s h => h.rename s) s) = old.successor new := by
  funext s
  refine foldl_rename (fun h hh => ?_) ?_
  · obtain ⟨ho, hc, -⟩ := mem_handovers.1 hh
    exact Node.successor_eq ho hc
  · by_cases hs : s ∈ old.outputs
    · cases hc : new.counterpart? s with
      | none => exact .inr (by simp [Node.successor, hs, hc])
      | some t => exact .inl ⟨⟨s, t, g.backing.get? s⟩, mem_handovers.2 ⟨hs, hc, rfl⟩, rfl⟩
    · exact .inr (if_neg hs)

theorem Indexed.node?_redirected (hg : g.Indexed) (h : Handover) (id i : NodeId) :
    (if h.old = h.new then g else g.redirectAll id h.old h.new).node? i =
      (g.node? i).map (·.renameInputs h.rename) := by
  split
  next he =>
    have hid : h.rename = fun s => s := by
      funext s
      unfold Handover.rename
      split
      next hs => rw [hs, he]
      next => rfl
    rw [hid]
    cases g.node? i with
    | none => rfl
    | some n => exact congrArg some Node.renameInputs_id.symm
  next =>
    rw [node?_redirectAll hg]
    simp only [Node.replaceInput_eq_renameInputs]
    rfl

theorem Indexed.node?_handOver (hg : g.Indexed) {h : Handover} (hi : i ≠ id) :
    (handOver id g h).node? i = (g.node? i).map (·.renameInputs h.rename) := by
  have hnode := hg.node?_redirected h id i
  unfold handOver
  cases h.backed with
  | none => exact hnode
  | some rs => exact (node?_modifyNode.trans (if_neg (Ne.symm hi))).trans hnode

theorem Indexed.exists_node?_handOver (hg : g.Indexed) (hn : g.node? id = some n) (h : Handover) :
    ∃ terminal, (handOver id g h).node? id = some { n.renameInputs h.rename with terminal } := by
  have hnode := hg.node?_redirected h id id
  rw [hn, Option.map_some] at hnode
  unfold handOver
  cases h.backed with
  | none => exact ⟨n.terminal, hnode⟩
  | some rs =>
    refine ⟨((n.renameInputs h.rename).flag h.new).terminal, ?_⟩
    refine (node?_modifyNode.trans (if_pos rfl)).trans ?_
    rw [hnode, Option.map_some]
    unfold Node.flag
    split <;> rfl

theorem SoundBut.node?_foldl_handOver {hs : List Handover} (hg : g.SoundBut id)
    (hfit : ∀ h ∈ hs, h.Fits g id) (hi : i ≠ id) :
    (hs.foldl (Graph.handOver id) g).node? i =
      (g.node? i).map (·.renameInputs fun s => hs.foldl (fun s h => h.rename s) s) := by
  induction hs generalizing g with
  | nil =>
    cases hn : g.node? i with
    | none => exact hn
    | some n => exact hn.trans (congrArg some Node.renameInputs_id.symm)
  | cons h hs ih =>
    obtain ⟨hg', hfit'⟩ := hg.first hfit
    rw [List.foldl_cons, ih hg' hfit', hg.indexed.node?_handOver hi, Option.map_map]
    congr 1
    funext n
    exact Node.renameInputs_renameInputs

theorem SoundBut.exists_node?_foldl_handOver {hs : List Handover} (hg : g.SoundBut id)
    (hfit : ∀ h ∈ hs, h.Fits g id) (hn : g.node? id = some n) :
    ∃ terminal, (hs.foldl (Graph.handOver id) g).node? id =
      some { n.renameInputs fun s => hs.foldl (fun s h => h.rename s) s with terminal } := by
  induction hs generalizing g n with
  | nil =>
    refine ⟨n.terminal, hn.trans (congrArg some ?_)⟩
    exact Node.renameInputs_id.symm
  | cons h hs ih =>
    obtain ⟨hg', hfit'⟩ := hg.first hfit
    obtain ⟨terminal, hnode⟩ := hg.indexed.exists_node?_handOver hn h
    obtain ⟨terminal', hnode'⟩ := ih hg' hfit' hnode
    refine ⟨terminal', hnode'.trans (congrArg some ?_)⟩
    have hrename : (n.renameInputs h.rename).renameInputs
          (fun s => hs.foldl (fun s h => h.rename s) s) =
        n.renameInputs fun s => (h :: hs).foldl (fun s h => h.rename s) s :=
      Node.renameInputs_renameInputs
    exact congrArg (fun m : Node => { m with terminal := terminal' }) hrename

end Handovers

section Replace

theorem nextId_detach : (g.detach id n).nextId = id := by
  rw [nextId, freed_detach]
  rfl

theorem eq_of_replace (hr : g.replace id n = .ok (i, g')) : i = id := by
  obtain ⟨m, -, -, rfl, -⟩ := exists_of_replace hr
  exact nextId_detach

variable (h : g.Sound)
include h

theorem Sound.exists_replace_iff : (∃ x, g.replace id new = .ok x) ↔
    g.contains id ∧ ∀ s ∈ new.outputs, ∀ i, g.Produces i s → i = id := by
  have hfree : g.conflict? new (some id) = none ↔
      ∀ s ∈ new.outputs, ∀ i, g.Produces i s → i = id := by
    rw [conflict?_eq_none_iff]
    simp only [h.indexed.producers, Option.some.injEq, eq_comm]
  rw [← hfree]
  unfold Graph.replace contains
  cases g.node? id with
  | none => simp
  | some old => cases g.conflict? new (some id) <;> simp

section Replaced

variable (hr : g.replace id n = .ok (i, g')) (hm : g.node? id = some m)
include hr hm

theorem Sound.node?_replace (hj : j ≠ id) :
    g'.node? j = (g.node? j).map (·.renameInputs (m.successor n)) := by
  obtain ⟨hc, rfl, rfl⟩ := eq_of_replace_of_node? hm hr
  have hj' : j ≠ (g.detach id m).nextId := by rwa [nextId_detach]
  have hbut := h.soundBut_link hm hc
  refine (hbut.node?_foldl_handOver (fun _ => h.fits_handover hm) hj').trans ?_
  rw [foldl_rename_handovers, node?_link, if_neg (Ne.symm hj'), node?_detach, if_neg (Ne.symm hj)]

/-- The new node has its inputs renamed like the others, for it is linked before they are. -/
theorem Sound.exists_node?_replaced :
    ∃ terminal, g'.node? i = some { n.renameInputs (m.successor n) with terminal } := by
  obtain ⟨hc, rfl, rfl⟩ := eq_of_replace_of_node? hm hr
  have hnew : ((g.detach id m).link n).node? (g.detach id m).nextId = some n := by simp
  rw [← foldl_rename_handovers]
  exact (h.soundBut_link hm hc).exists_node?_foldl_handOver (fun _ => h.fits_handover hm) hnew

theorem Sound.contains_replaced : g'.contains i := by
  obtain ⟨terminal, hnode⟩ := h.exists_node?_replaced hr hm
  simp [contains, hnode]

theorem Sound.contains_replace : g'.contains j = g.contains j := by
  by_cases hj : j = id
  · have hnew := h.contains_replaced hr hm
    rw [eq_of_replace hr] at hnew
    rw [hj, hnew, contains, hm]
    rfl
  · unfold contains
    rw [h.node?_replace hr hm hj, Option.isSome_map]

theorem Sound.not_produces_replace (hs : s ∈ m.outputs) (hc : n.counterpart? s = none) :
    ¬ g'.Produces j s := by
  rw [h.produces_replace hr hm]
  rintro (⟨-, hnew⟩ | ⟨-, hno⟩)
  · simpa using List.find?_eq_none.1 hc s hnew
  · exact hno hs

end Replaced

end Replace

/-- What becomes of a graph in which `new` takes the place of the node `old` under `id`. -/
structure Replaces (g : Graph) (id : NodeId) (old new : Node) (g' : Graph) : Prop where
  /-- The counterpart of a value is the least output with its name and properties. -/
  counterpart : ∀ s t, new.counterpart? s = some t ↔ new.IsCounterpart s t
  contains : ∀ i, g'.contains i = g.contains i
  /-- Another node has other inputs only, all of them renamed at once. -/
  others : ∀ i, i ≠ id → g'.node? i = (g.node? i).map (·.renameInputs (old.successor new))
  /-- A value backs what the outputs backed whose counterpart it is, and what it backed itself. -/
  backing : ∀ t r, r ∈ g'.backing.setAt t ↔
    (∃ s ∈ old.outputs, new.counterpart? s = some t ∧ r ∈ g.backing.setAt s) ∨
      t ∉ old.outputs ∧ r ∈ g.backing.setAt t
  terminal : ∀ t, g'.isTerminal t ↔ ∃ r, r ∈ g'.backing.setAt t
  dropped : ∀ s ∈ old.outputs, new.counterpart? s = none →
    g'.producer? s = none ∧ (∀ i, ¬ g'.Produces i s) ∧ ¬ g'.isTerminal s

theorem Sound.replaces (h : g.Sound) (hr : g.replace id new = .ok (i, g'))
    (hm : g.node? id = some old) : g.Replaces id old new g' := by
  have h' := h.replace hr
  have hbacking : ∀ t r, r ∈ g'.backing.setAt t ↔
      (∃ s ∈ old.outputs, new.counterpart? s = some t ∧ r ∈ g.backing.setAt s) ∨
        t ∉ old.outputs ∧ r ∈ g.backing.setAt t := by
    intro t r
    have hcarries : ∀ s, g.Carries id new s t ↔ s ∈ old.outputs ∧ new.counterpart? s = some t := by
      intro s
      unfold Carries Produces
      simp [hr, hm]
    rw [mem_backing_replace hr hm]
    simp only [hcarries]
    grind
  refine ⟨fun s t => Node.counterpart?_eq_some_iff, fun j => h.contains_replace hr hm,
    fun j => h.node?_replace hr hm, hbacking, fun t => h'.isTerminal_iff, fun s hs hc => ?_⟩
  have hno : ∀ j, ¬ g'.Produces j s := fun j => h.not_produces_replace hr hm hs hc
  refine ⟨?_, hno, fun ht => ?_⟩
  · cases hp : g'.producer? s with
    | none => rfl
    | some j => exact absurd ((h'.indexed.producers s j).1 hp) (hno j)
  · obtain ⟨r, hr⟩ := h'.isTerminal_iff.1 ht
    obtain ⟨j, hj⟩ := h'.indexed.exists_produces hr
    exact hno j hj

/--
A node can take the place of another that is there if no third one produces an output of it. It
gets the id, and has the readers and the requirements of the outputs that it has counterparts of.
-/
theorem replaces_after (configuration : String) (os : List Operation) (id : NodeId) (new : Node) :
    let g := after configuration os
    ((∃ x, g.replace id new = .ok x) ↔
      g.contains id ∧ ∀ s ∈ new.outputs, ∀ i, g.Produces i s → i = id) ∧
    (∀ e, g.replace id new = .error e → g.apply (.replace id new) = g) ∧
    ∀ i g', g.replace id new = .ok (i, g') →
      i = id ∧ ∃ old, g.node? id = some old ∧ g.Replaces id old new g' := by
  intro g
  have h : g.Sound := sound_after configuration os
  refine ⟨h.exists_replace_iff, fun e he => ?_, fun i g' hr => ?_⟩
  · simp only [apply, he]
  · obtain ⟨old, hold, -⟩ := exists_of_replace hr
    exact ⟨eq_of_replace hr, old, hold, h.replaces hr hold⟩

end Graph

end ValueGraph
