import ValueGraph.Proofs.Graph.Flags
import ValueGraph.Proofs.Graph.Order
import ValueGraph.Proofs.Graph.Replacement

namespace ValueGraph.Graph

variable {g g' : Graph} {id i j : NodeId} {n old new : Node} {s t : ValueSpec} {r : Requirement}

section Replaced

theorem Indexed.backing_eq (h : g.Indexed) (h' : g'.Indexed)
    (hsame : ∀ s r, r ∈ g.backing.setAt s ↔ r ∈ g'.backing.setAt s) : g.backing = g'.backing :=
  SortedMap.ext_mem_setAt (fun s rs hs => (h.backing s rs hs).2)
    (fun s rs hs => (h'.backing s rs hs).2) hsame

variable (h : g.Sound) (hr : g.replace id new = .ok (i, g')) (hold : g.node? id = some old)
include h hr hold

theorem Sound.reads_replace (hj : j ≠ id) :
    g'.Reads j t ↔ ∃ s, g.Reads j s ∧ old.successor new s = t := by
  unfold Reads
  rw [h.node?_replace hr hold hj]
  cases g.node? j <;> simp [Node.mem_renameInputs]

theorem Sound.reads_replaced :
    g'.Reads i t ↔ ∃ s ∈ new.inputs, old.successor new s = t := by
  obtain ⟨terminal, hnode⟩ := h.exists_node?_replaced hr hold
  unfold Reads
  rw [hnode]
  simp only [Option.some.injEq, exists_eq_left']
  exact Node.mem_renameInputs

/-- No mark that an output is read outside is handed over. -/
theorem Sound.mem_external_replace :
    s ∈ g'.external ↔ s ∈ g.external ∧ s ∉ old.outputs := by
  rw [(h.sameOutputs_replace hold hr).external, external_link]
  exact mem_external_detach

theorem Sound.mem_outputs_of_produces (hs : s ∈ new.outputs) (hp : g.Produces j s) :
    s ∈ old.outputs := by
  obtain ⟨hc, -⟩ := eq_of_replace_of_node? hold hr
  have hid : some id = some j :=
    conflict?_eq_none_iff.1 hc s hs j ((h.indexed.producers s j).2 hp)
  cases hid
  exact (h.indexed.mem_outputs_iff hold hp).2 rfl

theorem Sound.not_mem_external_replaced (hs : s ∈ new.outputs) : s ∉ g'.external := by
  rw [h.mem_external_replace hr hold]
  rintro ⟨he, hno⟩
  obtain ⟨j, hp⟩ := h.indexed.external s he
  exact hno (h.mem_outputs_of_produces hr hold hs hp)

end Replaced

section Kept

/-- Does what reads `s`, the node under `id` apart, read it in `g'` too, and `s` back as much? -/
structure Keeps (g : Graph) (id : NodeId) (s : ValueSpec) (g' : Graph) : Prop where
  readers : ∀ j, j ≠ id → g.Reads j s → g'.Reads j s
  backing : ∀ r ∈ g.backing.setAt s, r ∈ g'.backing.setAt s

variable (h : g.Sound) (hr : g.replace id new = .ok (i, g')) (hold : g.node? id = some old)
include h hr hold

/-- The counterpart of an output takes over its readers and what it backs. -/
theorem Sound.handed_over (hs : s ∈ old.outputs) (hc : new.IsCounterpart s t) :
    (∀ j, j ≠ id → g.Reads j s → g'.Reads j t) ∧
      ∀ r ∈ g.backing.setAt s, r ∈ g'.backing.setAt t := by
  constructor
  · intro j hj hreads
    exact (h.reads_replace hr hold hj).2 ⟨s, hreads, Node.successor_of_isCounterpart hs hc⟩
  · intro r hrs
    have hcarried := Node.counterpart?_eq_some_iff.2 hc
    exact ((h.replaces hr hold).backing t r).2 (.inl ⟨s, hs, hcarried, hrs⟩)

/-- What is not its own counterpart loses to it all readers and all that it backs. -/
theorem Sound.deserted (hs : s ∈ old.outputs) (hs' : s ∈ new.outputs)
    (hc : ¬ new.IsCounterpart s s) :
    (∀ j, j ≠ id → ¬ g'.Reads j s) ∧ ∀ r, r ∉ g'.backing.setAt s := by
  constructor
  · intro j hj hreads
    -- A value that is read in place of another is its own counterpart.
    obtain ⟨u, -, rfl⟩ := (h.reads_replace hr hold hj).1 hreads
    exact hc (Node.isCounterpart_of_successor_eq hs hs' Node.successor_successor)
  · intro r hrs
    rcases ((h.replaces hr hold).backing s r).1 hrs with ⟨u, -, hu, -⟩ | ⟨hno, -⟩
    · exact hc (Node.counterpart?_eq_some_iff.1 (Node.counterpart?_of_counterpart? hu))
    · exact hno hs

/-- An output that is there before and after is kept if it is its own counterpart, and only so. -/
theorem Sound.keeps_iff (hs : s ∈ old.outputs) (hs' : s ∈ new.outputs) :
    g.Keeps id s g' ↔
      new.IsCounterpart s s ∨ (∀ j, j ≠ id → ¬ g.Reads j s) ∧ ¬ g.isTerminal s := by
  constructor
  · intro hkeeps
    by_cases hc : new.IsCounterpart s s
    · exact .inl hc
    · obtain ⟨hreaders, hbacking⟩ := h.deserted hr hold hs hs' hc
      refine .inr ⟨fun j hj hreads => hreaders j hj (hkeeps.readers j hj hreads), fun ht => ?_⟩
      obtain ⟨r, hrs⟩ := h.isTerminal_iff.1 ht
      exact hbacking r (hkeeps.backing r hrs)
  · rintro (hc | ⟨hreaders, hterminal⟩)
    · obtain ⟨hreaders, hbacking⟩ := h.handed_over hr hold hs hc
      exact ⟨hreaders, hbacking⟩
    · refine ⟨fun j hj hreads => absurd hreads (hreaders j hj), fun r hrs => ?_⟩
      exact absurd (h.isTerminal_iff.2 ⟨r, hrs⟩) hterminal

theorem Sound.counterpart?_of_keeps (hs : s ∈ old.outputs) (hs' : s ∈ new.outputs)
    (hkeeps : g.Keeps id s g') (hused : (∃ j, j ≠ id ∧ g.Reads j s) ∨ g.isTerminal s) :
    new.counterpart? s = some s := by
  apply Node.counterpart?_eq_some_iff.2
  apply ((h.keeps_iff hr hold hs hs').1 hkeeps).resolve_right
  rintro ⟨hreaders, hterminal⟩
  rcases hused with ⟨j, hj, hreads⟩ | ht
  · exact hreaders j hj hreads
  · exact hterminal ht

theorem Sound.unchanged_iff (hout : new.outputs = old.outputs) :
    ((∀ j, j ≠ id → g'.node? j = g.node? j) ∧ g'.backing = g.backing) ↔
      ∀ s ∈ old.outputs, g.Keeps id s g' := by
  constructor
  · rintro ⟨hnode, hbacking⟩ s -
    refine ⟨fun j hj hreads => ?_, fun r hrs => ?_⟩
    · unfold Reads
      rw [hnode j hj]
      exact hreads
    · rwa [hbacking]
  · intro hkeeps
    have hkept : ∀ s ∈ old.outputs, (∃ j, j ≠ id ∧ g.Reads j s) ∨ g.isTerminal s →
        new.counterpart? s = some s := fun s hs =>
      h.counterpart?_of_keeps hr hold hs (hout ▸ hs) (hkeeps s hs)
    constructor
    · intro j hj
      rw [h.node?_replace hr hold hj]
      cases hn : g.node? j with
      | none => rfl
      | some n =>
        refine congrArg some (Node.renameInputs_eq_self fun s hs => ?_)
        by_cases ho : s ∈ old.outputs
        · exact Node.successor_eq ho (hkept s ho (.inl ⟨j, hj, n, hn, hs⟩))
        · exact if_neg ho
    · refine (h.replace hr).indexed.backing_eq h.indexed fun t r => ?_
      rw [(h.replaces hr hold).backing]
      constructor
      · rintro (⟨s, hs, hc, hrs⟩ | ⟨-, hrs⟩)
        · rw [hkept s hs (.inr (h.isTerminal_iff.2 ⟨r, hrs⟩))] at hc
          cases hc
          exact hrs
        · exact hrs
      · intro hrs
        by_cases ht : t ∈ old.outputs
        · exact .inl ⟨t, ht, hkept t ht (.inr (h.isTerminal_iff.2 ⟨r, hrs⟩)), hrs⟩
        · exact .inr ⟨ht, hrs⟩

end Kept

/--
An output that is there before and after a replacement keeps what reads it and what it backs just if
it is the least output with its name and properties, or if there is nothing to keep; all that is
lost goes to that least output. So a copy of the old node leaves the other nodes and the backing as
they are just if each output is kept.
-/
theorem keeps_after_replace (configuration : String) (os : List Operation) (id : NodeId)
    (new : Node) (i : NodeId) (g' : Graph) :
    let g := after configuration os
    g.replace id new = .ok (i, g') → ∃ old, g.node? id = some old ∧
      (∀ s ∈ old.outputs, s ∈ new.outputs →
        (g.Keeps id s g' ↔
          new.IsCounterpart s s ∨ (∀ j, j ≠ id → ¬ g.Reads j s) ∧ ¬ g.isTerminal s)) ∧
      (∀ s ∈ old.outputs, ∀ t, new.IsCounterpart s t →
        (∀ j, j ≠ id → g.Reads j s → g'.Reads j t) ∧
          ∀ r ∈ g.backing.setAt s, r ∈ g'.backing.setAt t) ∧
      (new.outputs = old.outputs →
        ((∀ j, j ≠ id → g'.node? j = g.node? j) ∧ g'.backing = g.backing ↔
          ∀ s ∈ old.outputs, g.Keeps id s g')) := by
  intro g hr
  have h : g.Sound := sound_after configuration os
  obtain ⟨old, hold, -⟩ := exists_of_replace hr
  exact ⟨old, hold, fun s => h.keeps_iff hr hold, fun s hs t => h.handed_over hr hold hs,
    h.unchanged_iff hr hold⟩

def future : ValueSpec := { quote with target := ⟨.security, "Future"⟩ }

def quotingBoth : Node :=
  { quoting with outputs := .ofList [quote, future], terminal := .singleton future }

def pricing (s : ValueSpec) : Node where
  function := .relabel
  target := s.target
  inputs := .singleton s
  outputs := .singleton { s with name := "Price" }

def relyingOnBoth : List Operation :=
  [.add { quotingBoth with terminal := ∅ }, .add (pricing future),
    .mark ⟨"Quote", future.target, ∅⟩ future]

/-- A copy takes the place of the node, and the quote of the one target is read for the other's. -/
theorem future_deserted :
    let g := after "Default" relyingOnBoth
    g.node? 0 = some quotingBoth ∧ g.consumers future = [1] ∧ g.isTerminal future ∧
      ∃ g', g.replace 0 quotingBoth = .ok (0, g') ∧ g'.consumers future = [] ∧
        g'.consumers quote = [1] ∧ g'.isTerminal future = false := by
  refine ⟨by decide +kernel, by decide +kernel, by decide +kernel, _, rfl, ?_, ?_, ?_⟩
  · decide +kernel
  · decide +kernel
  · decide +kernel

theorem keeps_after_replace_both :
    let g := after "Default" relyingOnBoth
    ∃ g', g.replace 0 quotingBoth = .ok (0, g') ∧ g.Keeps 0 quote g' ∧ ¬ g.Keeps 0 future g' := by
  intro g
  have hnode : g.node? 0 = some quotingBoth := by decide +kernel
  obtain ⟨old, hold, hkeeps, -⟩ := keeps_after_replace "Default" relyingOnBoth 0 quotingBoth 0 _ rfl
  obtain rfl : quotingBoth = old := Option.some.inj (hnode.symm.trans hold)
  refine ⟨_, rfl, ?_, ?_⟩
  · refine (hkeeps quote (by decide +kernel) (by decide +kernel)).2 (.inl ?_)
    exact Node.counterpart?_eq_some_iff.1 (by decide +kernel)
  · rw [hkeeps future (by decide +kernel) (by decide +kernel)]
    rintro (hc | ⟨-, hterminal⟩)
    · have hno : quotingBoth.counterpart? future ≠ some future := by decide +kernel
      exact hno (Node.counterpart?_eq_some_iff.2 hc)
    · exact hterminal (by decide +kernel)

/--
An output is read outside after a replacement just if it was so before and is none of the old node,
and then pruning leaves it. No output of the new node is, so that pruning leaves those alone that
are terminal or that a node reads which is left.
-/
theorem isExternal_after_replace (configuration : String) (os : List Operation) (id : NodeId)
    (new : Node) (i : NodeId) (g' : Graph) :
    let g := after configuration os
    g.replace id new = .ok (i, g') → ∃ old, g.node? id = some old ∧
      (∀ s, g'.isExternal s ↔ g.isExternal s ∧ s ∉ old.outputs) ∧
      (∀ s, g'.isExternal s → ∃ j, g'.prune.Produces j s) ∧
      ∀ t ∈ new.outputs, ¬ g'.isExternal t ∧
        ((∃ j, g'.prune.Produces j t) ↔ g'.isTerminal t ∨ ∃ c, g'.prune.Reads c t) := by
  intro g hr
  have h : g.Sound := sound_after configuration os
  have h' : g'.Sound := h.replace hr
  obtain ⟨old, hold, -⟩ := exists_of_replace hr
  refine ⟨old, hold, fun s => ?_, fun s hs => ?_, fun t ht => ?_⟩
  · unfold isExternal
    rw [decide_eq_true_eq, decide_eq_true_eq]
    exact h.mem_external_replace hr hold
  · obtain ⟨p, hp⟩ := h'.agrees.external s hs
    exact (h'.exists_produces_prune_iff hp).2 (.inr (.inl hs))
  · have hexternal : ¬ g'.isExternal t := fun he =>
      h.not_mem_external_replaced hr hold ht (of_decide_eq_true he)
    have hp : g'.Produces i t := (h.produces_replace hr hold).2 (.inl ⟨rfl, ht⟩)
    refine ⟨hexternal, (h'.exists_produces_prune_iff hp).trans (or_congr_right ?_)⟩
    exact or_iff_right hexternal

/-- The part without the node that reads the quote. -/
def withoutReader : List Operation :=
  [.add quoting, .add (pricing quote), .part (.singleton 0)]

/-- A copy takes the place of the node, and pruning takes out what the other part is to read. -/
theorem quote_pruned :
    let g := after "Default" withoutReader
    g.node? 0 = some quoting ∧ g.isExternal quote ∧ g.prune.producer? quote = some 0 ∧
      ∃ g', g.replace 0 quoting = .ok (0, g') ∧ g'.producer? quote = some 0 ∧
        g'.isExternal quote = false ∧ g'.prune.producer? quote = none := by
  refine ⟨by decide +kernel, by decide +kernel, by decide +kernel, _, rfl, ?_, ?_, ?_⟩
  · decide +kernel
  · decide +kernel
  · decide +kernel

theorem isExternal_after_replace_quote :
    let g := after "Default" withoutReader
    ∃ g', g.replace 0 quoting = .ok (0, g') ∧ g.isExternal quote ∧ ¬ g'.isExternal quote ∧
      ((∃ j, g'.prune.Produces j quote) ↔ g'.isTerminal quote ∨ ∃ c, g'.prune.Reads c quote) := by
  intro g
  obtain ⟨old, -, -, -, houtputs⟩ :=
    isExternal_after_replace "Default" withoutReader 0 quoting 0 _ rfl
  exact ⟨_, rfl, by decide +kernel, houtputs quote (by decide +kernel)⟩

section Installed

/-- How `new` is found under `i` when it has taken the place of `old`. -/
structure Installed (g : Graph) (old new : Node) (i : NodeId) (g' : Graph) (n : Node) : Prop where
  node : g'.node? i = some n
  function : n.function = new.function
  target : n.target = new.target
  outputs : n.outputs = new.outputs
  /-- Flags are only added, for what is taken over with its backing. -/
  terminal : ∀ t, t ∈ n.terminal ↔
    t ∈ new.terminal ∨ ∃ s ∈ old.outputs, new.IsCounterpart s t ∧ g.isTerminal s
  /-- What it was to read of the old node it reads of itself. -/
  inputs : ∀ t, t ∈ n.inputs ↔ ∃ s ∈ new.inputs, old.successor new s = t
  as_declared : n.inputs = new.inputs ↔
    ∀ s ∈ new.inputs, s ∈ old.outputs → ∀ t, new.IsCounterpart s t → t = s
  circular : i ∈ g'.suppliers i ↔
    ∃ s ∈ new.inputs, s ∈ new.outputs ∨ s ∈ old.outputs ∧ ∃ t, new.IsCounterpart s t

variable (h : g.Sound) (hr : g.replace id new = .ok (i, g')) (hold : g.node? id = some old)
include h hr hold

theorem Sound.mem_terminal_replaced (hn : g'.node? i = some n) : t ∈ n.terminal ↔
    t ∈ new.terminal ∨ ∃ s ∈ old.outputs, new.IsCounterpart s t ∧ g.isTerminal s := by
  have hok : ∃ x, g.replace id new = .ok x := ⟨_, hr⟩
  have hid : i = id := eq_of_replace hr
  have hflags : g'.Flags i t ↔ t ∈ n.terminal := by simp [Flags, hn]
  have hcarries (s : ValueSpec) :
      g.Carries id new s t ↔ s ∈ old.outputs ∧ new.IsCounterpart s t := by
    unfold Carries Produces
    simp [hok, hold, Node.counterpart?_eq_some_iff]
  rw [← hflags, h.flags_replace hr]
  simp only [hcarries, h.isTerminal_iff, hid]
  grind

theorem Sound.installed : ∃ n, g.Installed old new i g' n := by
  obtain ⟨terminal, hnode⟩ := h.exists_node?_replaced hr hold
  refine ⟨_, hnode, rfl, rfl, rfl, fun t => h.mem_terminal_replaced hr hold hnode,
    fun t => Node.mem_renameInputs, ?_, ?_⟩
  · refine (Node.inputs_renameInputs_eq_iff fun s => Node.successor_successor).trans ?_
    simp only [Node.successor_eq_self_iff]
  · have hproduces (t : ValueSpec) : g'.Produces i t ↔ t ∈ new.outputs := by
      unfold Produces
      rw [hnode]
      simp [Node.renameInputs]
    rw [(h.replace hr).indexed.mem_suppliers]
    unfold Feeds
    simp only [hproduces, h.reads_replaced hr hold, ← Node.successor_mem_outputs_iff]
    grind

end Installed

theorem Sound.not_ordered (h : g.Sound) (hi : i ∈ g.suppliers i) (order : List NodeId) :
    g.executionOrder ≠ .ok order := by
  intro ho
  have hcycle : Relation.TransGen g.Feeds i i := .single (h.indexed.mem_suppliers.1 hi)
  rw [← feedsIn_none] at hcycle
  exact h.indexed.not_cycle_of_executionOrder ho hcycle

/--
The new node is found as it was given, with flags for what it takes over, if it was to read no
output of the old node that it has another for. It depends on itself just if it was to read an
output of its own, or one of the old node that it has a counterpart of.
-/
theorem installed_after_replace (configuration : String) (os : List Operation) (id : NodeId)
    (new : Node) (i : NodeId) (g' : Graph) :
    let g := after configuration os
    g.replace id new = .ok (i, g') →
      ∃ old n, g.node? id = some old ∧ g.Installed old new i g' n := by
  intro g hr
  have h : g.Sound := sound_after configuration os
  obtain ⟨old, hold, -⟩ := exists_of_replace hr
  obtain ⟨n, hn⟩ := h.installed hr hold
  exact ⟨old, n, hold, hn⟩

/-- Quotes another target by what the old node quoted. -/
def requoting : Node :=
  { pricing quote with target := future.target, outputs := .singleton future }

/-- The new node reads nothing but its own output, and cannot be ordered. -/
theorem requoting_circular :
    (∀ s ∈ requoting.inputs, s ∉ requoting.outputs) ∧
      ∃ g', (after "Default" [.add quoting]).replace 0 requoting = .ok (0, g') ∧
        g'.node? 0 = some { requoting with inputs := .singleton future } ∧
        g'.suppliers 0 = [0] ∧ ∀ order, g'.executionOrder ≠ .ok order := by
  refine ⟨?_, _, rfl, ?_, ?_, ?_⟩
  · decide +kernel
  · decide +kernel
  · decide +kernel
  · have hr : (after "Default" [.add quoting]).replace 0 requoting = .ok (0, _) := rfl
    have h' := (sound_after "Default" [.add quoting]).replace hr
    exact h'.not_ordered (show 0 ∈ _ by decide +kernel)

theorem installed_after_replace_requoting :
    ∃ g' n, (after "Default" [.add quoting]).replace 0 requoting = .ok (0, g') ∧
      g'.node? 0 = some n ∧ future ∈ n.inputs ∧ 0 ∈ g'.suppliers 0 := by
  obtain ⟨old, n, hold, hn⟩ := installed_after_replace "Default" [.add quoting] 0 requoting 0 _ rfl
  have hnode : (after "Default" [.add quoting]).node? 0 = some quoting := by decide +kernel
  obtain rfl : quoting = old := Option.some.inj (hnode.symm.trans hold)
  have hc : requoting.IsCounterpart quote future :=
    Node.counterpart?_eq_some_iff.1 (by decide +kernel)
  have hread : quote ∈ requoting.inputs := by decide +kernel
  have ho : quote ∈ quoting.outputs := by decide +kernel
  refine ⟨_, n, rfl, hn.node, ?_, ?_⟩
  · exact (hn.inputs future).2 ⟨quote, hread, Node.successor_of_isCounterpart ho hc⟩
  · exact hn.circular.2 ⟨quote, hread, .inr ⟨ho, future, hc⟩⟩

end ValueGraph.Graph
