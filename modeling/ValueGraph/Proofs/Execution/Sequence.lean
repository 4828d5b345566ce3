import ValueGraph.Execution.Job
import ValueGraph.Proofs.Graph.Order

namespace ValueGraph

namespace JobItem

variable {items done : List JobItem} {item : JobItem} {values : SortedSet ValueSpec}
  {s : ValueSpec}

/--
Runs the items one after another, each with the values that are there by then. There is no result
if an item does not find one of its inputs.
-/
def runAll : List JobItem → SortedSet ValueSpec → Option (SortedSet ValueSpec)
  | [], values => some values
  | item :: items, values =>
    if item.inputs.all (· ∈ values) then runAll items (item.outputs.foldl .insert values) else none

/-- Is each input of an item an output of an earlier one, or of none? -/
def Supplied (items : List JobItem) : Prop :=
  ∀ (k : Nat) (item : JobItem) (s : ValueSpec), items[k]? = some item → s ∈ item.inputs →
    (∃ j < k, ∃ x, items[j]? = some x ∧ s ∈ x.outputs) ∨ ∀ x ∈ items, s ∉ x.outputs

/-- The values that the items read and do not make are all there. -/
def Provides (values : SortedSet ValueSpec) (items : List JobItem) : Prop :=
  ∀ item ∈ items, ∀ s ∈ item.inputs, (∀ x ∈ items, s ∉ x.outputs) → s ∈ values

theorem runAll_append_of_supplied {made : SortedSet ValueSpec} (h : Supplied (done ++ items))
    (hv : Provides values (done ++ items))
    (hmade : ∀ s, s ∈ made ↔ s ∈ values ∨ ∃ x ∈ done, s ∈ x.outputs) :
    ∃ all, runAll items made = some all ∧
      ∀ s, s ∈ all ↔ s ∈ values ∨ ∃ x ∈ done ++ items, s ∈ x.outputs := by
  -- By induction on the items that are still to be run; `made` is what the others have left.
  induction items generalizing done made with
  | nil => exact ⟨made, rfl, by simpa using hmade⟩
  | cons item items ih =>
    have hin : ∀ s ∈ item.inputs, s ∈ made := by
      intro s hs
      have hk : (done ++ item :: items)[done.length]? = some item := by simp
      rw [hmade]
      rcases h done.length item s hk hs with ⟨j, hj, x, hx, hout⟩ | hno
      · rw [List.getElem?_append_left hj] at hx
        exact .inr ⟨x, List.mem_of_getElem? hx, hout⟩
      · exact .inl (hv item (by simp) s hs hno)
    rw [List.append_cons] at h hv ⊢
    rw [runAll, if_pos (by simpa using hin)]
    refine ih h hv fun s => ?_
    rw [SortedSet.mem_foldl_insert, hmade]
    simp [or_assoc]

/-- If what is read is made before or comes from outside, all items find their inputs. -/
theorem exists_runAll (h : Supplied items) (hv : Provides values items) :
    ∃ all, runAll items values = some all ∧
      ∀ s, s ∈ all ↔ s ∈ values ∨ ∃ x ∈ items, s ∈ x.outputs := by
  have h' : Supplied ([] ++ items) := h
  exact runAll_append_of_supplied h' hv (by simp)

end JobItem

/-- What a job has of the nodes of a graph, and how its items depend on each other. -/
structure Job.Arranges (job : Job) (g : Graph) : Prop where
  /-- Each node of the graph is the node of one item, and each item has what its node has. -/
  nodes : (job.items.map (·.node)).Nodup
  items : ∀ item, item ∈ job.items ↔ ∃ n, g.node? item.node = some n ∧
    item.function = n.function ∧ item.target = n.target ∧
    item.inputs = n.inputs.toList ∧ item.outputs = n.outputs.toList
  one_producer : ∀ (j k : Nat) (x y : JobItem) (s : ValueSpec), job.items[j]? = some x →
    job.items[k]? = some y → s ∈ x.outputs → s ∈ y.outputs → j = k
  supplied : JobItem.Supplied job.items
  /-- No item reads what it makes itself, or a later one. -/
  earlier : ∀ (j k : Nat) (x y : JobItem) (s : ValueSpec), job.items[j]? = some x →
    job.items[k]? = some y → s ∈ x.outputs → s ∈ y.inputs → j < k
  /-- Where the values from outside are there, all items find their inputs. -/
  runs : ∀ values, JobItem.Provides values job.items →
    ∃ all, JobItem.runAll job.items values = some all ∧
      ∀ s, s ∈ all ↔ s ∈ values ∨ ∃ x ∈ job.items, s ∈ x.outputs

namespace Graph

variable {g : Graph} {id : JobId} {job : Job} {order : List NodeId} {item x y : JobItem}
  {s : ValueSpec} {j k : Nat}

section Items

variable (hjob : g.job id = .ok job)
include hjob

theorem map_node_items : ∃ order, g.executionOrder = .ok order ∧
    job.items.map (·.node) = order := by
  obtain ⟨order, ho, rfl⟩ := job_eq_ok_iff.1 hjob
  refine ⟨order, ho, ?_⟩
  have hsome : ∀ i ∈ order, ((g.node? i).map (jobItem i)).map (·.node) = some i := by
    intro i hi
    obtain ⟨n, hn⟩ := Option.isSome_iff_exists.1 ((mem_executionOrder_iff ho).1 hi).1
    rw [hn]
    rfl
  dsimp only
  rw [List.map_filterMap, List.filterMap_congr hsome, List.filterMap_some]

theorem mem_items_iff : item ∈ job.items ↔
    ∃ n, g.node? item.node = some n ∧ item = jobItem item.node n := by
  obtain ⟨order, ho, rfl⟩ := job_eq_ok_iff.1 hjob
  simp only [List.mem_filterMap, Option.map_eq_some_iff]
  constructor
  · rintro ⟨i, -, n, hn, rfl⟩
    exact ⟨n, hn, rfl⟩
  · rintro ⟨n, hn, he⟩
    have hview : g.InView none item.node := ⟨by simp [contains, hn], nofun⟩
    exact ⟨item.node, (mem_executionOrder_iff ho).2 hview, n, hn, he.symm⟩

theorem produces_of_mem_items (hx : x ∈ job.items) (hs : s ∈ x.outputs) :
    g.Produces x.node s := by
  obtain ⟨n, hn, he⟩ := (mem_items_iff hjob).1 hx
  rw [he] at hs
  exact ⟨n, hn, hs⟩

theorem reads_of_mem_items (hx : x ∈ job.items) (hs : s ∈ x.inputs) : g.Reads x.node s := by
  obtain ⟨n, hn, he⟩ := (mem_items_iff hjob).1 hx
  rw [he] at hs
  exact ⟨n, hn, hs⟩

theorem nodup_items : (job.items.map (·.node)).Nodup := by
  obtain ⟨order, ho, hmap⟩ := map_node_items hjob
  rw [hmap]
  exact nodup_executionOrder ho

theorem idxOf_node (hx : job.items[j]? = some x) :
    (job.items.map (·.node)).idxOf x.node = j := by
  have hnode : (job.items.map (·.node))[j]? = some x.node := by
    rw [List.getElem?_map, hx]
    rfl
  obtain ⟨hj, hnode⟩ := List.getElem?_eq_some_iff.1 hnode
  rw [← hnode]
  exact (nodup_items hjob).idxOf_getElem j hj

end Items

section Sound

variable (h : g.Sound)
include h

theorem Sound.lt_of_flow (hjob : g.job id = .ok job) (hx : job.items[j]? = some x)
    (hy : job.items[k]? = some y) (ho : s ∈ x.outputs) (hi : s ∈ y.inputs) : j < k := by
  obtain ⟨order, horder, hmap⟩ := map_node_items hjob
  have hflow : g.Feeds x.node y.node :=
    ⟨s, produces_of_mem_items hjob (List.mem_of_getElem? hx) ho,
      reads_of_mem_items hjob (List.mem_of_getElem? hy) hi⟩
  rw [← feedsIn_none] at hflow
  have hlt := h.indexed.idxOf_lt_idxOf horder hflow
  rw [← hmap] at hlt
  rwa [idxOf_node hjob hx, idxOf_node hjob hy] at hlt

theorem Sound.arranges_job (hjob : g.job id = .ok job) : job.Arranges g := by
  have hsupplied : JobItem.Supplied job.items := by
    intro k item s hk hs
    by_cases hmade : ∃ x ∈ job.items, s ∈ x.outputs
    · obtain ⟨x, hx, ho⟩ := hmade
      obtain ⟨j, hj⟩ := List.mem_iff_getElem?.1 hx
      exact .inl ⟨j, h.lt_of_flow hjob hj hk ho hs, x, hj, ho⟩
    · exact .inr fun x hx ho => hmade ⟨x, hx, ho⟩
  refine ⟨nodup_items hjob, fun item => ?_, fun j k x y s hx hy hs hs' => ?_, hsupplied,
    fun j k x y s hx hy => h.lt_of_flow hjob hx hy, fun values hv => ?_⟩
  · rw [mem_items_iff hjob]
    refine exists_congr fun n => and_congr_right fun _ => ?_
    obtain ⟨i, f, t, inputs, outputs⟩ := item
    simp [jobItem]
  · have hp := produces_of_mem_items hjob (List.mem_of_getElem? hx) hs
    have hp' := produces_of_mem_items hjob (List.mem_of_getElem? hy) hs'
    rw [← idxOf_node hjob hx, ← idxOf_node hjob hy, h.indexed.unique hp hp']
  · exact JobItem.exists_runAll hsupplied hv

end Sound

/--
There is a job for a graph just if no node depends on itself. Its items have what the nodes have,
and run one after another each of them finds what it reads.
-/
theorem arranges_job_after (configuration : String) (os : List Operation) (id : JobId) :
    let g := after configuration os
    ((∃ job, g.job id = .ok job) ↔ ∀ i, ¬ Relation.TransGen g.Feeds i i) ∧
      (∀ e, g.job id = .error e → ∃ i, e = .cycle i ∧ Relation.TransGen g.Feeds i i) ∧
      ∀ job, g.job id = .ok job → job.Arranges g := by
  intro g
  have h : g.Sound := sound_after configuration os
  refine ⟨?_, fun e he => ?_, fun job hjob => h.arranges_job hjob⟩
  · rw [← feedsIn_none, ← h.indexed.exists_executionOrder_iff]
    simp only [job_eq_ok_iff]
    exact ⟨fun ⟨_, order, ho, _⟩ => ⟨order, ho⟩, fun ⟨order, ho⟩ => ⟨_, order, ho, rfl⟩⟩
  · rw [← feedsIn_none]
    exact h.indexed.cycle_of_executionOrder (job_eq_error_iff.1 he)

end Graph

end ValueGraph
