import ValueGraph.Proofs.Graph.Order
import ValueGraph.Proofs.Graph.Part

namespace ValueGraph

namespace Visit

variable {suppliers suppliers' : NodeId → List NodeId} {scope : List NodeId} {todo : List Visit}
  {id : NodeId} {n : Nat} {entered : SortedSet NodeId} {order ids : List NodeId}

section Recursion

/--
The walk as a recursion: visits the nodes in turn, and for each of them its suppliers before it is
left. There is no answer if more than `n` nodes would have to be open at once.
-/
def visitEach (suppliers : NodeId → List NodeId) (scope : List NodeId) :
    Nat → SortedSet NodeId → List NodeId → List NodeId →
      Option (Except NodeId (SortedSet NodeId × List NodeId))
  | _, entered, order, [] => some (.ok (entered, order))
  | n, entered, order, id :: ids =>
    if id ∈ order then visitEach suppliers scope n entered order ids
    else if id ∈ scope then
      if id ∈ entered then some (.error id)
      else match n with
        | 0 => none
        | n + 1 =>
          match visitEach suppliers scope n (entered.insert id) order (suppliers id) with
          | some (.ok (entered, order)) =>
            visitEach suppliers scope (n + 1) entered (id :: order) ids
          | other => other
    else visitEach suppliers scope n entered order ids
termination_by n _ _ ids => (n, ids.length)

theorem visitEach_skip (h : id ∈ scope → id ∈ order) :
    visitEach suppliers scope n entered order (id :: ids) =
      visitEach suppliers scope n entered order ids := by
  cases n <;> rw [visitEach]
  all_goals
    split
    · rfl
    next hid => rw [if_neg fun hscope => hid (h hscope)]

theorem visitEach_again (hscope : id ∈ scope) (hid : id ∉ order) (he : id ∈ entered) :
    visitEach suppliers scope n entered order (id :: ids) = some (.error id) := by
  cases n <;> rw [visitEach, if_neg hid, if_pos hscope, if_pos he]

theorem visitEach_open (hscope : id ∈ scope) (hid : id ∉ order) (he : id ∉ entered) :
    visitEach suppliers scope (n + 1) entered order (id :: ids) =
      match visitEach suppliers scope n (entered.insert id) order (suppliers id) with
      | some (.ok (entered, order)) => visitEach suppliers scope (n + 1) entered (id :: order) ids
      | other => other := by
  rw [visitEach, if_neg hid, if_pos hscope, if_neg he]

def resume (suppliers : NodeId → List NodeId) (scope : List NodeId) (todo : List Visit) :
    Except NodeId (SortedSet NodeId × List NodeId) → Except NodeId (List NodeId)
  | .ok (entered, order) => walk suppliers scope entered order todo
  | .error id => .error id

def ahead (scope : List NodeId) (entered : SortedSet NodeId) : List NodeId :=
  scope.filter (· ∉ entered)

theorem length_ahead_insert (hid : id ∈ scope) (hnew : id ∉ entered) :
    (ahead scope (entered.insert id)).length < (ahead scope entered).length :=
  SortedSet.length_filter_insert_lt hid hnew

theorem length_ahead_le {entered' : SortedSet NodeId} (h : ∀ i ∈ entered, i ∈ entered') :
    (ahead scope entered').length ≤ (ahead scope entered).length := by
  unfold ahead
  rw [← List.countP_eq_length_filter, ← List.countP_eq_length_filter]
  refine List.countP_mono_left fun i _ hi => ?_
  simp only [decide_eq_true_eq] at hi ⊢
  exact fun he => hi (h i he)

/--
Where the nodes that may be open are as many as are ahead, the recursion comes to an end, and the
walk does the same visits.
-/
theorem exists_visitEach (hn : (ahead scope entered).length ≤ n) :
    ∃ x, visitEach suppliers scope n entered order ids = some x ∧
      (∀ entered' order', x = .ok (entered', order') → ∀ i ∈ entered, i ∈ entered') ∧
      ∀ todo, walk suppliers scope entered order (ids.map enter ++ todo) =
        resume suppliers scope todo x := by
  induction n, entered, order, ids using visitEach.induct suppliers scope with
  | case1 n entered order =>
    refine ⟨.ok (entered, order), by rw [visitEach], ?_, fun todo => rfl⟩
    rintro entered' order' he i hi
    cases he
    exact hi
  | case2 n entered order id ids hid ih =>
    obtain ⟨x, hx, hgrows, hwalk⟩ := ih hn
    refine ⟨x, (visitEach_skip fun _ => hid).trans hx, hgrows, fun todo => ?_⟩
    exact (walk_skip fun _ => hid).trans (hwalk todo)
  | case3 n entered order id ids hid hscope he =>
    exact ⟨.error id, visitEach_again hscope hid he, nofun, fun todo => walk_again hscope hid he⟩
  | case4 entered order id ids hid hscope he =>
    have := length_ahead_insert hscope he
    omega
  | case5 entered order id ids hid hscope he n entered' order' hfirst ih ih' =>
    have hlt := length_ahead_insert hscope he
    obtain ⟨x, hx, hgrows, hwalk⟩ := ih (by omega)
    rw [hfirst] at hx
    cases hx
    have hgrows := hgrows entered' order' rfl
    have hle : (ahead scope entered').length ≤ _ := length_ahead_le hgrows
    obtain ⟨y, hy, hgrows', hwalk'⟩ := ih' (by omega)
    refine ⟨y, ?_, fun e o heo i hi => ?_, fun todo => ?_⟩
    · rw [visitEach_open hscope hid he, hfirst]
      exact hy
    · exact hgrows' e o heo i (hgrows i (SortedSet.mem_insert.2 (.inr hi)))
    · -- After its suppliers the node is left, and then the others are visited.
      rw [List.map_cons, List.cons_append, walk_open hscope hid he, hwalk, resume, walk, hwalk']
  | case6 entered order id ids hid hscope he n hfirst ih =>
    have hlt := length_ahead_insert hscope he
    obtain ⟨x, hx, -, hwalk⟩ := ih (by omega)
    cases x with
    | ok st => exact absurd hx (hfirst st.1 st.2)
    | error i =>
      refine ⟨.error i, ?_, nofun, fun todo => ?_⟩
      · rw [visitEach_open hscope hid he, hx]
      · rw [List.map_cons, List.cons_append, walk_open hscope hid he, hwalk]
        rfl
  | case7 n entered order id ids hid hscope ih =>
    have hskip : id ∈ scope → id ∈ order := fun h => absurd h hscope
    obtain ⟨x, hx, hgrows, hwalk⟩ := ih hn
    refine ⟨x, (visitEach_skip hskip).trans hx, hgrows, fun todo => ?_⟩
    exact (walk_skip hskip).trans (hwalk todo)

end Recursion

section Filter

/-- Is the visit one of a node of the scope? Nodes that are left always are. -/
def within (scope : List NodeId) : Visit → Bool
  | enter id => id ∈ scope
  | leave _ => true

theorem filter_within_enter (ids : List NodeId) :
    (ids.map enter).filter (within scope) = (ids.filter (· ∈ scope)).map enter := by
  rw [List.filter_map]
  rfl

/-- To leave out suppliers beyond the scope changes nothing. -/
theorem walk_filter (hs : ∀ id ∈ scope, suppliers' id = (suppliers id).filter (· ∈ scope)) :
    walk suppliers' scope entered order (todo.filter (within scope)) =
      walk suppliers scope entered order todo := by
  have hin {id : NodeId} (h : id ∈ scope) : within scope (enter id) = true := decide_eq_true h
  have hout {id : NodeId} (h : id ∉ scope) : ¬ within scope (enter id) = true := by
    simpa [within] using h
  induction entered, order, todo using walk.induct suppliers scope with
  | case1 entered order => rw [List.filter_nil, walk, walk]
  | case2 entered order id todo ih =>
    rw [List.filter_cons_of_pos rfl, walk, walk, ih]
  | case3 entered order id todo hid ih =>
    rw [walk_skip fun _ => hid, ← ih]
    by_cases hscope : id ∈ scope
    · rw [List.filter_cons_of_pos (hin hscope), walk_skip fun _ => hid]
    · rw [List.filter_cons_of_neg (hout hscope)]
  | case4 entered order id todo hid hscope he =>
    rw [List.filter_cons_of_pos (hin hscope), walk_again hscope hid he, walk_again hscope hid he]
  | case5 entered order id todo hid hscope he ih =>
    rw [List.filter_cons_of_pos (hin hscope), walk_open hscope hid he, walk_open hscope hid he,
      ← ih, List.filter_append, filter_within_enter, hs id hscope, List.filter_cons_of_pos rfl]
  | case6 entered order id todo hid hscope ih =>
    rw [List.filter_cons_of_neg (hout hscope), ih, walk_skip fun h => absurd h hscope]

theorem walk_enter_filter (hs : ∀ id ∈ scope, suppliers' id = (suppliers id).filter (· ∈ scope))
    (hids : ∀ id ∈ ids, id ∈ scope) :
    walk suppliers' scope entered order (ids.map enter) =
      walk suppliers scope entered order (ids.map enter) := by
  have hall : ids.filter (· ∈ scope) = ids :=
    List.filter_eq_self.2 fun id hid => decide_eq_true (hids id hid)
  rw [← walk_filter hs, filter_within_enter, hall]

end Filter

end Visit

namespace Graph

variable {g : Graph} {id p c : NodeId} {view : Option (SortedSet NodeId)} {keep : SortedSet NodeId}
  {order : List NodeId}

/-- The order by the recursion, if `n` nodes that are open at once are enough. -/
def orderWithin (g : Graph) (n : Nat) (view : Option (SortedSet NodeId)) :
    Option (Except GraphError (List NodeId)) :=
  (Visit.visitEach g.suppliers (g.scope view) n ∅ [] (g.starts view ++ g.scope view)).map fun
    | .ok (_, order) => .ok order.reverse
    | .error id => .error (.cycle id)

theorem orderWithin_eq {n : Nat} (hn : (g.scope view).length ≤ n) :
    g.orderWithin n view = some (g.executionOrder view) := by
  have hahead : (Visit.ahead (g.scope view) ∅).length ≤ n :=
    Nat.le_trans (List.length_filter_le _ _) hn
  obtain ⟨x, hx, -, hwalk⟩ : ∃ x, Visit.visitEach g.suppliers (g.scope view) n ∅ []
      (g.starts view ++ g.scope view) = some x ∧ _ := Visit.exists_visitEach hahead
  have hwalk := hwalk []
  rw [List.append_nil] at hwalk
  unfold orderWithin executionOrder
  dsimp only
  rw [hx, hwalk]
  cases x with
  | ok st =>
    rw [Visit.resume, Visit.walk]
    rfl
  | error id => rfl

/-- What the order of a view is, and when there is one. -/
structure OrdersExactly (g : Graph) (view : Option (SortedSet NodeId)) : Prop where
  /-- The recursion ends, and never has more nodes open at once than there are in the view. -/
  ends : ∀ n, (g.scope view).length ≤ n → g.orderWithin n view = some (g.executionOrder view)
  ordered : (∃ order, g.executionOrder view = .ok order) ↔
    ∀ id, ¬ Relation.TransGen (g.FeedsIn view) id id
  /-- Each node of the view is in the order once, and no other node is. -/
  nodes : ∀ order, g.executionOrder view = .ok order →
    order.Nodup ∧ ∀ id, id ∈ order ↔ g.InView view id
  supplied : ∀ order, g.executionOrder view = .ok order →
    ∀ p c, g.FeedsIn view p c → order.idxOf p < order.idxOf c
  /-- The node that is blamed is on a cycle. -/
  blamed : ∀ e, g.executionOrder view = .error e →
    ∃ id, e = .cycle id ∧ Relation.TransGen (g.FeedsIn view) id id

/-- There is an order for a view just if no node of it depends on itself. -/
theorem ordersExactly_after (configuration : String) (os : List Operation)
    (view : Option (SortedSet NodeId)) : (after configuration os).OrdersExactly view := by
  have h := (sound_after configuration os).indexed
  exact ⟨fun n hn => orderWithin_eq hn, h.exists_executionOrder_iff,
    fun order ho => ⟨nodup_executionOrder ho, fun id => mem_executionOrder_iff ho⟩,
    fun order ho p c hf => h.idxOf_lt_idxOf ho hf, fun e he => h.cycle_of_executionOrder he⟩

section Part

theorem mem_scope_some_iff : id ∈ g.scope (some keep) ↔ g.contains id ∧ id ∈ keep := by
  rw [mem_scope_iff]
  simp [InView]

variable (h : g.Sound)
include h

theorem Sound.nodes_part : (g.part keep).nodes = g.nodes.filter fun id _ => id ∈ keep := by
  apply SortedMap.ext_get?
  intro id
  rw [SortedMap.get?_filter]
  refine h.node?_part.trans ?_
  show _ = (g.node? id).filter _
  cases g.node? id with
  | none => simp
  | some n => simp [Option.filter]

theorem Sound.scope_part : (g.part keep).scope none = g.scope (some keep) := by
  unfold scope Graph.ids
  dsimp only
  rw [h.nodes_part]
  unfold SortedMap.keys
  rw [List.filter_map]
  rfl

theorem Sound.feeds_part : (g.part keep).Feeds p c ↔ (p ∈ keep ∧ c ∈ keep) ∧ g.Feeds p c := by
  unfold Feeds
  simp only [h.produces_part, h.reads_part]
  grind

theorem Sound.suppliers_part (hid : id ∈ keep) :
    (g.part keep).suppliers id = (g.suppliers id).filter (· ∈ g.scope (some keep)) := by
  have hset : SortedSet.ofList (((g.part keep).edges.filter (·.consumer = id)).map (·.supplier)) =
      (SortedSet.ofList ((g.edges.filter (·.consumer = id)).map (·.supplier))).filter
        (· ∈ g.scope (some keep)) := by
    apply SortedSet.ext_mem
    intro p
    have hpart : p ∈ (g.part keep).suppliers id ↔ _ := (h.part keep).1.indexed.mem_suppliers
    have hwhole : p ∈ g.suppliers id ↔ _ := h.indexed.mem_suppliers
    refine hpart.trans (Iff.trans ?_ SortedSet.mem_filter.symm)
    refine Iff.trans ?_ (and_congr_left fun _ => hwhole.symm)
    rw [h.feeds_part, decide_eq_true_eq, mem_scope_some_iff]
    constructor
    · rintro ⟨⟨hp, -⟩, hf⟩
      have ⟨s, hs, _⟩ := hf
      exact ⟨hf, hs.contains, hp⟩
    · rintro ⟨hf, -, hp⟩
      exact ⟨⟨hp, hid⟩, hf⟩
  exact congrArg SortedSet.toList hset

/-- The nodes of a view that feed none of it are the roots of the part. -/
theorem Sound.starts_part : (g.part keep).starts none = g.starts (some keep) := by
  have hset : (g.part keep).rootSet =
      (g.idSet.filter (· ∈ keep)).filter fun id =>
        (g.dependents id).all (· ∉ g.scope (some keep)) := by
    apply SortedSet.ext_mem
    intro id
    have hroot : id ∈ (g.part keep).rootSet ↔ _ := (h.part keep).1.roots id
    have hscope : id ∈ g.idSet.filter (· ∈ keep) ↔ g.contains id ∧ id ∈ keep :=
      mem_scope_some_iff
    have hnone : (∀ c ∈ g.dependents id, c ∉ g.scope (some keep)) ↔
        ∀ c ∈ keep, ¬ g.Feeds id c := by
      simp only [h.indexed.mem_dependents, mem_scope_some_iff]
      refine ⟨fun hno c hc hf => ?_, fun hno c hf hc => hno c hc.2 hf⟩
      have ⟨s, _, m, hm, _⟩ := hf
      exact hno c hf ⟨by simp [Graph.contains, hm], hc⟩
    rw [hroot, SortedSet.mem_filter, hscope, List.all_eq_true]
    simp only [decide_eq_true_eq, hnone, h.feeds_part, Graph.contains, h.node?_part]
    grind
  exact congrArg SortedSet.toList hset

theorem Sound.executionOrder_part :
    (g.part keep).executionOrder = g.executionOrder (some keep) := by
  have hwalk : Visit.walk (g.part keep).suppliers (g.scope (some keep)) ∅ []
        ((g.starts (some keep) ++ g.scope (some keep)).map .enter) =
      Visit.walk g.suppliers (g.scope (some keep)) ∅ []
        ((g.starts (some keep) ++ g.scope (some keep)).map .enter) := by
    apply Visit.walk_enter_filter
    · exact fun id hid => h.suppliers_part (mem_scope_some_iff.1 hid).2
    · intro id hid
      rcases List.mem_append.1 hid with hid | hid
      · exact (List.mem_filter.1 hid).1
      · exact hid
  unfold executionOrder
  dsimp only
  rw [h.scope_part, h.starts_part, hwalk]

end Part

/-- To order the nodes of a view is to order the part of the graph that has them. -/
theorem executionOrder_some_after (configuration : String) (os : List Operation)
    (keep : SortedSet NodeId) :
    (after configuration os).executionOrder (some keep) =
      ((after configuration os).part keep).executionOrder :=
  (sound_after configuration os).executionOrder_part.symm

end Graph
end ValueGraph
