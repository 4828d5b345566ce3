import Mathlib.Data.List.Nodup
import Mathlib.Logic.Relation
import ValueGraph.Graph.Order
import ValueGraph.Proofs.Graph.Agreement

namespace ValueGraph

namespace Visit

variable {suppliers : NodeId → List NodeId} {scope : List NodeId} {todo : List Visit}
  {id c p : NodeId}

section Steps

variable {entered : SortedSet NodeId} {order : List NodeId}

theorem walk_skip (h : id ∈ scope → id ∈ order) :
    walk suppliers scope entered order (enter id :: todo) =
      walk suppliers scope entered order todo := by
  rw [walk]
  split
  · rfl
  next hid => rw [dif_neg fun hscope => hid (h hscope)]

theorem walk_again (hscope : id ∈ scope) (hid : id ∉ order) (he : id ∈ entered) :
    walk suppliers scope entered order (enter id :: todo) = .error id := by
  rw [walk, if_neg hid, dif_pos hscope, dif_pos he]

theorem walk_open (hscope : id ∈ scope) (hid : id ∉ order) (he : id ∉ entered) :
    walk suppliers scope entered order (enter id :: todo) =
      walk suppliers scope (entered.insert id) order
        ((suppliers id).map enter ++ leave id :: todo) := by
  rw [walk, if_neg hid, dif_pos hscope, dif_neg he]

end Steps

def leaving : List Visit → Option NodeId
  | [] => none
  | leave id :: _ => some id
  | enter _ :: todo => leaving todo

/-- Is each visit one to a supplier of the node that is left next after it? -/
def Stacked (suppliers : NodeId → List NodeId) (scope : List NodeId) : List Visit → Prop
  | [] => True
  | enter id :: todo =>
    (∀ c, leaving todo = some c → id ∈ suppliers c) ∧ Stacked suppliers scope todo
  | leave id :: todo =>
    id ∈ scope ∧ (∀ c, leaving todo = some c → id ∈ suppliers c) ∧ Stacked suppliers scope todo

def Supplies (suppliers : NodeId → List NodeId) (scope : List NodeId) (p c : NodeId) : Prop :=
  p ∈ scope ∧ c ∈ scope ∧ p ∈ suppliers c

theorem Stacked.mem_scope (h : Stacked suppliers scope todo) (hc : leaving todo = some c) :
    c ∈ scope := by
  induction todo with
  | nil => cases hc
  | cons v todo ih =>
    cases v with
    | enter id => exact ih h.2 hc
    | leave id =>
      cases hc
      exact h.1

/-- From the node that is left next one comes to all that are left later. -/
theorem Stacked.path (h : Stacked suppliers scope todo) (hid : leave id ∈ todo) :
    ∃ c, leaving todo = some c ∧ Relation.ReflTransGen (Supplies suppliers scope) c id := by
  induction todo with
  | nil => cases hid
  | cons v todo ih =>
    cases v with
    | enter i =>
      have hid : leave id ∈ todo := by simpa using hid
      exact ih h.2 hid
    | leave i =>
      refine ⟨i, rfl, ?_⟩
      rcases List.mem_cons.1 hid with he | hid
      · cases he
        exact .refl
      · obtain ⟨c, hc, hpath⟩ := ih h.2.2 hid
        exact hpath.head ⟨h.1, h.2.2.mem_scope hc, h.2.1 c hc⟩

/-- The suppliers of a node are visited before it is left. -/
theorem Stacked.push (h : Stacked suppliers scope todo) (hid : id ∈ scope)
    (hnext : ∀ c, leaving todo = some c → id ∈ suppliers c) {ids : List NodeId}
    (hids : ∀ p ∈ ids, p ∈ suppliers id) :
    Stacked suppliers scope (ids.map enter ++ leave id :: todo) := by
  -- Whatever is entered on top, the node itself is left next.
  have hleaving : ∀ ids : List NodeId, leaving (ids.map enter ++ leave id :: todo) = some id := by
    intro ids
    induction ids with
    | nil => rfl
    | cons p ids ih => exact ih
  induction ids with
  | nil => exact ⟨hid, hnext, h⟩
  | cons p ids ih =>
    refine ⟨fun c hc => ?_, ih fun x hx => hids x (List.mem_cons_of_mem _ hx)⟩
    have hc : leaving (ids.map enter ++ leave id :: todo) = some c := hc
    rw [hleaving] at hc
    cases hc
    exact hids p List.mem_cons_self

theorem stacked_enter (ids : List NodeId) : Stacked suppliers scope (ids.map enter) := by
  have hleaving : ∀ ids : List NodeId, leaving (ids.map enter) = none := by
    intro ids
    induction ids with
    | nil => rfl
    | cons p ids ih => exact ih
  induction ids with
  | nil => trivial
  | cons p ids ih =>
    refine ⟨fun c hc => ?_, ih⟩
    rw [hleaving] at hc
    cases hc

theorem cycle_of_walk {entered : SortedSet NodeId} {order : List NodeId}
    (hw : walk suppliers scope entered order todo = .error id)
    (h : Stacked suppliers scope todo)
    (hopen : ∀ x ∈ entered, x ∉ order → leave x ∈ todo) :
    Relation.TransGen (Supplies suppliers scope) id id := by
  induction entered, order, todo using walk.induct suppliers scope with
  | case1 entered order =>
    rw [walk] at hw
    cases hw
  | case2 entered order i todo ih =>
    rw [walk] at hw
    -- What is open yet, and is not the node that is left now, has its leave behind this one.
    refine ih hw h.2.2 fun x hx hno => ?_
    rw [List.mem_cons, not_or] at hno
    have hmem := hopen x hx hno.2
    rcases List.mem_cons.1 hmem with he | hmem
    · cases he
      exact absurd rfl hno.1
    · exact hmem
  | case3 entered order i todo hi ih =>
    rw [walk_skip fun _ => hi] at hw
    refine ih hw h.2 fun x hx hno => ?_
    simpa using hopen x hx hno
  | case4 entered order i todo hi hscope he =>
    rw [walk_again hscope hi he] at hw
    -- The node is met while it is open: the leaves up to its own lead back to it.
    have hmem : leave i ∈ todo := by simpa using hopen i he hi
    cases hw
    obtain ⟨c, hc, hpath⟩ := h.2.path hmem
    exact Relation.TransGen.head' ⟨hscope, h.2.mem_scope hc, h.1 c hc⟩ hpath
  | case5 entered order i todo hi hscope he ih =>
    rw [walk_open hscope hi he] at hw
    -- The node is open from now on, and its suppliers are visited before its leave.
    refine ih hw (h.2.push hscope h.1 fun p hp => hp) fun x hx hno => ?_
    rcases SortedSet.mem_insert.1 hx with rfl | hx
    · simp
    · have hmem : leave x ∈ todo := by simpa using hopen x hx hno
      exact List.mem_append_right _ (List.mem_cons_of_mem _ hmem)
  | case6 entered order i todo hi hscope ih =>
    rw [walk_skip fun h => absurd h hscope] at hw
    refine ih hw h.2 fun x hx hno => ?_
    simpa using hopen x hx hno

section Arranged

variable {entered : SortedSet NodeId} {order result done done' : List NodeId}

/-- Is each node in the scope, and there once, with its suppliers left before it? -/
def Arranged (suppliers : NodeId → List NodeId) (scope : List NodeId) : List NodeId → Prop
  | [] => True
  | id :: order =>
    id ∈ scope ∧ id ∉ order ∧ (∀ p ∈ suppliers id, p ∈ scope → p ∈ order) ∧
      Arranged suppliers scope order

/-- Will each node that is to be left have all its suppliers by then, and be left only once? -/
def Prepared (suppliers : NodeId → List NodeId) (scope : List NodeId) :
    (done : List NodeId) → List Visit → Prop
  | _, [] => True
  | done, enter id :: todo => Prepared suppliers scope (id :: done) todo
  | done, leave id :: todo =>
    leave id ∉ todo ∧ (∀ p ∈ suppliers id, p ∈ scope → p ∈ done) ∧
      Prepared suppliers scope (id :: done) todo

theorem Prepared.mono (h : Prepared suppliers scope done todo)
    (hd : ∀ x ∈ done, x ∈ scope → x ∈ done') : Prepared suppliers scope done' todo := by
  induction todo generalizing done done' with
  | nil => trivial
  | cons v todo ih =>
    have hcons : ∀ id, ∀ x ∈ id :: done, x ∈ scope → x ∈ id :: done' := by
      intro id x hx hscope
      rcases List.mem_cons.1 hx with rfl | hx
      · exact List.mem_cons_self
      · exact List.mem_cons_of_mem _ (hd x hx hscope)
    cases v with
    | enter id => exact ih h (hcons id)
    | leave id =>
      obtain ⟨hnot, hsup, h⟩ := h
      exact ⟨hnot, fun p hp hscope => hd p (hsup p hp hscope) hscope, ih h (hcons id)⟩

theorem prepared_enter {ids : List NodeId}
    (h : Prepared suppliers scope (ids.reverse ++ done) todo) :
    Prepared suppliers scope done (ids.map enter ++ todo) := by
  induction ids generalizing done with
  | nil => exact h
  | cons p ids ih =>
    rw [List.reverse_cons, List.append_assoc] at h
    exact ih h

/-- The state of a walk that has not come upon a cycle. -/
structure Ahead (suppliers : NodeId → List NodeId) (scope : List NodeId)
    (entered : SortedSet NodeId) (order : List NodeId) (todo : List Visit) : Prop where
  arranged : Arranged suppliers scope order
  prepared : Prepared suppliers scope order todo
  /-- What is to be left was entered. -/
  opened : ∀ id, leave id ∈ todo → id ∈ scope ∧ id ∈ entered ∧ id ∉ order
  /-- No node of the scope is passed over. -/
  met : ∀ id ∈ scope, id ∈ order ∨ enter id ∈ todo ∨ leave id ∈ todo

theorem Ahead.left (h : Ahead suppliers scope entered order (leave id :: todo)) :
    Ahead suppliers scope entered (id :: order) todo := by
  obtain ⟨hscope, -, hnot⟩ := h.opened id List.mem_cons_self
  obtain ⟨honce, hsup, hprepared⟩ := h.prepared
  refine ⟨⟨hscope, hnot, hsup, h.arranged⟩, hprepared, fun x hx => ?_, fun x hx => ?_⟩
  · obtain ⟨hscope, hentered, hx'⟩ := h.opened x (List.mem_cons_of_mem _ hx)
    refine ⟨hscope, hentered, ?_⟩
    rw [List.mem_cons, not_or]
    refine ⟨?_, hx'⟩
    rintro rfl
    exact honce hx
  · simpa [or_assoc, or_left_comm] using h.met x hx

theorem Ahead.skip (h : Ahead suppliers scope entered order (enter id :: todo))
    (hid : id ∈ scope → id ∈ order) : Ahead suppliers scope entered order todo := by
  have hprepared : Prepared suppliers scope (id :: order) todo := h.prepared
  refine ⟨h.arranged, hprepared.mono fun x hx hscope => ?_,
    fun x hx => h.opened x (List.mem_cons_of_mem _ hx), fun x hx => ?_⟩
  · rcases List.mem_cons.1 hx with rfl | hx
    · exact hid hscope
    · exact hx
  · rcases h.met x hx with ho | he | hl
    · exact .inl ho
    · rcases List.mem_cons.1 he with he | he
      · cases he
        exact .inl (hid hx)
      · exact .inr (.inl he)
    · exact .inr (.inr (by simpa using hl))

theorem Ahead.opening (h : Ahead suppliers scope entered order (enter id :: todo))
    (hscope : id ∈ scope) (hnot : id ∉ order) (hnew : id ∉ entered) :
    Ahead suppliers scope (entered.insert id) order
      ((suppliers id).map enter ++ leave id :: todo) := by
  have honce : leave id ∉ todo := fun hmem =>
    hnew (h.opened id (List.mem_cons_of_mem _ hmem)).2.1
  have hprepared : Prepared suppliers scope (id :: order) todo := h.prepared
  refine ⟨h.arranged, prepared_enter ⟨honce, fun p hp _ => ?_, hprepared.mono fun x hx _ => ?_⟩,
    fun x hx => ?_, fun x hx => ?_⟩
  · simp [hp]
  · rcases List.mem_cons.1 hx with rfl | hx
    · exact List.mem_cons_self
    · exact List.mem_cons_of_mem _ (List.mem_append_right _ hx)
  · have hx : x = id ∨ leave x ∈ todo := by simpa using hx
    rcases hx with rfl | hx
    · exact ⟨hscope, SortedSet.mem_insert.2 (.inl rfl), hnot⟩
    · obtain ⟨hscope, hentered, hno⟩ := h.opened x (List.mem_cons_of_mem _ hx)
      exact ⟨hscope, SortedSet.mem_insert.2 (.inr hentered), hno⟩
  · rcases h.met x hx with ho | he | hl
    · exact .inl ho
    · rcases List.mem_cons.1 he with he | he
      · cases he
        exact .inr (.inr (by simp))
      · exact .inr (.inl (by simp [he]))
    · have hl : leave x ∈ todo := by simpa using hl
      exact .inr (.inr (by simp [hl]))

theorem Ahead.arranged_walk (h : Ahead suppliers scope entered order todo)
    (hw : walk suppliers scope entered order todo = .ok result) :
    Arranged suppliers scope result ∧ ∀ id ∈ scope, id ∈ result := by
  induction entered, order, todo using walk.induct suppliers scope with
  | case1 entered order =>
    rw [walk] at hw
    cases hw
    exact ⟨h.arranged, fun id hid => by simpa using h.met id hid⟩
  | case2 entered order i todo ih =>
    rw [walk] at hw
    exact ih h.left hw
  | case3 entered order i todo hi ih =>
    rw [walk_skip fun _ => hi] at hw
    exact ih (h.skip fun _ => hi) hw
  | case4 entered order i todo hi hscope he =>
    rw [walk_again hscope hi he] at hw
    cases hw
  | case5 entered order i todo hi hscope he ih =>
    rw [walk_open hscope hi he] at hw
    exact ih (h.opening hscope hi he) hw
  | case6 entered order i todo hi hscope ih =>
    have hskip : i ∈ scope → i ∈ order := fun h => absurd h hscope
    rw [walk_skip hskip] at hw
    exact ih (h.skip hskip) hw

theorem Arranged.mem_scope (h : Arranged suppliers scope order) (hid : id ∈ order) :
    id ∈ scope := by
  induction order with
  | nil => cases hid
  | cons i order ih =>
    rcases List.mem_cons.1 hid with rfl | hid
    · exact h.1
    · exact ih h.2.2.2 hid

theorem Arranged.nodup (h : Arranged suppliers scope order) : order.Nodup := by
  induction order with
  | nil => exact List.nodup_nil
  | cons i order ih => exact List.nodup_cons.2 ⟨h.2.1, ih h.2.2.2⟩

/-- Seen from the first node that was left, suppliers come before those that they supply. -/
theorem Arranged.mem_take (h : Arranged suppliers scope order) {i : Nat}
    (hi : order.reverse[i]? = some id) (hp : p ∈ suppliers id) (hscope : p ∈ scope) :
    p ∈ order.reverse.take i := by
  induction order with
  | nil => cases hi
  | cons x order ih =>
    obtain ⟨-, -, hsup, h⟩ := h
    rw [List.reverse_cons] at hi ⊢
    by_cases hlt : i < order.reverse.length
    · rw [List.getElem?_append_left hlt] at hi
      rw [List.take_append_of_le_length (Nat.le_of_lt hlt)]
      exact ih h hi
    · -- The node that was left last has the others before it.
      have hle : i < (order.reverse ++ [x]).length := (List.getElem?_eq_some_iff.1 hi).1
      have hlast : i = order.reverse.length := by
        rw [List.length_append, List.length_singleton] at hle
        omega
      subst hlast
      rw [List.getElem?_concat_length] at hi
      cases hi
      rw [List.take_append_of_le_length (Nat.le_refl _), List.take_length, List.mem_reverse]
      exact hsup p hp hscope

theorem Arranged.mem_of_path (h : Arranged suppliers scope order) (hid : id ∈ order)
    (hpath : Relation.ReflTransGen (Supplies suppliers scope) p id) : p ∈ order := by
  induction order generalizing id with
  | nil => cases hid
  | cons x order ih =>
    obtain ⟨-, -, hsup, h⟩ := h
    rcases List.mem_cons.1 hid with rfl | hid
    · rcases Relation.ReflTransGen.cases_tail hpath with rfl | ⟨c, hpath, hc⟩
      · exact List.mem_cons_self
      · exact List.mem_cons_of_mem _ (ih h (hsup c hc.2.2 hc.1) hpath)
    · exact List.mem_cons_of_mem _ (ih h hid hpath)

/-- Nodes on a cycle cannot be arranged. -/
theorem Arranged.not_cycle (h : Arranged suppliers scope order) (hid : id ∈ order) :
    ¬ Relation.TransGen (Supplies suppliers scope) id id := by
  induction order with
  | nil => cases hid
  | cons x order ih =>
    intro hcycle
    obtain ⟨-, hnot, hsup, h⟩ := h
    rcases List.mem_cons.1 hid with rfl | hid
    · -- The supplier of `id` on the cycle was left before `id`, and what leads to it before that.
      obtain ⟨c, hpath, hc⟩ := Relation.TransGen.tail'_iff.1 hcycle
      exact hnot (h.mem_of_path (hsup c hc.2.2 hc.1) hpath)
    · exact ih h hid hcycle

end Arranged

end Visit

namespace Graph

variable {g : Graph} {id p c : NodeId} {view : Option (SortedSet NodeId)} {order : List NodeId}
  {e : GraphError}

def InView (g : Graph) (view : Option (SortedSet NodeId)) (id : NodeId) : Prop :=
  g.contains id ∧ ∀ v, view = some v → id ∈ v

/-- Are both in the view, and does `c` read an output of `p`? -/
def FeedsIn (g : Graph) (view : Option (SortedSet NodeId)) (p c : NodeId) : Prop :=
  g.InView view p ∧ g.InView view c ∧ g.Feeds p c

theorem feedsIn_none : g.FeedsIn none = g.Feeds := by
  funext p c
  refine propext ⟨fun hpc => hpc.2.2, fun hpc => ?_⟩
  have ⟨s, hp, m, hm, _⟩ := hpc
  exact ⟨⟨hp.contains, nofun⟩, ⟨by simp [contains, hm], nofun⟩, hpc⟩

theorem mem_scope_iff : id ∈ g.scope view ↔ g.InView view id := by
  have hids : id ∈ g.ids ↔ g.contains id := by
    rw [contains, node?, ← SortedMap.mem_iff_isSome_get?]
    exact SortedMap.mem_keySet
  unfold scope InView
  cases view with
  | none => simp [hids]
  | some v => simp [hids]

section Ordered

variable (ho : g.executionOrder view = .ok order)
include ho

theorem arranged_executionOrder :
    Visit.Arranged g.suppliers (g.scope view) order.reverse ∧
      ∀ id ∈ g.scope view, id ∈ order := by
  unfold executionOrder at ho
  dsimp only at ho
  split at ho
  next left hw =>
    cases ho
    have hahead : Visit.Ahead g.suppliers (g.scope view) ∅ []
        ((g.starts view ++ g.scope view).map .enter) := by
      refine ⟨trivial, ?_, fun id hid => ?_, fun id hid => ?_⟩
      · have h : Visit.Prepared g.suppliers (g.scope view) []
            ((g.starts view ++ g.scope view).map .enter ++ []) := Visit.prepared_enter trivial
        rwa [List.append_nil] at h
      · simp at hid
      · exact .inr (.inl (by simp [hid]))
    obtain ⟨harranged, hcovers⟩ := hahead.arranged_walk hw
    refine ⟨?_, fun id hid => List.mem_reverse.2 (hcovers id hid)⟩
    rwa [List.reverse_reverse]
  next => cases ho

theorem nodup_executionOrder : order.Nodup :=
  List.nodup_reverse.1 (arranged_executionOrder ho).1.nodup

theorem mem_executionOrder_iff : id ∈ order ↔ g.InView view id := by
  obtain ⟨harranged, hcovers⟩ := arranged_executionOrder ho
  rw [← mem_scope_iff]
  exact ⟨fun hid => harranged.mem_scope (List.mem_reverse.2 hid), hcovers id⟩

end Ordered

section Indexed

variable (h : g.Indexed)
include h

theorem Indexed.supplies_eq : Visit.Supplies g.suppliers (g.scope view) = g.FeedsIn view := by
  funext p c
  unfold Visit.Supplies FeedsIn
  rw [mem_scope_iff, mem_scope_iff, h.mem_suppliers]

/-- What keeps a view from being ordered is a node of it that depends on itself. -/
theorem Indexed.cycle_of_executionOrder (ho : g.executionOrder view = .error e) :
    ∃ id, e = .cycle id ∧ Relation.TransGen (g.FeedsIn view) id id := by
  rw [← h.supplies_eq]
  unfold executionOrder at ho
  dsimp only at ho
  split at ho
  next => cases ho
  next id hw =>
    cases ho
    exact ⟨id, rfl, Visit.cycle_of_walk hw (Visit.stacked_enter _) fun x hx =>
      absurd hx SortedSet.not_mem_empty⟩

/-- A walk finds any cycle that there is. -/
theorem Indexed.not_cycle_of_executionOrder (ho : g.executionOrder view = .ok order) :
    ¬ Relation.TransGen (g.FeedsIn view) id id := by
  rw [← h.supplies_eq]
  obtain ⟨harranged, hcovers⟩ := arranged_executionOrder ho
  intro hcycle
  obtain ⟨c, hc, -⟩ := Relation.TransGen.head'_iff.1 hcycle
  exact harranged.not_cycle (List.mem_reverse.2 (hcovers id hc.1)) hcycle

theorem Indexed.exists_executionOrder_iff :
    (∃ order, g.executionOrder view = .ok order) ↔
      ∀ id, ¬ Relation.TransGen (g.FeedsIn view) id id := by
  refine ⟨fun ⟨order, ho⟩ id => h.not_cycle_of_executionOrder ho, fun hacyclic => ?_⟩
  cases ho : g.executionOrder view with
  | ok order => exact ⟨order, rfl⟩
  | error e =>
    obtain ⟨id, -, hcycle⟩ := h.cycle_of_executionOrder ho
    exact absurd hcycle (hacyclic id)

theorem Indexed.exists_executionOrder (hacyclic : ∀ id, ¬ Relation.TransGen g.Feeds id id)
    (view : Option (SortedSet NodeId)) : ∃ order, g.executionOrder view = .ok order :=
  h.exists_executionOrder_iff.2 fun id hcycle =>
    hacyclic id (Relation.TransGen.mono (fun _ _ hpc => hpc.2.2) id id hcycle)

theorem Indexed.idxOf_lt_idxOf (ho : g.executionOrder view = .ok order)
    (hf : g.FeedsIn view p c) : order.idxOf p < order.idxOf c := by
  obtain ⟨harranged, hcovers⟩ := arranged_executionOrder ho
  rw [← h.supplies_eq] at hf
  have hc : order.reverse.reverse[order.idxOf c]? = some c := by
    rw [List.reverse_reverse]
    exact List.getElem?_idxOf (hcovers c hf.2.1)
  have hp := harranged.mem_take hc hf.2.2 hf.1
  rw [List.reverse_reverse] at hp
  calc order.idxOf p
      = (order.take (order.idxOf c) ++ order.drop (order.idxOf c)).idxOf p := by
        rw [List.take_append_drop]
    _ = (order.take (order.idxOf c)).idxOf p := List.idxOf_append_of_mem hp
    _ < (order.take (order.idxOf c)).length := List.idxOf_lt_length_of_mem hp
    _ ≤ order.idxOf c := List.length_take_le _ _

end Indexed

end Graph

end ValueGraph
