import ValueGraph.Proofs.Resolution.Requests
import ValueGraph.Proofs.Resolution.Quiescence

namespace ValueGraph

namespace Resolution

section Search

variable {r : Resolution} {next : TaskId → List TaskId} {target id v : TaskId}
  {seen : SortedSet TaskId} {todo todo' : List TaskId} {n : Nat}

/--
The search as a loop that goes around `n` times at most. `next` lists whom a task waits for, in any
order.
-/
def search (next : TaskId → List TaskId) (target : TaskId) :
    Nat → SortedSet TaskId → List TaskId → Option Bool
  | _, _, [] => some false
  | 0, _, _ :: _ => none
  | n + 1, seen, id :: todo =>
    if id ∈ seen then search next target n seen todo
    else if target ∈ next id then some true
    else search next target n (seen.insert id) (next id ++ todo)

/-- How many tasks those in `ids` wait for, but for those in `seen`. -/
def unseen (next : TaskId → List TaskId) (seen : SortedSet TaskId) (ids : List TaskId) : Nat :=
  total (fun v => if v ∈ seen then 0 else (next v).length) ids

/-- How many pairs there are of a task and one that it waits for. -/
def waits (r : Resolution) : Nat :=
  total (fun v => (r.waitingOn v).length) (List.range r.tasks.size)

theorem unseen_cons {ids : List TaskId} : unseen next seen (v :: ids) =
    (if v ∈ seen then 0 else (next v).length) + unseen next seen ids := rfl

theorem unseen_insert_of_not_mem {ids : List TaskId} (h : id ∉ ids) :
    unseen next (seen.insert id) ids = unseen next seen ids := by
  induction ids with
  | nil => rfl
  | cons v ids ih =>
    rw [List.mem_cons, not_or] at h
    have hv : v ∈ seen.insert id ↔ v ∈ seen := by simp [SortedSet.mem_insert, Ne.symm h.1]
    simp only [unseen_cons, hv, ih h.2]

theorem unseen_insert {ids : List TaskId} (hids : ids.Nodup) (hid : id ∈ ids) (hseen : id ∉ seen) :
    unseen next (seen.insert id) ids + (next id).length = unseen next seen ids := by
  induction ids with
  | nil => cases hid
  | cons v ids ih =>
    obtain ⟨hnot, hids⟩ := List.nodup_cons.1 hids
    rw [unseen_cons, unseen_cons]
    rcases List.mem_cons.1 hid with rfl | hid
    · rw [unseen_insert_of_not_mem hnot, if_neg hseen, if_pos (SortedSet.mem_insert.2 (.inl rfl))]
      omega
    · have hne : v ≠ id := fun he => hnot (he ▸ hid)
      have hv : v ∈ seen.insert id ↔ v ∈ seen := by simp [SortedSet.mem_insert, hne]
      simp only [hv, ← ih hids hid, Nat.add_assoc]

/-- Each time around, one task less is to be looked at, or more are seen. -/
theorem isSome_search (hnext : ∀ v, r.tasks.size ≤ v → next v = [])
    (hn : todo.length + unseen next seen (List.range r.tasks.size) ≤ n) :
    (search next target n seen todo).isSome := by
  induction n generalizing seen todo with
  | zero =>
    have hnil : todo = [] := List.length_eq_zero_iff.1 (by omega)
    subst hnil
    rfl
  | succ n ih =>
    cases todo with
    | nil => rfl
    | cons id todo =>
      rw [List.length_cons] at hn
      unfold search
      split
      · exact ih (by omega)
      next hseen =>
        split
        · rfl
        · refine ih ?_
          rw [List.length_append]
          by_cases hid : id < r.tasks.size
          · have hunseen : unseen next (seen.insert id) _ + (next id).length = _ :=
              unseen_insert List.nodup_range (List.mem_range.2 hid) hseen
            omega
          · have hnot : id ∉ List.range r.tasks.size := fun h => hid (List.mem_range.1 h)
            rw [hnext id (Nat.le_of_not_lt hid), unseen_insert_of_not_mem hnot, List.length_nil]
            omega

theorem Searched.mono (h : r.Searched target seen todo) (hsub : todo ⊆ todo') :
    r.Searched target seen todo' := fun v hv x hvx =>
  (h v hv x hvx).imp_right (Or.imp_right (Or.imp_left (@hsub x)))

theorem iff_of_search (hnext : ∀ v, (next v).Perm (r.waitingOn v)) {b : Bool}
    (hseen : r.Searched target seen todo) (h : search next target n seen todo = some b) :
    (b = true → ∃ v ∈ todo, Relation.TransGen r.WaitsFor v target) ∧
      (b = false → ∀ v, v ∈ seen ∨ v ∈ todo → ¬ Relation.TransGen r.WaitsFor v target) := by
  have hmem {v u : TaskId} : u ∈ next v ↔ r.WaitsFor v u := (hnext v).mem_iff
  induction n generalizing seen todo with
  | zero =>
    cases todo with
    | nil =>
      cases h
      refine ⟨nofun, fun _ v hv hpath => ?_⟩
      exact (hseen.path (hv.resolve_right List.not_mem_nil) hpath).1 rfl
    | cons id todo => cases h
  | succ n ih =>
    cases todo with
    | nil =>
      cases h
      refine ⟨nofun, fun _ v hv hpath => ?_⟩
      exact (hseen.path (hv.resolve_right List.not_mem_nil) hpath).1 rfl
    | cons id todo =>
      unfold search at h
      split at h
      next hid =>
        obtain ⟨hfound, hnone⟩ := ih (hseen.skip (.inl hid)) h
        refine ⟨fun hb => ?_, fun hb v hv => hnone hb v ?_⟩
        · obtain ⟨v, hv, hpath⟩ := hfound hb
          exact ⟨v, List.mem_cons_of_mem _ hv, hpath⟩
        · rcases hv with hv | hv
          · exact .inl hv
          · rcases List.mem_cons.1 hv with rfl | hv
            · exact .inl hid
            · exact .inr hv
      next hid =>
        split at h
        next hfound =>
          cases h
          exact ⟨fun _ => ⟨id, List.mem_cons_self, .single (hmem.1 hfound)⟩, nofun⟩
        next hnot =>
          have hvisit : r.Searched target (seen.insert id) (next id ++ todo) :=
            (hseen.visit fun hw => hnot (hmem.2 hw)).mono fun x hx => by
              simpa only [List.mem_append, (hnext id).mem_iff] using hx
          obtain ⟨hfound, hnone⟩ := ih hvisit h
          refine ⟨fun hb => ?_, fun hb v hv => hnone hb v ?_⟩
          · obtain ⟨v, hv, hpath⟩ := hfound hb
            rcases List.mem_append.1 hv with hv | hv
            · exact ⟨id, List.mem_cons_self, .head (hmem.1 hv) hpath⟩
            · exact ⟨v, List.mem_cons_of_mem _ hv, hpath⟩
          · rcases hv with hv | hv
            · exact .inl (SortedSet.mem_insert.2 (.inr hv))
            · rcases List.mem_cons.1 hv with rfl | hv
              · exact .inl (SortedSet.mem_insert.2 (.inl rfl))
              · exact .inr (List.mem_append_right _ hv)

theorem waitsOn_iff : r.waitsOn id target = true ↔ Relation.TransGen r.WaitsFor id target := by
  constructor
  · intro h
    obtain ⟨v, hv, hpath⟩ := transGen_of_leadsTo h
    rwa [List.mem_singleton.1 hv] at hpath
  · intro hpath
    by_contra h
    exact not_transGen_of_waitsOn (Bool.eq_false_iff.2 h) hpath

/-- The loop is over in time, with the answer of the search. -/
theorem search_eq_waitsOn (hnext : ∀ v, (next v).Perm (r.waitingOn v)) (hn : 1 + r.waits ≤ n) :
    search next target n ∅ [id] = some (r.waitsOn id target) := by
  have hempty (v : TaskId) (hv : r.tasks.size ≤ v) : next v = [] := by
    have hnone : r.waitingOn v = [] := by
      unfold waitingOn
      rw [Array.getElem?_eq_none hv]
    exact List.perm_nil.1 (hnone ▸ hnext v)
  have hunseen : unseen next ∅ (List.range r.tasks.size) = r.waits := by
    unfold unseen waits
    simp only [SortedSet.not_mem_empty, if_false, (hnext _).length_eq]
  have hsome : (search next target n ∅ [id]).isSome := by
    refine isSome_search hempty ?_
    rw [hunseen]
    exact hn
  obtain ⟨b, hb⟩ := Option.isSome_iff_exists.1 hsome
  have hseen : r.Searched target ∅ [id] := fun v hv => absurd hv SortedSet.not_mem_empty
  obtain ⟨hfound, hnone⟩ := iff_of_search hnext hseen hb
  rw [hb]
  cases b with
  | true =>
    obtain ⟨v, hv, hpath⟩ := hfound rfl
    rw [List.mem_singleton.1 hv] at hpath
    rw [waitsOn_iff.2 hpath]
  | false =>
    have hno := hnone rfl id (.inr (List.mem_singleton_self id))
    rw [Bool.eq_false_iff.2 fun h => hno (waitsOn_iff.1 h)]

end Search

section Rounds

/-- May a round that is not the last lead from `r` to `s`, whatever is asked and answered in it? -/
def Follows (maxDepth : Nat) (s r : Resolution) : Prop :=
  ∃ (σ : Type) (c : Collaborators σ) (flag : Ask σ Bool) (w : σ) (less : s.LessToDo maxDepth r),
    (r.round c maxDepth flag w).1 = .next s less

variable {σ : Type} {c : Collaborators σ} {maxDepth : Nat} {flag : Ask σ Bool}

theorem wellFounded_follows : WellFounded (Follows maxDepth) := by
  refine Subrelation.wf ?_ (InvImage.wf (remaining maxDepth) WellFoundedRelation.wf)
  rintro s r ⟨σ, c, flag, w, less, -⟩
  exact less

/-- There is no run of rounds without end. -/
theorem exists_not_follows (run : Nat → Resolution) :
    ∃ n, ¬ Follows maxDepth (run (n + 1)) (run n) := by
  -- By induction on where the run starts; what comes after its first round is a run as well.
  suffices h : ∀ r, ∀ run : Nat → Resolution, run 0 = r →
      ∃ n, ¬ Follows maxDepth (run (n + 1)) (run n) from h (run 0) run rfl
  intro r
  induction r using wellFounded_follows.induction (r := Follows maxDepth) with
  | h r ih =>
    rintro run rfl
    by_cases hfirst : Follows maxDepth (run 1) (run 0)
    · obtain ⟨n, hn⟩ := ih (run 1) hfirst (fun n => run (n + 1)) rfl
      exact ⟨n + 1, hn⟩
    · exact ⟨0, hfirst⟩

/-- Pumping as a loop that has its tasks take `n` turns at most. -/
def pumpWithin (c : Collaborators σ) (maxDepth : Nat) (flag : Ask σ Bool) :
    Nat → Resolution → σ → Option ((Except GraphError PumpStatus × Resolution) × σ)
  | 0, _, _ => none
  | n + 1, r, w =>
    match r.round c maxDepth flag w with
    | (.next s _, w) => pumpWithin c maxDepth flag n s w
    | (.stop status s, w) => some ((status, s), w)

theorem exists_pumpWithin (r : Resolution) (w : σ) : ∃ n, ∀ k, n ≤ k →
    pumpWithin c maxDepth flag k r w = some (r.pump c maxDepth flag w) := by
  -- By the recursion of `pump`, which takes as many turns.
  induction r, w using pump.induct c maxDepth flag with
  | case1 r w s less w' hx ih =>
    obtain ⟨n, hn⟩ := ih
    refine ⟨n + 1, fun k hk => ?_⟩
    obtain ⟨k, rfl⟩ := Nat.exists_eq_add_of_lt hk
    rw [pump, pumpWithin, hx]
    exact hn _ (by omega)
  | case2 r w status s w' hx =>
    refine ⟨1, fun k hk => ?_⟩
    obtain ⟨k, rfl⟩ := Nat.exists_eq_add_of_lt hk
    rw [pump, pumpWithin, hx]

end Rounds

/-- Is every task there that one waits for? -/
def Closed (r : Resolution) : Prop := ∀ id u, r.WaitsFor id u → u < r.tasks.size

end Resolution

theorem Change.closed {σ : Type} {c : Collaborators σ} {maxDepth : Nat} {m m' : Moment}
    (hc : Change c maxDepth m m') (hclaimed : m.resolution.Claimed) (h : m.resolution.Closed) :
    m'.resolution.Closed := by
  intro id u hu
  obtain ⟨t', ht', hmem⟩ := Resolution.waitsFor_iff.1 hu
  rcases (hc.taskChange hclaimed).origin ht' with ⟨t, ht, hcont⟩ | ⟨-, w, -, -, hnone⟩
  · rcases hcont.waitingOn u hmem with hmem | ⟨q, d, tu, -, hu, -⟩
    · exact Nat.lt_of_lt_of_le (h id u (Resolution.waitsFor_iff.2 ⟨t, ht, hmem⟩)) hc.size_le
    · exact (Array.getElem?_eq_some_iff.1 hu).1
  · rw [hnone] at hmem
    exact absurd hmem SortedSet.not_mem_empty

namespace Resolution

theorem kept_closed {σ : Type} (c : Collaborators σ) (maxDepth : Nat) :
    Kept (Change c maxDepth) fun m => Steady m ∧ m.resolution.Closed where
  change hc h := ⟨(kept_steady c maxDepth).change hc h.1, hc.closed h.1.claimed h.2⟩
  sound h := (kept_steady c maxDepth).sound h.1

/-- What a search for a circle comes to at some moment of a resolution. -/
structure SearchEnds (r : Resolution) : Prop where
  closed : r.Closed
  /-- In whatever order the loop looks at the tasks, it is over in time, with the right answer. -/
  search : ∀ next : TaskId → List TaskId, (∀ v, (next v).Perm (r.waitingOn v)) →
    ∀ id target n, 1 + r.waits ≤ n →
      search next target n ∅ [id] = some (r.waitsOn id target)
  answer : ∀ id target, r.waitsOn id target = true ↔ Relation.TransGen r.WaitsFor id target

/--
After any calls: rounds do not go on for ever, whatever collaborators they ask; to pump is to go
through finitely many rounds; and at every moment that calls lead through, between two changes, the
search for a circle ends as well.
-/
theorem pump_ends {σ : Type} (c : Collaborators σ) (maxDepth : Nat) (configuration : String)
    (os : List Graph.Operation) (calls : List (Call σ)) :
    let r := afterCalls c maxDepth { graph := .after configuration os } calls
    (∀ run : Nat → Resolution, run 0 = r → ∃ n, ¬ Follows maxDepth (run (n + 1)) (run n)) ∧
      (∀ flag w, ∃ n, ∀ k, n ≤ k →
        pumpWithin c maxDepth flag k r w = some (r.pump c maxDepth flag w)) ∧
      ∀ m, Relation.ReflTransGen (Change c maxDepth) ⟨r, .idle⟩ m → m.resolution.SearchEnds := by
  intro r
  refine ⟨fun run _ => exists_not_follows run, fun flag w => exists_pumpWithin r w, fun m hm => ?_⟩
  have hinit : ({ graph := .after configuration os } : Resolution).Closed := by
    intro id u hu
    obtain ⟨t, ht, -⟩ := waitsFor_iff.1 hu
    cases ht
  have hr := (kept_closed c maxDepth).afterCalls
    ⟨steady_initial (Graph.sound_after configuration os), hinit⟩ calls
  exact ⟨((kept_closed c maxDepth).run hm hr).2, fun next hnext id target n hn =>
    search_eq_waitsOn hnext hn, fun id target => waitsOn_iff⟩

end Resolution

end ValueGraph
