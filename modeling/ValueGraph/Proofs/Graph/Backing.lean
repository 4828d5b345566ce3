import ValueGraph.Proofs.Graph.Part
import ValueGraph.Proofs.Graph.Prune

namespace ValueGraph.Graph

variable {g g' : Graph} {id i : NodeId} {n : Node} {old s : ValueSpec} {r : Requirement}
  {o : Operation} {os : List Operation} {configuration : String}

section History

/-- Does the operation give `s` a producer? A node that takes the place of another is a new one. -/
def Gains (g : Graph) : Operation → ValueSpec → Prop
  | .add n, s => s ∈ n.outputs ∧ ∃ x, g.add n = .ok x
  | .replace id n, s => s ∈ n.outputs ∧ ∃ x, g.replace id n = .ok x
  | .remove _, _ | .mark _ _, _ | .unmark _ _, _ | .prune, _ | .part _, _ => False

def Operation.Unmarks : Operation → ValueSpec → Requirement → Prop
  | .unmark rs t, s, r => t = s ∧ r ∈ rs
  | .add _, _, _ | .remove _, _, _ | .replace _ _, _, _ | .mark _ _, _, _ | .prune, _, _
  | .part _, _, _ => False

/-- If the node under `id` is replaced by `n`, does its output `old` go over to `s`? -/
def Carries (g : Graph) (id : NodeId) (n : Node) (old s : ValueSpec) : Prop :=
  (∃ x, g.replace id n = .ok x) ∧ g.Produces id old ∧ n.counterpart? old = some s

/-- Neither gives `s` a producer nor takes the requirement back from it. -/
def Leaves (g : Graph) (o : Operation) (s : ValueSpec) (r : Requirement) : Prop :=
  ¬ g.Gains o s ∧ ¬ o.Unmarks s r

@[simp] theorem leaves_add : g.Leaves (.add n) s r ↔ ¬ g.Gains (.add n) s :=
  and_iff_left not_false

@[simp] theorem leaves_replace : g.Leaves (.replace id n) s r ↔ ¬ g.Gains (.replace id n) s :=
  and_iff_left not_false

@[simp] theorem leaves_unmark {rs : List Requirement} {t : ValueSpec} :
    g.Leaves (.unmark rs t) s r ↔ ¬ (t = s ∧ r ∈ rs) :=
  and_iff_right not_false

@[simp] theorem leaves_remove : g.Leaves (.remove id) s r := ⟨not_false, not_false⟩

@[simp] theorem leaves_mark {q : Requirement} {t : ValueSpec} : g.Leaves (.mark q t) s r :=
  ⟨not_false, not_false⟩

@[simp] theorem leaves_prune : g.Leaves .prune s r := ⟨not_false, not_false⟩

@[simp] theorem leaves_part {keep : SortedSet NodeId} : g.Leaves (.part keep) s r :=
  ⟨not_false, not_false⟩

def LeavesAll (g : Graph) (s : ValueSpec) (r : Requirement) : List Operation → Prop
  | [] => True
  | o :: os => g.Leaves o s r ∧ (g.apply o).LeavesAll s r os

/--
Was the requirement marked on `s`, or carried over to it, by one of the operations, and left to it
by all later ones?
-/
inductive Backed (configuration : String) (r : Requirement) : List Operation → ValueSpec → Prop
  | marked {before later s} (hm : ∃ g', (after configuration before).mark r s = .ok g')
    (hl : (after configuration (before ++ [.mark r s])).LeavesAll s r later) :
    Backed configuration r (before ++ .mark r s :: later) s
  | carried {before later id n old s} (hold : Backed configuration r before old)
    (hc : (after configuration before).Carries id n old s)
    (hl : (after configuration (before ++ [.replace id n])).LeavesAll s r later) :
    Backed configuration r (before ++ .replace id n :: later) s

theorem after_append {before later : List Operation} :
    after configuration (before ++ later) = later.foldl apply (after configuration before) := by
  unfold after
  rw [List.foldl_append]

theorem after_concat : after configuration (os ++ [o]) = (after configuration os).apply o := by
  rw [after_append]
  rfl

theorem foldl_apply_after {before later : List Operation} :
    later.foldl apply (after configuration (before ++ [o])) =
      after configuration (before ++ o :: later) := by
  rw [after_append, after_append]
  rfl

theorem leavesAll_concat :
    g.LeavesAll s r (os ++ [o]) ↔ g.LeavesAll s r os ∧ (os.foldl apply g).Leaves o s r := by
  induction os generalizing g with
  | nil => simp [LeavesAll]
  | cons o' os ih => simp only [List.cons_append, LeavesAll, ih, and_assoc, List.foldl_cons]

theorem Backed.concat (h : Backed configuration r os s)
    (hl : (after configuration os).Leaves o s r) : Backed configuration r (os ++ [o]) s := by
  cases h with
  | marked hm hleaves =>
    rw [List.append_assoc, List.cons_append]
    refine .marked hm (leavesAll_concat.2 ⟨hleaves, ?_⟩)
    rwa [foldl_apply_after]
  | carried hold hc hleaves =>
    rw [List.append_assoc, List.cons_append]
    refine .carried hold hc (leavesAll_concat.2 ⟨hleaves, ?_⟩)
    rwa [foldl_apply_after]

theorem eq_or_exists_of_concat_eq {before later : List Operation} {x : Operation}
    (h : os ++ [o] = before ++ x :: later) :
    later = [] ∧ os = before ∧ o = x ∨
      ∃ later', later = later' ++ [o] ∧ os = before ++ x :: later' := by
  rcases List.eq_nil_or_concat later with rfl | ⟨later', y, rfl⟩
  · obtain ⟨hos, ho⟩ := List.append_inj' h rfl
    cases ho
    exact .inl ⟨rfl, hos, rfl⟩
  · simp only [List.concat_eq_append] at h ⊢
    rw [← List.cons_append, ← List.append_assoc] at h
    obtain ⟨hos, ho⟩ := List.append_inj' h rfl
    cases ho
    exact .inr ⟨later', rfl, hos⟩

/-- What is backed was so before the last operation, or the last operation made it so. -/
theorem backed_concat_iff : Backed configuration r (os ++ [o]) s ↔
    Backed configuration r os s ∧ (after configuration os).Leaves o s r ∨
    (o = .mark r s ∧ ∃ g', (after configuration os).mark r s = .ok g') ∨
    ∃ id n old, o = .replace id n ∧ (after configuration os).Carries id n old s ∧
      Backed configuration r os old := by
  constructor
  · intro h
    generalize hos : os ++ [o] = all at h
    cases h with
    | marked hm hl =>
      rcases eq_or_exists_of_concat_eq hos with ⟨rfl, rfl, rfl⟩ | ⟨later', rfl, rfl⟩
      · exact .inr (.inl ⟨rfl, hm⟩)
      · rw [leavesAll_concat, foldl_apply_after] at hl
        exact .inl ⟨.marked hm hl.1, hl.2⟩
    | carried hold hc hl =>
      rcases eq_or_exists_of_concat_eq hos with ⟨rfl, rfl, rfl⟩ | ⟨later', rfl, rfl⟩
      · exact .inr (.inr ⟨_, _, _, rfl, hc, hold⟩)
      · rw [leavesAll_concat, foldl_apply_after] at hl
        exact .inl ⟨.carried hold hc hl.1, hl.2⟩
  · rintro (⟨h, hl⟩ | ⟨rfl, hm⟩ | ⟨id, n, old, rfl, hc, hold⟩)
    · exact h.concat hl
    · exact .marked hm trivial
    · exact .carried hold hc trivial

end History

section Steps

theorem mem_backing_unmark {rs : List Requirement} {t : ValueSpec} :
    r ∈ (g.unmark rs t).backing.setAt s ↔ r ∈ g.backing.setAt s ∧ ¬ (t = s ∧ r ∈ rs) := by
  unfold unmark
  cases hb : g.backing.get? t with
  | none =>
    refine (and_iff_left_of_imp ?_).symm
    rintro hr ⟨rfl, -⟩
    simp [SortedMap.setAt, hb] at hr
  | some backed =>
    have hset : g.backing.setAt t = backed := by simp [SortedMap.setAt, hb]
    dsimp only
    split
    next hempty =>
      have hall : ∀ q ∈ backed, q ∈ rs := by
        simpa [SortedSet.isEmpty, SortedSet.filter, SortedSet.mem_toList] using hempty
      have herase : r ∈ (g.backing.erase t).setAt s ↔
          r ∈ g.backing.setAt s ∧ ¬ (t = s ∧ r ∈ rs) := by
        rw [SortedMap.setAt_erase]
        split
        next he =>
          subst he
          refine iff_of_false SortedSet.not_mem_empty ?_
          rintro ⟨hr, hno⟩
          exact hno ⟨rfl, hall r (hset ▸ hr)⟩
        next he => simp [he]
      split
      · exact herase
      · exact herase
    next =>
      show r ∈ (g.backing.insert t _).setAt s ↔ _
      rw [SortedMap.setAt_insert]
      split
      next he =>
        subst he
        simp [hset]
      next he => simp [he]

theorem sameLinks_unmark {rs : List Requirement} {t : ValueSpec} :
    g.SameLinks (g.unmark rs t) := by
  unfold unmark
  cases g.backing.get? t with
  | none => exact .refl g
  | some backed =>
    dsimp only
    split
    · split
      · exact (sameLinks_modifyNode fun n => ⟨_, rfl⟩).withBacking _
      · exact (SameLinks.refl g).withBacking _
    · exact (SameLinks.refl g).withBacking _

theorem mem_backing_handOver {h : Handover} :
    r ∈ (handOver id g h).backing.setAt s ↔
      r ∈ g.backing.setAt s ∨ h.new = s ∧ ∃ rs, h.backed = some rs ∧ r ∈ rs := by
  have hredirect : (if h.old = h.new then g else g.redirectAll id h.old h.new).backing =
      g.backing := by
    split
    · rfl
    · exact backing_redirectAll
  unfold handOver
  cases hb : h.backed with
  | none => simp [hredirect]
  | some rs =>
    show r ∈ ((if h.old = h.new then g
      else g.redirectAll id h.old h.new).backing.addAllAt h.new rs).setAt s ↔ _
    rw [SortedMap.mem_setAt_addAllAt, hredirect, or_comm]
    simp

theorem mem_backing_foldl_handOver {hs : List Handover} :
    r ∈ (hs.foldl (handOver id) g).backing.setAt s ↔
      r ∈ g.backing.setAt s ∨ ∃ h ∈ hs, h.new = s ∧ ∃ rs, h.backed = some rs ∧ r ∈ rs := by
  induction hs generalizing g with
  | nil => simp
  | cons h hs ih =>
    rw [List.foldl_cons, ih, mem_backing_handOver]
    simp only [List.mem_cons, exists_eq_or_imp, or_assoc]

theorem mem_backing_detach :
    r ∈ (g.detach id n).backing.setAt s ↔ r ∈ g.backing.setAt s ∧ s ∉ n.outputs := by
  unfold SortedMap.setAt
  rw [get?_backing_detach]
  split
  next hs => simp [hs]
  next hs => simp [hs]

/-- What is replaced keeps its backing in its counterpart only. -/
theorem mem_backing_replace (hr : g.replace id n = .ok (i, g')) {m : Node}
    (hm : g.node? id = some m) :
    r ∈ g'.backing.setAt s ↔ r ∈ g.backing.setAt s ∧ s ∉ m.outputs ∨
      ∃ old, g.Carries id n old s ∧ r ∈ g.backing.setAt old := by
  have hok : ∃ x, g.replace id n = .ok x := ⟨_, hr⟩
  obtain ⟨-, rfl, rfl⟩ := eq_of_replace_of_node? hm hr
  refine mem_backing_foldl_handOver.trans ?_
  rw [backing_link, mem_backing_detach]
  refine or_congr_right ?_
  simp only [mem_handovers]
  constructor
  · rintro ⟨h, ⟨hold, hc, hb⟩, rfl, rs, hrs, hr⟩
    exact ⟨h.old, ⟨hok, ⟨m, hm, hold⟩, hc⟩, SortedMap.mem_setAt.2 ⟨rs, hb.symm.trans hrs, hr⟩⟩
  · rintro ⟨old, ⟨-, ⟨m', hm', hold⟩, hc⟩, hr⟩
    rw [hm] at hm'
    cases hm'
    obtain ⟨rs, hrs, hr⟩ := SortedMap.mem_setAt.1 hr
    exact ⟨⟨old, s, g.backing.get? old⟩, ⟨hold, hc, rfl⟩, rfl, rs, hrs, hr⟩

theorem Indexed.exists_produces (h : g.Indexed) (hr : r ∈ g.backing.setAt s) :
    ∃ id, g.Produces id s := by
  obtain ⟨rs, hrs, -⟩ := SortedMap.mem_setAt.1 hr
  obtain ⟨⟨id, n, hn, hs, -⟩, -⟩ := h.backing s rs hrs
  exact ⟨id, n, hn, hs⟩

theorem mem_backing_apply_mark {q : Requirement} {t : ValueSpec} :
    r ∈ (g.apply (.mark q t)).backing.setAt s ↔
      r ∈ g.backing.setAt s ∨ (q = r ∧ t = s) ∧ ∃ g', g.mark q t = .ok g' := by
  cases hm : g.mark q t with
  | error e => simp [Graph.apply, hm]
  | ok g' =>
    simp only [Graph.apply, hm, mem_backing_mark hm]
    grind

section Apply

variable (h : g.Sound)
include h

theorem Sound.mem_backing_apply_add : r ∈ (g.apply (.add n)).backing.setAt s ↔
    r ∈ g.backing.setAt s ∧ ¬ g.Gains (.add n) s := by
  have hsame : (g.apply (.add n)).backing = g.backing := by
    simp only [Graph.apply]
    split
    next ha => rw [(link_of_add ha).1, backing_link]
    next => rfl
  rw [hsame]
  refine (and_iff_left_of_imp ?_).symm
  -- Nobody produced what the new node produces, so that it backed nothing.
  rintro hr ⟨hs, ⟨i, g'⟩, ha⟩
  obtain ⟨p, hp⟩ := h.indexed.exists_produces hr
  have hnone := (link_of_add ha).2.2 s hs
  rw [(h.indexed.producers s p).2 hp] at hnone
  cases hnone

theorem Sound.mem_backing_apply_remove : r ∈ (g.apply (.remove id)).backing.setAt s ↔
    r ∈ g.backing.setAt s ∧ ∃ i, (g.apply (.remove id)).Produces i s := by
  cases hm : g.node? id with
  | none =>
    have hsame : g.apply (.remove id) = g := by simp only [Graph.apply, Graph.remove, hm]
    rw [hsame]
    exact (and_iff_left_of_imp h.indexed.exists_produces).symm
  | some m =>
    have hdetach : g.apply (.remove id) = g.detach id m := by
      simp only [Graph.apply, Graph.remove, hm]
    rw [hdetach, mem_backing_detach]
    simp only [h.indexed.produces_detach_iff hm, exists_and_right]
    exact and_congr_right fun hr => (and_iff_right (h.indexed.exists_produces hr)).symm

theorem Sound.produces_replace (hr : g.replace id n = .ok (i, g')) {m : Node}
    (hm : g.node? id = some m) {j : NodeId} :
    g'.Produces j s ↔ j = i ∧ s ∈ n.outputs ∨ g.Produces j s ∧ s ∉ m.outputs := by
  have same := h.sameOutputs_replace hm hr
  obtain ⟨-, rfl, -⟩ := eq_of_replace_of_node? hm hr
  refine (same.produces j s).trans ((produces_link (h.detach hm).ids).trans (or_congr_right ?_))
  exact h.indexed.produces_detach_iff hm

theorem Sound.mem_backing_apply_replace : r ∈ (g.apply (.replace id n)).backing.setAt s ↔
    (r ∈ g.backing.setAt s ∧ (∃ i, (g.apply (.replace id n)).Produces i s) ∧
      ¬ g.Gains (.replace id n) s) ∨
    ∃ old, g.Carries id n old s ∧ r ∈ g.backing.setAt old := by
  cases hrep : g.replace id n with
  | error e =>
    have hsame : g.apply (.replace id n) = g := by simp only [Graph.apply, hrep]
    rw [hsame]
    simp only [Gains, Carries, hrep, reduceCtorEq, exists_false, and_false, not_false_eq_true,
      and_true, false_and, or_false]
    exact (and_iff_left_of_imp h.indexed.exists_produces).symm
  | ok x =>
    obtain ⟨i, g'⟩ := x
    have happly : g.apply (.replace id n) = g' := by simp only [Graph.apply, hrep]
    obtain ⟨m, hm, hc, -⟩ := exists_of_replace hrep
    have hgains : g.Gains (.replace id n) s ↔ s ∈ n.outputs := and_iff_left ⟨_, hrep⟩
    rw [happly, mem_backing_replace hrep hm, hgains]
    refine or_congr_left (and_congr_right fun hr => ?_)
    obtain ⟨p, hp⟩ := h.indexed.exists_produces hr
    simp only [h.produces_replace hrep hm]
    constructor
    · intro hs
      refine ⟨⟨p, .inr ⟨hp, hs⟩⟩, fun hnew => ?_⟩
      -- Another node produces it, and would be in the way.
      have hnone := h.producer?_detach_of_conflict? hm hc hnew
      rw [producer?_detach, if_neg hs, (h.indexed.producers s p).2 hp] at hnone
      cases hnone
    · rintro ⟨⟨j, ⟨-, hnew⟩ | ⟨-, hs⟩⟩, hno⟩
      · exact absurd hnew hno
      · exact hs

theorem Sound.mem_backing_part {keep : SortedSet NodeId} :
    r ∈ (g.part keep).backing.setAt s ↔
      r ∈ g.backing.setAt s ∧ ∃ id, (g.part keep).Produces id s := by
  simp only [SortedMap.mem_setAt, h.get?_backing_part, h.produces_part]
  grind

/-- What an output backs afterwards is what it was left, or what it has just got. -/
theorem Sound.mem_backing_apply : r ∈ (g.apply o).backing.setAt s ↔
    (r ∈ g.backing.setAt s ∧ (∃ id, (g.apply o).Produces id s) ∧ g.Leaves o s r) ∨
    (o = .mark r s ∧ ∃ g', g.mark r s = .ok g') ∨
    ∃ id n old, o = .replace id n ∧ g.Carries id n old s ∧ r ∈ g.backing.setAt old := by
  have hafter : r ∈ (g.apply o).backing.setAt s → ∃ id, (g.apply o).Produces id s :=
    (h.apply o).indexed.exists_produces
  cases o with
  | add n =>
    simp only [reduceCtorEq, false_and, exists_false, or_false, leaves_add]
    rw [h.mem_backing_apply_add] at hafter ⊢
    exact and_congr_right fun hr => (and_iff_right_of_imp fun hno => hafter ⟨hr, hno⟩).symm
  | remove id =>
    simp only [reduceCtorEq, false_and, exists_false, or_false, leaves_remove, and_true]
    exact h.mem_backing_apply_remove
  | replace id n =>
    simp only [reduceCtorEq, false_and, false_or, leaves_replace]
    rw [h.mem_backing_apply_replace]
    grind
  | mark q t =>
    rw [mem_backing_apply_mark] at hafter ⊢
    simp only [reduceCtorEq, false_and, exists_false, or_false, leaves_mark, and_true,
      Operation.mark.injEq]
    grind
  | unmark rs t =>
    simp only [reduceCtorEq, false_and, exists_false, or_false, leaves_unmark]
    have hr : r ∈ (g.apply (.unmark rs t)).backing.setAt s ↔ _ := mem_backing_unmark
    rw [hr] at hafter ⊢
    exact and_congr_right fun hr => (and_iff_right_of_imp fun hno => hafter ⟨hr, hno⟩).symm
  | prune =>
    simp only [reduceCtorEq, false_and, exists_false, or_false, leaves_prune, and_true]
    have hsame : (g.apply .prune).backing = g.backing := h.trimmed_prune.backing
    rw [hsame] at hafter ⊢
    exact (and_iff_left_of_imp hafter).symm
  | part keep =>
    simp only [reduceCtorEq, false_and, exists_false, or_false, leaves_part, and_true]
    exact h.mem_backing_part

theorem Sound.produces_or_gains (hp : (g.apply o).Produces i s) :
    g.Produces i s ∨ g.Gains o s := by
  cases o with
  | add n =>
    simp only [Graph.apply] at hp
    split at hp
    next ha =>
      rw [(link_of_add ha).1] at hp
      exact ((produces_link h.ids).1 hp).symm.imp_right fun hs => ⟨hs.2, _, ha⟩
    next => exact .inl hp
  | remove id =>
    simp only [Graph.apply] at hp
    split at hp
    next hr =>
      obtain ⟨hn, rfl⟩ := detach_of_remove hr
      exact .inl ((h.indexed.produces_detach_iff hn).1 hp).1
    next => exact .inl hp
  | replace id n =>
    simp only [Graph.apply] at hp
    split at hp
    next hr =>
      obtain ⟨m, hm, -⟩ := exists_of_replace hr
      exact ((h.produces_replace hr hm).1 hp).symm.imp (·.1) fun hs => ⟨hs.2, _, hr⟩
    next => exact .inl hp
  | mark r t =>
    simp only [Graph.apply] at hp
    split at hp
    next hm => exact .inl (((sameLinks_mark hm).produces i s).1 hp)
    next => exact .inl hp
  | unmark rs t => exact .inl ((sameLinks_unmark.produces i s).1 hp)
  | prune => exact .inl (h.trimmed_prune.produces i s hp)
  | part keep => exact .inl (h.produces_part.1 hp).2

end Apply

end Steps

section Runs

theorem not_backed_nil : ¬ Backed configuration r [] s := by
  intro h
  generalize hos : [] = os at h
  cases h with
  | marked => simp at hos
  | carried => simp at hos

/-- An output backs what was marked on it or carried over to it and left to it since. -/
theorem mem_backing_after_iff : r ∈ (after configuration os).backing.setAt s ↔
    (∃ id, (after configuration os).Produces id s) ∧ Backed configuration r os s := by
  induction os using List.reverseRecOn generalizing s with
  | nil =>
    exact iff_of_false SortedSet.not_mem_empty fun h => not_backed_nil h.2
  | append_singleton os o ih =>
    have h := sound_after configuration os
    have hafter := (h.apply o).indexed.exists_produces (r := r) (s := s)
    rw [h.mem_backing_apply] at hafter
    rw [after_concat, backed_concat_iff, h.mem_backing_apply]
    constructor
    · intro hr
      refine ⟨hafter hr, ?_⟩
      rcases hr with ⟨hr, -, hl⟩ | hm | ⟨id, n, old, ho, hc, hr⟩
      · exact .inl ⟨(ih.1 hr).2, hl⟩
      · exact .inr (.inl hm)
      · exact .inr (.inr ⟨id, n, old, ho, hc, (ih.1 hr).2⟩)
    · rintro ⟨hp, ⟨hr, hl⟩ | hm | ⟨id, n, old, ho, hc, hr⟩⟩
      · -- It had a producer before, too.
        obtain ⟨i, hi⟩ := hp
        have hbefore := (h.produces_or_gains hi).resolve_right hl.1
        exact .inl ⟨ih.2 ⟨⟨i, hbefore⟩, hr⟩, ⟨i, hi⟩, hl⟩
      · exact .inr (.inl hm)
      · exact .inr (.inr ⟨id, n, old, ho, hc, ih.2 ⟨⟨id, hc.2.1⟩, hr⟩⟩)

/-- How what the outputs back has come about, and how it is kept. -/
structure BackingExact (configuration : String) (os : List Operation) (g : Graph) : Prop where
  /-- An output backs what was marked on it, or carried over to it, and left to it since. -/
  backs : ∀ s r, r ∈ g.backing.setAt s ↔ (∃ id, g.Produces id s) ∧ Backed configuration r os s
  /-- The terminal outputs are those that back something. -/
  terminal : ∀ s, g.isTerminal s ↔ ∃ r, r ∈ g.backing.setAt s
  /-- Each terminal output has a producer, which flags it. -/
  flagged : ∀ s, g.isTerminal s → ∃ id n, g.producer? s = some id ∧ g.node? id = some n ∧
    s ∈ n.outputs ∧ s ∈ n.terminal
  /-- A mark is refused just if the value is not produced, and then changes nothing. -/
  refused : ∀ r s e, g.mark r s = .error e ↔ e = .noProducer s ∧ ∀ id, ¬ g.Produces id s
  unchanged : ∀ r s e, g.mark r s = .error e → g.apply (.mark r s) = g
  /-- An output from which not all is taken back stays terminal. -/
  kept : ∀ rs s r, r ∈ g.backing.setAt s → r ∉ rs →
    r ∈ (g.unmark rs s).backing.setAt s ∧ (g.unmark rs s).isTerminal s ∧
      (g.unmark rs s).Flagged s

theorem Sound.isTerminal_iff (h : g.Sound) : g.isTerminal s ↔ ∃ r, r ∈ g.backing.setAt s := by
  refine ⟨fun hs => (h.agrees.terminal s hs).2, ?_⟩
  rintro ⟨r, hr⟩
  obtain ⟨rs, hrs, -⟩ := SortedMap.mem_setAt.1 hr
  simp [isTerminal, SortedMap.mem_iff_isSome_get?, hrs]

theorem Indexed.mark_eq_error_iff (h : g.Indexed) {e : GraphError} :
    g.mark r s = .error e ↔ e = .noProducer s ∧ ∀ id, ¬ g.Produces id s := by
  simp only [← h.producers]
  unfold mark
  cases hp : g.producer? s with
  | none => simp [eq_comm]
  | some id => simp

theorem backingExact_after (configuration : String) (os : List Operation) :
    BackingExact configuration os (after configuration os) := by
  have h := sound_after configuration os
  refine ⟨fun s r => mem_backing_after_iff, fun s => h.isTerminal_iff, fun s hs => ?_,
    fun r s e => h.indexed.mark_eq_error_iff, fun r s e he => ?_, fun rs s r hr hno => ?_⟩
  · obtain ⟨id, n, hn, ho, ht⟩ := (h.agrees.terminal s hs).1
    exact ⟨id, n, (h.indexed.producers s id).2 ⟨n, hn, ho⟩, hn, ho, ht⟩
  · simp only [apply, he]
  · have hkept : r ∈ ((after configuration os).unmark rs s).backing.setAt s :=
      mem_backing_unmark.2 ⟨hr, fun h => hno h.2⟩
    have hu := h.unmark rs s
    have hterminal := hu.isTerminal_iff.2 ⟨r, hkept⟩
    exact ⟨hkept, hterminal, (hu.agrees.terminal s hterminal).1⟩

end Runs

end ValueGraph.Graph
