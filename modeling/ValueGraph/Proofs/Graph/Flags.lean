import ValueGraph.Proofs.Graph.Backing
import ValueGraph.Proofs.Graph.Justification

namespace ValueGraph

@[simp] theorem Node.mem_terminal_flag {n : Node} {s t : ValueSpec} :
    s ∈ (n.flag t).terminal ↔ s ∈ n.terminal ∨ t = s ∧ s ∈ n.outputs := by
  unfold flag
  split
  next h =>
    rw [SortedSet.mem_insert]
    grind
  next h => grind

def Node.Proper (n : Node) : Prop := ∀ s ∈ n.terminal, s ∈ n.outputs

namespace Graph

variable {g g' : Graph} {id i : NodeId} {n : Node} {s t : ValueSpec} {o : Operation}
  {os : List Operation} {configuration : String}

section Flags

def Flags (g : Graph) (id : NodeId) (s : ValueSpec) : Prop :=
  ∃ n, g.node? id = some n ∧ s ∈ n.terminal

/-- Do the nodes flag only outputs of their own? -/
def Proper (g : Graph) : Prop := ∀ id s, g.Flags id s → g.Produces id s

theorem flags_flag : (g.modifyNode id (·.flag t)).Flags i s ↔
    g.Flags i s ∨ (id = i ∧ t = s) ∧ g.Produces i s := by
  unfold Flags Produces
  rw [node?_modifyNode]
  cases g.node? i <;> split <;> simp_all

theorem flags_unflag : (g.modifyNode id (·.unflag t)).Flags i s ↔
    g.Flags i s ∧ ¬ (id = i ∧ t = s) := by
  unfold Flags
  rw [node?_modifyNode]
  cases g.node? i <;> split <;> simp_all [Node.unflag, eq_comm]

theorem flags_link (h : g.FreshIds) :
    (g.link n).Flags i s ↔ i = g.nextId ∧ s ∈ n.terminal ∨ g.Flags i s := by
  unfold Flags
  rw [node?_link]
  split
  next hi =>
    subst hi
    simp [h.node?_nextId]
  next hi => simp [Ne.symm hi]

theorem flags_redirectAll {old new : ValueSpec} (h : g.Indexed) :
    (g.redirectAll id old new).Flags i s ↔ g.Flags i s := by
  have hsame (n : Node) : (n.replaceInput old new).terminal = n.terminal := by
    unfold Node.replaceInput
    split <;> rfl
  unfold Flags
  rw [node?_redirectAll h]
  cases g.node? i <;> simp [hsame]

theorem Proper.flags_of_pared (hp : g.Proper)
    (hnode : ∀ i n', g'.node? i = some n' → ∃ n, g.node? i = some n ∧ n.Pared n') :
    g'.Flags i s ↔ g'.Produces i s ∧ g.Flags i s := by
  constructor
  · rintro ⟨n', hn', hs⟩
    obtain ⟨n, hn, hpared⟩ := hnode i n' hn'
    obtain ⟨hs, hkept⟩ := (hpared.terminal s).1 hs
    obtain ⟨m, hm, ho⟩ := hp i s ⟨n, hn, hs⟩
    rw [hn] at hm
    cases hm
    exact ⟨⟨n', hn', hkept ho⟩, n, hn, hs⟩
  · rintro ⟨⟨n', hn', ho⟩, m, hm, hs⟩
    obtain ⟨n, hn, hpared⟩ := hnode i n' hn'
    rw [hn] at hm
    cases hm
    exact ⟨n', hn', (hpared.terminal s).2 ⟨hs, fun _ => ho⟩⟩

end Flags

section Handover

/-- A handover flags the new output if the old one backed something. -/
theorem SoundBut.flags_handOver {h : Handover} (hg : g.SoundBut id) (hfit : h.Fits g id) :
    (Graph.handOver id g h).Flags i s ↔
      g.Flags i s ∨ i = id ∧ h.new = s ∧ ∃ rs, h.backed = some rs := by
  obtain ⟨-, same⟩ := hg.redirected hfit
  have hflags : (if h.old = h.new then g else g.redirectAll id h.old h.new).Flags i s ↔
      g.Flags i s := by
    split
    · rfl
    · exact flags_redirectAll hg.indexed
  have hnew := (same.produces id h.new).2 hfit.new
  revert hflags hnew
  unfold Graph.handOver
  generalize (if h.old = h.new then g else g.redirectAll id h.old h.new) = g'
  intro hflags hnew
  cases h.backed with
  | none => simpa using hflags
  | some rs =>
    refine flags_flag.trans (or_congr hflags ?_)
    constructor
    · rintro ⟨⟨rfl, rfl⟩, -⟩
      exact ⟨rfl, rfl, rs, rfl⟩
    · rintro ⟨rfl, rfl, -⟩
      exact ⟨⟨rfl, rfl⟩, hnew⟩

theorem SoundBut.flags_foldl_handOver {hs : List Handover} (hg : g.SoundBut id)
    (hfit : ∀ h ∈ hs, h.Fits g id) :
    (hs.foldl (Graph.handOver id) g).Flags i s ↔
      g.Flags i s ∨ i = id ∧ ∃ h ∈ hs, h.new = s ∧ ∃ rs, h.backed = some rs := by
  induction hs generalizing g with
  | nil => simp
  | cons h hs ih =>
    obtain ⟨hg', hfit'⟩ := hg.first hfit
    rw [List.foldl_cons, ih hg' hfit', hg.flags_handOver (hfit h List.mem_cons_self)]
    simp only [List.mem_cons, exists_eq_or_imp, or_assoc, ← and_or_left]

theorem Sound.flags_replace (h : g.Sound) (hr : g.replace id n = .ok (i, g')) {j : NodeId} :
    g'.Flags j s ↔ j = i ∧ s ∈ n.terminal ∨ (id ≠ j ∧ g.Flags j s) ∨
      j = i ∧ ∃ old r, g.Carries id n old s ∧ r ∈ g.backing.setAt old := by
  have hok : ∃ x, g.replace id n = .ok x := ⟨_, hr⟩
  obtain ⟨m, hm, hc, rfl, rfl⟩ := exists_of_replace hr
  refine ((h.soundBut_link hm hc).flags_foldl_handOver fun _ => h.fits_handover hm).trans ?_
  rw [flags_link (h.detach hm).ids, or_assoc]
  refine or_congr_right (or_congr ?_ (and_congr_right fun _ => ?_))
  · unfold Flags
    rw [node?_detach]
    split <;> simp_all
  · simp only [mem_handovers]
    constructor
    · rintro ⟨ho, ⟨hold, hc, hb⟩, rfl, rs, hrs⟩
      obtain ⟨r, hr⟩ := (h.indexed.backing _ rs (hb.symm.trans hrs)).2
      exact ⟨ho.old, r, ⟨hok, ⟨m, hm, hold⟩, hc⟩,
        SortedMap.mem_setAt.2 ⟨rs, hb.symm.trans hrs, hr⟩⟩
    · rintro ⟨old, r, ⟨-, ⟨m', hm', hold⟩, hc⟩, hr⟩
      rw [hm] at hm'
      cases hm'
      obtain ⟨rs, hrs, -⟩ := SortedMap.mem_setAt.1 hr
      exact ⟨⟨old, s, g.backing.get? old⟩, ⟨hold, hc, rfl⟩, rfl, rs, hrs⟩

end Handover

section Steps

/-- The node that the operation gives to the graph. -/
def Operation.given? : Operation → Option Node
  | .add n | .replace _ n => some n
  | .remove _ | .mark _ _ | .unmark _ _ | .prune | .part _ => none

/-- Does the operation give the graph a node that flags `s` already? -/
def Brings (g : Graph) : Operation → ValueSpec → Prop
  | .add n, s => s ∈ n.terminal ∧ ∃ x, g.add n = .ok x
  | .replace id n, s => s ∈ n.terminal ∧ ∃ x, g.replace id n = .ok x
  | .remove _, _ | .mark _ _, _ | .unmark _ _, _ | .prune, _ | .part _, _ => False

/-- Does the operation take back all that the terminal output `s` backs? -/
def Clears (g : Graph) : Operation → ValueSpec → Prop
  | .unmark rs t, s => t = s ∧ g.isTerminal s ∧ ∀ r ∈ g.backing.setAt s, r ∈ rs
  | .add _, _ | .remove _, _ | .replace _ _, _ | .mark _ _, _ | .prune, _ | .part _, _ => False

/-- Does the operation make `s` back something that it did not back as an output of this node? -/
def Claims (g : Graph) (o : Operation) (s : ValueSpec) : Prop :=
  (∃ r, o = .mark r s) ∨
    ∃ id n old r, o = .replace id n ∧ g.Carries id n old s ∧ r ∈ g.backing.setAt old

variable (h : g.Sound)
include h

theorem Sound.flags_unmark (hp : g.Proper) {rs : List Requirement} :
    (g.unmark rs t).Flags i s ↔ g.Flags i s ∧ ¬ g.Clears (.unmark rs t) s := by
  unfold Graph.unmark Clears
  cases hb : g.backing.get? t with
  | none =>
    refine (and_iff_left ?_).symm
    rintro ⟨rfl, hterminal, -⟩
    simp [isTerminal, SortedMap.mem_iff_isSome_get?, hb] at hterminal
  | some backed =>
    have hset : g.backing.setAt t = backed := by simp [SortedMap.setAt, hb]
    have hterminal : g.isTerminal t := by
      simp [isTerminal, SortedMap.mem_iff_isSome_get?, hb]
    have hleft : (backed.filter (· ∉ rs)).isEmpty ↔ ∀ r ∈ backed, r ∈ rs := by
      simp [SortedSet.isEmpty, SortedSet.filter, SortedSet.mem_toList]
    dsimp only
    split
    next hempty =>
      obtain ⟨⟨p, n, hn, ho, -⟩, -⟩ := h.indexed.backing t backed hb
      have hproducer : g.producer? t = some p := (h.indexed.producers t p).2 ⟨n, hn, ho⟩
      have hsame : ({ g with backing := g.backing.erase t } : Graph).producer? t = some p :=
        hproducer
      rw [hsame]
      refine flags_unflag.trans (and_congr_right fun hs => not_congr ?_)
      constructor
      · rintro ⟨-, rfl⟩
        exact ⟨rfl, hterminal, hset ▸ hleft.1 hempty⟩
      · rintro ⟨rfl, -⟩
        exact ⟨h.indexed.unique ⟨n, hn, ho⟩ (hp i t hs), rfl⟩
    next hsome =>
      refine (and_iff_left ?_).symm
      rintro ⟨rfl, -, hall⟩
      exact hsome (hleft.2 (hset ▸ hall))

theorem Sound.not_produces_of_gains (hg : g.Gains o s) {p : NodeId} (hp : g.Produces p s) :
    ∃ n, o = .replace p n := by
  cases o with
  | add n =>
    obtain ⟨hs, ⟨i, g'⟩, ha⟩ := hg
    have hnone := (link_of_add ha).2.2 s hs
    rw [(h.indexed.producers s p).2 hp] at hnone
    cases hnone
  | replace id n =>
    obtain ⟨hs, ⟨i, g'⟩, hr⟩ := hg
    obtain ⟨m, -, hc, -⟩ := exists_of_replace hr
    cases conflict?_eq_none_iff.1 hc s hs p ((h.indexed.producers s p).2 hp)
    exact ⟨n, rfl⟩
  | remove _ => cases hg
  | mark _ _ => cases hg
  | unmark _ _ => cases hg
  | prune => cases hg
  | part _ => cases hg

theorem Sound.flags_apply_add (hp : g.Proper) (hn : n.Proper) :
    (g.apply (.add n)).Flags i s ↔ (g.apply (.add n)).Produces i s ∧
      (g.Flags i s ∧ ¬ g.Gains (.add n) s ∨ g.Brings (.add n) s) := by
  have hother (hs : g.Produces i s) : ¬ g.Gains (.add n) s := fun hg => by
    obtain ⟨m, hm⟩ := h.not_produces_of_gains hg hs
    cases hm
  cases ha : g.add n with
  | error e =>
    have := hp i s
    simp only [Graph.apply, Gains, Brings, ha, reduceCtorEq, exists_false, and_false, or_false,
      not_false_eq_true, and_true]
    tauto
  | ok x =>
    obtain ⟨i', g'⟩ := x
    have hbrings : g.Brings (.add n) s ↔ s ∈ n.terminal := and_iff_left ⟨_, ha⟩
    have hgains : g.Gains (.add n) s ↔ s ∈ n.outputs := and_iff_left ⟨_, ha⟩
    have happly : g.apply (.add n) = g.link n := by
      rw [← (link_of_add ha).1]
      simp only [Graph.apply, ha]
    rw [happly, flags_link h.ids, produces_link h.ids, hbrings]
    constructor
    · rintro (⟨rfl, hs⟩ | hs)
      · exact ⟨.inl ⟨rfl, hn s hs⟩, .inr hs⟩
      · exact ⟨.inr (hp i s hs), .inl ⟨hs, hother (hp i s hs)⟩⟩
    · rintro ⟨⟨rfl, ho⟩ | ho, ⟨hs, -⟩ | hs⟩
      · exact .inr hs
      · exact .inl ⟨rfl, hs⟩
      · exact .inr hs
      · exact absurd (hgains.2 (hn s hs)) (hother ho)

theorem Sound.flags_apply_replace (hp : g.Proper) (hn : n.Proper) :
    (g.apply (.replace id n)).Flags i s ↔ (g.apply (.replace id n)).Produces i s ∧
      (g.Flags i s ∧ ¬ g.Gains (.replace id n) s ∨ g.Brings (.replace id n) s ∨
        ∃ old r, g.Carries id n old s ∧ r ∈ g.backing.setAt old) := by
  cases hr : g.replace id n with
  | error e =>
    have := hp i s
    simp only [Graph.apply, Gains, Brings, Carries, hr, reduceCtorEq, exists_false, and_false,
      false_and, or_false, not_false_eq_true, and_true]
    tauto
  | ok x =>
    obtain ⟨i', g'⟩ := x
    obtain ⟨m, hm, -⟩ := exists_of_replace hr
    have hbrings : g.Brings (.replace id n) s ↔ s ∈ n.terminal := and_iff_left ⟨_, hr⟩
    have hgains : g.Gains (.replace id n) s ↔ s ∈ n.outputs := and_iff_left ⟨_, hr⟩
    have happly : g.apply (.replace id n) = g' := by simp only [Graph.apply, hr]
    -- Another node than the one that is replaced keeps its outputs to itself.
    have hother (hs : g.Produces i s) (hi : id ≠ i) : s ∉ n.outputs := fun hnew => by
      obtain ⟨n', hn'⟩ := h.not_produces_of_gains (hgains.2 hnew) hs
      cases hn'
      exact hi rfl
    have hcarried : (∃ old r, g.Carries id n old s ∧ r ∈ g.backing.setAt old) →
        s ∈ n.outputs := by
      rintro ⟨old, -, ⟨-, -, hold⟩, -⟩
      exact List.mem_of_find?_eq_some hold
    rw [happly, h.flags_replace hr, h.produces_replace hr hm, hbrings, hgains]
    constructor
    · rintro (⟨rfl, hs⟩ | ⟨hi, hs⟩ | ⟨rfl, hs⟩)
      · exact ⟨.inl ⟨rfl, hn s hs⟩, .inr (.inl hs)⟩
      · have hprod := hp i s hs
        have hout : s ∉ m.outputs := fun hs => hi ((h.indexed.mem_outputs_iff hm hprod).1 hs).symm
        exact ⟨.inr ⟨hprod, hout⟩, .inl ⟨hs, hother hprod hi⟩⟩
      · exact ⟨.inl ⟨rfl, hcarried hs⟩, .inr (.inr hs)⟩
    · rintro ⟨⟨rfl, ho⟩ | ⟨hprod, hout⟩, hs⟩
      · rcases hs with ⟨-, hno⟩ | hs | hs
        · exact absurd ho hno
        · exact .inl ⟨rfl, hs⟩
        · exact .inr (.inr ⟨rfl, hs⟩)
      · have hi : id ≠ i := fun hi => hout ((h.indexed.mem_outputs_iff hm hprod).2 hi.symm)
        rcases hs with ⟨hs, -⟩ | hs | hs
        · exact .inr (.inl ⟨hi, hs⟩)
        · exact absurd (hn s hs) (hother hprod hi)
        · exact absurd (hcarried hs) (hother hprod hi)

theorem Sound.flags_apply_mark (hp : g.Proper) {r : Requirement} :
    (g.apply (.mark r t)).Flags i s ↔
      (g.apply (.mark r t)).Produces i s ∧ (g.Flags i s ∨ t = s) := by
  have hproper := hp i s
  cases hm : g.mark r t with
  | error e =>
    have hno : ¬ (g.Produces i s ∧ t = s) := by
      rintro ⟨hprod, rfl⟩
      exact (h.indexed.mark_eq_error_iff.1 hm).2 i hprod
    simp only [Graph.apply, hm]
    tauto
  | ok g' =>
    simp only [Graph.apply, hm, (sameLinks_mark hm).produces]
    unfold Graph.mark at hm
    split at hm
    next p hproducer =>
      cases hm
      have hprod := (h.indexed.producers t p).1 hproducer
      have hflags : ((g.addBacking t (.singleton r)).modifyNode p (·.flag t)).Flags i s ↔
          g.Flags i s ∨ (p = i ∧ t = s) ∧ g.Produces i s := flags_flag
      rw [hflags]
      constructor
      · rintro (hs | ⟨⟨rfl, rfl⟩, hs⟩)
        · exact ⟨hproper hs, .inl hs⟩
        · exact ⟨hs, .inr rfl⟩
      · rintro ⟨hs, hf | rfl⟩
        · exact .inl hf
        · exact .inr ⟨⟨h.indexed.unique hprod hs, rfl⟩, hs⟩
    next => cases hm

theorem Sound.pared_apply (ho : (∃ id, o = .remove id) ∨ o = .prune ∨ ∃ keep, o = .part keep)
    {n' : Node} (hn : (g.apply o).node? i = some n') : ∃ n, g.node? i = some n ∧ n.Pared n' := by
  rcases ho with ⟨id, rfl⟩ | rfl | ⟨keep, rfl⟩
  · simp only [Graph.apply] at hn
    split at hn
    next hr =>
      obtain ⟨-, rfl⟩ := detach_of_remove hr
      rw [node?_detach] at hn
      split at hn
      · cases hn
      · exact ⟨n', hn, .refl n'⟩
    next => exact ⟨n', hn, .refl n'⟩
  · obtain ⟨ids, hids⟩ := g.exists_foldl_trim
    exact h.pared_foldl_trim ids (hids ▸ hn)
  · have hn : (g.part keep).node? i = some n' := hn
    rw [h.node?_part] at hn
    split at hn
    · exact ⟨n', hn, .refl n'⟩
    · cases hn

/--
A node flags those of its outputs that it flagged before, if they have not got a producer or lost
their backing since, those that were flagged when it came, and those that have come to back
something.
-/
theorem Sound.flags_apply (hp : g.Proper) (hn : ∀ n, o.given? = some n → n.Proper) :
    (g.apply o).Flags i s ↔ (g.apply o).Produces i s ∧
      ((g.Flags i s ∧ ¬ g.Gains o s ∧ ¬ g.Clears o s) ∨ g.Brings o s ∨ g.Claims o s) := by
  cases o with
  | add n =>
    rw [h.flags_apply_add hp (hn n rfl)]
    simp [Clears, Claims]
  | replace id n =>
    rw [h.flags_apply_replace hp (hn n rfl)]
    simp [Clears, Claims]
  | mark r t =>
    rw [h.flags_apply_mark hp]
    simp [Gains, Clears, Brings, Claims]
  | unmark rs t =>
    have hflags : (g.apply (.unmark rs t)).Flags i s ↔ _ := h.flags_unmark hp
    have hprod : (g.apply (.unmark rs t)).Produces i s ↔ _ := sameLinks_unmark.produces i s
    have hproper := hp i s
    rw [hflags, hprod]
    simp only [Gains, Brings, Claims, reduceCtorEq, exists_false, false_and, or_false,
      not_false_eq_true, true_and]
    tauto
  | remove id =>
    simpa [Gains, Clears, Brings, Claims] using
      hp.flags_of_pared fun i n' => h.pared_apply (.inl ⟨id, rfl⟩)
  | prune =>
    simpa [Gains, Clears, Brings, Claims] using
      hp.flags_of_pared fun i n' => h.pared_apply (.inr (.inl rfl))
  | part keep =>
    simpa [Gains, Clears, Brings, Claims] using
      hp.flags_of_pared fun i n' => h.pared_apply (.inr (.inr ⟨keep, rfl⟩))

end Steps

section Runs

/-- Did one of the operations take `n` out of the graph? -/
def TakenOut (configuration : String) (os : List Operation) (n : Node) : Prop :=
  ∃ before id later, os = before ++ .remove id :: later ∧
    ∃ g', (after configuration before).remove id = .ok (n, g')

/-- Is each node that is given to the graph one without flags, or one that was taken out of it? -/
def FairlyGiven (configuration : String) (os : List Operation) : Prop :=
  ∀ before o later, os = before ++ o :: later → ∀ n, o.given? = some n →
    (∀ s, s ∉ n.terminal) ∨ TakenOut configuration before n

/-- Are all nodes given to the graph without flags? -/
def Unflagged (os : List Operation) : Prop :=
  ∀ o ∈ os, ∀ n, o.given? = some n → ∀ s, s ∉ n.terminal

/-- Did `s` get its producer with the flag on, and was the flag not cleared since? -/
inductive Stale (configuration : String) : List Operation → ValueSpec → Prop
  | brought {os : List Operation} {o : Operation} {s : ValueSpec}
      (h : (after configuration os).Brings o s) : Stale configuration (os ++ [o]) s
  | kept {os : List Operation} {o : Operation} {s : ValueSpec} (h : Stale configuration os s)
      (hg : ¬ (after configuration os).Gains o s) (hc : ¬ (after configuration os).Clears o s) :
      Stale configuration (os ++ [o]) s

theorem not_stale_nil : ¬ Stale configuration [] s := by
  intro h
  generalize hos : [] = os at h
  cases h with
  | brought => simp at hos
  | kept => simp at hos

theorem stale_concat_iff : Stale configuration (os ++ [o]) s ↔
    (after configuration os).Brings o s ∨ Stale configuration os s ∧
      ¬ (after configuration os).Gains o s ∧ ¬ (after configuration os).Clears o s := by
  constructor
  · intro h
    generalize hos : os ++ [o] = all at h
    cases h with
    | brought h =>
      obtain ⟨rfl, ho⟩ := List.append_inj' hos rfl
      cases ho
      exact .inl h
    | kept h hg hc =>
      obtain ⟨rfl, ho⟩ := List.append_inj' hos rfl
      cases ho
      exact .inr ⟨h, hg, hc⟩
  · rintro (h | ⟨h, hg, hc⟩)
    · exact .brought h
    · exact .kept h hg hc

theorem takenOut_concat_iff : TakenOut configuration (os ++ [o]) n ↔
    TakenOut configuration os n ∨
      ∃ id g', o = .remove id ∧ (after configuration os).remove id = .ok (n, g') := by
  constructor
  · rintro ⟨before, id, later, hos, g', hr⟩
    rcases eq_or_exists_of_concat_eq hos with ⟨-, rfl, rfl⟩ | ⟨later', -, rfl⟩
    · exact .inr ⟨id, g', rfl, hr⟩
    · exact .inl ⟨before, id, later', rfl, g', hr⟩
  · rintro (⟨before, id, later, rfl, g', hr⟩ | ⟨id, g', rfl, hr⟩)
    · exact ⟨before, id, later ++ [o], by simp, g', hr⟩
    · exact ⟨os, id, [], rfl, g', hr⟩

theorem fairlyGiven_concat_iff : FairlyGiven configuration (os ++ [o]) ↔
    FairlyGiven configuration os ∧ ∀ n, o.given? = some n →
      (∀ s, s ∉ n.terminal) ∨ TakenOut configuration os n := by
  constructor
  · intro h
    refine ⟨fun before o' later hos => h before o' (later ++ [o]) (by simp [hos]), h os o [] rfl⟩
  · rintro ⟨h, hlast⟩ before o' later hos
    rcases eq_or_exists_of_concat_eq hos with ⟨-, rfl, rfl⟩ | ⟨later', -, hos'⟩
    · exact hlast
    · exact h before o' later' hos'

/-- A terminal output keeps something to back, unless it gets a new producer or all is taken back. -/
theorem Sound.exists_leaves_iff (h : g.Sound) :
    (∃ r, r ∈ g.backing.setAt s ∧ g.Leaves o s r) ↔
      g.isTerminal s ∧ ¬ g.Gains o s ∧ ¬ g.Clears o s := by
  rw [h.isTerminal_iff]
  cases o with
  | unmark rs t =>
    constructor
    · rintro ⟨r, hr, hl⟩
      exact ⟨⟨r, hr⟩, not_false, fun hc => leaves_unmark.1 hl ⟨hc.1, hc.2.2 r hr⟩⟩
    · rintro ⟨⟨r, hr⟩, -, hno⟩
      by_contra hall
      have hback (q : Requirement) (hq : q ∈ g.backing.setAt s) : t = s ∧ q ∈ rs := by
        by_contra hl
        exact hall ⟨q, hq, leaves_unmark.2 hl⟩
      exact hno ⟨(hback r hr).1, h.isTerminal_iff.2 ⟨r, hr⟩, fun q hq => (hback q hq).2⟩
  | _ => simp [Leaves, Gains, Clears, Operation.Unmarks]

theorem Sound.isTerminal_apply (h : g.Sound) : (g.apply o).isTerminal s ↔
    (∃ i, (g.apply o).Produces i s) ∧
      (g.isTerminal s ∧ ¬ g.Gains o s ∧ ¬ g.Clears o s ∨ g.Claims o s) := by
  rw [(h.apply o).isTerminal_iff, ← h.exists_leaves_iff]
  constructor
  · rintro ⟨r, hr⟩
    refine ⟨(h.apply o).indexed.exists_produces hr, ?_⟩
    rcases h.mem_backing_apply.1 hr with ⟨hr, -, hl⟩ | ⟨rfl, -⟩ | ⟨id, n, old, rfl, hc, hr⟩
    · exact .inl ⟨r, hr, hl⟩
    · exact .inr (.inl ⟨r, rfl⟩)
    · exact .inr (.inr ⟨id, n, old, r, rfl, hc, hr⟩)
  · rintro ⟨hp, ⟨r, hr, hl⟩ | ⟨r, rfl⟩ | ⟨id, n, old, r, rfl, hc, hr⟩⟩
    · exact ⟨r, h.mem_backing_apply.2 (.inl ⟨hr, hp, hl⟩)⟩
    · refine ⟨r, h.mem_backing_apply.2 (.inr (.inl ⟨rfl, ?_⟩))⟩
      cases hm : g.mark r s with
      | ok g' => exact ⟨g', rfl⟩
      | error e =>
        -- A mark that is refused changes nothing, and nobody produces the value.
        obtain ⟨i, hi⟩ := hp
        simp only [Graph.apply, hm] at hi
        exact absurd hi ((h.indexed.mark_eq_error_iff.1 hm).2 i)
    · exact ⟨r, h.mem_backing_apply.2 (.inr (.inr ⟨id, n, old, rfl, hc, hr⟩))⟩

/--
A node flags those of its outputs that are terminal, and those whose flag it brought along and that
were not taken back since.
-/
theorem flags_after (h : FairlyGiven configuration os) :
    (∀ n, TakenOut configuration os n → n.Proper) ∧
      ∀ i s, (after configuration os).Flags i s ↔ (after configuration os).Produces i s ∧
        ((after configuration os).isTerminal s ∨ Stale configuration os s) := by
  induction os using List.reverseRecOn with
  | nil =>
    refine ⟨?_, fun i s => iff_of_false ?_ ?_⟩
    · rintro n ⟨before, id, later, hos, -⟩
      simp at hos
    · rintro ⟨n, hn, -⟩
      cases hn
    · rintro ⟨⟨n, hn, -⟩, -⟩
      cases hn
  | append_singleton os o ih =>
    obtain ⟨h, hgiven⟩ := fairlyGiven_concat_iff.1 h
    obtain ⟨htaken, hflags⟩ := ih h
    have hsound := sound_after configuration os
    have hproper : (after configuration os).Proper := fun i s hs => ((hflags i s).1 hs).1
    have hn : ∀ n, o.given? = some n → n.Proper := by
      intro n hn
      rcases hgiven n hn with hnone | hn
      · exact fun s hs => absurd hs (hnone s)
      · exact htaken n hn
    refine ⟨fun n hn => ?_, fun i s => ?_⟩
    · rcases takenOut_concat_iff.1 hn with hn | ⟨id, g', -, hr⟩
      · exact htaken n hn
      · obtain ⟨hn, -⟩ := detach_of_remove hr
        intro s hs
        obtain ⟨m, hm, ho⟩ := hproper id s ⟨n, hn, hs⟩
        rw [hn] at hm
        cases hm
        exact ho
    · have hgains := hsound.produces_or_gains (o := o) (i := i) (s := s)
      rw [after_concat, hsound.flags_apply hproper hn, hsound.isTerminal_apply, stale_concat_iff,
        hflags]
      constructor
      · rintro ⟨hp, ⟨⟨-, ht | hs⟩, hno⟩ | hb | hc⟩
        · exact ⟨hp, .inl ⟨⟨i, hp⟩, .inl ⟨ht, hno⟩⟩⟩
        · exact ⟨hp, .inr (.inr ⟨hs, hno⟩)⟩
        · exact ⟨hp, .inr (.inl hb)⟩
        · exact ⟨hp, .inl ⟨⟨i, hp⟩, .inr hc⟩⟩
      · rintro ⟨hp, ⟨-, ⟨ht, hno⟩ | hc⟩ | hb | ⟨hs, hno⟩⟩
        · exact ⟨hp, .inl ⟨⟨(hgains hp).resolve_right hno.1, .inl ht⟩, hno⟩⟩
        · exact ⟨hp, .inr (.inr hc)⟩
        · exact ⟨hp, .inr (.inl hb)⟩
        · exact ⟨hp, .inl ⟨⟨(hgains hp).resolve_right hno.1, .inr hs⟩, hno⟩⟩

theorem Unflagged.fairlyGiven (h : Unflagged os) : FairlyGiven configuration os := by
  rintro before o later rfl n hn
  exact .inl (h o (by simp) n hn)

theorem Unflagged.not_stale (h : Unflagged os) : ¬ Stale configuration os s := by
  induction os using List.reverseRecOn with
  | nil => exact not_stale_nil
  | append_singleton os o ih =>
    rw [stale_concat_iff]
    rintro (hb | ⟨hs, -⟩)
    · have hlast := h o (by simp)
      cases o with
      | add n => exact hlast n rfl s hb.1
      | replace id n => exact hlast n rfl s hb.1
      | remove _ => cases hb
      | mark _ _ => cases hb
      | unmark _ _ => cases hb
      | prune => cases hb
      | part _ => cases hb
    · exact ih (fun o ho => h o (by simp [ho])) hs

/--
A node flags just those of its outputs that are terminal and those that are stale, that is, that
came with their flags on. Only a node that was taken out of the graph before can bring such flags:
if all nodes are given without, the flags are those of the terminal outputs.
-/
theorem mem_terminal_after_iff (h : FairlyGiven configuration os)
    (hn : (after configuration os).node? id = some n) :
    (s ∈ n.terminal ↔ s ∈ n.outputs ∧
      ((after configuration os).isTerminal s ∨ Stale configuration os s)) ∧
    (Unflagged os → (s ∈ n.terminal ↔ s ∈ n.outputs ∧ (after configuration os).isTerminal s)) := by
  have hflags : (after configuration os).Flags id s ↔ s ∈ n.terminal := by simp [Flags, hn]
  have hprod : (after configuration os).Produces id s ↔ s ∈ n.outputs := by simp [Produces, hn]
  have hiff := (flags_after h).2 id s
  rw [hflags, hprod] at hiff
  refine ⟨hiff, fun hos => hiff.trans (and_congr_right fun _ => ?_)⟩
  exact or_iff_left hos.not_stale

end Runs

section Example

def quote : ValueSpec := ⟨"Quote", ⟨.security, "Bond"⟩, ∅⟩

def quoting : Node where
  function := .marketData
  target := quote.target
  outputs := .singleton quote

/-- The quote is marked, its node taken out, and the node that this returns put back. -/
def returning : List Operation :=
  [.add quoting, .mark ⟨"Quote", quote.target, ∅⟩ quote, .remove 0,
    .add { quoting with terminal := .singleton quote }]

theorem fairlyGiven_returning : FairlyGiven "Default" returning := by
  have hfirst : Unflagged (returning.take 3) := by
    intro o ho n hn
    have ho : o ∈ [.add quoting, .mark ⟨"Quote", quote.target, ∅⟩ quote, .remove 0] := ho
    simp only [List.mem_cons, List.not_mem_nil, or_false] at ho
    rcases ho with rfl | rfl | rfl
    · cases hn
      exact fun _ => SortedSet.not_mem_empty
    · cases hn
    · cases hn
  have htaken : TakenOut "Default" (returning.take 3)
      { quoting with terminal := .singleton quote } :=
    ⟨returning.take 2, 0, [], rfl, _, rfl⟩
  refine fairlyGiven_concat_iff.2 ⟨hfirst.fairlyGiven, fun n hn => .inr ?_⟩
  cases hn
  exact htaken

/-- The node is back with its flag, and the quote backs nothing. -/
theorem flagged_returning :
    FairlyGiven "Default" returning ∧
      ∃ n, (after "Default" returning).node? 0 = some n ∧ quote ∈ n.terminal ∧
        (after "Default" returning).isTerminal quote = false := by
  refine ⟨fairlyGiven_returning, { quoting with terminal := .singleton quote }, ?_, ?_, ?_⟩
  · decide +kernel
  · simp
  · decide +kernel

theorem mem_terminal_after_iff_returning :
    FairlyGiven "Default" returning ∧
      (∃ n, (after "Default" returning).node? 0 = some n ∧ quote ∈ n.terminal ∧
        quote ∈ n.outputs) ∧ Stale "Default" returning quote := by
  have hn : (after "Default" returning).node? 0 =
      some { quoting with terminal := .singleton quote } := by decide +kernel
  have hno : (after "Default" returning).isTerminal quote = false := by decide +kernel
  have hflagged : quote ∈ ({ quoting with terminal := .singleton quote } : Node).terminal := by simp
  obtain ⟨ho, hstale⟩ := (mem_terminal_after_iff fairlyGiven_returning hn).1.1 hflagged
  rw [hno] at hstale
  exact ⟨fairlyGiven_returning, ⟨_, hn, hflagged, ho⟩, hstale.resolve_left Bool.false_ne_true⟩

end Example

end Graph

end ValueGraph
