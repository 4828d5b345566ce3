import ValueGraph.Graph.Change
import ValueGraph.Proofs.Execution.Journal

namespace ValueGraph.Executor

variable {l : Ledger} {s : Statistics} {J : List Entry} {e : Executor} {x : Entry} {id : JobId}
  {d : Delivery} {job : Job}

section Steps

theorem enter_submit : e.enter (.submit job) =
    { e with
      nextJob := e.nextJob + 1
      pending := e.pending.insert job.id job.pending
      handles := e.handles.insert job.id {} } :=
  rfl

theorem enter_withdraw : e.enter (.withdraw id) =
    { e with pending := e.pending.erase id, handles := e.handles.erase id } :=
  rfl

theorem enter_stop : e.enter (.stop id) =
    { e with
      pending := e.pending.erase id
      handles := e.handles.modify id fun h =>
        { completion := if id ∈ e.pending then .ended (.error .cancelled) else h.completion
          cancelled := true } } := by
  unfold enter
  simp only [modifyHandle_eq, finish_eq]
  by_cases hid : id ∈ e.pending
  · simp only [hid, if_true]
    congr 1
    apply SortedMap.ext_get?
    intro i
    simp only [SortedMap.get?_modify]
    split
    · rw [Option.map_map]
      rfl
    · rfl
  · have hnone : e.pending.get? id = none := by
      rwa [SortedMap.mem_iff_isSome_get?, Option.not_isSome_iff_eq_none] at hid
    simp only [hid, if_false, SortedMap.erase_eq_self hnone]

theorem get?_pending_enter : (e.enter x).pending.get? id =
    if x.concerns id then x.submitted?.map Job.pending else e.pending.get? id := by
  cases x with
  | skip => rfl
  | submit job =>
    rw [enter_submit, SortedMap.get?_insert]
    simp only [Entry.concerns, decide_eq_true_eq]
    rfl
  | report d =>
    show (e.deliver d).pending.get? id = _
    rw [pending_deliver, SortedMap.get?_erase]
    simp only [Entry.concerns, decide_eq_true_eq]
    rfl
  | withdraw i =>
    rw [enter_withdraw, SortedMap.get?_erase]
    simp only [Entry.concerns, decide_eq_true_eq]
    rfl
  | stop i =>
    rw [enter_stop, SortedMap.get?_erase]
    simp only [Entry.concerns, decide_eq_true_eq]
    rfl

theorem get?_handles_enter (hx : x.concerns id = false) :
    (e.enter x).handles.get? id = e.handles.get? id := by
  cases x with
  | skip => rfl
  | submit job =>
    rw [enter_submit, SortedMap.get?_insert, if_neg (by simpa [Entry.concerns] using hx)]
  | report d => exact get?_handles_deliver.trans (if_neg (by simpa [Entry.concerns] using hx))
  | withdraw i =>
    rw [enter_withdraw, SortedMap.get?_erase, if_neg (by simpa [Entry.concerns] using hx)]
  | stop i =>
    rw [enter_stop, SortedMap.get?_modify, if_neg (by simpa [Entry.concerns] using hx)]

theorem isSome_handle_deliver :
    ((e.deliver d).handles.get? id).isSome = (e.handles.get? id).isSome := by
  rw [get?_handles_deliver]
  split
  · rw [Option.isSome_map]
  · rfl

theorem isUncancelled_deliver : (e.deliver d).isUncancelled id = e.isUncancelled id := by
  unfold isUncancelled
  rw [get?_handles_deliver]
  split
  · cases e.handles.get? id <;> rfl
  · rfl

theorem isSome_of_isUncancelled (h : e.isUncancelled id) : (e.handles.get? id).isSome := by
  unfold isUncancelled at h
  cases hh : e.handles.get? id with
  | none => simp [hh] at h
  | some _ => rfl

end Steps

section Recorded

def Allows (e : Executor) : Entry → Prop
  | .submit job => job.id = ⟨e.nextJob⟩
  | .withdraw id | .stop id => e.isUncancelled id
  | .skip | .report _ => True

/-- The executors with their journals, newest entry first. -/
inductive Recorded (l : Ledger) (s : Statistics) : List Entry → Executor → Prop
  | start : Recorded l s [] (start l s)
  | enter {journal e x} (h : Recorded l s journal e) (ha : e.Allows x) :
    Recorded l s (x :: journal) (e.enter x)

theorem Recorded.pending (h : Recorded l s J e) :
    e.pending.get? id = (openJob? J id).map Job.pending := by
  induction h with
  | start => rfl
  | @enter J e x h ha ih =>
    rw [openJob?_cons, get?_pending_enter, ih]
    split <;> rfl

theorem Recorded.lt_nextJob (h : Recorded l s J e) (hj : job ∈ submissions J) :
    job.id.number < e.nextJob := by
  induction h with
  | start => cases hj
  | @enter J e x h ha ih =>
    cases x with
    | skip => exact Nat.lt_succ_of_lt (ih hj)
    | submit job' =>
      rcases List.mem_cons.1 hj with rfl | hj
      · rw [show job.id = ⟨e.nextJob⟩ from ha]
        exact Nat.lt_succ_self _
      · exact Nat.lt_succ_of_lt (ih hj)
    | report d =>
      show job.id.number < (e.deliver d).nextJob
      rw [nextJob_deliver]
      exact ih hj
    | withdraw i => exact ih hj
    | stop i =>
      rw [enter_stop]
      exact ih hj

theorem Recorded.submitted_of_handle (h : Recorded l s J e) (hh : (e.handles.get? id).isSome) :
    ∃ job ∈ submissions J, job.id = id := by
  induction h with
  | start => cases hh
  | @enter J e x h ha ih =>
    have hcons : (e.handles.get? id).isSome → ∃ job ∈ submissions (x :: J), job.id = id :=
      fun hh => (ih hh).imp fun job hj => ⟨mem_submissions_cons hj.1, hj.2⟩
    cases x with
    | skip => exact hcons hh
    | submit job =>
      rw [enter_submit, SortedMap.get?_insert] at hh
      split at hh
      next hid => exact ⟨job, List.mem_cons_self, hid⟩
      next => exact hcons hh
    | report d => exact hcons (isSome_handle_deliver ▸ hh)
    | withdraw i =>
      rw [enter_withdraw, SortedMap.get?_erase] at hh
      split at hh
      · cases hh
      · exact hcons hh
    | stop i =>
      rw [enter_stop, SortedMap.get?_modify] at hh
      split at hh
      · exact hcons (by rwa [Option.isSome_map] at hh)
      · exact hcons hh

theorem Recorded.submitted_of_spent (h : Recorded l s J e) (hs : Spent J id) :
    ∃ job ∈ submissions J, job.id = id := by
  induction h with
  | start => simp [Spent, receipts] at hs
  | @enter J e x h ha ih =>
    have hcons : (∃ job ∈ submissions J, job.id = id) → ∃ job ∈ submissions (x :: J), job.id = id :=
      Exists.imp fun job hj => ⟨mem_submissions_cons hj.1, hj.2⟩
    rcases hs with hs | hs | ⟨r, hr, hid⟩
    · rcases List.mem_cons.1 hs with rfl | hs
      · exact hcons (h.submitted_of_handle (isSome_of_isUncancelled ha))
      · exact hcons (ih (.inl hs))
    · rcases List.mem_cons.1 hs with rfl | hs
      · exact hcons (h.submitted_of_handle (isSome_of_isUncancelled ha))
      · exact hcons (ih (.inr (.inl hs)))
    · exact ⟨r.job, mem_submissions_of_mem_receipts hr, hid⟩

theorem Recorded.id_ne (h : Recorded l s J e) (ha : e.Allows (.submit job)) {job' : Job}
    (hj : job' ∈ submissions J) : job'.id ≠ job.id := by
  intro hid
  have hlt := h.lt_nextJob hj
  rw [hid, show job.id = ⟨e.nextJob⟩ from ha] at hlt
  exact Nat.lt_irrefl _ hlt

theorem Recorded.not_spent (h : Recorded l s J e) (ha : e.Allows (.submit job)) :
    ¬ Spent J job.id := by
  intro hs
  obtain ⟨job', hj, hid⟩ := h.submitted_of_spent hs
  exact h.id_ne ha hj hid

theorem Recorded.unregistered (h : Recorded l s J e) (ha : e.Allows (.submit job)) :
    e.pending.get? job.id = none ∧ e.handles.get? job.id = none := by
  constructor
  · rw [h.pending, Option.map_eq_none_iff, Option.eq_none_iff_forall_ne_some]
    intro job' hopen
    obtain ⟨hj, hid⟩ := submitted_of_openJob? hopen
    exact h.id_ne ha hj hid
  · rw [← Option.not_isSome_iff_eq_none]
    intro hh
    obtain ⟨job', hj, hid⟩ := h.submitted_of_handle hh
    exact h.id_ne ha hj hid

theorem Recorded.openJob?_of_spent (h : Recorded l s J e) (hs : Spent J id) :
    openJob? J id = none := by
  induction h with
  | start => rfl
  | @enter J e x h ha ih =>
    rw [openJob?_cons]
    split
    next hx =>
      cases x with
      | submit job =>
        obtain rfl : job.id = id := by simpa [Entry.concerns] using hx
        exact absurd (spent_submit.1 hs) (h.not_spent ha)
      | skip | report | withdraw | stop => rfl
    next hx => exact ih (hs.of_cons (by simpa using hx))

theorem Recorded.not_spent_of_openJob? (h : Recorded l s J e) (hopen : openJob? J id = some job) :
    ¬ Spent J id := by
  intro hs
  rw [h.openJob?_of_spent hs] at hopen
  cases hopen

theorem Recorded.not_spent_of_receipt? (h : Recorded l s J e) {r : Receipt}
    (hr : receipt? J x = some r) : ¬ Spent J r.job.id := by
  obtain ⟨-, hopen⟩ := receipt?_eq_some_iff.1 hr
  rw [(submitted_of_openJob? hopen).2]
  exact h.not_spent_of_openJob? hopen

theorem Recorded.isSome_openJob?_iff (h : Recorded l s J e) :
    (openJob? J id).isSome ↔ (∃ job ∈ submissions J, job.id = id) ∧ ¬ Spent J id := by
  constructor
  · intro hopen
    obtain ⟨job, hjob⟩ := Option.isSome_iff_exists.1 hopen
    exact ⟨⟨job, submitted_of_openJob? hjob⟩, h.not_spent_of_openJob? hjob⟩
  · rintro ⟨⟨job, hj, rfl⟩, hs⟩
    rw [Option.isSome_iff_ne_none]
    exact fun hopen => hs (spent_of_openJob?_eq_none hj hopen)

theorem Recorded.mem_pending_iff (h : Recorded l s J e) :
    id ∈ e.pending ↔ (openJob? J id).isSome := by
  rw [SortedMap.mem_iff_isSome_get?, h.pending, Option.isSome_map]

theorem Recorded.handle (h : Recorded l s J e) : e.handles.get? id = handle? J id := by
  induction h with
  | start => rfl
  | @enter J e x h ha ih =>
    cases hx : x.concerns id with
    | false => rw [get?_handles_enter hx, handle?_cons hx, ih]
    | true =>
      cases x with
      | skip => cases hx
      | submit job =>
        obtain rfl : job.id = id := by simpa [Entry.concerns] using hx
        rw [enter_submit, SortedMap.get?_insert, if_pos rfl, handle?_submit (h.not_spent ha)]
      | report d =>
        obtain rfl : d.result.job = id := by simpa [Entry.concerns] using hx
        show (e.deliver d).handles.get? d.result.job = _
        rw [get?_handles_deliver, if_pos rfl, h.pending, ih]
        cases hopen : openJob? J d.result.job with
        | none =>
          rw [handle?_report_of_eq_none hopen]
          exact Option.map_id'
        | some job => rw [handle?_report hopen]; rfl
      | withdraw i =>
        obtain rfl : i = id := by simpa [Entry.concerns] using hx
        rw [enter_withdraw, SortedMap.get?_erase, if_pos rfl, handle?_withdraw]
      | stop i =>
        obtain rfl : i = id := by simpa [Entry.concerns] using hx
        rw [enter_stop, SortedMap.get?_modify, if_pos rfl, ih, handle?_stop h.openJob?_of_spent]
        simp only [h.mem_pending_iff]

theorem Recorded.isSome_openJob? (h : Recorded l s J e) (ho : e.isOpen id) :
    (openJob? J id).isSome := by
  unfold isOpen at ho
  rw [h.handle] at ho
  unfold handle? at ho
  split at ho
  next hcond =>
    obtain ⟨hid, hw⟩ := hcond
    obtain ⟨job, hj, rfl⟩ := List.mem_map.1 hid
    rw [h.isSome_openJob?_iff]
    refine ⟨⟨job, hj, rfl⟩, ?_⟩
    cases hend : ending? J job.id with
    | some outcome => simp [hend, Handle.isDone] at ho
    | none =>
      obtain ⟨hstop, hreceipt⟩ := ending?_eq_none_iff.1 hend
      rintro (hs | hs | ⟨r, hr, hid⟩)
      · exact hw hs
      · exact hstop hs
      · exact hreceipt r hr hid
  next => simp at ho

theorem Recorded.applies (h : Recorded l s J e) :
    (e.enter x).ledger = ((receipt? J x).elim e.ledger fun r => r.recordIn e.ledger) ∧
    (e.enter x).statistics = ((receipt? J x).elim e.statistics fun r => r.countIn e.statistics) := by
  cases x with
  | report d =>
    have hp : e.pending.get? d.result.job = _ := h.pending
    show (e.deliver d).ledger = _ ∧ (e.deliver d).statistics = _
    cases hopen : openJob? J d.result.job with
    | none =>
      have hr : receipt? J (.report d) = none := by simp [receipt?, hopen]
      rw [hopen] at hp
      rw [deliver_of_not_pending hp, hr]
      exact ⟨rfl, rfl⟩
    | some job =>
      have hr : receipt? J (.report d) = some ⟨job, d⟩ := by simp [receipt?, hopen]
      rw [hopen] at hp
      rw [deliver_of_pending hp, hr]
      exact ⟨rfl, rfl⟩
  | stop i =>
    rw [enter_stop]
    exact ⟨rfl, rfl⟩
  | skip | submit | withdraw => exact ⟨rfl, rfl⟩

theorem Recorded.statistics (h : Recorded l s J e) :
    e.statistics = (receipts J).foldr (fun r s => r.countIn s) s := by
  induction h with
  | start => rfl
  | @enter J e x h ha ih =>
    rw [h.applies.2, receipts, ih]
    cases receipt? J x <;> rfl

/-- The ledger holds what the last result said of a node, or what it held at the start. -/
theorem Recorded.ledger (h : Recorded l s J e) {c : String} {i : NodeId} :
    e.ledger.get? c i = ((receipts J).findSome? (·.state? c i)).or (l.get? c i) := by
  induction h with
  | start => rfl
  | @enter J e x h ha ih =>
    rw [h.applies.1, receipts]
    cases receipt? J x with
    | none => exact ih
    | some r =>
      show (r.recordIn e.ledger).get? c i = _
      rw [Receipt.recordIn, PendingJob.get?_recordIn, ih]
      show (r.state? c i).or _ = (((r :: receipts J).findSome? _).or _)
      rw [List.findSome?_cons]
      cases r.state? c i <;> rfl

theorem Recorded.nodup_receipts (h : Recorded l s J e) :
    ((receipts J).map (·.job.id)).Nodup := by
  induction h with
  | start => exact .nil
  | @enter J e x h ha ih =>
    rw [receipts]
    cases hr : receipt? J x with
    | none => exact ih
    | some r =>
      refine List.nodup_cons.2 ⟨fun hmem => ?_, ih⟩
      obtain ⟨r', hr', hid⟩ := List.mem_map.1 hmem
      exact h.not_spent_of_receipt? hr (.inr (.inr ⟨r', hr', hid⟩))

theorem Recorded.pairwise_submissions (h : Recorded l s J e) :
    (submissions J).Pairwise fun a b => b.id.number < a.id.number := by
  induction h with
  | start => exact .nil
  | @enter J e x h ha ih =>
    cases x with
    | submit job =>
      refine List.pairwise_cons.2 ⟨fun job' hj => ?_, ih⟩
      rw [show job.id = ⟨e.nextJob⟩ from ha]
      exact h.lt_nextJob hj
    | skip | report | withdraw | stop => exact ih

/-- What can be collected is how the job has ended. -/
theorem Recorded.collect (h : Recorded l s J e) :
    (e.collect id).1 = (handle? J id).bind fun _ => ending? J id := by
  have hh : e.handles.get? id = _ := h.handle
  unfold Executor.collect
  unfold handle? at hh ⊢
  by_cases hcond : id ∈ (submissions J).map (·.id) ∧ .withdraw id ∉ J
  · rw [if_pos hcond] at hh ⊢
    rw [hh]
    cases ending? J id <;> rfl
  · rw [if_neg hcond] at hh ⊢
    rw [hh]
    rfl

theorem Recorded.collect_eq_some_iff (h : Recorded l s J e) {outcome : ExecutionOutcome} :
    (e.collect id).1 = some outcome ↔
      (e.handles.get? id).isSome ∧ ending? J id = some outcome := by
  rw [h.collect, h.handle]
  cases handle? J id <;> simp

end Recorded

section Runs

variable {J₀ : List Entry} {e₀ : Executor}

/-- Does the one executor with its journal become the other? -/
inductive Leads (J₀ : List Entry) (e₀ : Executor) : List Entry → Executor → Prop
  | refl : Leads J₀ e₀ J₀ e₀
  | enter {journal e x} (h : Leads J₀ e₀ journal e) (ha : e.Allows x) :
    Leads J₀ e₀ (x :: journal) (e.enter x)

theorem Recorded.leads (h : Recorded l s J₀ e₀) (hl : Leads J₀ e₀ J e) : Recorded l s J e := by
  induction hl with
  | refl => exact h
  | enter hl ha ih => exact ih.enter ha

theorem Leads.trans {J₁ : List Entry} {e₁ : Executor} (h : Leads J₀ e₀ J₁ e₁)
    (h' : Leads J₁ e₁ J e) : Leads J₀ e₀ J e := by
  induction h' with
  | refl => exact h
  | enter h' ha ih => exact ih.enter ha

theorem leads_reports (ds : List Delivery) :
    Leads J e ((ds.map .report).reverse ++ J) (ds.foldl deliver e) := by
  induction ds generalizing J e with
  | nil => exact .refl
  | cons d ds ih =>
    have h : Leads J e (.report d :: J) (e.deliver d) := Leads.refl.enter (x := .report d) trivial
    simpa using h.trans ih

theorem isUncancelled_foldl_deliver (ds : List Delivery) :
    (ds.foldl deliver e).isUncancelled id = e.isUncancelled id := by
  induction ds generalizing e with
  | nil => rfl
  | cons d ds ih => rw [List.foldl_cons, ih, isUncancelled_deliver]

theorem id_of_job {g : Graph} (h : g.job id = .ok job) : job.id = id := by
  unfold Graph.job at h
  cases ho : g.executionOrder with
  | error error => simp [ho] at h
  | ok order =>
    simp only [ho] at h
    cases h
    rfl

theorem isUncancelled_submit : (e.enter (.submit job)).isUncancelled job.id := by
  unfold isUncancelled
  rw [enter_submit, SortedMap.get?_insert, if_pos rfl]
  rfl

theorem isUncancelled_of_isOpen (h : e.isOpen id) : e.isUncancelled id := by
  unfold isOpen at h
  unfold isUncancelled
  cases hh : e.handles.get? id with
  | none => simp [hh] at h
  | some handle =>
    simp only [hh, Option.any_some, Bool.and_eq_true] at h
    exact h.2

theorem cancel_eq {reply : CancelReply} : e.cancel id reply =
    if e.isOpen id then
      if reply.answer then (true, (reply.reports.foldl deliver e).enter (.stop id))
      else (false, reply.reports.foldl deliver e)
    else (false, e) := by
  unfold cancel isOpen
  cases e.handles.get? id with
  | none => rfl
  | some h =>
    simp only [Option.any_some, ← Bool.not_or]
    cases h.isDone || h.cancelled <;> rfl

section Execute

variable {g : Graph} {dispatch : Job → DispatchReply}

theorem execute_of_error {error : GraphError} (h : g.job ⟨e.nextJob⟩ = .error error) :
    e.execute g dispatch = (.error (.graph error), e.enter .skip) ∧
      e.entries (.execute g dispatch) = [.skip] := by
  simp only [execute, entries, h, and_true]
  rfl

theorem execute_of_ok (h : g.job ⟨e.nextJob⟩ = .ok job) : e.execute g dispatch =
    match (dispatch job).refusal with
    | none => (.ok job.id, (dispatch job).reports.foldl deliver (e.enter (.submit job)))
    | some refusal => (.error (.refused refusal),
      ((dispatch job).reports.foldl deliver (e.enter (.submit job))).enter (.withdraw job.id)) := by
  rw [id_of_job h]
  simp only [execute, h]
  cases (dispatch job).refusal <;> rfl

theorem entries_of_ok (h : g.job ⟨e.nextJob⟩ = .ok job) : e.entries (.execute g dispatch) =
    .submit job :: ((dispatch job).reports.map .report ++
      if (dispatch job).refusal.isSome then [.withdraw job.id] else []) := by
  simp only [entries, h]
  rfl

end Execute

theorem leads_act (J : List Entry) (e : Executor) (ev : Event) :
    Leads J e ((e.entries ev).reverse ++ J) (e.act ev) := by
  cases ev with
  | execute g dispatch =>
    show Leads J e _ (e.execute g dispatch).2
    cases hjob : g.job ⟨e.nextJob⟩ with
    | error error =>
      rw [(execute_of_error hjob).1, (execute_of_error hjob).2]
      exact Leads.refl.enter (x := .skip) trivial
    | ok job =>
      have hsubmit : Leads J e (.submit job :: J) (e.enter (.submit job)) :=
        Leads.refl.enter (x := .submit job) (id_of_job hjob)
      have hreports := hsubmit.trans (leads_reports (dispatch job).reports)
      rw [execute_of_ok hjob, entries_of_ok hjob, List.reverse_cons, List.reverse_append]
      simp only [List.append_assoc, List.cons_append, List.nil_append]
      cases (dispatch job).refusal with
      | none => exact hreports
      | some refusal =>
        refine hreports.enter (x := .withdraw job.id) ?_
        show isUncancelled _ _
        rw [isUncancelled_foldl_deliver]
        exact isUncancelled_submit
  | deliver d => exact Leads.refl.enter (x := .report d) trivial
  | cancel id reply =>
    simp only [act, entries]
    rw [cancel_eq]
    split
    next hopen =>
      have hreports : Leads J e _ _ := leads_reports reply.reports
      split
      next =>
        have huncancelled : (reply.reports.foldl deliver e).isUncancelled id := by
          rw [isUncancelled_foldl_deliver]
          exact isUncancelled_of_isOpen hopen
        rw [List.reverse_append, List.append_assoc]
        exact hreports.enter (x := .stop id) huncancelled
      next =>
        rw [List.append_nil]
        exact hreports
    next => exact .refl

theorem leads_journal (J : List Entry) (e : Executor) (events : List Event) :
    Leads J e (e.journal events ++ J) (events.foldl act e) := by
  induction events generalizing J e with
  | nil => exact .refl
  | cons ev events ih =>
    rw [journal, List.append_assoc, List.foldl_cons]
    exact (leads_act J e ev).trans (ih _ _)

theorem recorded_after (l : Ledger) (s : Statistics) (events : List Event) :
    Recorded l s ((start l s).journal events) (after l s events) := by
  have h := Recorded.start.leads (leads_journal [] (start l s) events)
  rwa [List.append_nil] at h

theorem stop_mem_entries_iff {ev : Event} : .stop id ∈ e.entries ev ↔ Cancels id e ev := by
  cases ev with
  | execute g dispatch =>
    show _ ↔ False
    cases hjob : g.job ⟨e.nextJob⟩ with
    | error error => simp [(execute_of_error hjob).2]
    | ok job =>
      rw [entries_of_ok hjob]
      split <;> simp
  | deliver d =>
    show .stop id ∈ [Entry.report d] ↔ False
    simp
  | cancel i reply =>
    show _ ↔ i = id ∧ (e.cancel i reply).1 = true
    rw [cancel_eq]
    simp only [entries]
    cases e.isOpen i <;> cases reply.answer <;> simp [eq_comm]

theorem stop_mem_journal_iff {events : List Event} :
    .stop id ∈ e.journal events ↔ Happens (Cancels id) e events := by
  induction events generalizing e with
  | nil => simp [journal, Happens]
  | cons ev events ih =>
    rw [happens_cons, journal, List.mem_append, List.mem_reverse, ih, stop_mem_entries_iff, or_comm]

theorem isSome_handle_foldl_deliver (ds : List Delivery) :
    ((ds.foldl deliver e).handles.get? id).isSome = (e.handles.get? id).isSome := by
  induction ds generalizing e with
  | nil => rfl
  | cons d ds ih => rw [List.foldl_cons, ih, isSome_handle_deliver]

theorem isSome_handle_stop {i : JobId} :
    ((e.enter (.stop i)).handles.get? id).isSome = (e.handles.get? id).isSome := by
  rw [enter_stop, SortedMap.get?_modify]
  split
  · rw [Option.isSome_map]
  · rfl

theorem Recorded.isSome_handle_act (h : Recorded l s J e) {ev : Event} :
    ((e.act ev).handles.get? id).isSome ↔ (e.handles.get? id).isSome ∨ Accepts id e ev := by
  cases ev with
  | execute g dispatch =>
    show ((e.execute g dispatch).2.handles.get? id).isSome ↔
      _ ∨ (e.execute g dispatch).1 = .ok id
    cases hjob : g.job ⟨e.nextJob⟩ with
    | error error =>
      rw [(execute_of_error hjob).1]
      simp only [reduceCtorEq, or_false]
      rfl
    | ok job =>
      have hnew := (h.unregistered (id_of_job hjob)).2
      rw [execute_of_ok hjob]
      cases (dispatch job).refusal with
      | none =>
        simp only [isSome_handle_foldl_deliver, Except.ok.injEq]
        rw [enter_submit, SortedMap.get?_insert]
        split
        next hid => simp [hid]
        next hid => simp [hid]
      | some refusal =>
        simp only [reduceCtorEq, or_false]
        rw [enter_withdraw, SortedMap.get?_erase]
        split
        next hid => simp [← hid, hnew]
        next hid =>
          rw [isSome_handle_foldl_deliver, enter_submit, SortedMap.get?_insert, if_neg hid]
  | deliver d =>
    show ((e.deliver d).handles.get? id).isSome ↔ _ ∨ False
    rw [isSome_handle_deliver, or_false]
  | cancel i reply =>
    have hkept : ((e.cancel i reply).2.handles.get? id).isSome = (e.handles.get? id).isSome := by
      rw [cancel_eq]
      split
      · split
        · exact isSome_handle_stop.trans (isSome_handle_foldl_deliver _)
        · exact isSome_handle_foldl_deliver _
      · rfl
    show ((e.cancel i reply).2.handles.get? id).isSome ↔ _ ∨ False
    rw [hkept, or_false]

theorem Recorded.isSome_handle_events (h : Recorded l s J e) {events : List Event} :
    ((events.foldl act e).handles.get? id).isSome ↔
      (e.handles.get? id).isSome ∨ Happens (Accepts id) e events := by
  induction events generalizing J e with
  | nil => simp [Happens]
  | cons ev events ih =>
    rw [List.foldl_cons, ih (h.leads (leads_act J e ev)), h.isSome_handle_act, happens_cons,
      or_assoc]

theorem isSome_handle_after {events : List Event} :
    ((after l s events).handles.get? id).isSome ↔ Happens (Accepts id) (start l s) events := by
  have h : Recorded l s [] (start l s) := .start
  exact h.isSome_handle_events.trans (or_iff_right (by simp [start]))

/-- The jobs that were accepted are those that were submitted and not withdrawn. -/
theorem happens_accepts_iff {events : List Event} : Happens (Accepts id) (start l s) events ↔
    (∃ job ∈ submissions ((start l s).journal events), job.id = id) ∧
      .withdraw id ∉ (start l s).journal events := by
  rw [← isSome_handle_after, (recorded_after l s events).handle]
  unfold handle?
  split
  next hcond => simpa using hcond
  next hcond => simpa using hcond

theorem accepts_of_cancels {events : List Event} (h : Happens (Cancels id) (start l s) events) :
    Happens (Accepts id) (start l s) events := by
  obtain ⟨before, ev, later, rfl, hc⟩ := h
  rw [← isSome_handle_after]
  have hbefore : ((after l s before).handles.get? id).isSome := by
    cases ev with
    | cancel i reply =>
      obtain ⟨rfl, hc⟩ := hc
      rw [cancel_eq] at hc
      split at hc
      next hopen => exact isSome_of_isUncancelled (isUncancelled_of_isOpen hopen)
      next => cases hc
    | execute | deliver => cases hc
  unfold after
  rw [List.foldl_append]
  exact (recorded_after l s before).isSome_handle_events.2 (.inl hbefore)

theorem collect_eq_ok_iff {events : List Event} {result : ExecutionResult} :
    ((after l s events).collect id).1 = some (.ok result) ↔
      Happens (Accepts id) (start l s) events ∧
        ∃ r ∈ receipts ((start l s).journal events), r.job.id = id ∧ r.result = result := by
  have h := recorded_after l s events
  rw [h.collect_eq_some_iff, isSome_handle_after, ending?_eq_ok_iff h.nodup_receipts]

theorem collect_eq_cancelled_iff {events : List Event} :
    ((after l s events).collect id).1 = some (.error .cancelled) ↔
      Happens (Cancels id) (start l s) events ∧
        ∀ r ∈ receipts ((start l s).journal events), r.job.id ≠ id := by
  have h := recorded_after l s events
  rw [h.collect_eq_some_iff, isSome_handle_after, ending?_eq_cancelled_iff, stop_mem_journal_iff]
  exact and_iff_right_of_imp fun hc => accepts_of_cancels hc.1

end Runs

section Single

def single : Graph :=
  ({ configuration := "Default" } : Graph).link
    { function := .computation "Bootstrap" ∅, target := ⟨.security, "S"⟩
      outputs := .singleton ⟨"Curve", ⟨.security, "S"⟩, ∅⟩ }

def report (id : Nat) (status : ItemStatus) : Delivery :=
  { result := { job := ⟨id⟩, items := [⟨0, status⟩] } }

end Single

end ValueGraph.Executor
