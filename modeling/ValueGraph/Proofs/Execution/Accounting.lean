import Mathlib
import ValueGraph.Collection.Total
import ValueGraph.Proofs.Execution.Records

namespace ValueGraph.Executor

variable {l : Ledger} {s : Statistics} {J : List Entry} {e : Executor} {id : JobId}
  {events : List Event}

section Fair

/-- Does the dispatcher report nothing where it refuses a job or is asked to stop one? -/
def Event.Orderly : Event → Prop
  | .execute _ dispatch => ∀ job, (dispatch job).refusal.isSome → (dispatch job).reports = []
  | .deliver _ => True
  | .cancel _ reply => reply.reports = []

/-- Were the jobs that were withdrawn or stopped open until then? -/
def Fair : List Entry → Prop
  | [] => True
  | x :: J => (∀ id, x = .withdraw id ∨ x = .stop id → (openJob? J id).isSome) ∧ Fair J

theorem Fair.reports (h : Fair J) (ds : List Delivery) :
    Fair ((ds.map .report).reverse ++ J) := by
  induction ds generalizing J with
  | nil => exact h
  | cons d ds ih =>
    have hd : Fair (.report d :: J) := ⟨fun id hx => by simp at hx, h⟩
    simpa using ih hd

theorem Recorded.fair_act (h : Recorded l s J e) (hf : Fair J) {ev : Event} (ho : ev.Orderly) :
    Fair ((e.entries ev).reverse ++ J) := by
  cases ev with
  | execute g dispatch =>
    cases hjob : g.job ⟨e.nextJob⟩ with
    | error error =>
      rw [(execute_of_error hjob).2]
      exact ⟨fun id hx => by simp at hx, hf⟩
    | ok job =>
      have hsubmit : Fair (.submit job :: J) := ⟨fun id hx => by simp at hx, hf⟩
      rw [entries_of_ok hjob, List.reverse_cons, List.reverse_append]
      simp only [List.append_assoc, List.cons_append, List.nil_append]
      split
      next hr =>
        rw [ho job hr]
        refine ⟨fun id hx => ?_, hsubmit⟩
        obtain rfl : job.id = id := by simpa using hx
        simp [openJob?_cons, Entry.concerns, Entry.submitted?]
      next => exact hsubmit.reports _
  | deliver d => exact ⟨fun id hx => by simp at hx, hf⟩
  | cancel i reply =>
    have hreports : reply.reports = [] := ho
    simp only [entries, hreports]
    split
    next hopen =>
      split
      next =>
        refine ⟨fun id hx => ?_, hf⟩
        obtain rfl : i = id := by simpa using hx
        exact h.isSome_openJob? hopen
      next => exact hf
    next => exact hf

theorem Recorded.fair_journal (h : Recorded l s J e) (hf : Fair J)
    (ho : ∀ ev ∈ events, ev.Orderly) : Fair (e.journal events ++ J) := by
  induction events generalizing J e with
  | nil => exact hf
  | cons ev events ih =>
    rw [List.forall_mem_cons] at ho
    rw [journal, List.append_assoc]
    exact ih (h.leads (leads_act J e ev)) (h.fair_act hf ho.1) ho.2

theorem Recorded.not_mem_of_receipt (h : Recorded l s J e) (hf : Fair J) {r : Receipt}
    (hr : r ∈ receipts J) : .withdraw r.job.id ∉ J ∧ .stop r.job.id ∉ J := by
  induction h with
  | start => cases hr
  | @enter J e x h ha ih =>
    -- The entry before which the job was open ends it for good.
    have hnot : ¬ (.withdraw r.job.id ∈ J ∨ .stop r.job.id ∈ J) ∧
        ¬ (x = .withdraw r.job.id ∨ x = .stop r.job.id) := by
      rcases mem_receipts_cons.1 hr with hr | hr
      · obtain ⟨rfl, -⟩ := receipt?_eq_some_iff.1 hr
        exact ⟨fun hmem => h.not_spent_of_receipt? hr (hmem.imp_right .inl), by simp⟩
      · obtain ⟨hw, hs⟩ := ih hf.2 hr
        refine ⟨not_or.2 ⟨hw, hs⟩, fun hx => ?_⟩
        exact (h.isSome_openJob?_iff.1 (hf.1 r.job.id hx)).2 (spent_of_mem_receipts hr)
    simp only [not_or] at hnot
    simp only [List.mem_cons, not_or]
    exact ⟨⟨Ne.symm hnot.2.1, hnot.1.1⟩, Ne.symm hnot.2.2, hnot.1.2⟩

end Fair

section Accounts

def Event.isExecution : Event → Bool
  | .execute _ _ => true
  | .deliver _ | .cancel _ _ => false

/--
Is each job accounted for once by the executor, to which the events have come, and which has the
journal?
-/
structure Accounts (l : Ledger) (s : Statistics) (events : List Event) (J : List Entry)
    (e : Executor) : Prop where
  /-- No id is given twice; they are counted from 1. -/
  ids : (submissions J).Pairwise fun a b => b.id.number < a.id.number
  numbers : ∀ job ∈ submissions J, job.id.number ≤ events.countP Event.isExecution
  /-- A job is pending if its submission is the last that was heard of it. -/
  pending : ∀ id, e.pending.get? id = (openJob? J id).map Job.pending
  /-- A job that was accepted is pending until it has a result or is cancelled. -/
  stays : ∀ id, id ∈ e.pending ↔ Happens (Accepts id) (start l s) events ∧
    ¬ Happens (Cancels id) (start l s) events ∧ ∀ r ∈ receipts J, r.job.id ≠ id
  /-- What is pending no more is never pending again. -/
  gone : ∀ id, Happens (Accepts id) (start l s) events → id ∉ e.pending →
    ∀ more : List Event, id ∉ (more.foldl act e).pending
  /-- A result for a job that is not pending changes nothing. -/
  dropped : ∀ d, d.result.job ∉ e.pending → e.deliver d = e
  /-- A job has one result at most that is applied. -/
  once : ((receipts J).map (·.job.id)).Nodup
  graphs : e.statistics.graphs = s.graphs + (receipts J).length
  executed : e.statistics.executed = s.executed + total (·.result.executed.length) (receipts J)
  failed : e.statistics.failed = s.failed + total (·.result.failed.length) (receipts J)
  /-- The ledger holds the last outcome that was applied, or what it held at the start. -/
  ledger : ∀ c i, e.ledger.get? c i = ((receipts J).findSome? (·.state? c i)).or (l.get? c i)
  /-- The ledger changes at nodes of jobs with a result only. -/
  touched : ∀ c i, e.ledger.get? c i ≠ l.get? c i →
    ∃ r ∈ receipts J, r.job.configuration = c ∧ ∃ item ∈ r.job.items, item.node = i
  /-- An execution that fails leaves all as it was, but that its id is used up. -/
  refused : ∀ g dispatch error, (Event.execute g dispatch).Orderly →
    (e.execute g dispatch).1 = .error error →
      (e.execute g dispatch).2 = { e with nextJob := e.nextJob + 1 }
  /-- The caller is told of the result that was applied, or that the job was cancelled. -/
  ok : ∀ id result, (e.collect id).1 = some (.ok result) ↔
    ∃ r ∈ receipts J, r.job.id = id ∧ r.result = result
  cancelled : ∀ id, (e.collect id).1 = some (.error .cancelled) ↔
    Happens (Cancels id) (start l s) events
  waiting : ∀ id ∈ e.pending, (e.collect id).1 = none

theorem nextJob_foldl_deliver (ds : List Delivery) :
    (ds.foldl deliver e).nextJob = e.nextJob := by
  induction ds generalizing e with
  | nil => rfl
  | cons d ds ih => rw [List.foldl_cons, ih, nextJob_deliver]

theorem nextJob_act {ev : Event} :
    (e.act ev).nextJob = e.nextJob + if ev.isExecution then 1 else 0 := by
  cases ev with
  | execute g dispatch =>
    show (e.execute g dispatch).2.nextJob = e.nextJob + 1
    cases hjob : g.job ⟨e.nextJob⟩ with
    | error error =>
      rw [(execute_of_error hjob).1]
      rfl
    | ok job =>
      rw [execute_of_ok hjob]
      cases (dispatch job).refusal with
      | none => exact nextJob_foldl_deliver _
      | some refusal => exact nextJob_foldl_deliver _
  | deliver d => exact nextJob_deliver
  | cancel id reply =>
    show (e.cancel id reply).2.nextJob = e.nextJob
    rw [cancel_eq]
    split
    · split
      · rw [enter_stop]
        exact nextJob_foldl_deliver _
      · exact nextJob_foldl_deliver _
    · rfl

theorem nextJob_foldl_act :
    (events.foldl act e).nextJob = e.nextJob + events.countP Event.isExecution := by
  induction events generalizing e with
  | nil => rfl
  | cons ev events ih =>
    rw [List.foldl_cons, ih, nextJob_act, List.countP_cons]
    omega

theorem Recorded.counts (h : Recorded l s J e) :
    e.statistics.graphs = s.graphs + (receipts J).length ∧
    e.statistics.executed = s.executed + total (·.result.executed.length) (receipts J) ∧
    e.statistics.failed = s.failed + total (·.result.failed.length) (receipts J) := by
  rw [h.statistics]
  induction receipts J with
  | nil => exact ⟨rfl, rfl, rfl⟩
  | cons r rs ih =>
    obtain ⟨hg, he, hf⟩ := ih
    rw [List.foldr_cons, List.length_cons, total, total]
    generalize rs.foldr (fun r s => r.countIn s) s = t at hg he hf ⊢
    simp only [Receipt.countIn, Statistics.record]
    omega

theorem Recorded.exists_receipt (h : Recorded l s J e) {c : String} {i : NodeId}
    (hne : e.ledger.get? c i ≠ l.get? c i) :
    ∃ r ∈ receipts J, r.job.configuration = c ∧ ∃ item ∈ r.job.items, item.node = i := by
  rw [h.ledger] at hne
  cases hfind : (receipts J).findSome? (·.state? c i) with
  | none =>
    rw [hfind] at hne
    exact absurd rfl hne
  | some state =>
    obtain ⟨r, hr, hstate⟩ := List.exists_of_findSome?_eq_some hfind
    obtain ⟨hc, hi⟩ := PendingJob.of_state?_eq_some hstate
    refine ⟨r, hr, hc, ?_⟩
    simpa using SortedSet.mem_ofList.1 hi

theorem Recorded.execute_eq_of_error (h : Recorded l s J e) {g : Graph}
    {dispatch : Job → DispatchReply} {error : ExecutionError}
    (ho : (Event.execute g dispatch).Orderly) (he : (e.execute g dispatch).1 = .error error) :
    (e.execute g dispatch).2 = { e with nextJob := e.nextJob + 1 } := by
  cases hjob : g.job ⟨e.nextJob⟩ with
  | error error =>
    rw [(execute_of_error hjob).1]
    rfl
  | ok job =>
    rw [execute_of_ok hjob] at he ⊢
    cases hr : (dispatch job).refusal with
    | none =>
      rw [hr] at he
      cases he
    | some refusal =>
      -- What was registered under the new id is taken back.
      obtain ⟨hpending, hhandle⟩ := h.unregistered (id_of_job hjob)
      have hreports : (dispatch job).reports = [] := ho job (by simp [hr])
      simp only [hreports, List.foldl_nil]
      rw [enter_withdraw, enter_submit]
      simp only [SortedMap.erase_insert hpending, SortedMap.erase_insert hhandle]

theorem Recorded.not_mem_pending (h : Recorded l s J e) (hs : Spent J id) (more : List Event) :
    id ∉ (more.foldl act e).pending := by
  have hmore := h.leads (leads_journal J e more)
  rw [hmore.mem_pending_iff, hmore.openJob?_of_spent (hs.append _)]
  simp

theorem Recorded.collect_of_pending (h : Recorded l s J e) (hid : id ∈ e.pending) :
    (e.collect id).1 = none := by
  rw [h.mem_pending_iff, h.isSome_openJob?_iff] at hid
  rw [h.collect, ending?_of_not_spent hid.2]
  simp

theorem mem_pending_after_iff : id ∈ (after l s events).pending ↔
    Happens (Accepts id) (start l s) events ∧ ¬ Happens (Cancels id) (start l s) events ∧
      ∀ r ∈ receipts ((start l s).journal events), r.job.id ≠ id := by
  have h := recorded_after l s events
  rw [h.mem_pending_iff, h.isSome_openJob?_iff, happens_accepts_iff, ← stop_mem_journal_iff]
  simp only [Spent, not_or, not_exists, not_and, and_assoc]

theorem accounts_after (l : Ledger) (s : Statistics) (events : List Event)
    (ho : ∀ ev ∈ events, ev.Orderly) :
    Accounts l s events ((start l s).journal events) (after l s events) := by
  have h := recorded_after l s events
  have hfair : Fair ((start l s).journal events) := by
    have hrun := Recorded.start.fair_journal (l := l) (s := s) trivial ho
    rwa [List.append_nil] at hrun
  refine {
    ids := h.pairwise_submissions
    numbers := fun job hj => ?_
    pending := fun id => h.pending
    stays := fun id => mem_pending_after_iff
    gone := fun id ha hid more => ?_
    dropped := fun d hd => ?_
    once := h.nodup_receipts
    graphs := h.counts.1
    executed := h.counts.2.1
    failed := h.counts.2.2
    ledger := fun c i => h.ledger
    touched := fun c i => h.exists_receipt
    refused := fun g dispatch error => h.execute_eq_of_error
    ok := fun id result => ?_
    cancelled := fun id => ?_
    waiting := fun id => h.collect_of_pending }
  · have hlt := h.lt_nextJob hj
    have hnext : (after l s events).nextJob = 1 + events.countP Event.isExecution :=
      nextJob_foldl_act
    omega
  · rw [h.mem_pending_iff, h.isSome_openJob?_iff] at hid
    have hspent := Classical.not_not.1 fun hs => hid ⟨(happens_accepts_iff.1 ha).1, hs⟩
    exact h.not_mem_pending hspent more
  · apply deliver_of_not_pending
    rwa [SortedMap.mem_iff_isSome_get?, Option.not_isSome_iff_eq_none] at hd
  · -- A job with a result was not withdrawn, so that there is a handle.
    rw [collect_eq_ok_iff]
    refine and_iff_right_of_imp ?_
    rintro ⟨r, hr, rfl, -⟩
    exact happens_accepts_iff.2
      ⟨⟨r.job, mem_submissions_of_mem_receipts hr, rfl⟩, (h.not_mem_of_receipt hfair hr).1⟩
  · -- Nor was it stopped.
    rw [collect_eq_cancelled_iff]
    refine and_iff_left_of_imp ?_
    rintro hc r hr rfl
    exact (h.not_mem_of_receipt hfair hr).2 (stop_mem_journal_iff.2 hc)

/--
The first job is answered at once and once more, the second is cancelled and answered late, the
third is refused, and the fourth fails.
-/
def day : List Event :=
  [.execute single fun job => { reports := [report job.id.number .success] },
    .execute single fun _ => {},
    .execute single fun _ => { refusal := some .unavailable },
    .deliver (report 1 (.failure "late")),
    .cancel ⟨2⟩ { answer := true },
    .deliver (report 2 .success),
    .execute single fun _ => {},
    .deliver (report 4 (.failure "no data"))]

theorem accounts_after_day :
    (∀ ev ∈ day, ev.Orderly) ∧
    Accounts {} {} day ((start {} {}).journal day) (after {} {} day) ∧
    (after {} {} day).pending = ∅ ∧ (after {} {} day).statistics.graphs = 2 ∧
    (after {} {} day).ledger.get? "Default" 0 = some (.failed "no data") ∧
    ((after {} {} day).collect ⟨1⟩).1.map Except.toOption =
      some (some { job := ⟨1⟩, configuration := "Default", executed := [0] }) ∧
    ((after {} {} day).collect ⟨2⟩).1 = some (.error .cancelled) ∧
    ((after {} {} day).collect ⟨3⟩).1 = none := by
  have horderly : ∀ ev ∈ day, ev.Orderly := by
    simp [day, Event.Orderly]
  exact ⟨horderly, accounts_after {} {} day horderly, by cbv, by cbv, by cbv, by cbv, by cbv,
    by cbv⟩

end Accounts

end ValueGraph.Executor
