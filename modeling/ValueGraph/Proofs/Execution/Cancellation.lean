import Mathlib
import ValueGraph.Proofs.Execution.Records

namespace ValueGraph.Executor

variable {l : Ledger} {s : Statistics} {J J' : List Entry} {e e' : Executor} {x : Entry}
  {id : JobId} {job : Job} {events : List Event}

def isCancelled (e : Executor) (id : JobId) : Bool := (e.handles.get? id).any (·.cancelled)

/-- The results of the job that were applied, newest first. -/
def receiptsOf (J : List Entry) (id : JobId) : List Receipt :=
  (receipts J).filter (·.job.id = id)

section Receipts

theorem receiptsOf_eq_nil_iff : receiptsOf J id = [] ↔ ∀ r ∈ receipts J, r.job.id ≠ id := by
  simp [receiptsOf]

theorem receiptsOf_cons :
    receiptsOf (x :: J) id = (receipt? J x).toList.filter (·.job.id = id) ++ receiptsOf J id := by
  rw [receiptsOf, receipts, List.filter_append, receiptsOf]

theorem receiptsOf_cons_of_none (h : ∀ r, receipt? J x = some r → r.job.id ≠ id) :
    receiptsOf (x :: J) id = receiptsOf J id := by
  rw [receiptsOf_cons]
  cases hr : receipt? J x with
  | none => rfl
  | some r => simp [h r hr]

theorem Spent.leads (hs : Spent J id) (hl : Leads J e J' e') : Spent J' id := by
  induction hl with
  | refl => exact hs
  | enter hl ha ih => exact ih.cons

theorem Recorded.receiptsOf_of_spent (h : Recorded l s J e) (hs : Spent J id)
    (hl : Leads J e J' e') : receiptsOf J' id = receiptsOf J id := by
  induction hl with
  | refl => rfl
  | @enter J₁ e₁ x hl ha ih =>
    rw [← ih]
    apply receiptsOf_cons_of_none
    rintro r hr rfl
    exact (h.leads hl).not_spent_of_receipt? hr (hs.leads hl)

theorem Recorded.receiptsOf_of_open (h : Recorded l s J e) (hopen : openJob? J id = some job) :
    receiptsOf J id = [] := by
  rw [receiptsOf_eq_nil_iff]
  rintro r hr rfl
  exact h.not_spent_of_openJob? hopen (spent_of_mem_receipts hr)

/-- Of the results that are reported the first one for an open job is applied to it. -/
theorem Recorded.receiptsOf_reports (h : Recorded l s J e) (hopen : openJob? J id = some job)
    (ds : List Delivery) : receiptsOf ((ds.map .report).reverse ++ J) id =
      ((ds.find? (·.result.job = id)).map fun d => ⟨job, d⟩).toList := by
  induction ds generalizing J e with
  | nil => exact h.receiptsOf_of_open hopen
  | cons d ds ih =>
    have hnext : Recorded l s (.report d :: J) (e.enter (.report d)) := h.enter trivial
    rw [List.map_cons, List.reverse_cons, List.append_assoc, List.singleton_append]
    by_cases hid : d.result.job = id
    · subst hid
      have hr : receipt? J (.report d) = some ⟨job, d⟩ := by simp [receipt?, hopen]
      have hjob := (submitted_of_openJob? hopen).2
      have hspent : Spent (.report d :: J) d.result.job :=
        .inr (.inr ⟨⟨job, d⟩, mem_receipts_cons.2 (.inl hr), hjob⟩)
      rw [hnext.receiptsOf_of_spent hspent (leads_reports ds), receiptsOf_cons,
        h.receiptsOf_of_open hopen]
      simp [hr, hjob]
    · have hopen' : openJob? (.report d :: J) id = some job := by
        rw [openJob?_cons, if_neg (by simpa [Entry.concerns] using hid), hopen]
      rw [ih hnext hopen', List.find?_cons_of_neg (by simpa using hid)]

end Receipts

section Cancelled

/--
What the cancellations among the events come to in the executor, which has the journal: a job is
shown as cancelled if and only if a cancellation of it has succeeded.
-/
structure Cancellations (l : Ledger) (s : Statistics) (events : List Event) (J : List Entry)
    (e : Executor) : Prop where
  shown : ∀ id, e.isCancelled id ↔ Happens (Cancels id) (start l s) events
  /-- The caller is told of a cancellation if the job is shown as cancelled and has no result. -/
  told : ∀ id, (e.collect id).1 = some (.error .cancelled) ↔
    e.isCancelled id ∧ ∀ r ∈ receipts J, r.job.id ≠ id
  /-- Where no result of the job comes from inside the cancellation, none is ever applied. -/
  unreported : ∀ before id reply later, events = before ++ .cancel id reply :: later →
    ((after l s before).cancel id reply).1 = true →
    reply.reports.find? (·.result.job = id) = none →
      receiptsOf J id = [] ∧ (e.collect id).1 = some (.error .cancelled)
  /-- The first result of the job that comes from inside is the one that is applied. -/
  reported : ∀ before id reply later d, events = before ++ .cancel id reply :: later →
    ((after l s before).cancel id reply).1 = true →
    reply.reports.find? (·.result.job = id) = some d →
      ∃ job, receiptsOf J id = [⟨job, d⟩] ∧
        (e.collect id).1 = some (.ok (job.pending.result d.result))
  /-- Ledger and statistics are made of the results that were applied. -/
  ledger : ∀ c i, e.ledger.get? c i = ((receipts J).findSome? (·.state? c i)).or (l.get? c i)
  statistics : e.statistics = (receipts J).foldr (fun r s => r.countIn s) s

theorem happens_cancels {before : List Event} {reply : CancelReply} (later : List Event)
    (hc : ((after l s before).cancel id reply).1 = true) :
    Happens (Cancels id) (start l s) (before ++ .cancel id reply :: later) :=
  ⟨before, _, later, rfl, rfl, hc⟩

theorem receiptsOf_after_cancel {before : List Event} {reply : CancelReply} (later : List Event)
    (hc : ((after l s before).cancel id reply).1 = true) :
    ∃ job, receiptsOf ((start l s).journal (before ++ .cancel id reply :: later)) id =
      ((reply.reports.find? (·.result.job = id)).map fun d => ⟨job, d⟩).toList := by
  have h := recorded_after l s before
  rw [cancel_eq] at hc
  split at hc
  next ho =>
    split at hc
    next hanswer =>
      obtain ⟨job, hopen⟩ := Option.isSome_iff_exists.1 (h.isSome_openJob? ho)
      refine ⟨job, ?_⟩
      have hsteps : (after l s before).entries (.cancel id reply) =
          reply.reports.map .report ++ [.stop id] := by
        simp only [entries, ho, hanswer, if_true]
      have hact := h.leads (leads_act _ _ (.cancel id reply))
      have hlater := leads_journal (((after l s before).entries (.cancel id reply)).reverse ++
        (start l s).journal before) ((after l s before).act (.cancel id reply)) later
      have hspent : Spent (((after l s before).entries (.cancel id reply)).reverse ++
          (start l s).journal before) id := by
        rw [hsteps]
        exact .inr (.inl (by simp))
      rw [journal_append, journal, List.append_assoc]
      refine (hact.receiptsOf_of_spent hspent hlater).trans ?_
      rw [hsteps, List.reverse_append, List.append_assoc]
      exact h.receiptsOf_reports hopen reply.reports
    next => cases hc
  next => cases hc

theorem isCancelled_after_iff :
    (after l s events).isCancelled id ↔ Happens (Cancels id) (start l s) events := by
  unfold isCancelled
  rw [(recorded_after l s events).handle, ← stop_mem_journal_iff]
  unfold handle?
  split
  next => simp
  next hno =>
    refine iff_of_false (by simp) fun hstop => hno ?_
    simpa using happens_accepts_iff.1 (accepts_of_cancels (stop_mem_journal_iff.1 hstop))

theorem cancellations_after (l : Ledger) (s : Statistics) (events : List Event) :
    Cancellations l s events ((start l s).journal events) (after l s events) := by
  have h := recorded_after l s events
  refine ⟨fun id => isCancelled_after_iff, fun id => ?_, ?_, ?_, fun c i => h.ledger,
    h.statistics⟩
  · rw [collect_eq_cancelled_iff, isCancelled_after_iff]
  · rintro before id reply later rfl hc hnone
    obtain ⟨job, hreceipts⟩ := receiptsOf_after_cancel later hc
    rw [hnone] at hreceipts
    exact ⟨hreceipts, collect_eq_cancelled_iff.2
      ⟨happens_cancels later hc, receiptsOf_eq_nil_iff.1 hreceipts⟩⟩
  · rintro before id reply later d rfl hc hsome
    obtain ⟨job, hreceipts⟩ := receiptsOf_after_cancel later hc
    rw [hsome] at hreceipts
    have hmem : ⟨job, d⟩ ∈
        receiptsOf ((start l s).journal (before ++ .cancel id reply :: later)) id := by
      rw [hreceipts]
      exact List.mem_cons_self
    obtain ⟨hr, hid⟩ := List.mem_filter.1 hmem
    exact ⟨job, hreceipts, collect_eq_ok_iff.2
      ⟨accepts_of_cancels (happens_cancels later hc), _, hr, by simpa using hid, rfl⟩⟩

/-- A job whose result is reported while it is cancelled is shown as cancelled, but has the result. -/
theorem cancel_with_report :
    let e := after {} {} [.execute single fun _ => {}]
    let cancelled := e.cancel ⟨1⟩ { reports := [report 1 .success], answer := true }
    cancelled.1 = true ∧ cancelled.2.isCancelled ⟨1⟩ = true ∧
    cancelled.2.ledger.get? "Default" 0 = some .executed ∧ cancelled.2.statistics.graphs = 1 ∧
    (cancelled.2.collect ⟨1⟩).1.map Except.toOption =
      some (some { job := ⟨1⟩, configuration := "Default", executed := [0] }) :=
  ⟨by cbv, by cbv, by cbv, by cbv, by cbv⟩

end Cancelled

end ValueGraph.Executor
