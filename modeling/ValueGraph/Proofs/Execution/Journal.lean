import Mathlib.Data.List.Nodup
import ValueGraph.Proofs.Execution.Results

namespace ValueGraph

def Job.pending (job : Job) : PendingJob :=
  { configuration := job.configuration, nodes := .ofList (job.items.map (·.node)) }

namespace Executor

section Events

inductive Event
  | execute (g : Graph) (dispatch : Job → DispatchReply)
  | deliver (d : Delivery)
  | cancel (id : JobId) (reply : CancelReply)

def act (e : Executor) : Event → Executor
  | .execute g dispatch => (e.execute g dispatch).2
  | .deliver d => e.deliver d
  | .cancel id reply => (e.cancel id reply).2

/-- An executor that has got nothing to do yet; its ledger and its statistics may be older. -/
def start (l : Ledger) (s : Statistics) : Executor := { ledger := l, statistics := s }

def after (l : Ledger) (s : Statistics) (events : List Event) : Executor :=
  events.foldl act (start l s)

deriving instance DecidableEq for Delivery

inductive Entry
  /-- A graph uses up an id, but makes no job. -/
  | skip
  | submit (job : Job)
  | report (d : Delivery)
  /-- The dispatcher does not take the job. -/
  | withdraw (id : JobId)
  /-- The dispatcher says that it has stopped the job. -/
  | stop (id : JobId)
deriving DecidableEq

/-- Is there a handle of the job through which it was not cancelled? -/
def isUncancelled (e : Executor) (id : JobId) : Bool := (e.handles.get? id).any (!·.cancelled)

/-- Can the job still be cancelled? -/
def isOpen (e : Executor) (id : JobId) : Bool :=
  (e.handles.get? id).any fun h => !h.isDone && !h.cancelled

def enter (e : Executor) : Entry → Executor
  | .skip => { e with nextJob := e.nextJob + 1 }
  | .submit job => { e with nextJob := e.nextJob + 1 }.register job
  | .report d => e.deliver d
  | .withdraw id => e.forget id
  | .stop id =>
    let e := e.modifyHandle id fun h => { h with cancelled := true }
    if id ∈ e.pending then e.finish id (.error .cancelled) else e

def entries (e : Executor) : Event → List Entry
  | .execute g dispatch =>
    match g.job ⟨e.nextJob⟩ with
    | .error _ => [.skip]
    | .ok job =>
      .submit job :: (dispatch job).reports.map .report ++
        if (dispatch job).refusal.isSome then [.withdraw job.id] else []
  | .deliver d => [.report d]
  | .cancel id reply =>
    if e.isOpen id then reply.reports.map .report ++ if reply.answer then [.stop id] else []
    else []

/-- What the events that come next add to the journal, newest first. -/
def journal (e : Executor) : List Event → List Entry
  | [] => []
  | ev :: events => (e.act ev).journal events ++ (e.entries ev).reverse

theorem journal_append {e : Executor} {events more : List Event} :
    e.journal (events ++ more) = (events.foldl act e).journal more ++ e.journal events := by
  induction events generalizing e with
  | nil => simp [journal]
  | cons ev events ih => simp [journal, ih]

/-- Does an event come that does so to the executor as it is by then? -/
def Happens (does : Executor → Event → Prop) (e : Executor) (events : List Event) : Prop :=
  ∃ before ev later, events = before ++ ev :: later ∧ does (before.foldl act e) ev

/-- Is a graph executed as the job with that id, which the dispatcher takes? -/
def Accepts (id : JobId) (e : Executor) : Event → Prop
  | .execute g dispatch => (e.execute g dispatch).1 = .ok id
  | .deliver _ | .cancel _ _ => False

/-- Is the job cancelled with success? -/
def Cancels (id : JobId) (e : Executor) : Event → Prop
  | .cancel i reply => i = id ∧ (e.cancel i reply).1 = true
  | .execute _ _ | .deliver _ => False

theorem happens_cons {does : Executor → Event → Prop} {e : Executor} {ev : Event}
    {events : List Event} :
    Happens does e (ev :: events) ↔ does e ev ∨ Happens does (e.act ev) events := by
  constructor
  · rintro ⟨before, ev', later, heq, hdoes⟩
    cases before with
    | nil =>
      cases heq
      exact .inl hdoes
    | cons ev before =>
      cases heq
      exact .inr ⟨before, ev', later, rfl, hdoes⟩
  · rintro (hdoes | ⟨before, ev', later, rfl, hdoes⟩)
    · exact ⟨[], ev, events, rfl, hdoes⟩
    · exact ⟨ev :: before, ev', later, rfl, hdoes⟩

end Events

section Views

def Entry.concerns (id : JobId) : Entry → Bool
  | skip => false
  | submit job => job.id = id
  | report d => d.result.job = id
  | withdraw i | stop i => i = id

def Entry.submitted? : Entry → Option Job
  | submit job => some job
  | skip | report _ | withdraw _ | stop _ => none

def submissions (J : List Entry) : List Job := J.filterMap Entry.submitted?

/-- The job under the id, if its submission is the last that was heard of it. -/
def openJob? (J : List Entry) (id : JobId) : Option Job :=
  (J.find? (·.concerns id)).bind Entry.submitted?

structure Receipt where
  job : Job
  delivery : Delivery

def Receipt.result (r : Receipt) : ExecutionResult := r.job.pending.result r.delivery.result

def Receipt.recordIn (r : Receipt) (l : Ledger) : Ledger :=
  r.job.pending.recordIn l r.delivery.result.items

def Receipt.countIn (r : Receipt) (s : Statistics) : Statistics :=
  s.record r.result.executed.length r.result.failed.length r.delivery.time

def Receipt.state? (r : Receipt) (configuration : String) (id : NodeId) : Option NodeState :=
  r.job.pending.state? r.delivery.result.items configuration id

/-- The entry as a receipt, if it is a result that comes for a job that is open. -/
def receipt? (J : List Entry) : Entry → Option Receipt
  | .report d => (openJob? J d.result.job).map fun job => ⟨job, d⟩
  | .skip | .submit _ | .withdraw _ | .stop _ => none

/-- The results that came for a job that was open, newest first. -/
def receipts : List Entry → List Receipt
  | [] => []
  | x :: J => (receipt? J x).toList ++ receipts J

/-- How the job has ended: by its result, or else because it was stopped. -/
def ending? (J : List Entry) (id : JobId) : Option ExecutionOutcome :=
  match (receipts J).find? (·.job.id = id) with
  | some r => some (.ok r.result)
  | none => if .stop id ∈ J then some (.error .cancelled) else none

def handle? (J : List Entry) (id : JobId) : Option Handle :=
  if id ∈ (submissions J).map (·.id) ∧ .withdraw id ∉ J then
    some { completion := (ending? J id).elim .waiting .ended, cancelled := .stop id ∈ J }
  else none

end Views

variable {l : Ledger} {s : Statistics} {J : List Entry} {e : Executor} {x : Entry} {id : JobId}
  {d : Delivery} {job : Job}

section Open

theorem openJob?_cons :
    openJob? (x :: J) id = if x.concerns id then x.submitted? else openJob? J id := by
  unfold openJob?
  rw [List.find?_cons]
  cases x.concerns id <;> rfl

theorem submitted_of_openJob? (h : openJob? J id = some job) :
    job ∈ submissions J ∧ job.id = id := by
  obtain ⟨x, hx, hjob⟩ := Option.bind_eq_some_iff.1 h
  refine ⟨List.mem_filterMap.2 ⟨x, List.mem_of_find?_eq_some hx, hjob⟩, ?_⟩
  have hid := List.find?_some hx
  cases x with
  | submit job' =>
    cases hjob
    simpa [Entry.concerns] using hid
  | skip | report | withdraw | stop => cases hjob

theorem mem_submissions_cons (h : job ∈ submissions J) : job ∈ submissions (x :: J) := by
  unfold submissions
  rw [List.filterMap_cons]
  split
  · exact h
  · exact List.mem_cons_of_mem _ h

theorem receipt?_eq_some_iff {r : Receipt} : receipt? J x = some r ↔
    x = .report r.delivery ∧ openJob? J r.delivery.result.job = some r.job := by
  obtain ⟨job, d⟩ := r
  cases x with
  | report d' =>
    simp only [receipt?, Option.map_eq_some_iff, Receipt.mk.injEq, Entry.report.injEq]
    constructor
    · rintro ⟨_, h, rfl, rfl⟩
      exact ⟨rfl, h⟩
    · rintro ⟨rfl, h⟩
      exact ⟨job, h, rfl, rfl⟩
  | skip | submit | withdraw | stop => simp [receipt?]

theorem mem_receipts_cons {r : Receipt} :
    r ∈ receipts (x :: J) ↔ receipt? J x = some r ∨ r ∈ receipts J := by
  rw [receipts, List.mem_append, Option.mem_toList]

theorem job_id_of_receipt? {r : Receipt} (h : receipt? J x = some r) :
    r.job ∈ submissions J ∧ r.job.id = r.delivery.result.job ∧ x = .report r.delivery := by
  obtain ⟨hx, hopen⟩ := receipt?_eq_some_iff.1 h
  exact ⟨(submitted_of_openJob? hopen).1, (submitted_of_openJob? hopen).2, hx⟩

theorem mem_submissions_of_mem_receipts {r : Receipt} (h : r ∈ receipts J) :
    r.job ∈ submissions J := by
  induction J with
  | nil => cases h
  | cons x J ih =>
    apply mem_submissions_cons
    rcases mem_receipts_cons.1 h with h | h
    · exact (job_id_of_receipt? h).1
    · exact ih h

/-- Has the job come to an end, or was it not taken? -/
def Spent (J : List Entry) (id : JobId) : Prop :=
  .withdraw id ∈ J ∨ .stop id ∈ J ∨ ∃ r ∈ receipts J, r.job.id = id

theorem spent_of_mem_receipts {r : Receipt} (h : r ∈ receipts J) : Spent J r.job.id :=
  .inr (.inr ⟨r, h, rfl⟩)

theorem Spent.cons (h : Spent J id) : Spent (x :: J) id := by
  refine h.imp (List.mem_cons_of_mem _) (Or.imp (List.mem_cons_of_mem _) ?_)
  rintro ⟨r, hr, hid⟩
  exact ⟨r, mem_receipts_cons.2 (.inr hr), hid⟩

theorem spent_submit : Spent (.submit job :: J) id ↔ Spent J id := by
  simp [Spent, mem_receipts_cons, receipt?]

theorem Spent.append (h : Spent J id) (K : List Entry) : Spent (K ++ J) id := by
  induction K with
  | nil => exact h
  | cons x K ih => exact ih.cons

theorem Spent.of_cons (h : Spent (x :: J) id) (hx : x.concerns id = false) : Spent J id := by
  rcases h with h | h | ⟨r, hr, hid⟩
  · rcases List.mem_cons.1 h with rfl | h
    · simp [Entry.concerns] at hx
    · exact .inl h
  · rcases List.mem_cons.1 h with rfl | h
    · simp [Entry.concerns] at hx
    · exact .inr (.inl h)
  · rcases mem_receipts_cons.1 hr with hr | hr
    · obtain ⟨-, hjob, rfl⟩ := job_id_of_receipt? hr
      simp [Entry.concerns, ← hid, hjob] at hx
    · exact .inr (.inr ⟨r, hr, hid⟩)

/-- A job of which something was heard after its submission has come to an end. -/
theorem spent_cons (hx : x.concerns id) (hj : x.submitted? = none)
    (h : Spent J id ∨ (openJob? J id).isSome) : Spent (x :: J) id := by
  cases x with
  | skip => cases hx
  | submit => cases hj
  | report d =>
    obtain rfl : d.result.job = id := by simpa [Entry.concerns] using hx
    rcases h with h | h
    · exact h.cons
    · obtain ⟨job, hopen⟩ := Option.isSome_iff_exists.1 h
      have hr : receipt? J (.report d) = some ⟨job, d⟩ := by simp [receipt?, hopen]
      exact .inr (.inr ⟨_, mem_receipts_cons.2 (.inl hr), (submitted_of_openJob? hopen).2⟩)
  | withdraw i =>
    obtain rfl : i = id := by simpa [Entry.concerns] using hx
    exact .inl List.mem_cons_self
  | stop i =>
    obtain rfl : i = id := by simpa [Entry.concerns] using hx
    exact .inr (.inl List.mem_cons_self)

theorem spent_of_openJob?_eq_none (hj : job ∈ submissions J) (hopen : openJob? J job.id = none) :
    Spent J job.id := by
  induction J with
  | nil => cases hj
  | cons x J ih =>
    rw [openJob?_cons] at hopen
    split at hopen
    next hx =>
      have hj : job ∈ submissions J := by
        unfold submissions at hj
        rwa [List.filterMap_cons_none hopen] at hj
      refine spent_cons hx hopen ?_
      cases hopen : openJob? J job.id with
      | none => exact .inl (ih hj hopen)
      | some job' => exact .inr rfl
    next hx =>
      refine (ih ?_ hopen).cons
      cases x with
      | submit job' =>
        rcases List.mem_cons.1 hj with rfl | hj
        · simp [Entry.concerns] at hx
        · exact hj
      | skip | report | withdraw | stop => exact hj

end Open

section Handles

theorem find?_receipts_eq_none_iff :
    (receipts J).find? (·.job.id = id) = none ↔ ∀ r ∈ receipts J, r.job.id ≠ id := by
  simp

theorem ending?_eq_none_iff :
    ending? J id = none ↔ .stop id ∉ J ∧ ∀ r ∈ receipts J, r.job.id ≠ id := by
  rw [← find?_receipts_eq_none_iff]
  unfold ending?
  cases (receipts J).find? (·.job.id = id) <;> simp

theorem ending?_of_not_spent (h : ¬ Spent J id) : ending? J id = none := by
  refine ending?_eq_none_iff.2 ⟨fun hstop => h (.inr (.inl hstop)), ?_⟩
  rintro r hr rfl
  exact h (spent_of_mem_receipts hr)

theorem ending?_eq_cancelled_iff : ending? J id = some (.error .cancelled) ↔
    .stop id ∈ J ∧ ∀ r ∈ receipts J, r.job.id ≠ id := by
  rw [← find?_receipts_eq_none_iff]
  unfold ending?
  cases (receipts J).find? (·.job.id = id) <;> simp

theorem ending?_eq_ok_iff (hn : ((receipts J).map (·.job.id)).Nodup) {result : ExecutionResult} :
    ending? J id = some (.ok result) ↔ ∃ r ∈ receipts J, r.job.id = id ∧ r.result = result := by
  unfold ending?
  cases hfind : (receipts J).find? (·.job.id = id) with
  | none =>
    refine iff_of_false (fun h => ?_) ?_
    · dsimp only at h
      split at h <;> cases h
    · rintro ⟨r, hr, hid, -⟩
      exact find?_receipts_eq_none_iff.1 hfind r hr hid
  | some r =>
    have hr := List.mem_of_find?_eq_some hfind
    have hid : r.job.id = id := by simpa using List.find?_some hfind
    constructor
    · intro h
      cases h
      exact ⟨r, hr, hid, rfl⟩
    · rintro ⟨r', hr', hid', rfl⟩
      rw [List.inj_on_of_nodup_map hn hr' hr (hid'.trans hid.symm)]

theorem ending?_cons_of_receipt {r : Receipt} (h : receipt? J x = some r) :
    ending? (x :: J) r.job.id = some (.ok r.result) := by
  simp [ending?, receipts, h]

theorem handle?_cons (hx : x.concerns id = false) : handle? (x :: J) id = handle? J id := by
  have hmem {y : Entry} (hy : y.concerns id = true) : y ∈ x :: J ↔ y ∈ J := by
    refine List.mem_cons.trans (or_iff_right ?_)
    rintro rfl
    rw [hy] at hx
    cases hx
  have hstop : .stop id ∈ x :: J ↔ .stop id ∈ J := hmem (by simp [Entry.concerns])
  have hwithdraw : .withdraw id ∈ x :: J ↔ .withdraw id ∈ J := hmem (by simp [Entry.concerns])
  have hfind : (receipts (x :: J)).find? (·.job.id = id) = (receipts J).find? (·.job.id = id) := by
    rw [receipts]
    cases hr : receipt? J x with
    | none => rfl
    | some r =>
      obtain ⟨-, hjob, rfl⟩ := job_id_of_receipt? hr
      have hne : r.job.id ≠ id := by simpa [Entry.concerns, hjob] using hx
      simp [hne]
  have hsub : id ∈ (submissions (x :: J)).map (·.id) ↔ id ∈ (submissions J).map (·.id) := by
    cases x with
    | submit job =>
      have hne : job.id ≠ id := by simpa [Entry.concerns] using hx
      refine List.mem_cons.trans (or_iff_right (Ne.symm hne))
    | skip | report | withdraw | stop => rfl
  unfold handle? ending?
  rw [hfind]
  simp only [hstop, hwithdraw, hsub]

theorem handle?_submit (h : ¬ Spent J job.id) : handle? (.submit job :: J) job.id = some {} := by
  have hnot : ¬ Spent (.submit job :: J) job.id := fun hs => h (spent_submit.1 hs)
  have hwithdraw : .withdraw job.id ∉ .submit job :: J := fun h => hnot (.inl h)
  have hstop : .stop job.id ∉ .submit job :: J := fun h => hnot (.inr (.inl h))
  have hsub : job.id ∈ (submissions (.submit job :: J)).map (·.id) := List.mem_cons_self
  unfold handle?
  rw [if_pos ⟨hsub, hwithdraw⟩, ending?_of_not_spent hnot]
  simp only [hstop, decide_false, Option.elim_none]

theorem handle?_report (h : openJob? J d.result.job = some job) :
    handle? (.report d :: J) d.result.job = (handle? J d.result.job).map fun h =>
      { h with completion := .ended (.ok (job.pending.result d.result)) } := by
  have hr : receipt? J (.report d) = some ⟨job, d⟩ := by simp [receipt?, h]
  have hending := ending?_cons_of_receipt hr
  rw [(submitted_of_openJob? h).2] at hending
  have hsub : submissions (.report d :: J) = submissions J := rfl
  unfold handle?
  rw [hending, hsub]
  simp only [List.mem_cons, reduceCtorEq, false_or]
  split <;> rfl

theorem handle?_report_of_eq_none (h : openJob? J d.result.job = none) :
    handle? (.report d :: J) id = handle? J id := by
  have hr : receipts (.report d :: J) = receipts J := by simp [receipts, receipt?, h]
  have hsub : submissions (.report d :: J) = submissions J := rfl
  unfold handle? ending?
  rw [hr, hsub]
  simp only [List.mem_cons, reduceCtorEq, false_or]

theorem handle?_withdraw : handle? (.withdraw id :: J) id = none := by
  unfold handle?
  rw [if_neg fun h => h.2 List.mem_cons_self]

theorem ending?_stop (hj : job ∈ submissions J) (hw : .withdraw job.id ∉ J)
    (hs : Spent J job.id → openJob? J job.id = none) : ending? (.stop job.id :: J) job.id =
      if (openJob? J job.id).isSome then some (.error .cancelled) else ending? J job.id := by
  have hr : receipts (.stop job.id :: J) = receipts J := rfl
  split
  next hopen =>
    have hnot : ¬ Spent J job.id := fun h => by simp [hs h] at hopen
    have hfind : (receipts J).find? (·.job.id = job.id) = none := by
      rw [List.find?_eq_none]
      intro r hr hid
      exact hnot (.inr (.inr ⟨r, hr, by simpa using hid⟩))
    unfold ending?
    rw [hr, hfind]
    exact if_pos List.mem_cons_self
  next hopen =>
    rw [Option.not_isSome_iff_eq_none] at hopen
    unfold ending?
    rw [hr]
    cases hfind : (receipts J).find? (·.job.id = job.id) with
    | some r => rfl
    | none =>
      have hstop : .stop job.id ∈ J := by
        rcases spent_of_openJob?_eq_none hj hopen with h | h | ⟨r, hr, hid⟩
        · exact absurd h hw
        · exact h
        · simpa [hid] using List.find?_eq_none.1 hfind r hr
      exact (if_pos List.mem_cons_self).trans (if_pos hstop).symm

theorem handle?_stop (hs : Spent J id → openJob? J id = none) :
    handle? (.stop id :: J) id = (handle? J id).map fun h =>
      { completion := if (openJob? J id).isSome then .ended (.error .cancelled) else h.completion
        cancelled := true } := by
  have hsub : submissions (.stop id :: J) = submissions J := rfl
  unfold handle?
  rw [hsub]
  simp only [List.mem_cons, reduceCtorEq, false_or, true_or, decide_true]
  split
  next hcond =>
    obtain ⟨hid, hw⟩ := hcond
    obtain ⟨job, hj, rfl⟩ := List.mem_map.1 hid
    rw [ending?_stop hj hw hs]
    cases openJob? J job.id <;> rfl
  next => rfl

end Handles

end Executor

end ValueGraph
