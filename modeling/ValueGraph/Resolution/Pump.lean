import ValueGraph.Resolution.Remaining

namespace ValueGraph

inductive PumpStatus
  /-- No task is left to run. -/
  | finished
  /-- Only tasks are left whose lookups would have to wait. -/
  | blocked
  | cancelled
deriving DecidableEq, Inhabited

/-- What a resolution has before it: its work, and then the length of its queue. -/
structure Remaining (maxDepth : Nat) where
  work : Nat → Nat × Nat
  queue : Nat

instance (maxDepth : Nat) : WellFoundedRelation (Remaining maxDepth) where
  rel := InvImage (Prod.Lex (Lower (maxDepth + 1)) (· < ·)) fun m => (m.work, m.queue)
  wf := InvImage.wf _ (Prod.lex ⟨_, Lower.wf _⟩ Nat.lt_wfRel).wf

def Resolution.remaining (maxDepth : Nat) (r : Resolution) : Remaining maxDepth :=
  ⟨r.work maxDepth, r.ready.length⟩

abbrev Resolution.LessToDo (maxDepth : Nat) (s r : Resolution) : Prop :=
  WellFoundedRelation.rel (s.remaining maxDepth) (r.remaining maxDepth)

/-- What a round leads to from `r`: there is less to do after it, or it was the last. -/
inductive Round (maxDepth : Nat) (r : Resolution)
  | next (s : Resolution) (less : s.LessToDo maxDepth r)
  | stop (status : Except GraphError PumpStatus) (s : Resolution)

namespace Resolution

theorem lessToDo_of_advances {maxDepth : Nat} {id : TaskId} {ready : List TaskId}
    {r s s' : Resolution} {turn : Turn} (hr : r.ready = id :: ready)
    (h : Advances maxDepth { r with ready } (turn, s)) (ht : s'.tasks = s.tasks)
    (hq : turn ≠ .again → s'.ready = s.ready) :
    s'.LessToDo maxDepth r := by
  have hw : s'.work maxDepth = s.work maxDepth := work_eq_of_tasks ht
  rcases h with h | ⟨hn, h⟩
  · refine Prod.Lex.left _ _ ?_
    show Lower _ (s'.work maxDepth) (r.work maxDepth)
    exact hw ▸ h
  · simp only at h
    refine Prod.lex_def.2 (.inr ⟨?_, ?_⟩)
    · show s'.work maxDepth = r.work maxDepth
      rw [hw, h]; rfl
    · simp [remaining, hq hn, h, hr]

def requeue {maxDepth : Nat} {r : Resolution} {id : TaskId} {ready : List TaskId}
    (hr : r.ready = id :: ready) :
    (turn : Turn × Resolution) → Advances maxDepth { r with ready } turn → Round maxDepth r
  | (.again, s), h =>
    .next { s with ready := id :: s.ready } (lessToDo_of_advances hr h rfl (absurd rfl))
  | (.blocked, s), h =>
    .next { s with suspended := s.suspended ++ [id] } (lessToDo_of_advances hr h rfl fun _ => rfl)
  | (.waiting, s), h | (.done, s), h => .next s (lessToDo_of_advances hr h rfl fun _ => rfl)
  | (.failed e, s), _ => .stop (.error e) s

def idle {maxDepth : Nat} (r : Resolution) (cancelled : Bool) : Round maxDepth r :=
  if r.suspended.isEmpty then .stop (.ok .finished) r
  else if cancelled then .stop (.ok .cancelled) r.cancel
  else .stop (.ok .blocked) r

variable {σ : Type} (c : Collaborators σ) (maxDepth : Nat) (flag : Ask σ Bool)

/-- Gives the first task of the queue its turn; `flag` tells whether to cancel instead. -/
def round (r : Resolution) : Ask σ (Round maxDepth r) := fun w =>
  let (cancelled, w) := flag w
  match hr : r.ready with
  | [] => (r.idle cancelled, w)
  | id :: ready =>
    if cancelled then (.stop (.ok .cancelled) r.cancel, w)
    else
      let turn := ({ r with ready } : Resolution).step c maxDepth id w
      (requeue hr turn.1 advances_step, turn.2)

def pump (r : Resolution) (w : σ) : (Except GraphError PumpStatus × Resolution) × σ :=
  match r.round c maxDepth flag w with
  | (.next s _less, w) => pump s w
  | (.stop status s, w) => ((status, s), w)
termination_by r.remaining maxDepth
decreasing_by exact _less

end Resolution

end ValueGraph
