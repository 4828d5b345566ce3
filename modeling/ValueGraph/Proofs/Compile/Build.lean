import ValueGraph.Compile.Build
import ValueGraph.Proofs.Graph.Prune
import ValueGraph.Proofs.Graph.Validation
import ValueGraph.Proofs.Resolution.Outcomes
import ValueGraph.Proofs.Resolution.Promptness

namespace ValueGraph

section Grown

variable {g g' : Graph} {configuration : String} {s : ValueSpec}

theorem Graph.Grown.not_mem_external (h : g.Grown configuration) : s ∉ g.external := by
  induction h with
  | empty => exact SortedSet.not_mem_empty
  | add _ _ ha ih =>
    obtain ⟨rfl, -⟩ := link_of_add ha
    rw [external_link]
    exact ih
  | mark _ hm ih =>
    rw [(sameLinks_mark hm).external]
    exact ih

end Grown

def failuresAmong (outcomes : List (Requirement × Option Outcome)) :
    List (Requirement × Failure) :=
  outcomes.filterMap fun (q, o) =>
    match o with
    | some (.error f) => some (q, f)
    | _ => none

theorem mem_failuresAmong {outcomes : List (Requirement × Option Outcome)} {q : Requirement}
    {f : Failure} : (q, f) ∈ failuresAmong outcomes ↔ (q, some (.error f)) ∈ outcomes := by
  unfold failuresAmong
  rw [List.mem_filterMap]
  constructor
  · rintro ⟨⟨q', o⟩, hmem, ho⟩
    dsimp only at ho
    split at ho
    · cases ho
      exact hmem
    · cases ho
  · intro hmem
    exact ⟨_, hmem, rfl⟩

/--
A graph and a report for submitted requirements: the graph can be executed, each of its nodes is
there for a terminal output, it has no faults, and each requirement either is backed by one terminal
output or has failed, as the report says.
-/
structure CompiledGraph.Fulfils (x : CompiledGraph) (qs : List Requirement)
    (outcome : Requirement → Option Outcome) : Prop where
  acyclic : ∀ id, ¬ Relation.TransGen x.graph.Feeds id id
  closed : ∀ id s, x.graph.Reads id s → ∃ p, x.graph.Produces p s
  supported : ∀ id, x.graph.contains id → (∃ s, x.graph.Produces id s) ∧
    ∃ t s, Relation.ReflTransGen x.graph.Feeds id t ∧ x.graph.Produces t s ∧ x.graph.isTerminal s
  faultless : x.graph.faults = []
  /-- One entry for each submission that has failed, in the order of submission. -/
  reported : x.report.failures = failuresAmong (qs.map fun q => (q, outcome q))
  settled : ∀ q ∈ qs,
    (∃! s, q ∈ x.graph.backing.setAt s) ∧ (∀ f, (q, f) ∉ x.report.failures) ∨
    (∀ s, q ∉ x.graph.backing.setAt s) ∧ ∃ f, (q, f) ∈ x.report.failures
  backs : ∀ q s, q ∈ x.graph.backing.setAt s →
    q ∈ qs ∧ x.graph.isTerminal s ∧ ∃ p, x.graph.Produces p s

namespace Resolution

variable {σ : Type}

/-- May a build make that call while nothing cancels it? -/
def Call.Patient : Call σ → Prop
  | .pump flag _ => ∀ w, (flag w).1 = false
  | .resume => True
  | .add _ | .round .. | .cancel => False

theorem Call.Patient.submits_eq_nil {x : Call σ} (h : x.Patient) : x.submits = [] := by
  cases x with
  | add q => cases h
  | round | pump | resume | cancel => rfl

variable (c : Collaborators σ) (maxDepth : Nat) (configuration : String) (qs : List Requirement)

/-- Was the resolution given these requirements, and then run without being cancelled? -/
def Serves (r : Resolution) : Prop :=
  ∃ calls : List (Call σ), (∀ x ∈ calls, x.Patient) ∧
    afterCalls c maxDepth { graph := { configuration } } (qs.map .add ++ calls) = r

variable {c maxDepth configuration qs} {r : Resolution}

theorem Serves.steady (h : r.Serves c maxDepth configuration qs) : Steady ⟨r, .idle⟩ := by
  obtain ⟨calls, -, rfl⟩ := h
  exact steady_afterCalls c maxDepth (Graph.sound_empty configuration) _

theorem Serves.grown (h : r.Serves c maxDepth configuration qs) : r.graph.Grown configuration := by
  obtain ⟨calls, -, rfl⟩ := h
  exact (grown_afterCalls c maxDepth configuration _).2.1

theorem Serves.call (h : r.Serves c maxDepth configuration qs) {x : Call σ} (hx : x.Patient) :
    (r.call c maxDepth x).2.Serves c maxDepth configuration qs := by
  obtain ⟨calls, hcalls, rfl⟩ := h
  refine ⟨calls ++ [x], fun y hy => ?_, ?_⟩
  · rcases List.mem_append.1 hy with hy | hy
    · exact hcalls y hy
    · exact List.mem_singleton.1 hy ▸ hx
  · unfold afterCalls
    rw [← List.append_assoc, List.foldl_append, List.foldl_cons, List.foldl_nil]

end Resolution

namespace Build

variable {b : Build}

theorem failures_report : b.report.failures = failuresAmong b.resolution.outcomes := by
  -- By induction on the outcomes, whatever the report holds already.
  have hfold : ∀ (outcomes : List (Requirement × Option Outcome)) (report : FailureReport),
      (outcomes.foldl (fun r (q, outcome) =>
        match outcome with
        | some (.error f) => r.record q f
        | _ => r) report).failures = report.failures ++ failuresAmong outcomes := by
    intro outcomes
    induction outcomes with
    | nil => exact fun report => (List.append_nil _).symm
    | cons x outcomes ih =>
      intro report
      obtain ⟨q, o⟩ := x
      rw [List.foldl_cons, ih]
      unfold failuresAmong
      rw [List.filterMap_cons]
      match o with
      | some (.error f) => simp [FailureReport.record]
      | some (.ok v) => rfl
      | none => rfl
  exact hfold _ _

section Calls

variable {σ : Type} {c : Collaborators σ} {configuration : String} {qs : List Requirement}

theorem add_eq (c : Collaborators σ) (h : Steady ⟨b.resolution, .idle⟩) (q : Requirement) :
    b.add q = (.ok (), { b with resolution := (b.resolution.add b.config.maxDepth q).2 }) := by
  have hcall := ((Resolution.kept_steady c b.config.maxDepth).call h (.add q)).1
  have hadd : (b.resolution.add b.config.maxDepth q).1 = none := hcall
  unfold add
  split
  next r hr => rw [hr]
  next e r hr =>
    rw [hr] at hadd
    cases hadd

theorem foldlM_add (c : Collaborators σ) {f : Build → Requirement → Except CompileError Build}
    (hf : ∀ b q b', b.add q = (.ok (), b') → f b q = .ok b')
    (h : Steady ⟨b.resolution, .idle⟩) (qs : List Requirement) :
    qs.foldlM f b = .ok { b with
      resolution := b.resolution.afterCalls c b.config.maxDepth (qs.map .add) } := by
  induction qs generalizing b with
  | nil => rfl
  | cons q qs ih =>
    have hnext := ((Resolution.kept_steady c b.config.maxDepth).call h (.add q)).2
    rw [List.foldlM_cons, hf _ _ _ (add_eq c h q)]
    exact ih hnext

theorem exists_advance {flag : Ask σ Bool} (hflag : ∀ w, (flag w).1 = false)
    (h : b.resolution.Serves c b.config.maxDepth configuration qs) (w : σ) :
    ∃ status b', (b.advance c flag w).1 = (.ok status, b') ∧ b'.config = b.config ∧
      b'.resolution.Serves c b.config.maxDepth configuration qs ∧
      (status = .complete → b'.resolution.Done) := by
  have hpumped := h.call (x := .pump flag w) hflag
  have hcases := (Resolution.pump_cases c b.config.maxDepth flag w h.steady hflag).2
  have hcall : b.resolution.call c b.config.maxDepth (.pump flag w) =
      b.resolution.pumped c b.config.maxDepth flag w := rfl
  rw [hcall] at hpumped
  unfold Resolution.pumped at hpumped
  unfold advance
  generalize b.resolution.pump c b.config.maxDepth flag w = x at hcases hpumped
  obtain ⟨⟨status, r⟩, w'⟩ := x
  rcases hcases with ⟨hstatus, hdone⟩ | hstatus
  · obtain rfl : status = .ok .finished := hstatus
    exact ⟨_, _, rfl, rfl, hpumped, fun _ => hdone⟩
  · obtain rfl : status = .ok .blocked := hstatus
    exact ⟨_, _, rfl, rfl, hpumped.call (x := .resume) trivial, nofun⟩

theorem advance_prompt {P : σ → Prop} {w : σ} (hc : c.Prompt P) (hw : P w)
    (h : Steady ⟨b.resolution, .idle⟩) (hs : b.resolution.suspended = []) :
    ∃ b' w', b.advance c (false, ·) w = ((.ok .complete, b'), w') ∧ P w' := by
  obtain ⟨hw', hfinished, -⟩ := Resolution.pump_prompt b.config.maxDepth hc hw h hs
  unfold advance
  generalize b.resolution.pump c b.config.maxDepth (false, ·) w = x at hw' hfinished
  obtain ⟨⟨status, r⟩, w'⟩ := x
  obtain rfl : status = .ok .finished := hfinished
  exact ⟨_, w', rfl, hw'⟩

end Calls

section Finish

variable {configuration : String} {qs : List Requirement}

theorem fulfils_prune (hgrown : b.graph.Grown configuration)
    (houtcomes : b.resolution.outcomes = qs.map fun q => (q, b.resolution.outcomeOf q))
    (hdone : ∀ q ∈ qs, (b.resolution.outcomeOf q).isSome)
    (hbacked : ∀ q v, q ∈ b.graph.backing.setAt v ↔ b.resolution.outcomeOf q = some (.ok v)) :
    CompiledGraph.Fulfils { graph := b.graph.prune, report := b.report } qs
      b.resolution.outcomeOf := by
  have htrimmed := hgrown.sound.trimmed_prune
  have hsound : b.graph.prune.Sound := hgrown.sound.prune
  have hacyclic := htrimmed.acyclic hgrown.acyclic
  have hneeded := b.graph.neededAt_prune
  have hreported : b.report.failures =
      failuresAmong (qs.map fun q => (q, b.resolution.outcomeOf q)) :=
    failures_report.trans (congrArg failuresAmong houtcomes)
  have hfailed : ∀ q f, (q, f) ∈ b.report.failures ↔
      q ∈ qs ∧ b.resolution.outcomeOf q = some (.error f) := by
    intro q f
    rw [hreported, mem_failuresAmong, List.mem_map]
    constructor
    · rintro ⟨q', hq, he⟩
      obtain ⟨rfl, ho⟩ := Prod.ext_iff.1 he
      exact ⟨hq, ho⟩
    · rintro ⟨hq, ho⟩
      exact ⟨q, hq, Prod.ext rfl ho⟩
  have hback : ∀ q v, q ∈ b.graph.prune.backing.setAt v ↔
      b.resolution.outcomeOf q = some (.ok v) := by
    rw [htrimmed.backing]
    exact hbacked
  refine ⟨hacyclic, fun id s hs => ?_, fun id hid => ?_, ?_, hreported, fun q hq => ?_,
    fun q s hs => ?_⟩
  · obtain ⟨p, hp, -⟩ := hgrown.older (htrimmed.reads id s hs)
    exact ⟨p, htrimmed.supplied p id s hp hs⟩
  · obtain ⟨n, hn⟩ := Option.isSome_iff_exists.1 hid
    obtain ⟨s, hs⟩ := (hneeded id n hn).1
    exact ⟨⟨s, n, hn, hs⟩, hsound.exists_terminal hacyclic
      (fun s hs => hgrown.not_mem_external (htrimmed.external s hs)) hneeded hid⟩
  · exact hsound.faults_eq_nil hacyclic fun id n hn => (hneeded id n hn).1
  · obtain ⟨o, ho⟩ := Option.isSome_iff_exists.1 (hdone q hq)
    cases o with
    | ok v =>
      refine .inl ⟨⟨v, (hback q v).2 ho, fun s hs => ?_⟩, fun f hf => ?_⟩
      · have hs := (hback q s).1 hs
        rw [ho] at hs
        cases hs
        rfl
      · have hf := ((hfailed q f).1 hf).2
        rw [ho] at hf
        cases hf
    | error f =>
      refine .inr ⟨fun s hs => ?_, f, (hfailed q f).2 ⟨hq, ho⟩⟩
      have hs := (hback q s).1 hs
      rw [ho] at hs
      cases hs
  · have hq : q ∈ b.resolution.requirements := by
      by_contra hq
      have ho := (hback q s).1 hs
      rw [Resolution.outcomeOf_eq_none hq] at ho
      cases ho
    have hrequirements : b.resolution.requirements = qs := by
      have hfst := congrArg (List.map Prod.fst) houtcomes
      simpa [Resolution.outcomes, Resolution.requirements, Function.comp_def] using hfst
    obtain ⟨rs, hrs, -⟩ := SortedMap.mem_setAt.1 hs
    obtain ⟨⟨p, n, hn, ho, -⟩, -⟩ := hsound.indexed.backing s rs hrs
    refine ⟨hrequirements ▸ hq, decide_eq_true ?_, p, n, hn, ho⟩
    exact Option.isSome_iff_exists.2 ⟨rs, hrs⟩

/-- A build that is complete has no faults, looked for or not. -/
theorem finish_eq {σ : Type} {c : Collaborators σ} {maxDepth : Nat}
    (h : b.resolution.Serves c maxDepth configuration qs) (hdone : b.resolution.Done) :
    b.finish = .ok { graph := b.graph.prune, report := b.report } ∧
      b.resolution.outcomes = qs.map (fun q => (q, b.resolution.outcomeOf q)) ∧
      CompiledGraph.Fulfils { graph := b.graph.prune, report := b.report } qs
        b.resolution.outcomeOf := by
  obtain ⟨calls, hcalls, hr⟩ := id h
  obtain ⟨houtcomes, hsome, hbacked⟩ := Resolution.outcomes_afterCalls configuration qs
    (fun x hx => (hcalls x hx).submits_eq_nil) hr hdone
  have hfulfils := fulfils_prune h.grown houtcomes hsome hbacked
  refine ⟨?_, houtcomes, hfulfils⟩
  have hfaults : b.graph.prune.faults = [] := hfulfils.faultless
  unfold finish
  dsimp only
  rw [hfaults, ite_self]
  rfl

end Finish

end Build

end ValueGraph
