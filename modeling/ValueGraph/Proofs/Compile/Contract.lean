import Mathlib.Data.List.Forall2
import ValueGraph.Compile.Compiler
import ValueGraph.Proofs.Compile.Build
import ValueGraph.Proofs.Resolution.Oracle
import ValueGraph.Proofs.Resolution.Soundness

namespace ValueGraph

open List (Forall₂)

section Lists

theorem exists_mapM {α β γ ε : Type} {S : α → β → Prop} {R : α → γ → Prop} {f : β → Except ε γ}
    {l : List α} {m : List β} (h : Forall₂ S l m) (hf : ∀ a b, S a b → ∃ x, f b = .ok x ∧ R a x) :
    ∃ xs, m.mapM f = .ok xs ∧ Forall₂ R l xs := by
  induction h with
  | nil => exact ⟨[], rfl, .nil⟩
  | @cons a b l m hab _ ih =>
    obtain ⟨x, hx, hR⟩ := hf a b hab
    obtain ⟨xs, hxs, hRs⟩ := ih
    refine ⟨x :: xs, ?_, .cons hR hRs⟩
    rw [List.mapM_cons, hx, hxs]
    rfl

theorem exists_of_mem_left {α β : Type} {R : α → β → Prop} {a : α} {l : List α} {m : List β}
    (h : Forall₂ R l m) (ha : a ∈ l) : ∃ b ∈ m, R a b := by
  induction h with
  | nil => cases ha
  | @cons a' b l m hab _ ih =>
    rcases List.mem_cons.1 ha with rfl | ha
    · exact ⟨b, List.mem_cons_self, hab⟩
    · obtain ⟨b', hb', hR⟩ := ih ha
      exact ⟨b', List.mem_cons_of_mem _ hb', hR⟩

theorem map_fst_eq_of_forall₂ {α β γ : Type} {R : α × β → α × γ → Prop} {l : List (α × β)}
    {m : List (α × γ)} (h : Forall₂ (fun a b => a.1 = b.1 ∧ R a b) l m) :
    m.map Prod.fst = l.map Prod.fst := by
  induction h with
  | nil => rfl
  | cons hab _ ih => rw [List.map_cons, List.map_cons, hab.1, ih]

end Lists

variable {σ : Type} {c : Collaborators σ} {config : CompilerConfig} {w : σ}

/-- Is the open build one of these requirements, under the settings and the name given? -/
structure OpenBuild.Serves (c : Collaborators σ) (config : CompilerConfig)
    (e : String × List Requirement) (b : OpenBuild) : Prop where
  name_eq : b.configuration = e.1
  config_eq : b.build.config = config
  resolution : b.build.resolution.Serves c config.maxDepth e.1 e.2
  done : b.complete → b.build.resolution.Done

theorem OpenBuild.Serves.advance {e : String × List Requirement} {b : OpenBuild}
    {flag : Ask σ Bool} (h : b.Serves c config e) (hflag : ∀ w, (flag w).1 = false) (w : σ) :
    ∃ status build, (b.build.advance c flag w).1 = (.ok status, build) ∧
      OpenBuild.Serves c config e { b with build, complete := status = .complete } := by
  have hserves := h.resolution
  rw [← h.config_eq] at hserves
  obtain ⟨status, build, hadvance, hconfig, hserves', hdone⟩ :=
    Build.exists_advance hflag hserves w
  rw [h.config_eq] at hserves' hconfig
  exact ⟨status, build, hadvance, h.name_eq, hconfig, hserves',
    fun hcomplete => hdone (of_decide_eq_true hcomplete)⟩

namespace Compile

/-- Is the compiled graph what comes of the requirements? -/
def Brings (c : Collaborators σ) (config : CompilerConfig) (e : String × List Requirement)
    (x : CompiledGraph) : Prop :=
  ∃ r : Resolution, r.Serves c config.maxDepth e.1 e.2 ∧ r.Done ∧ x.graph = r.graph.prune ∧
    r.outcomes = e.2.map (fun q => (q, r.outcomeOf q)) ∧ x.Fulfils e.2 r.outcomeOf

theorem exists_start (c : Collaborators σ) (config : CompilerConfig)
    (e : String × List Requirement) :
    ∃ b, start config e.1 e.2 = .ok b ∧ b.Serves c config e ∧
      b.build.resolution.suspended = [] := by
  let r := Resolution.afterCalls c config.maxDepth { graph := { configuration := e.1 } }
    (e.2.map .add)
  refine ⟨{ configuration := e.1, build := { config, resolution := r } }, ?_,
    ⟨rfl, rfl, ⟨[], nofun, ?_⟩, nofun⟩, Resolution.suspended_adds e.2⟩
  · let opened (build : Build) : Except CompileError OpenBuild :=
      .ok { configuration := e.1, build }
    have hsteady := Resolution.steady_initial (Graph.sound_empty e.1)
    refine congrArg (Except.bind · opened)
      (Build.foldlM_add c (b := { config, resolution := _ }) (fun b q b' h => ?_) hsteady e.2)
    rw [h]
  · rw [List.append_nil]

theorem exists_startAll (c : Collaborators σ) (config : CompilerConfig) (request : CompileRequest) :
    ∃ bs, startAll config request = .ok bs ∧
      Forall₂ (fun e b => b.Serves c config e ∧ b.build.resolution.suspended = [])
        request.requirements.entries bs :=
  exists_mapM (List.forall₂_same.2 fun _ _ => rfl) fun e _ he => he ▸ exists_start c config e

theorem exists_finish {e : String × List Requirement} {b : OpenBuild}
    (h : b.complete ∧ b.Serves c config e) :
    ∃ x : String × CompiledGraph, (do return (b.configuration, ← b.build.finish)) = .ok x ∧
      e.1 = x.1 ∧ Brings c config e x.2 := by
  obtain ⟨hcomplete, hserves⟩ := h
  have hdone := hserves.done hcomplete
  obtain ⟨hfinish, houtcomes, hfulfils⟩ := Build.finish_eq hserves.resolution hdone
  rw [hfinish]
  exact ⟨_, rfl, hserves.name_eq.symm, b.build.resolution, hserves.resolution, hdone, rfl,
    houtcomes, hfulfils⟩

theorem exists_finishAll {request : CompileRequest} {bs : List OpenBuild}
    (h : Forall₂ (fun e b => b.complete ∧ b.Serves c config e) request.requirements.entries bs) :
    ∃ compiled, finishAll bs = .ok compiled ∧
      Forall₂ (fun e x => e.1 = x.1 ∧ Brings c config e x.2) request.requirements.entries
        compiled.entries := by
  obtain ⟨xs, hxs, hbrings⟩ := exists_mapM h fun e b => exists_finish
  have hascending : xs.Pairwise fun a b => compare a.1 b.1 = .lt := by
    have h := request.requirements.ascending
    rw [← List.pairwise_map (f := Prod.fst) (R := fun a b => compare a b = .lt)] at h ⊢
    rw [map_fst_eq_of_forall₂ hbrings]
    exact h
  refine ⟨.ofList xs, ?_, ?_⟩
  · unfold finishAll
    rw [hxs]
    rfl
  · rw [SortedMap.entries_ofList hascending]
    exact hbrings

theorem brings_of_forall₂ {request : CompileRequest} {set : CompiledGraphSet}
    (h : Forall₂ (fun e x => e.1 = x.1 ∧ Brings c config e x.2) request.requirements.entries
      set.compiled.entries) :
    set.configurations = request.requirements.keys ∧
      ∀ configuration qs, request.requirements.get? configuration = some qs →
        ∃ x, set.compiled.get? configuration = some x ∧ Brings c config (configuration, qs) x := by
  refine ⟨map_fst_eq_of_forall₂ h, fun configuration qs hqs => ?_⟩
  obtain ⟨⟨name, x⟩, hx, hname, hbrings⟩ :=
    exists_of_mem_left h (SortedMap.get?_eq_some_iff.1 hqs)
  obtain rfl : configuration = name := hname
  exact ⟨x, SortedMap.get?_eq_some_iff.2 hx, hbrings⟩

section Lowered

variable {flag : Ask σ Bool} (hflag : ∀ w, (flag w).1 = false)
include hflag

theorem exists_advanceAll {es : List (String × List Requirement)} {bs : List OpenBuild}
    (h : Forall₂ (OpenBuild.Serves c config) es bs) (w : σ) :
    ∃ bs', (advanceAll c flag bs w).1 = .ok bs' ∧
      Forall₂ (OpenBuild.Serves c config) es bs' := by
  induction h generalizing w with
  | nil => exact ⟨[], rfl, .nil⟩
  | @cons e b es bs hb _ ih =>
    unfold advanceAll
    split
    next =>
      obtain ⟨bs', hbs', hall⟩ := ih w
      dsimp only
      rw [hbs']
      exact ⟨b :: bs', rfl, .cons hb hall⟩
    next =>
      obtain ⟨status, build, hadvance, hserves⟩ := hb.advance hflag w
      generalize b.build.advance c flag w = x at hadvance
      obtain ⟨x, w'⟩ := x
      obtain rfl : x = (.ok status, build) := hadvance
      obtain ⟨bs', hbs', hall⟩ := ih w'
      dsimp only
      rw [hbs']
      exact ⟨_, rfl, .cons hserves hall⟩

theorem exists_rounds {es : List (String × List Requirement)} {bs : List OpenBuild} {count : Nat}
    {result : Except CompileError (List OpenBuild)}
    (h : Forall₂ (OpenBuild.Serves c config) es bs)
    (hr : (rounds c flag count bs w).1 = some result) :
    ∃ bs', result = .ok bs' ∧ Forall₂ (fun e b => b.complete ∧ b.Serves c config e) es bs' := by
  induction count generalizing bs w with
  | zero => cases hr
  | succ count ih =>
    obtain ⟨bs', hbs', hall⟩ := exists_advanceAll hflag h w
    unfold rounds at hr
    generalize advanceAll c flag bs w = x at hr hbs'
    obtain ⟨x, w'⟩ := x
    obtain rfl : x = .ok bs' := hbs'
    dsimp only at hr
    split at hr
    next hcomplete =>
      cases hr
      exact ⟨bs', rfl,
        .flip ((List.forall₂_and_left _ _).2 ⟨List.all_eq_true.1 hcomplete, hall.flip⟩)⟩
    next => exact ih hall hr

theorem exists_graphs {request : CompileRequest} {count : Nat}
    {result : Except CompileError (SortedMap String CompiledGraph)}
    (h : (graphs c flag config request count w).1 = some result) :
    ∃ compiled : SortedMap String CompiledGraph, result = .ok compiled ∧
      Forall₂ (fun e x => e.1 = x.1 ∧ Brings c config e x.2) request.requirements.entries
        compiled.entries := by
  obtain ⟨bs, hbs, hstarted⟩ := exists_startAll c config request
  unfold graphs at h
  rw [hbs] at h
  dsimp only at h
  obtain ⟨built, hbuilt, rfl⟩ := Option.map_eq_some_iff.1 h
  obtain ⟨bs', rfl, hcomplete⟩ := exists_rounds hflag (hstarted.imp fun _ _ h => h.1) hbuilt
  exact exists_finishAll hcomplete

theorem exists_portfolio {ref : TargetRef} {attempts : Nat}
    {result : Except CompileError (Option Target)}
    (h : (portfolio c flag ref attempts w).1 = some result) : ∃ t, result = .ok t := by
  induction attempts generalizing w with
  | zero => cases h
  | succ attempts ih =>
    unfold portfolio at h
    split at h
    next w' hw =>
      have hfalse := hflag w
      rw [hw] at hfalse
      cases hfalse
    next w' hw =>
      split at h
      · cases h
        exact ⟨_, rfl⟩
      · cases h
        exact ⟨_, rfl⟩
      · exact ih h

theorem exists_requestedPortfolio {request : CompileRequest} {attempts : Nat}
    {result : Except CompileError (Option Target)}
    (h : (requestedPortfolio c flag request attempts w).1 = some result) :
    ∃ t, result = .ok t := by
  unfold requestedPortfolio at h
  split at h
  · cases h
    exact ⟨_, rfl⟩
  · exact exists_portfolio hflag h

theorem exists_run {initialization patience : Nat} {request : CompileRequest}
    {result : Except CompileError CompiledGraphSet}
    (h : (run c flag config initialization patience request w).1 = some result) :
    ∃ set, result = .ok set ∧
      Forall₂ (fun e x => e.1 = x.1 ∧ Brings c config e x.2) request.requirements.entries
        set.compiled.entries := by
  unfold run at h
  split at h
  · cases h
  next e w' hp =>
    obtain ⟨t, ht⟩ := exists_requestedPortfolio hflag (congrArg Prod.fst hp)
    cases ht
  next portfolio w' hp =>
    dsimp only at h
    obtain ⟨compiled, hcompiled, rfl⟩ := Option.map_eq_some_iff.1 h
    obtain ⟨compiled, rfl, hall⟩ := exists_graphs hflag hcompiled
    exact ⟨_, rfl, hall⟩

end Lowered

section Prompt

variable {P : σ → Prop} (hc : c.Prompt P) (hw : P w)
include hc hw

theorem exists_complete {es : List (String × List Requirement)} {bs : List OpenBuild}
    (h : Forall₂ (fun e b => b.Serves c config e ∧ b.build.resolution.suspended = []) es bs) :
    ∃ bs', (advanceAll c (false, ·) bs w).1 = .ok bs' ∧ ∀ b ∈ bs', b.complete := by
  induction h generalizing w with
  | nil => exact ⟨[], rfl, nofun⟩
  | @cons e b es bs hb _ ih =>
    have hcons : ∀ (b' : OpenBuild) bs', b'.complete → (∀ x ∈ bs', x.complete) →
        ∀ x ∈ b' :: bs', x.complete := fun b' bs' hb' hbs' => List.forall_mem_cons.2 ⟨hb', hbs'⟩
    unfold advanceAll
    split
    next hcomplete =>
      obtain ⟨bs', hbs', hall⟩ := ih hw
      dsimp only
      rw [hbs']
      exact ⟨b :: bs', rfl, hcons b bs' hcomplete hall⟩
    next =>
      obtain ⟨b', w', hadvance, hw'⟩ := Build.advance_prompt hc hw hb.1.resolution.steady hb.2
      obtain ⟨bs', hbs', hall⟩ := ih hw'
      rw [hadvance]
      dsimp only
      rw [hbs']
      exact ⟨_, rfl, hcons _ bs' rfl hall⟩

theorem isSome_requestedPortfolio (request : CompileRequest) (attempts : Nat) :
    (requestedPortfolio c (false, ·) request (attempts + 1) w).1.isSome ∧
      P (requestedPortfolio c (false, ·) request (attempts + 1) w).2 := by
  unfold requestedPortfolio
  split
  · exact ⟨rfl, hw⟩
  next ref _ =>
    obtain ⟨hanswer, hw'⟩ := hc.target ref w hw
    unfold portfolio
    dsimp only
    generalize c.target ref w = x at hanswer hw'
    obtain ⟨answer, w'⟩ := x
    cases answer with
    | resolved target => exact ⟨rfl, hw'⟩
    | notFound => exact ⟨rfl, hw'⟩
    | wouldBlock => exact absurd rfl hanswer

theorem isSome_graphs {request : CompileRequest} {count : Nat} :
    (graphs c (false, ·) config request (count + 1) w).1.isSome := by
  obtain ⟨bs, hbs, hstarted⟩ := exists_startAll c config request
  obtain ⟨bs', hadvanced, hcomplete⟩ := exists_complete hc hw hstarted
  unfold graphs
  rw [hbs]
  dsimp only
  unfold rounds
  generalize advanceAll c (false, ·) bs w = x at hadvanced
  obtain ⟨x, w'⟩ := x
  obtain rfl : x = .ok bs' := hadvanced
  dsimp only
  rw [if_pos (List.all_eq_true.2 hcomplete)]
  rfl

end Prompt

end Compile

namespace Compiler

/--
A compilation that nothing cancels succeeds, if it ends. It brings one graph for each configuration
of the request, and no other; that graph and its report are for just the requirements submitted for
the configuration, with the outcomes that these had when all tasks had ended.
-/
theorem fulfils_compileNow (compiler : Compiler) (patience : Nat) (request : CompileRequest)
    {result : Except CompileError CompiledGraphSet}
    (h : (compiler.compileNow c patience request w).1.1 = some result) :
    ∃ set, result = .ok set ∧ set.configurations = request.requirements.keys ∧
      ∀ configuration qs, request.requirements.get? configuration = some qs →
        ∃ (x : CompiledGraph) (r : Resolution), set.compiled.get? configuration = some x ∧
          r.Serves c compiler.config.maxDepth configuration qs ∧ r.Done ∧
          x.graph = r.graph.prune ∧ r.outcomes = qs.map (fun q => (q, r.outcomeOf q)) ∧
          x.Fulfils qs r.outcomeOf := by
  have hrun : (Compile.run c (false, ·) compiler.config compiler.next patience request w).1 =
      some result := h
  obtain ⟨set, hset, hall⟩ := Compile.exists_run (fun _ => rfl) hrun
  obtain ⟨hnames, hbrings⟩ := Compile.brings_of_forall₂ hall
  refine ⟨set, hset, hnames, fun configuration qs hqs => ?_⟩
  obtain ⟨x, hx, r, hserves, hdone, hgraph, houtcomes, hfulfils⟩ := hbrings configuration qs hqs
  exact ⟨x, r, hx, hserves, hdone, hgraph, houtcomes, hfulfils⟩

/-- Where no lookup has to wait, a compilation ends without trying any of them again. -/
theorem isSome_compileNow (compiler : Compiler) {P : σ → Prop} (hc : c.Prompt P) (hw : P w)
    (patience : Nat) (request : CompileRequest) :
    (compiler.compileNow c patience request w).1.1.isSome := by
  show (Compile.run c (false, ·) compiler.config compiler.next patience request w).1.isSome
  obtain ⟨hportfolio, hw'⟩ := Compile.isSome_requestedPortfolio hc hw request patience
  unfold Compile.run
  split
  next hp =>
    rw [hp] at hportfolio
    cases hportfolio
  · rfl
  next portfolio w' hp =>
    rw [hp] at hw'
    dsimp only
    rw [Option.isSome_map]
    exact Compile.isSome_graphs hc hw'

section Example

open Resolution (bond quoted)

def ordered : List Requirement := [⟨"Price", bond, ∅⟩, ⟨"Yield", bond, ∅⟩]

def order : CompileRequest := ({} : CompileRequest).withRequirements "Default" ordered

theorem fulfils_compileNow_order :
    let compiler : Compiler := { config := { validate := true } }
    ∃ set, (compiler.compileNow quoted.collaborators 0 order {}).1.1 = some (.ok set) ∧
      set.configurations = ["Default"] ∧
      ∃ (x : CompiledGraph) (r : Resolution), set.compiled.get? "Default" = some x ∧ r.Done ∧
        x.Fulfils ordered r.outcomeOf := by
  intro compiler
  obtain ⟨result, hresult⟩ := Option.isSome_iff_exists.1
    (compiler.isSome_compileNow (w := {}) quoted.prompt ⟨rfl, rfl⟩ 0 order)
  obtain ⟨set, rfl, hnames, hall⟩ := compiler.fulfils_compileNow 0 order hresult
  obtain ⟨x, r, hx, -, hdone, -, -, hfulfils⟩ := hall "Default" ordered rfl
  exact ⟨set, hresult, hnames, x, r, hx, hdone, hfulfils⟩

end Example

end Compiler

end ValueGraph
