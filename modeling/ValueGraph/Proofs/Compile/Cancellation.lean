import Mathlib.Data.List.GetD
import ValueGraph.Proofs.Compile.Contract
import ValueGraph.Proofs.Compile.Race

namespace ValueGraph

variable {σ : Type}

/-- A world, with the number of looks at the flag. -/
structure Watched (σ : Type) where
  world : σ
  looks : Nat := 0

namespace Watched

def ask {α : Type} (q : Ask σ α) : Ask (Watched σ) α := fun w =>
  let (a, world) := q w.world
  (a, { w with world })

/-- The flag, if the first looks at it are answered so, and later ones find it lowered. -/
def flag (answers : List Bool) : Ask (Watched σ) Bool := fun w =>
  (answers.getD w.looks false, { w with looks := w.looks + 1 })

theorem lowered_flag {answers : List Bool} (h : true ∉ answers) (w : Watched σ) :
    (flag answers w).1 = false := by
  unfold flag
  rw [List.getD_eq_getElem?_getD]
  cases hlook : answers[w.looks]? with
  | none => rfl
  | some look =>
    have hlook := List.mem_of_getElem? hlook
    cases look with
    | true => exact absurd hlook h
    | false => rfl

end Watched

def DigestMemory.watched (m : DigestMemory σ) : DigestMemory (Watched σ) where
  digest t := Watched.ask (m.digest t)
  prior digest name := Watched.ask (m.prior digest name)
  record digest name constraints id w :=
    { w with world := m.record digest name constraints id w.world }

def Collaborators.watched (c : Collaborators σ) : Collaborators (Watched σ) where
  target ref := Watched.ask (c.target ref)
  market t q := Watched.ask (c.market t q)
  functions name t constraints := Watched.ask (c.functions name t constraints)
  functionById id name t constraints := Watched.ask (c.functionById id name t constraints)
  digests := c.digests.map (·.watched)
  policy := c.policy

theorem Collaborators.keeps_watched (c : Collaborators σ) (k : Nat) :
    c.watched.Keeps (·.looks = k) where
  target _ _ hw := hw
  market _ _ _ hw := hw
  functions _ _ _ _ hw := hw
  functionById _ _ _ _ _ hw := hw
  digests memory hm w hw := by
    obtain ⟨m, -, rfl⟩ := Option.map_eq_some_iff.1 hm
    exact ⟨fun _ => hw, fun _ _ => hw, fun _ _ _ _ => hw⟩

namespace Compile

/--
What the compilation of a request comes to if its looks at the flag are answered so; `none` if it
looks once more. A lookup is tried again only after a look, so that it runs out of looks before it
runs out of patience.
-/
def outcome? (c : Collaborators σ) (config : CompilerConfig) (initialization : Nat)
    (request : CompileRequest) (w : σ) (looks : List Bool) :
    Option (Except CompileError CompiledGraphSet) :=
  let (result, w) :=
    run c.watched (Watched.flag looks) config initialization looks.length request { world := w }
  if w.looks ≤ looks.length then result else none

end Compile

variable {c : Collaborators σ} {config : CompilerConfig} {maxDepth : Nat} {answers : List Bool}
  {first count : Nat} {w : Watched σ}

/-- Are so many looks at the flag, from that look on, answered with `true`? -/
def RaisedFrom (answers : List Bool) (first count : Nat) : Prop :=
  ∀ i, first ≤ i → i < first + count → answers.getD i false = true

theorem raisedFrom_append (looks : List Bool) (count : Nat) :
    RaisedFrom (looks ++ List.replicate count true) looks.length count := by
  intro i hfirst hlast
  rw [List.getD_append_right _ _ _ _ hfirst, List.getD_replicate _ (by omega)]

namespace Resolution

variable {r : Resolution}

theorem looks_of_round {x : Round maxDepth r} {w' : Watched σ}
    (h : r.round c.watched maxDepth (Watched.flag answers) w = (x, w')) :
    w'.looks = w.looks + 1 := by
  have hlooks : (r.round c.watched maxDepth (Watched.flag answers) w).2.looks = w.looks + 1 := by
    unfold round
    dsimp only [Watched.flag]
    split
    · rfl
    · split
      · rfl
      · exact step_keeps (c.keeps_watched _) rfl
  rwa [h] at hlooks

theorem exists_stop_of_raised {flag : Ask σ Bool} {w : σ} (hflag : (flag w).1 = true) :
    ∃ status s, (r.round c maxDepth flag w).1 = .stop (.ok status) s ∧ status ≠ .blocked := by
  unfold round
  simp only [hflag]
  split
  · unfold idle
    split
    · exact ⟨_, _, rfl, PumpStatus.noConfusion⟩
    · exact ⟨_, _, rfl, PumpStatus.noConfusion⟩
  · exact ⟨_, _, rfl, PumpStatus.noConfusion⟩

theorem looks_lt_pump :
    w.looks < (r.pump c.watched maxDepth (Watched.flag answers) w).2.looks := by
  induction r, w using pump.induct c.watched maxDepth (Watched.flag answers) with
  | case1 r w s less w' hx ih =>
    rw [pump, hx]
    exact Nat.lt_trans (Nat.lt_of_succ_le (looks_of_round hx).ge) ih
  | case2 r w status s w' hx =>
    rw [pump, hx]
    exact Nat.lt_of_succ_le (looks_of_round hx).ge

theorem looks_pump_of_raised (hraised : RaisedFrom answers first count) (hcount : 0 < count)
    (hw : w.looks < first + count) :
    (r.pump c.watched maxDepth (Watched.flag answers) w).2.looks ≤ max first w.looks + 1 ∧
      ((r.pump c.watched maxDepth (Watched.flag answers) w).1.1 = .ok .blocked →
        (r.pump c.watched maxDepth (Watched.flag answers) w).2.looks ≤ first) := by
  -- A round that is not the last, or that has to wait, came before the flag was raised.
  have hearly : ∀ {r : Resolution} {w : Watched σ}, w.looks < first + count →
      (∀ status s, (r.round c.watched maxDepth (Watched.flag answers) w).1 = .stop (.ok status) s →
        status = .blocked) → w.looks < first := by
    intro r w hw hlast
    by_contra hfirst
    have hflag : (Watched.flag answers w).1 = true := hraised _ (Nat.le_of_not_lt hfirst) hw
    obtain ⟨status, s, hstop, hne⟩ := exists_stop_of_raised hflag
    exact hne (hlast status s hstop)
  induction r, w using pump.induct c.watched maxDepth (Watched.flag answers) with
  | case1 r w s less w' hx ih =>
    have hlooks := looks_of_round hx
    have hlt := hearly (r := r) hw (by simp [hx])
    rw [pump, hx]
    dsimp only
    have ih := ih (by omega)
    exact ⟨ih.1.trans (by omega), ih.2⟩
  | case2 r w status s w' hx =>
    have hlooks := looks_of_round hx
    have hlt : status = .ok .blocked → w.looks < first := by
      rintro rfl
      refine hearly (r := r) hw fun status' s' hstop => ?_
      rw [hx] at hstop
      cases hstop
      rfl
    rw [pump, hx]
    dsimp only
    exact ⟨by omega, fun hblocked => by have := hlt hblocked; omega⟩

end Resolution

theorem Build.advance_eq_pump (b : Build) (c : Collaborators σ) (flag : Ask σ Bool) (w : σ) :
    (b.advance c flag w).2 = (b.resolution.pump c b.config.maxDepth flag w).2 ∧
      ((b.advance c flag w).1.1 = .ok .blocked →
        (b.resolution.pump c b.config.maxDepth flag w).1.1 = .ok .blocked) ∧
      ((b.advance c flag w).1.1 = .error .cancelled →
        (b.resolution.pump c b.config.maxDepth flag w).1.1 = .ok .cancelled) := by
  unfold advance
  generalize b.resolution.pump c b.config.maxDepth flag w = x
  obtain ⟨⟨status, r⟩, w'⟩ := x
  cases status with
  | error e => exact ⟨rfl, nofun, nofun⟩
  | ok status =>
    cases status with
    | finished => exact ⟨rfl, nofun, nofun⟩
    | blocked => exact ⟨rfl, fun _ => rfl, nofun⟩
    | cancelled => exact ⟨rfl, nofun, fun _ => rfl⟩

namespace Compile

def unfinished (bs : List OpenBuild) : Nat := bs.countP (!·.complete)

theorem unfinished_cons_of_complete {b : OpenBuild} {bs : List OpenBuild} (h : b.complete) :
    unfinished (b :: bs) = unfinished bs :=
  List.countP_cons_of_neg (by simp [h])

theorem unfinished_cons_of_not_complete {b : OpenBuild} {bs : List OpenBuild}
    (h : b.complete = false) : unfinished (b :: bs) = unfinished bs + 1 :=
  List.countP_cons_of_pos (by simp [h])

theorem unfinished_cons_le {b : OpenBuild} {bs : List OpenBuild} :
    unfinished (b :: bs) ≤ unfinished bs + 1 := by
  cases h : b.complete with
  | true => exact (unfinished_cons_of_complete h).trans_le (Nat.le_succ _)
  | false => exact (unfinished_cons_of_not_complete h).le

theorem unfinished_eq_zero_iff {bs : List OpenBuild} :
    unfinished bs = 0 ↔ bs.all (·.complete) := by
  simp [unfinished, List.countP_eq_zero]

section Turns

variable {c : Collaborators σ} {flag : Ask σ Bool}

/-- The builds take their turns one after another, up to one that fails. -/
theorem advanceAll_induction
    {motive : List OpenBuild → σ → Except CompileError (List OpenBuild) → σ → Prop}
    (nil : ∀ w, motive [] w (.ok []) w)
    (skip : ∀ b bs w rest w', b.complete → motive bs w rest w' →
      motive (b :: bs) w (rest.map (b :: ·)) w')
    (fail : ∀ b bs w e b' w', b.complete = false →
      b.build.advance c flag w = ((.error e, b'), w') → motive (b :: bs) w (.error e) w')
    (turn : ∀ b bs w status b' w' rest w'', b.complete = false →
      b.build.advance c flag w = ((.ok status, b'), w') → motive bs w' rest w'' →
      motive (b :: bs) w
        (rest.map ({ b with build := b', complete := status = .complete } :: ·)) w'')
    (bs : List OpenBuild) (w : σ) :
    motive bs w (advanceAll c flag bs w).1 (advanceAll c flag bs w).2 := by
  induction bs generalizing w with
  | nil => exact nil w
  | cons b bs ih =>
    unfold advanceAll
    split
    next hcomplete => exact skip b bs w _ _ hcomplete (ih w)
    next hcomplete =>
      have hcomplete := Bool.eq_false_of_not_eq_true hcomplete
      split
      next e b' w' ha => exact fail b bs w e b' w' hcomplete ha
      next status b' w' ha => exact turn b bs w status b' w' _ _ hcomplete ha (ih w')

end Turns

theorem looks_lt_advance (c : Collaborators σ) (answers : List Bool) (b : Build) (w : Watched σ) :
    w.looks < (b.advance c.watched (Watched.flag answers) w).2.looks := by
  rw [(b.advance_eq_pump ..).1]
  exact Resolution.looks_lt_pump

theorem looks_advanceAll (c : Collaborators σ) (answers : List Bool) (bs : List OpenBuild)
    (w : Watched σ) :
    let x := advanceAll c.watched (Watched.flag answers) bs w
    w.looks ≤ x.2.looks ∧ (unfinished bs ≠ 0 → w.looks < x.2.looks) ∧
      ∀ bs', x.1 = .ok bs' → unfinished bs' ≤ unfinished bs := by
  refine advanceAll_induction (motive := fun bs w result w' =>
    w.looks ≤ w'.looks ∧ (unfinished bs ≠ 0 → w.looks < w'.looks) ∧
      ∀ bs', result = .ok bs' → unfinished bs' ≤ unfinished bs) ?_ ?_ ?_ ?_ bs w
  · intro w
    refine ⟨Nat.le_refl _, fun h => absurd rfl h, fun bs' h => ?_⟩
    cases h
    exact Nat.le_refl _
  · rintro b bs w rest w' hcomplete ⟨hle, hlt, hrest⟩
    rw [unfinished_cons_of_complete hcomplete]
    refine ⟨hle, hlt, fun bs' h => ?_⟩
    cases rest with
    | error e => cases h
    | ok rest =>
      cases h
      rw [unfinished_cons_of_complete hcomplete]
      exact hrest rest rfl
  · intro b bs w e b' w' hcomplete ha
    have hlooks := looks_lt_advance c answers b.build w
    rw [ha] at hlooks
    exact ⟨Nat.le_of_lt hlooks, fun _ => hlooks, nofun⟩
  · rintro b bs w status b' w' rest w'' hcomplete ha ⟨hle, -, hrest⟩
    have hlooks := looks_lt_advance c answers b.build w
    rw [ha] at hlooks
    have hlt : w.looks < w''.looks := Nat.lt_of_lt_of_le hlooks hle
    refine ⟨Nat.le_of_lt hlt, fun _ => hlt, fun bs' h => ?_⟩
    cases rest with
    | error e => cases h
    | ok rest =>
      cases h
      rw [unfinished_cons_of_not_complete hcomplete]
      exact unfinished_cons_le.trans (Nat.succ_le_succ (hrest rest rfl))

theorem looks_rounds_none {bs : List OpenBuild} {attempts : Nat}
    (h : (rounds c.watched (Watched.flag answers) attempts bs w).1 = none) :
    w.looks + attempts ≤ (rounds c.watched (Watched.flag answers) attempts bs w).2.looks := by
  induction attempts generalizing bs w with
  | zero => exact Nat.le_refl _
  | succ attempts ih =>
    obtain ⟨-, hlt, hrest⟩ := looks_advanceAll c answers bs w
    unfold rounds at h ⊢
    generalize advanceAll c.watched (Watched.flag answers) bs w = x at hlt hrest h
    obtain ⟨result, w'⟩ := x
    cases result with
    | error e => cases h
    | ok bs' =>
      dsimp only at hlt hrest h ⊢
      by_cases hall : bs'.all (·.complete)
      · rw [if_pos hall] at h
        cases h
      · rw [if_neg hall] at h ⊢
        have hunfinished : unfinished bs ≠ 0 := by
          intro hzero
          exact hall (unfinished_eq_zero_iff.1 (Nat.le_zero.1 (hzero ▸ hrest bs' rfl)))
        have hlt := hlt hunfinished
        have ih := ih h
        omega

theorem portfolio_succ {c : Collaborators σ} {flag : Ask σ Bool} {ref : TargetRef} {attempts : Nat}
    {w : σ} :
    (flag w).1 = true ∧
        portfolio c flag ref (attempts + 1) w = (some (.error .cancelled), (flag w).2) ∨
      (flag w).1 = false ∧
        ((∃ t, portfolio c flag ref (attempts + 1) w =
            (some (.ok t), (c.target ref (flag w).2).2)) ∨
          portfolio c flag ref (attempts + 1) w =
            portfolio c flag ref attempts (c.target ref (flag w).2).2) := by
  rw [portfolio]
  generalize flag w = x
  obtain ⟨raised, w'⟩ := x
  cases raised with
  | true => exact .inl ⟨rfl, rfl⟩
  | false =>
    refine .inr ⟨rfl, ?_⟩
    dsimp only
    generalize c.target ref w' = x
    obtain ⟨answer, w''⟩ := x
    cases answer with
    | resolved | notFound => exact .inl ⟨_, rfl⟩
    | wouldBlock => exact .inr rfl

theorem looks_portfolio_none {ref : TargetRef} {attempts : Nat}
    (h : (portfolio c.watched (Watched.flag answers) ref attempts w).1 = none) :
    w.looks + attempts ≤ (portfolio c.watched (Watched.flag answers) ref attempts w).2.looks := by
  induction attempts generalizing w with
  | zero => exact Nat.le_refl _
  | succ attempts ih =>
    rcases portfolio_succ (c := c.watched) (w := w) with ⟨-, hp⟩ | ⟨-, ⟨t, hp⟩ | hp⟩
    · rw [hp] at h
      cases h
    · rw [hp] at h
      cases h
    · rw [hp] at h ⊢
      have hle : w.looks + 1 + attempts ≤ _ := ih h
      omega

section Raised

variable (hraised : RaisedFrom answers first count)
include hraised

theorem looks_advance_of_raised (c : Collaborators σ) (b : Build)
    (hw : w.looks - first < count) :
    (b.advance c.watched (Watched.flag answers) w).2.looks ≤ max first w.looks + 1 ∧
      ((b.advance c.watched (Watched.flag answers) w).1.1 = .ok .blocked →
        (b.advance c.watched (Watched.flag answers) w).2.looks ≤ first) := by
  obtain ⟨hworld, hblocked, -⟩ := b.advance_eq_pump c.watched (Watched.flag answers) w
  rw [hworld]
  exact And.imp_right (· ∘ hblocked)
    (Resolution.looks_pump_of_raised hraised (Nat.zero_lt_of_lt hw) (by omega))

/--
Once the flag is raised for good, each look at it completes a build or is the last; a build that has
to wait has not seen it yet.
-/
theorem looks_advanceAll_of_raised {bs : List OpenBuild}
    (hw : w.looks - first + unfinished bs ≤ count) :
    let x := advanceAll c.watched (Watched.flag answers) bs w
    x.2.looks ≤ first + count ∧ ∀ bs', x.1 = .ok bs' →
      x.2.looks - first + unfinished bs' ≤ w.looks - first + unfinished bs := by
  refine advanceAll_induction (motive := fun bs w result w' =>
    w.looks - first + unfinished bs ≤ count → w'.looks ≤ first + count ∧ ∀ bs', result = .ok bs' →
      w'.looks - first + unfinished bs' ≤ w.looks - first + unfinished bs) ?_ ?_ ?_ ?_ bs w hw
  · intro w hw
    refine ⟨by omega, fun bs' h => ?_⟩
    cases h
    exact Nat.le_refl _
  · intro b bs w rest w' hcomplete hrest hw
    rw [unfinished_cons_of_complete hcomplete] at hw ⊢
    refine ⟨(hrest hw).1, fun bs' h => ?_⟩
    cases rest with
    | error e => cases h
    | ok rest =>
      cases h
      rw [unfinished_cons_of_complete hcomplete]
      exact (hrest hw).2 rest rfl
  · intro b bs w e b' w' hcomplete ha hw
    rw [unfinished_cons_of_not_complete hcomplete] at hw
    have hlooks := (looks_advance_of_raised hraised c b.build (w := w) (by omega)).1
    rw [ha] at hlooks
    dsimp only at hlooks
    exact ⟨by omega, nofun⟩
  · intro b bs w status b' w' rest w'' hcomplete ha hrest hw
    rw [unfinished_cons_of_not_complete hcomplete] at hw ⊢
    obtain ⟨hlooks, hblocked⟩ := looks_advance_of_raised hraised c b.build (w := w) (by omega)
    rw [ha] at hlooks hblocked
    dsimp only at hlooks hblocked
    obtain ⟨hle, hrest⟩ := hrest (by omega)
    refine ⟨hle, fun bs' h => ?_⟩
    cases rest with
    | error e => cases h
    | ok rest =>
      cases h
      have hrest := hrest rest rfl
      cases status with
      | complete =>
        rw [unfinished_cons_of_complete (by simp)]
        omega
      | blocked =>
        have := hblocked rfl
        rw [unfinished_cons_of_not_complete (by simp)]
        omega

theorem looks_rounds_of_raised {bs : List OpenBuild} {attempts : Nat}
    (hw : w.looks - first + unfinished bs ≤ count) :
    (rounds c.watched (Watched.flag answers) attempts bs w).2.looks ≤ first + count := by
  induction attempts generalizing bs w with
  | zero =>
    unfold rounds
    dsimp only
    omega
  | succ attempts ih =>
    obtain ⟨hle, hrest⟩ := looks_advanceAll_of_raised hraised (c := c) hw
    unfold rounds
    generalize advanceAll c.watched (Watched.flag answers) bs w = x at hle hrest
    obtain ⟨result, w'⟩ := x
    cases result with
    | error e => exact hle
    | ok bs' =>
      dsimp only
      split
      · exact hle
      · exact ih ((hrest bs' rfl).trans hw)

theorem looks_portfolio_of_raised {ref : TargetRef} {attempts : Nat} (hcount : 0 < count)
    (hw : w.looks ≤ first) :
    let x := portfolio c.watched (Watched.flag answers) ref attempts w
    x.2.looks ≤ first + 1 ∧ (x.1 ≠ some (.error .cancelled) → x.2.looks ≤ first) := by
  induction attempts generalizing w with
  | zero => exact ⟨hw.trans (Nat.le_succ _), fun _ => hw⟩
  | succ attempts ih =>
    dsimp only
    -- A look that finds the flag lowered is an earlier one.
    have hearly : (Watched.flag answers w).1 = false → w.looks + 1 ≤ first := by
      intro hfalse
      by_contra hlate
      have htrue := hraised w.looks (by omega) (by omega)
      exact Bool.false_ne_true (hfalse.symm.trans htrue)
    rcases portfolio_succ (c := c.watched) (w := w) with ⟨-, hp⟩ | ⟨hfalse, ⟨t, hp⟩ | hp⟩
    · rw [hp]
      exact ⟨Nat.succ_le_succ hw, fun h => absurd rfl h⟩
    · rw [hp]
      exact ⟨(hearly hfalse).trans (Nat.le_succ _), fun _ => hearly hfalse⟩
    · rw [hp]
      exact ih (hearly hfalse)

end Raised

section Run

variable {initialization patience attempts : Nat} {request : CompileRequest}

theorem looks_requestedPortfolio_none (answers : List Bool) (request : CompileRequest)
    (attempts : Nat)
    (h : (requestedPortfolio c.watched (Watched.flag answers) request attempts w).1 = none) :
    w.looks + attempts ≤
      (requestedPortfolio c.watched (Watched.flag answers) request attempts w).2.looks := by
  unfold requestedPortfolio at h ⊢
  split
  next hp =>
    rw [hp] at h
    cases h
  next ref hp =>
    rw [hp] at h
    exact looks_portfolio_none h

theorem looks_graphs_none
    (h : (graphs c.watched (Watched.flag answers) config request attempts w).1 = none) :
    w.looks + attempts ≤
      (graphs c.watched (Watched.flag answers) config request attempts w).2.looks := by
  unfold graphs at h ⊢
  split
  next hs =>
    rw [hs] at h
    cases h
  next bs hs =>
    rw [hs] at h
    exact looks_rounds_none (Option.map_eq_none_iff.1 h)

/-- A compilation does not run out of patience before it has looked at the flag as often. -/
theorem looks_run_none
    (h : (run c.watched (Watched.flag answers) config initialization patience request w).1 = none) :
    patience <
      (run c.watched (Watched.flag answers) config initialization patience request w).2.looks := by
  have hportfolio := looks_requestedPortfolio_none (c := c) (w := w) answers request (patience + 1)
  unfold run at h ⊢
  generalize requestedPortfolio c.watched (Watched.flag answers) request (patience + 1) w = x
    at hportfolio h
  obtain ⟨portfolio, w'⟩ := x
  match portfolio with
  | none => exact Nat.lt_of_succ_le ((Nat.le_add_left ..).trans (hportfolio rfl))
  | some (.error e) => cases h
  | some (.ok t) =>
    exact Nat.lt_of_succ_le
      ((Nat.le_add_left ..).trans (looks_graphs_none (Option.map_eq_none_iff.1 h)))

section Raised

variable (hraised : RaisedFrom answers first count)
include hraised

theorem looks_requestedPortfolio_of_raised (request : CompileRequest) (attempts : Nat)
    (hcount : 0 < count) (hw : w.looks ≤ first) :
    let x := requestedPortfolio c.watched (Watched.flag answers) request attempts w
    x.2.looks ≤ first + 1 ∧ (x.1 ≠ some (.error .cancelled) → x.2.looks ≤ first) := by
  unfold requestedPortfolio
  split
  · exact ⟨hw.trans (Nat.le_succ _), fun _ => hw⟩
  · exact looks_portfolio_of_raised hraised hcount hw

theorem looks_graphs_of_raised (hcount : request.requirements.size ≤ count)
    (hw : w.looks ≤ first) :
    (graphs c.watched (Watched.flag answers) config request attempts w).2.looks ≤
      first + count := by
  obtain ⟨bs, hbs, hstarted⟩ := exists_startAll c.watched config request
  have hlength : unfinished bs ≤ request.requirements.size :=
    (List.countP_le_length ..).trans hstarted.length_eq.ge
  unfold graphs
  rw [hbs]
  exact looks_rounds_of_raised hraised (by omega)

theorem looks_run_of_raised (hcount : request.requirements.size < count) (hw : w.looks ≤ first) :
    (run c.watched (Watched.flag answers) config initialization patience request w).2.looks ≤
      first + count := by
  have hportfolio := looks_requestedPortfolio_of_raised hraised (c := c) request (patience + 1)
    (Nat.zero_lt_of_lt hcount) hw
  unfold run
  generalize requestedPortfolio c.watched (Watched.flag answers) request (patience + 1) w = x
    at hportfolio
  obtain ⟨portfolio, w'⟩ := x
  obtain ⟨hle, hnext⟩ := hportfolio
  match portfolio with
  | none | some (.error e) => exact hle.trans (by omega)
  | some (.ok t) => exact looks_graphs_of_raised hraised hcount.le (hnext nofun)

end Raised

end Run

section Builder

variable (c : Collaborators σ) (config : CompilerConfig) (initialization : Nat)
  (request : CompileRequest) (w : σ)

theorem outcome?_eq_none_iff {looks : List Bool} :
    outcome? c config initialization request w looks = none ↔
      looks.length < (run c.watched (Watched.flag looks) config initialization looks.length request
        { world := w }).2.looks := by
  unfold outcome?
  dsimp only
  split
  next hle =>
    refine ⟨fun h => looks_run_none h, fun hlt => absurd hle (Nat.not_le_of_lt hlt)⟩
  next hlt => exact ⟨fun _ => Nat.lt_of_not_le hlt, fun _ => rfl⟩

theorem isSome_outcome?_of_raised (looks : List Bool) :
    (outcome? c config initialization request w
      (looks ++ List.replicate (request.requirements.size + 1) true)).isSome := by
  rw [Option.isSome_iff_ne_none, Ne, outcome?_eq_none_iff, Nat.not_lt]
  refine (looks_run_of_raised (raisedFrom_append looks _) (Nat.lt_succ_self _)
    (Nat.zero_le _)).trans ?_
  simp

theorem exists_ok_of_outcome? {looks : List Bool} {o : Except CompileError CompiledGraphSet}
    (hlooks : true ∉ looks) (h : outcome? c config initialization request w looks = some o) :
    ∃ set, o = .ok set := by
  unfold outcome? at h
  dsimp only at h
  split at h
  · obtain ⟨set, rfl, -⟩ := exists_run (Watched.lowered_flag hlooks) h
    exact ⟨set, rfl⟩
  · cases h

def builder : Builder CompiledGraphSet where
  result? := outcome? c config initialization request w
  honest looks hlooks h := by
    obtain ⟨set, hset⟩ := exists_ok_of_outcome? c config initialization request w hlooks h
    cases hset
  bound := request.requirements.size + 1
  prompt := isSome_outcome?_of_raised c config initialization request w

end Builder

end Compile

end ValueGraph
