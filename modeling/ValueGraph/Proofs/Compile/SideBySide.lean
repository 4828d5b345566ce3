import Mathlib.Data.List.Rotate
import ValueGraph.Proofs.Compile.Cancellation

namespace ValueGraph

open List (Forall₂)

variable {σ : Type}

/-- How the builds of a compilation take turns, after so many looks at the flag. -/
structure Schedule where
  /-- Who looks next: so many of the builds that run are passed over. -/
  turn : Nat → Nat
  /-- Are the builds that run not waited for once another has failed? -/
  hasty : Nat → Bool
  /-- Which failure is told, if there are more than one. -/
  told : Nat → Nat

/--
A build in a round, with what it has seen of the flag since the round began. What the others ask of
the collaborators meanwhile may change the answers that it gets, so it has a world of its own.
-/
structure Worker (σ : Type) where
  work : OpenBuild
  world : σ
  looks : List Bool := []

namespace Worker

variable (c : Collaborators σ) (x : Worker σ)

/-- What the round brings; `none` if the build looks at the flag once more. -/
def outcome? : Option (Except CompileError (Worker σ)) :=
  if x.work.complete then some (.ok x)
  else
    match x.work.build.advance c.watched (Watched.flag x.looks) { world := x.world } with
    | ((result, build), w) =>
      if w.looks ≤ x.looks.length then
        some (result.map fun status =>
          { work := { x.work with build, complete := status = .complete }, world := w.world })
      else none

def runs : Bool := (x.outcome? c).isNone

def failure? : Option CompileError :=
  match x.outcome? c with
  | some (.error e) => some e
  | _ => none

def success? : Option (Worker σ) :=
  match x.outcome? c with
  | some (.ok y) => some y
  | _ => none

def see (look : Bool) : Worker σ := { x with looks := x.looks ++ [look] }

end Worker

namespace Compile

variable (c : Collaborators σ) (s : Schedule)

/-- The look of the build whose turn it is, after `k` of those that run. -/
def give (look : Bool) : Nat → List (Worker σ) → List (Worker σ)
  | _, [] => []
  | k, x :: xs =>
    if x.runs c then
      if k = 0 ∨ xs.all (!·.runs c) then x.see look :: xs else x :: give look (k - 1) xs
    else x :: give look k xs

/-- What a round has come to, after so many looks: a failure, or the builds for the next. -/
def roundEnd? (n : Nat) (xs : List (Worker σ)) : Option (Except CompileError (List (Worker σ))) :=
  let ended := xs.all (!·.runs c)
  match ((xs.filterMap (·.failure? c)).rotate (s.told n)).head? with
  | some e => if s.hasty n || ended then some (.error e) else none
  | none => if ended then some (.ok (xs.filterMap (·.success? c))) else none

def proceed (n : Nat) (xs : List (Worker σ)) :
    Except CompileError (List OpenBuild) ⊕ List (Worker σ) :=
  match roundEnd? c s n xs with
  | none => .inr xs
  | some (.error e) => .inl (.error e)
  | some (.ok xs) => if xs.all (·.work.complete) then .inl (.ok (xs.map (·.work))) else .inr xs

/-- Rounds of builds that run side by side; `none` if one of them looks at the flag once more. -/
def roundsAbreast (n : Nat) (xs : List (Worker σ)) :
    (looks : List Bool) → Option (Except CompileError (List OpenBuild))
  | [] => (proceed c s n xs).getLeft?
  | look :: looks =>
    match proceed c s n xs with
    | .inl result => some result
    | .inr xs => roundsAbreast (n + 1) (give c look (s.turn n) xs) looks

end Compile

section Looks

variable {c : Collaborators σ} {maxDepth : Nat} {answers : List Bool} {w : Watched σ}

theorem Resolution.round_congr {c : Collaborators σ} {flag flag' : Ask σ Bool} {r : Resolution}
    {w : σ} (h : flag w = flag' w) : r.round c maxDepth flag w = r.round c maxDepth flag' w := by
  unfold round
  rw [h]

/-- A pump does not depend on what it would see by further looks. -/
theorem Resolution.pump_congr {answers' : List Bool} {r : Resolution} {k : Nat}
    (hagree : ∀ i < k, answers.getD i false = answers'.getD i false)
    (h : (r.pump c.watched maxDepth (Watched.flag answers) w).2.looks ≤ k) :
    r.pump c.watched maxDepth (Watched.flag answers) w =
      r.pump c.watched maxDepth (Watched.flag answers') w := by
  have hround : ∀ {r : Resolution} {w : Watched σ}, w.looks < k →
      r.round c.watched maxDepth (Watched.flag answers) w =
        r.round c.watched maxDepth (Watched.flag answers') w := fun hlt =>
    round_congr (Prod.ext (hagree _ hlt) rfl)
  induction r, w using pump.induct c.watched maxDepth (Watched.flag answers) with
  | case1 r w s less w' hx ih =>
    have hlt := Nat.lt_of_lt_of_le looks_lt_pump h
    rw [pump, hx] at h
    rw [pump, hx, pump, ← hround hlt, hx]
    exact ih h
  | case2 r w status s w' hx =>
    have hlt := Nat.lt_of_lt_of_le looks_lt_pump h
    rw [pump, hx, pump, ← hround hlt, hx]

end Looks

namespace Worker

variable {c : Collaborators σ} {x y : Worker σ}

abbrev advanced (c : Collaborators σ) (x : Worker σ) :
    (Except CompileError BuildStatus × Build) × Watched σ :=
  x.work.build.advance c.watched (Watched.flag x.looks) { world := x.world }

theorem outcome?_of_complete (h : x.work.complete) : x.outcome? c = some (.ok x) := if_pos h

theorem runs_iff (h : x.work.complete = false) :
    x.runs c ↔ x.looks.length < (x.advanced c).2.looks := by
  unfold runs outcome?
  rw [if_neg (by simp [h])]
  dsimp only
  split
  next hle => simpa using hle
  next hlt => simpa using hlt

theorem exists_of_outcome? {r : Except CompileError (Worker σ)}
    (h : x.work.complete = false) (hr : x.outcome? c = some r) :
    (∃ e, (x.advanced c).1.1 = .error e ∧ r = .error e) ∨
      ∃ status y, (x.advanced c).1.1 = .ok status ∧ r = .ok y ∧ y.looks = [] ∧
        (y.work.complete ↔ status = .complete) := by
  unfold outcome? at hr
  rw [if_neg (by simp [h])] at hr
  unfold advanced
  generalize x.work.build.advance c.watched (Watched.flag x.looks) { world := x.world } = a at hr ⊢
  obtain ⟨⟨result, b⟩, w⟩ := a
  dsimp only at hr ⊢
  split at hr
  next =>
    obtain rfl := Option.some.inj hr
    cases result with
    | error e => exact .inl ⟨e, rfl, rfl⟩
    | ok status => exact .inr ⟨status, _, rfl, rfl, rfl, decide_eq_true_iff⟩
  next => cases hr

theorem not_complete_of_runs (h : x.runs c) : x.work.complete = false := by
  by_contra hcomplete
  simp [runs, outcome?_of_complete (Bool.eq_true_of_not_eq_false hcomplete)] at h

theorem runs_of_fresh (h : x.work.complete = false) (hlooks : x.looks = []) : x.runs c := by
  have hlt := Compile.looks_lt_advance c x.looks x.work.build { world := x.world }
  rw [runs_iff h, hlooks]
  exact hlt

/-- A build that has not seen the flag raised, and serves its requirements. -/
structure Serves (c : Collaborators σ) (config : CompilerConfig) (e : String × List Requirement)
    (x : Worker σ) : Prop where
  lowered : true ∉ x.looks
  work : x.work.Serves c.watched config e

theorem Serves.of_outcome? {config : CompilerConfig} {e : String × List Requirement}
    {r : Except CompileError (Worker σ)} (h : x.Serves c config e) (hr : x.outcome? c = some r) :
    ∃ y, r = .ok y ∧ y.Serves c config e := by
  cases hcomplete : x.work.complete with
  | true =>
    rw [outcome?_of_complete hcomplete] at hr
    cases hr
    exact ⟨x, rfl, h⟩
  | false =>
    obtain ⟨status, build, hadvance, hserves⟩ :=
      h.work.advance (Watched.lowered_flag h.lowered) { world := x.world }
    unfold outcome? at hr
    rw [if_neg (by simp [hcomplete])] at hr
    generalize x.work.build.advance c.watched (Watched.flag x.looks) { world := x.world } = a
      at hr hadvance
    obtain ⟨a, w⟩ := a
    obtain rfl : a = (.ok status, build) := hadvance
    dsimp only at hr
    split at hr
    · cases hr
      exact ⟨_, rfl, List.not_mem_nil, hserves⟩
    · cases hr

/-- Has the build come to its end, this round being its last? -/
def settled (c : Collaborators σ) (x : Worker σ) : Bool :=
  match x.outcome? c with
  | none => false
  | some (.error _) => true
  | some (.ok y) => y.work.complete

theorem settled_see (h : x.runs c) : (x.see true).settled c := by
  have hcomplete := not_complete_of_runs h
  have hruns := (runs_iff hcomplete).1 h
  obtain ⟨hle, hblocked⟩ := Compile.looks_advance_of_raised (raisedFrom_append x.looks 1) c
    x.work.build (w := { world := x.world }) (by simp)
  have hover : ¬ (x.see true).runs c := by
    rw [runs_iff (x := x.see true) hcomplete, Nat.not_lt]
    simpa [see] using hle
  -- Had the build to wait before this look, then it would not run any more.
  have hwaits : ((x.see true).advanced c).1.1 ≠ .ok .blocked := by
    intro hb
    have hearly := hblocked hb
    rw [(x.work.build.advance_eq_pump ..).1] at hearly
    have hagree : ∀ i < x.looks.length,
        (x.looks ++ [true]).getD i false = x.looks.getD i false := fun i hi =>
      List.getD_append _ _ _ _ hi
    have hpump := Resolution.pump_congr hagree hearly
    rw [advanced, (x.work.build.advance_eq_pump ..).1, ← hpump] at hruns
    exact Nat.not_le_of_lt hruns hearly
  unfold settled
  cases hr : (x.see true).outcome? c with
  | none => simp [runs, hr] at hover
  | some r =>
    obtain ⟨e, -, rfl⟩ | ⟨status, y, hstatus, rfl, -, hy⟩ :=
      exists_of_outcome? (x := x.see true) hcomplete hr
    · rfl
    · cases status with
      | complete => exact hy.2 rfl
      | blocked => exact absurd hstatus hwaits

theorem failure?_eq_some_iff {e : CompileError} :
    x.failure? c = some e ↔ x.outcome? c = some (.error e) := by
  unfold failure?
  split <;> simp_all

theorem success?_eq_some_iff : x.success? c = some y ↔ x.outcome? c = some (.ok y) := by
  unfold success?
  split <;> simp_all

theorem isSome_success? (h : x.runs c = false) (hfailure : x.failure? c = none) :
    (x.success? c).isSome := by
  obtain ⟨result, hresult⟩ := Option.isSome_iff_exists.1 (Option.isNone_eq_false_iff.1 h)
  cases result with
  | ok y => exact Option.isSome_iff_exists.2 ⟨y, success?_eq_some_iff.2 hresult⟩
  | error e =>
    rw [failure?_eq_some_iff.2 hresult] at hfailure
    cases hfailure

theorem settled_of_complete (h : x.work.complete) : x.settled c := by
  rw [settled, outcome?_of_complete h]
  exact h

theorem settled_of_runs (h : x.runs c) : x.settled c = false := by
  unfold runs at h
  rw [settled, Option.isNone_iff_eq_none.1 h]

theorem looks_of_success? (h : x.success? c = some y) : y = x ∧ x.work.complete ∨ y.looks = [] := by
  rw [success?_eq_some_iff] at h
  cases hcomplete : x.work.complete with
  | true =>
    rw [outcome?_of_complete hcomplete] at h
    cases h
    exact .inl ⟨rfl, rfl⟩
  | false =>
    obtain ⟨e, -, he⟩ | ⟨status, z, -, hz, hlooks, -⟩ := exists_of_outcome? hcomplete h
    · cases he
    · cases hz
      exact .inr hlooks

theorem of_success? (h : x.success? c = some y) (hy : y.work.complete = false) :
    x.settled c = false ∧ y.runs c := by
  constructor
  · simp [settled, success?_eq_some_iff.1 h, hy]
  · rcases looks_of_success? h with ⟨rfl, hcomplete⟩ | hlooks
    · rw [hy] at hcomplete
      cases hcomplete
    · exact runs_of_fresh hy hlooks

end Worker

namespace Compile

variable {c : Collaborators σ} {s : Schedule} {n : Nat} {xs ys : List (Worker σ)}

def unsettled (c : Collaborators σ) (xs : List (Worker σ)) : Nat := xs.countP (!·.settled c)

theorem unsettled_cons {x : Worker σ} :
    unsettled c (x :: xs) = unsettled c xs + if x.settled c then 0 else 1 := by
  unfold unsettled
  rw [List.countP_cons]
  cases x.settled c <;> rfl

/-- Whoever sees the flag raised, one build more has come to its end. -/
theorem unsettled_give {k : Nat} (h : ∃ x ∈ xs, x.runs c) :
    unsettled c (give c true k xs) < unsettled c xs := by
  induction xs generalizing k with
  | nil => simp at h
  | cons x xs ih =>
    unfold give
    split
    next hruns =>
      split
      next =>
        rw [unsettled_cons, unsettled_cons, Worker.settled_see hruns, Worker.settled_of_runs hruns]
        simp
      next hlater =>
        have hlater : ∃ x ∈ xs, x.runs c := by simpa using (not_or.1 hlater).2
        rw [unsettled_cons, unsettled_cons]
        exact Nat.add_lt_add_right (ih hlater) _
    next hruns =>
      have hlater : ∃ x ∈ xs, x.runs c := by
        obtain ⟨y, hy, hyruns⟩ := h
        rcases List.mem_cons.1 hy with rfl | hy
        · exact absurd hyruns hruns
        · exact ⟨y, hy, hyruns⟩
      rw [unsettled_cons, unsettled_cons]
      exact Nat.add_lt_add_right (ih hlater) _

theorem unsettled_filterMap_success? :
    unsettled c (xs.filterMap (·.success? c)) ≤ unsettled c xs := by
  induction xs with
  | nil => exact Nat.le_refl _
  | cons x xs ih =>
    cases hx : x.success? c with
    | none =>
      rw [List.filterMap_cons_none hx, unsettled_cons]
      exact Nat.le_add_right_of_le ih
    | some y =>
      rw [List.filterMap_cons_some hx, unsettled_cons, unsettled_cons]
      cases hy : y.work.complete with
      | true =>
        rw [if_pos (Worker.settled_of_complete hy)]
        exact Nat.le_add_right_of_le ih
      | false =>
        rw [(Worker.of_success? hx hy).1]
        exact Nat.add_le_add ih (by split <;> simp)

theorem roundEnd?_cases (c : Collaborators σ) (s : Schedule) (n : Nat) (xs : List (Worker σ)) :
    (∃ e, roundEnd? c s n xs = some (.error e) ∧ ∃ x ∈ xs, x.outcome? c = some (.error e)) ∨
      (roundEnd? c s n xs = some (.ok (xs.filterMap (·.success? c))) ∧
        ∀ x ∈ xs, (x.success? c).isSome) ∨
      roundEnd? c s n xs = none ∧ ∃ x ∈ xs, x.runs c := by
  have hruns : xs.all (!·.runs c) = false → ∃ x ∈ xs, x.runs c := fun h => by simpa using h
  unfold roundEnd?
  dsimp only
  split
  next e he =>
    split
    next =>
      obtain ⟨x, hx, hfailure⟩ := List.mem_filterMap.1 (List.mem_rotate.1 (List.mem_of_head? he))
      exact .inl ⟨e, rfl, x, hx, Worker.failure?_eq_some_iff.1 hfailure⟩
    next hgoes =>
      exact .inr (.inr ⟨rfl, hruns (Bool.or_eq_false_iff.1 (Bool.eq_false_of_not_eq_true hgoes)).2⟩)
  next hnone =>
    split
    next hended =>
      refine .inr (.inl ⟨rfl, fun x hx => ?_⟩)
      have hfailures : xs.filterMap (·.failure? c) = [] := by
        rwa [List.head?_eq_none_iff, List.rotate_eq_nil_iff] at hnone
      have hfailure := List.filterMap_eq_nil_iff.1 hfailures x hx
      have hover := List.all_eq_true.1 hended x hx
      exact Worker.isSome_success? (by simpa using hover) hfailure
    next hgoes => exact .inr (.inr ⟨rfl, hruns (Bool.eq_false_of_not_eq_true hgoes)⟩)

structure Follows (c : Collaborators σ) (xs ys : List (Worker σ)) : Prop where
  runs : ∃ y ∈ ys, y.runs c
  unsettled : unsettled c ys ≤ unsettled c xs
  length : ys.length ≤ xs.length

theorem follows_of_proceed (h : proceed c s n xs = .inr ys) : Follows c xs ys := by
  unfold proceed at h
  rcases roundEnd?_cases c s n xs with ⟨e', hr, -⟩ | ⟨hr, -⟩ | ⟨hr, hruns⟩
  · rw [hr] at h
    cases h
  · rw [hr] at h
    dsimp only at h
    split at h
    · cases h
    next hopen =>
      cases h
      obtain ⟨y, hy, hyopen⟩ := List.all_eq_false.1 (Bool.eq_false_of_not_eq_true hopen)
      have hyopen := Bool.eq_false_of_not_eq_true hyopen
      obtain ⟨x, -, hx⟩ := List.mem_filterMap.1 hy
      exact ⟨⟨y, hy, (Worker.of_success? hx hyopen).2⟩, unsettled_filterMap_success?,
        List.length_filterMap_le ..⟩
  · rw [hr] at h
    cases h
    exact ⟨hruns, Nat.le_refl _, Nat.le_refl _⟩

theorem length_give {look : Bool} {k : Nat} : (give c look k xs).length = xs.length := by
  induction xs generalizing k with
  | nil => rfl
  | cons x xs ih =>
    unfold give
    split
    · split
      · rfl
      · rw [List.length_cons, ih, List.length_cons]
    · rw [List.length_cons, ih, List.length_cons]

theorem isSome_roundsAbreast_of_raised {count : Nat} (h : unsettled c xs ≤ count) :
    (roundsAbreast c s n xs (List.replicate count true)).isSome := by
  induction count generalizing n xs with
  | zero =>
    unfold List.replicate roundsAbreast
    cases hp : proceed c s n xs with
    | inl result => rfl
    | inr ys =>
      have hfollows := follows_of_proceed hp
      have hgiven := unsettled_give (k := 0) hfollows.runs
      have hle := hfollows.unsettled
      omega
  | succ count ih =>
    rw [List.replicate_succ, roundsAbreast]
    cases hp : proceed c s n xs with
    | inl result => rfl
    | inr ys =>
      have hfollows := follows_of_proceed hp
      have hgiven := unsettled_give (k := s.turn n) hfollows.runs
      have hle := hfollows.unsettled
      exact ih (by omega)

/-- As many looks at the raised flag as there are builds lead to the end. -/
theorem isSome_roundsAbreast (looks : List Bool) {count : Nat} (h : xs.length ≤ count) :
    (roundsAbreast c s n xs (looks ++ List.replicate count true)).isSome := by
  induction looks generalizing n xs with
  | nil => exact isSome_roundsAbreast_of_raised ((List.countP_le_length ..).trans h)
  | cons look looks ih =>
    rw [List.cons_append, roundsAbreast]
    cases hp : proceed c s n xs with
    | inl result => rfl
    | inr ys => exact ih (length_give.trans_le ((follows_of_proceed hp).length.trans h))

section Lowered

variable {config : CompilerConfig} {es : List (String × List Requirement)}

theorem serves_give {k : Nat} (h : Forall₂ (Worker.Serves c config) es xs) :
    Forall₂ (Worker.Serves c config) es (give c false k xs) := by
  induction h generalizing k with
  | nil => exact .nil
  | @cons e x es xs hx hxs ih =>
    unfold give
    split
    · split
      · refine .cons ⟨?_, hx.work⟩ hxs
        simpa [Worker.see] using hx.lowered
      · exact .cons hx ih
    · exact .cons hx ih

theorem serves_of_roundEnd? {result : Except CompileError (List (Worker σ))}
    (h : Forall₂ (Worker.Serves c config) es xs) (hr : roundEnd? c s n xs = some result) :
    ∃ ys, result = .ok ys ∧ Forall₂ (Worker.Serves c config) es ys := by
  rcases roundEnd?_cases c s n xs with ⟨e, -, x, hx, hfailed⟩ | ⟨hok, hended⟩ | ⟨hnone, -⟩
  · obtain ⟨e', -, hserves⟩ := exists_of_mem_left h.flip hx
    obtain ⟨y, hy, -⟩ := hserves.of_outcome? hfailed
    cases hy
  · rw [hok] at hr
    cases hr
    refine ⟨_, rfl, ?_⟩
    clear hok
    induction h with
    | nil => exact .nil
    | @cons e x es xs hx _ ih =>
      obtain ⟨hxended, hended⟩ := List.forall_mem_cons.1 hended
      obtain ⟨y, hy⟩ := Option.isSome_iff_exists.1 hxended
      obtain ⟨y', hy', hserves⟩ := hx.of_outcome? (Worker.success?_eq_some_iff.1 hy)
      cases hy'
      rw [List.filterMap_cons_some hy]
      exact .cons hserves (ih hended)
  · rw [hnone] at hr
    cases hr

theorem serves_of_proceed (s : Schedule) (n : Nat) (h : Forall₂ (Worker.Serves c config) es xs) :
    (∃ bs, proceed c s n xs = .inl (.ok bs) ∧
      Forall₂ (fun e b => b.complete ∧ b.Serves c.watched config e) es bs) ∨
      ∃ ys, proceed c s n xs = .inr ys ∧ Forall₂ (Worker.Serves c config) es ys := by
  unfold proceed
  cases hr : roundEnd? c s n xs with
  | none => exact .inr ⟨xs, rfl, h⟩
  | some result =>
    obtain ⟨ys, rfl, hys⟩ := serves_of_roundEnd? h hr
    dsimp only
    split
    next hcomplete =>
      refine .inl ⟨_, rfl, List.forall₂_map_right_iff.2 ?_⟩
      refine .flip ((List.forall₂_and_left _ _).2 ⟨List.all_eq_true.1 hcomplete, ?_⟩)
      exact (hys.imp fun _ _ hy => hy.work).flip
    next => exact .inr ⟨ys, rfl, hys⟩

theorem serves_of_roundsAbreast {looks : List Bool} {result : Except CompileError (List OpenBuild)}
    (hlooks : true ∉ looks) (h : Forall₂ (Worker.Serves c config) es xs)
    (hr : roundsAbreast c s n xs looks = some result) :
    ∃ bs, result = .ok bs ∧
      Forall₂ (fun e b => b.complete ∧ b.Serves c.watched config e) es bs := by
  induction looks generalizing n xs with
  | nil =>
    unfold roundsAbreast at hr
    obtain ⟨bs, hp, hbs⟩ | ⟨ys, hp, -⟩ := serves_of_proceed s n h
    · rw [hp] at hr
      cases hr
      exact ⟨bs, rfl, hbs⟩
    · rw [hp] at hr
      cases hr
  | cons look looks ih =>
    rw [List.mem_cons, not_or] at hlooks
    obtain rfl : look = false := by simpa using hlooks.1
    unfold roundsAbreast at hr
    obtain ⟨bs, hp, hbs⟩ | ⟨ys, hp, hys⟩ := serves_of_proceed s n h
    · rw [hp] at hr
      cases hr
      exact ⟨bs, rfl, hbs⟩
    · rw [hp] at hr
      exact ih hlooks.2 (serves_give hys) hr

end Lowered

section Builder

variable (c : Collaborators σ) (s : Schedule) (config : CompilerConfig) (initialization : Nat)
  (request : CompileRequest) (w : σ) (worlds : String → σ)

/-- The graphs of a request, with the builds side by side, each in its own world. -/
def graphsAbreast (looks : List Bool) :
    Option (Except CompileError (SortedMap String CompiledGraph)) :=
  match startAll config request with
  | .error e => some (.error e)
  | .ok bs =>
    let workers := bs.map fun b => { work := b, world := worlds b.configuration : Worker σ }
    (roundsAbreast c s 0 workers looks).map (·.bind finishAll)

def outcomeAbreast? (looks : List Bool) : Option (Except CompileError CompiledGraphSet) :=
  let (portfolio, w) :=
    requestedPortfolio c.watched (Watched.flag looks) request (looks.length + 1) { world := w }
  if w.looks ≤ looks.length then
    match portfolio with
    | none => none
    | some (.error e) => some (.error e)
    | some (.ok portfolio) =>
      let set (compiled : SortedMap String CompiledGraph) : CompiledGraphSet :=
        { initialization, time := request.time, portfolio, compiled }
      (graphsAbreast c s config request worlds (looks.drop w.looks)).map (·.map set)
  else none

theorem isSome_graphsAbreast (looks : List Bool) {count : Nat}
    (hcount : request.requirements.size ≤ count) :
    (graphsAbreast c s config request worlds (looks ++ List.replicate count true)).isSome := by
  obtain ⟨bs, hbs, hstarted⟩ := exists_startAll c config request
  unfold graphsAbreast
  rw [hbs]
  dsimp only
  rw [Option.isSome_map]
  refine isSome_roundsAbreast looks ?_
  rw [List.length_map, ← hstarted.length_eq]
  exact hcount

theorem exists_graphsAbreast {looks : List Bool} (hlooks : true ∉ looks)
    {result : Except CompileError (SortedMap String CompiledGraph)}
    (h : graphsAbreast c s config request worlds looks = some result) :
    ∃ compiled : SortedMap String CompiledGraph, result = .ok compiled ∧
      Forall₂ (fun e x => e.1 = x.1 ∧ Brings c.watched config e x.2) request.requirements.entries
        compiled.entries := by
  obtain ⟨bs, hbs, hstarted⟩ := exists_startAll c.watched config request
  unfold graphsAbreast at h
  rw [hbs] at h
  dsimp only at h
  obtain ⟨built, hbuilt, rfl⟩ := Option.map_eq_some_iff.1 h
  have hserves : Forall₂ (Worker.Serves c config) request.requirements.entries
      (bs.map fun b => { work := b, world := worlds b.configuration }) :=
    List.forall₂_map_right_iff.2 (hstarted.imp fun _ _ hb => ⟨List.not_mem_nil, hb.1⟩)
  obtain ⟨bs', rfl, hcomplete⟩ := serves_of_roundsAbreast hlooks hserves hbuilt
  exact exists_finishAll hcomplete

theorem isSome_outcomeAbreast?_of_raised (looks : List Bool) :
    (outcomeAbreast? c s config initialization request w worlds
      (looks ++ List.replicate (request.requirements.size + 1) true)).isSome := by
  have hraised := raisedFrom_append looks (request.requirements.size + 1)
  have hlength : (looks ++ List.replicate (request.requirements.size + 1) true).length =
      looks.length + (request.requirements.size + 1) := by simp
  generalize hanswers : looks ++ List.replicate (request.requirements.size + 1) true = answers
    at hraised hlength ⊢
  have hportfolio := looks_requestedPortfolio_of_raised hraised (c := c) request
    (answers.length + 1) (Nat.succ_pos _) (w := { world := w }) (Nat.zero_le _)
  have hnone := looks_requestedPortfolio_none (c := c) (w := { world := w }) answers request
    (answers.length + 1)
  unfold outcomeAbreast?
  generalize requestedPortfolio c.watched (Watched.flag answers) request (answers.length + 1)
    { world := w } = x at hportfolio hnone ⊢
  obtain ⟨portfolio, w'⟩ := x
  dsimp only at hportfolio hnone ⊢
  obtain ⟨hle, hnext⟩ := hportfolio
  rw [if_pos (by omega)]
  match portfolio with
  | none =>
    have := hnone rfl
    have := hnext nofun
    omega
  | some (.error e) => rfl
  | some (.ok portfolio) =>
    dsimp only
    rw [Option.isSome_map, ← hanswers, List.drop_append_of_le_length (hnext nofun)]
    exact isSome_graphsAbreast c s config request worlds _ (Nat.le_succ _)

/--
A compilation with the configurations side by side succeeds, if it ends and nothing cancels it, on
any schedule and in any worlds. As with one build after another, it brings one graph for each
configuration of the request, and no other, for just the requirements of that configuration.
-/
theorem brings_of_outcomeAbreast? {looks : List Bool} (hlooks : true ∉ looks)
    {result : Except CompileError CompiledGraphSet}
    (h : outcomeAbreast? c s config initialization request w worlds looks = some result) :
    ∃ set, result = .ok set ∧ set.configurations = request.requirements.keys ∧
      ∀ configuration qs, request.requirements.get? configuration = some qs →
        ∃ x, set.compiled.get? configuration = some x ∧
          Brings c.watched config (configuration, qs) x := by
  unfold outcomeAbreast? at h
  dsimp only at h
  split at h
  next =>
    split at h
    next => cases h
    next e hp =>
      obtain ⟨t, ht⟩ := exists_requestedPortfolio (Watched.lowered_flag hlooks) hp
      cases ht
    next portfolio hp =>
      obtain ⟨compiled, hcompiled, rfl⟩ := Option.map_eq_some_iff.1 h
      have hrest : true ∉ looks.drop (requestedPortfolio c.watched (Watched.flag looks) request
          (looks.length + 1) { world := w }).2.looks := fun hmem =>
        hlooks (List.mem_of_mem_drop hmem)
      obtain ⟨compiled, rfl, hall⟩ :=
        exists_graphsAbreast c s config request worlds hrest hcompiled
      exact ⟨_, rfl, brings_of_forall₂ hall⟩
  next => cases h

def builderAbreast : Builder CompiledGraphSet where
  result? := outcomeAbreast? c s config initialization request w worlds
  honest _ hlooks h := by
    obtain ⟨set, hset, -⟩ :=
      brings_of_outcomeAbreast? c s config initialization request w worlds hlooks h
    cases hset
  bound := request.requirements.size + 1
  prompt := isSome_outcomeAbreast?_of_raised c s config initialization request w worlds

end Builder

end Compile

/--
Cancellation and completion of a compilation exclude each other, whatever its collaborators answer
and whoever asks for its cancellation, in any order of steps. This is so whether the configurations
are built one after another or side by side on any schedule.
-/
theorem Compiler.excludes_compile (compiler : Compiler) (c : Collaborators σ) (s : Schedule)
    (request : CompileRequest) (w : σ) (worlds : String → σ) (moves : List Move) :
    let b :=
      if compiler.config.parallel then
        Compile.builderAbreast c s compiler.config compiler.next request w worlds
      else Compile.builder c compiler.config compiler.next request w
    Race.Excludes b (Race.run b {} moves) :=
  Race.excludes_run _ moves

end ValueGraph
