import ValueGraph.Resolution.Failure

namespace ValueGraph

theorem FailureKind.richer_cases (a b : FailureKind) : a.richer b = a ∨ a.richer b = b := by
  unfold richer
  split
  · exact .inr rfl
  · exact .inl rfl

theorem FailureKind.rank_richer (a b : FailureKind) : (a.richer b).rank = max a.rank b.rank := by
  unfold richer
  split
  · omega
  · omega

namespace Failure

/-- Is there a failure of the kind in the chain? -/
inductive Involves (kind : FailureKind) : Failure → Prop
  | self {f : Failure} (h : f.kind = kind) : Involves kind f
  | cause {f g : Failure} (hg : g ∈ f.causes) (h : Involves kind g) : Involves kind f

variable {q : Requirement} {f : Failure} {fs gs : List Failure} {kind kind' : FailureKind}
  {function : String} {v : ValueSpec} {maxDepth : Nat}

theorem involves_iff : f.Involves kind ↔ f.kind = kind ∨ ∃ g ∈ f.causes, g.Involves kind := by
  constructor
  · intro h
    cases h with
    | self h => exact .inl h
    | cause hg h => exact .inr ⟨_, hg, h⟩
  · rintro (h | ⟨g, hg, h⟩)
    · exact .self h
    · exact .cause hg h

/--
Does the failure say nothing of the requirement itself? It was cancelled, or recursion was in the
way, which hangs on what else was going on.
-/
def Passing (f : Failure) : Prop := f.kind = .cancelled ∨ f.Involves .recursionDetected

theorem involves_of_causes_eq_nil (h : f.causes = []) : f.Involves kind ↔ f.kind = kind := by
  rw [involves_iff, h]
  simp

section Kinds

mutual

theorem involves_richestKind : (f : Failure) → f.Involves f.richestKind
  | ⟨_, kind, _, _, causes⟩ => by
    rw [richestKind, involves_iff]
    exact (richestOf_cases kind causes).imp_left Eq.symm

theorem richestOf_cases : (kind : FailureKind) → (fs : List Failure) →
    richestOf kind fs = kind ∨ ∃ f ∈ fs, f.Involves (richestOf kind fs)
  | _, [] => .inl rfl
  | kind, f :: fs => by
    rw [richestOf]
    rcases richestOf_cases (kind.richer f.richestKind) fs with h | ⟨g, hg, h⟩
    · rw [h]
      rcases kind.richer_cases f.richestKind with he | he
      · exact .inl he
      · rw [he]
        exact .inr ⟨f, List.mem_cons_self, involves_richestKind f⟩
    · exact .inr ⟨g, List.mem_cons_of_mem _ hg, h⟩

end

theorem rank_le_richestOf : kind.rank ≤ (richestOf kind fs).rank := by
  induction fs generalizing kind with
  | nil => exact Nat.le_refl _
  | cons f fs ih =>
    rw [richestOf]
    refine Nat.le_trans ?_ ih
    rw [FailureKind.rank_richer]
    exact Nat.le_max_left _ _

mutual

theorem rank_le_richestKind : (f : Failure) → f.Involves kind → kind.rank ≤ f.richestKind.rank
  | ⟨_, kind', _, _, causes⟩, h => by
    rw [richestKind]
    rcases involves_iff.1 h with h | ⟨f, hf, h⟩
    · subst h
      exact rank_le_richestOf
    · exact rank_le_richestOf_of_mem kind' causes hf h

theorem rank_le_richestOf_of_mem : (kind' : FailureKind) → (fs : List Failure) → {f : Failure} →
    f ∈ fs → f.Involves kind → kind.rank ≤ (richestOf kind' fs).rank
  | kind', f :: fs, g, hg, h => by
    rw [richestOf]
    rcases List.mem_cons.1 hg with he | hg
    · rw [he] at h
      refine Nat.le_trans (rank_le_richestKind f h) (Nat.le_trans ?_ rank_le_richestOf)
      rw [FailureKind.rank_richer]
      exact Nat.le_max_right _ _
    · exact rank_le_richestOf_of_mem _ fs hg h

end

@[simp] theorem involves_ofKind : (ofKind kind' q).Involves kind ↔ kind' = kind :=
  involves_of_causes_eq_nil rfl

@[simp] theorem involves_noTarget : (noTarget q).Involves kind ↔ .unresolvedTarget = kind :=
  involves_of_causes_eq_nil rfl

@[simp] theorem involves_tooDeep :
    (tooDeep q maxDepth).Involves kind ↔ .recursionDetected = kind :=
  involves_of_causes_eq_nil rfl

@[simp] theorem involves_mismatch :
    (mismatch q function v).Involves kind ↔ .couldNotResolve = kind :=
  involves_of_causes_eq_nil rfl

@[simp] theorem involves_ofCandidate :
    (ofCandidate q function f).Involves kind ↔ .couldNotResolve = kind ∨ f.Involves kind := by
  rw [involves_iff]
  simp [ofCandidate]

@[simp] theorem involves_exhausted : (exhausted q fs).Involves kind ↔
    fs = [] ∧ .couldNotResolve = kind ∨ ∃ f ∈ fs, f.Involves kind := by
  rw [involves_iff]
  cases fs with
  | nil => simp [exhausted]
  | cons f fs =>
    refine ⟨?_, ?_⟩
    · rintro (h | h)
      · subst h
        refine .inr ?_
        rcases richestOf_cases f.richestKind fs with he | ⟨g, hg, h⟩
        · refine ⟨f, List.mem_cons_self, ?_⟩
          show f.Involves (richestOf f.richestKind fs)
          rw [he]
          exact involves_richestKind f
        · exact ⟨g, List.mem_cons_of_mem _ hg, h⟩
      · exact .inr h
    · rintro (⟨h, -⟩ | h)
      · cases h
      · exact .inr h

/-- Does no kind in the chain tell more than the failure's own? -/
def Foremost (f : Failure) : Prop := ∀ kind, f.Involves kind → kind.rank ≤ f.kind.rank

theorem foremost_of_causes_eq_nil (h : f.causes = []) : f.Foremost := by
  intro kind hk
  have he : f.kind = kind := (involves_of_causes_eq_nil h).1 hk
  exact Nat.le_of_eq (congrArg FailureKind.rank he.symm)

theorem foremost_exhausted : (exhausted q fs).Foremost := by
  intro kind hk
  cases fs with
  | nil => exact foremost_of_causes_eq_nil rfl kind hk
  | cons f fs =>
    show kind.rank ≤ (richestOf f.richestKind fs).rank
    rcases involves_exhausted.1 hk with ⟨hnil, -⟩ | ⟨g, hg, hcause⟩
    · cases hnil
    · rcases List.mem_cons.1 hg with rfl | hg
      · exact Nat.le_trans (rank_le_richestKind g hcause) rank_le_richestOf
      · exact rank_le_richestOf_of_mem _ fs hg hcause

end Kinds

section Recursion

mutual

theorem involvesRecursion_iff :
    (f : Failure) → (f.involvesRecursion = true ↔ f.Involves .recursionDetected)
  | ⟨_, kind, _, _, causes⟩ => by
    rw [involvesRecursion, involves_iff, Bool.or_eq_true, decide_eq_true_eq,
      anyInvolvesRecursion_iff causes]

theorem anyInvolvesRecursion_iff : (fs : List Failure) →
    (anyInvolvesRecursion fs = true ↔ ∃ f ∈ fs, f.Involves .recursionDetected)
  | [] => by simp [anyInvolvesRecursion]
  | f :: fs => by
    rw [anyInvolvesRecursion, Bool.or_eq_true, involvesRecursion_iff f, anyInvolvesRecursion_iff fs]
    simp

end

@[simp] theorem involvesRecursion_ofKind :
    (ofKind kind q).involvesRecursion = decide (kind = .recursionDetected) := by
  rw [Bool.eq_iff_iff, involvesRecursion_iff]
  simp

@[simp] theorem involvesRecursion_noTarget : (noTarget q).involvesRecursion = false := by
  rw [Bool.eq_false_iff, Ne, involvesRecursion_iff]
  simp

@[simp] theorem involvesRecursion_tooDeep : (tooDeep q maxDepth).involvesRecursion = true := by
  rw [involvesRecursion_iff]
  simp

@[simp] theorem involvesRecursion_mismatch : (mismatch q function v).involvesRecursion = false := by
  rw [Bool.eq_false_iff, Ne, involvesRecursion_iff]
  simp

@[simp] theorem involvesRecursion_ofCandidate :
    (ofCandidate q function f).involvesRecursion = f.involvesRecursion := by
  rw [Bool.eq_iff_iff, involvesRecursion_iff, involvesRecursion_iff]
  simp

@[simp] theorem anyInvolvesRecursion_append :
    anyInvolvesRecursion (fs ++ gs) = (anyInvolvesRecursion fs || anyInvolvesRecursion gs) := by
  rw [Bool.eq_iff_iff, Bool.or_eq_true]
  simp only [anyInvolvesRecursion_iff, List.mem_append, or_and_right, exists_or]

@[simp] theorem involvesRecursion_exhausted :
    (exhausted q fs).involvesRecursion = anyInvolvesRecursion fs := by
  rw [Bool.eq_iff_iff, involvesRecursion_iff, anyInvolvesRecursion_iff]
  simp

end Recursion

end Failure

end ValueGraph
