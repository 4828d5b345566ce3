import ValueGraph.Resolution.Policy

namespace ValueGraph

namespace PropertyValues

variable {offered wanted : PropertyValues} {v : String} {values : SortedSet String}

@[simp] theorem serves_any : offered.serves any = true := rfl

@[simp] theorem any_serves : any.serves wanted = true := by cases wanted <;> rfl

theorem among_serves_among {o w : SortedSet String} :
    (among o).serves (among w) = true ↔ ∃ v, v ∈ w ∧ v ∈ o := by
  show w.meets o = true ↔ _
  simp [SortedSet.meets, SortedSet.mem_toList]

theorem single_serves (hv : v ∈ values) : (single v).serves (among values) = true :=
  among_serves_among.2 ⟨v, hv, by simp⟩

theorem serves_among_empty : offered.serves (among ∅) = !offered.isListed := by
  cases offered <;> rfl

theorem ofList_toList : ofList values.toList = if values = ∅ then any else among values := by
  by_cases he : values = ∅
  · subst he
    rfl
  · obtain ⟨v, hv⟩ := SortedSet.exists_mem_iff.2 he
    unfold ofList
    rw [if_neg (List.ne_nil_of_mem hv), if_neg he, SortedSet.ofList_toList]

/-- Taking an empty list for a wildcard refuses nothing that serves the list. -/
theorem serves_ofList_of_serves (h : offered.serves (among values) = true) :
    offered.serves (ofList values.toList) = true := by
  rw [ofList_toList]
  split
  · exact serves_any
  · exact h

end PropertyValues

namespace Properties

/-- Where values are listed, there is one at least. -/
def Satisfiable (p : Properties) : Prop :=
  ∀ name values, p.get? name = some (.among values) → ∃ v, v ∈ values

/--
Is the property constrained to no value at all, and offered with listed ones? The function is fitted
whatever is offered of it, so it is never starved.
-/
def StarvedAt (constraints offer : Properties) (name : String) : Prop :=
  name ≠ functionProperty ∧ constraints.get? name = some (.among ∅) ∧
    (offer.get? name).any (·.isListed) = true

variable {p offer : Properties}

theorem satisfiable_iff : p.Satisfiable ↔ ∀ e ∈ p.values.entries, e.2 ≠ .among ∅ := by
  unfold Satisfiable get?
  simp only [SortedSet.exists_mem_iff, SortedMap.get?_eq_some_iff, Prod.forall]
  constructor
  · rintro h name _ hv rfl
    exact h name ∅ hv rfl
  · rintro h name _ hv rfl
    exact h name _ hv rfl

instance : Decidable p.Satisfiable := decidable_of_iff' _ satisfiable_iff

theorem satisfiedBy_iff :
    p.satisfiedBy offer = true ↔ ∀ name wanted, p.get? name = some wanted →
      ∃ offered, offer.get? name = some offered ∧ offered.serves wanted = true := by
  unfold satisfiedBy get?
  simp only [List.all_eq_true, Option.any_eq_true, SortedMap.get?_eq_some_iff, Prod.forall]

theorem Satisfiable.not_starvedAt (h : p.Satisfiable) (name : String) :
    ¬ p.StarvedAt offer name := by
  rintro ⟨-, hp, -⟩
  exact SortedSet.exists_mem_iff.1 (h name ∅ hp) rfl

theorem not_starvedAt_of_satisfiedBy (h : p.satisfiedBy offer = true) (name : String) :
    ¬ p.StarvedAt offer name := by
  rintro ⟨-, hp, hlisted⟩
  obtain ⟨offered, ho, hs⟩ := satisfiedBy_iff.1 h name _ hp
  rw [PropertyValues.serves_among_empty] at hs
  rw [ho, Option.any_some] at hlisted
  simp [hlisted] at hs

theorem ext_get? (h : ∀ name, p.get? name = offer.get? name) : p = offer := by
  obtain ⟨m⟩ := p
  obtain ⟨m'⟩ := offer
  rw [Properties.mk.injEq]
  exact SortedMap.ext_get? h

end Properties

namespace Choice

/-- Every choice is one of the values that it was made among. -/
def Among (choose : Choice) : Prop := ∀ name values v, choose name values = some v → v ∈ values

variable {choose : Choice} {name : String} {values : SortedSet String}
  {wanted offered : PropertyValues} {available fitted : Properties}

section Fit

theorem Among.pick_cases (hc : choose.Among) (name : String) (values : SortedSet String) :
    choose.pick name values = .any ∨ ∃ v ∈ values, choose.pick name values = .single v := by
  unfold pick
  split
  next v hv => exact .inr ⟨v, hc name values v hv, rfl⟩
  next => exact .inl rfl

theorem Among.pick_serves (hc : choose.Among) :
    (choose.pick name values).serves (.among values) = true := by
  rcases hc.pick_cases name values with h | ⟨v, hv, h⟩
  · rw [h, PropertyValues.any_serves]
  · rw [h]
    exact PropertyValues.single_serves hv

/-- An empty list of values is taken for a wildcard when the data are looked at. -/
theorem fit_of_serves_ofList (ho : available.get? name = some offered)
    (hs : offered.serves (.ofList values.toList) = true) :
    choose.fit available name (.among values) = offered := by
  simp [fit, ho, hs]

theorem fit_of_serves (ho : available.get? name = some offered)
    (hs : offered.serves wanted = true) : choose.fit available name wanted = offered := by
  cases wanted with
  | any => simp [fit, ho]
  | among values => exact fit_of_serves_ofList ho (PropertyValues.serves_ofList_of_serves hs)

theorem fit_of_not_serves (hne : values ≠ ∅)
    (hs : ∀ offered, available.get? name = some offered →
      ¬ offered.serves (.among values) = true) :
    choose.fit available name (.among values) = choose.pick name values := by
  unfold fit
  cases ho : available.get? name with
  | none => rfl
  | some offered => simp [PropertyValues.ofList_toList, hne, hs offered ho]

theorem Among.fit_serves_ofList (hc : choose.Among) :
    (choose.fit available name (.among values)).serves (.ofList values.toList) = true := by
  have hpick : (choose.pick name values).serves (.ofList values.toList) = true :=
    PropertyValues.serves_ofList_of_serves hc.pick_serves
  unfold fit
  dsimp only
  -- What is offered is kept if it serves; else the policy picks among what is wanted.
  split
  · split
    next hs => exact hs
    next => exact hpick
  · exact hpick

/-- Where no value is allowed, whatever is available is kept. -/
theorem Among.fit_among_empty (hc : choose.Among) : choose.fit available name (.among ∅) =
    (available.get? name).getD .any := by
  cases ho : available.get? name with
  | none =>
    unfold fit
    rw [ho]
    rcases hc.pick_cases name ∅ with h | ⟨v, hv, -⟩
    · exact h
    · exact absurd hv SortedSet.not_mem_empty
  | some offered => exact fit_of_serves_ofList ho rfl

theorem Among.fit_serves_iff (hc : choose.Among) :
    (choose.fit available name wanted).serves wanted = true ↔
      ¬ (wanted = .among ∅ ∧ (available.get? name).any (·.isListed) = true) := by
  cases wanted with
  | any => simp
  | among values =>
    by_cases he : values = ∅
    · subst he
      rw [hc.fit_among_empty, PropertyValues.serves_among_empty]
      cases available.get? name <;> simp [PropertyValues.isListed]
    · have hs : (choose.fit available name (.among values)).serves (.ofList values.toList) = true :=
        hc.fit_serves_ofList
      rw [PropertyValues.ofList_toList, if_neg he] at hs
      simp [hs, he]

/-- Fitting what was fitted changes nothing. -/
theorem Among.fit_fit (hc : choose.Among)
    (hf : fitted.get? name = some (choose.fit available name wanted)) :
    choose.fit fitted name wanted = choose.fit available name wanted := by
  cases wanted with
  | any => simp [fit, hf]
  | among values => exact fit_of_serves_ofList hf hc.fit_serves_ofList

theorem Among.fitFunction_serves (hc : choose.Among) :
    (choose.fitFunction (some wanted)).serves wanted = true := by
  cases wanted with
  | any => exact PropertyValues.serves_any
  | among values =>
    show (if values.size = 1 then PropertyValues.among values
      else choose.pick functionProperty values).serves _ = true
    split
    next hsize =>
      obtain ⟨v, hv⟩ := List.length_eq_one_iff.1 hsize
      have hmem : v ∈ values := by
        rw [← SortedSet.mem_toList, hv]
        exact List.mem_singleton_self v
      exact PropertyValues.among_serves_among.2 ⟨v, hmem, hmem⟩
    next => exact hc.pick_serves

end Fit

section Reconcile

theorem get?_foldl_fit {available properties : Properties} {l : List (String × PropertyValues)}
    (hl : (l.map (·.1)).Nodup) (hname : name ≠ functionProperty) :
    (l.foldl (fun properties (name, wanted) =>
      if name = functionProperty then properties
      else properties.set name (choose.fit available name wanted)) properties).get? name =
      (l.find? (·.1 = name)).elim (properties.get? name) fun e =>
        some (choose.fit available name e.2) := by
  induction l generalizing properties with
  | nil => rfl
  | cons e l ih =>
    obtain ⟨n, w⟩ := e
    obtain ⟨hn, hl⟩ := List.nodup_cons.1 hl
    rw [List.foldl_cons, ih hl, List.find?_cons]
    by_cases he : n = name
    · -- The names are all different, so the property is set once.
      subst he
      have hnone : l.find? (·.1 = n) = none := by
        rw [List.find?_eq_none]
        intro e he hen
        exact hn (List.mem_map.2 ⟨e, he, by simpa using hen⟩)
      simp [hnone, hname, Properties.get?_set]
    · have hsame : (if n = functionProperty then properties
          else properties.set n (choose.fit available n w)).get? name = properties.get? name := by
        split
        · rfl
        · rw [Properties.get?_set, if_neg he]
      simp only [he, decide_false, hsame]

theorem get?_reconcile {q : Requirement} {available : ValueSpec} :
    (choose.reconcile q available).get? name =
      if functionProperty = name then some (choose.fitFunction (q.constraints.get? functionProperty))
      else (q.constraints.get? name).elim (available.properties.get? name) fun wanted =>
        some (choose.fit available.properties name wanted) := by
  have hkeys : (q.constraints.values.entries.map (·.1)).Nodup := SortedMap.nodup_keys
  unfold reconcile
  dsimp only
  rw [Properties.get?_set]
  by_cases hf : functionProperty = name
  · rw [if_pos hf, if_pos hf]
  · rw [if_neg hf, if_neg hf, get?_foldl_fit hkeys (Ne.symm hf)]
    unfold Properties.get? SortedMap.get?
    cases q.constraints.values.entries.find? (·.1 = name) <;> rfl

end Reconcile

end Choice

namespace Policy

/-- Does the policy choose among what it is given, and leave the fitting as it is? -/
structure Chooses (p : Policy) : Prop where
  among : p.choose.Among
  reconcile_eq : p.reconcile = p.choose.reconcile

theorem chooses_lowest : lowest.Chooses where
  among _ _ _ hv := List.mem_of_mem_head? hv
  reconcile_eq := rfl

theorem chooses_highest : highest.Chooses where
  among _ _ _ hv := List.mem_of_getLast? hv
  reconcile_eq := rfl

theorem chooses_never : never.Chooses where
  among := nofun
  reconcile_eq := rfl

variable {p : Policy} {name : String} {wanted : PropertyValues}

theorem Chooses.get?_reconcile (hp : p.Chooses) {q : Requirement} {available : ValueSpec} :
    (p.reconcile q available).get? name =
      if functionProperty = name then
        some (p.choose.fitFunction (q.constraints.get? functionProperty))
      else (q.constraints.get? name).elim (available.properties.get? name) fun wanted =>
        some (p.choose.fit available.properties name wanted) := by
  rw [hp.reconcile_eq, Choice.get?_reconcile]

/-- A constrained property is defined on the copy, and meets its constraint unless starved. -/
theorem Chooses.reconcile_serves_iff (hp : p.Chooses) {q : Requirement} (spec : ValueSpec)
    (hw : q.constraints.get? name = some wanted) :
    ∃ fitted, (p.reconcile q spec).get? name = some fitted ∧
      (fitted.serves wanted = true ↔ ¬ q.constraints.StarvedAt spec.properties name) := by
  rw [hp.get?_reconcile]
  unfold Properties.StarvedAt
  -- The function is fitted last and by a rule of its own.
  by_cases hf : functionProperty = name
  · subst hf
    rw [if_pos rfl, hw]
    exact ⟨_, rfl, by simp [hp.among.fitFunction_serves]⟩
  · rw [if_neg hf, hw]
    exact ⟨_, rfl, by simp [hp.among.fit_serves_iff, Ne.symm hf]⟩

/-- The copy meets the requirement unless one of its properties is starved. -/
theorem Chooses.satisfiedBy_reconcile_iff (hp : p.Chooses) (q : Requirement) (spec : ValueSpec) :
    q.constraints.satisfiedBy (p.reconcile q spec) = true ↔
      ∀ name, ¬ q.constraints.StarvedAt spec.properties name := by
  rw [Properties.satisfiedBy_iff]
  constructor
  · intro h name hstarved
    obtain ⟨fitted, hfitted, hiff⟩ := hp.reconcile_serves_iff spec hstarved.2.1
    obtain ⟨offered, hoffered, hserves⟩ := h name _ hstarved.2.1
    rw [hfitted] at hoffered
    cases hoffered
    exact hiff.1 hserves hstarved
  · intro h name wanted hw
    obtain ⟨fitted, hfitted, hiff⟩ := hp.reconcile_serves_iff spec hw
    exact ⟨fitted, hfitted, hiff.2 (h name)⟩

theorem Chooses.satisfiedBy_reconcile (hp : p.Chooses) {q : Requirement}
    (hq : q.constraints.Satisfiable) (available : ValueSpec) :
    q.constraints.satisfiedBy (p.reconcile q available) = true :=
  (hp.satisfiedBy_reconcile_iff q available).2 fun name => hq.not_starvedAt name

/-- A copy of a copy has the same properties, whatever the copy is published as. -/
theorem Chooses.reconcile_reconcile (hp : p.Chooses) {q : Requirement} {spec copy : ValueSpec}
    (hc : copy.properties = p.reconcile q spec) : p.reconcile q copy = p.reconcile q spec := by
  apply Properties.ext_get?
  intro name
  rw [hp.get?_reconcile, hc]
  by_cases hf : functionProperty = name
  · rw [if_pos hf, hp.get?_reconcile, if_pos hf]
  · rw [if_neg hf]
    cases hw : q.constraints.get? name with
    | none => rfl
    | some wanted =>
      have hfitted : (p.reconcile q spec).get? name =
          some (p.choose.fit spec.properties name wanted) := by
        rw [hp.get?_reconcile, if_neg hf, hw]
        rfl
      rw [hfitted]
      exact congrArg some (hp.among.fit_fit hfitted)

/--
Does `fitted` differ from what is available only where the requirement makes it, and is it left as
it is when it is fitted again?
-/
structure Adjusts (p : Policy) (q : Requirement) (available fitted : Properties) : Prop where
  /-- Nothing is wanted of the property. -/
  unconstrained : ∀ name, name ≠ functionProperty → q.constraints.get? name = none →
    fitted.get? name = available.get? name
  /-- What is available will do. -/
  met : ∀ name, name ≠ functionProperty → ∀ wanted offered,
    q.constraints.get? name = some wanted → available.get? name = some offered →
    offered.serves wanted = true → fitted.get? name = some offered
  /-- Nothing is available, or it will not do. -/
  unmet : ∀ name, name ≠ functionProperty → ∀ wanted, q.constraints.get? name = some wanted →
    (∀ offered, available.get? name = some offered → ¬ offered.serves wanted = true) →
    fitted.get? name = some .any ∨
      ∃ values, wanted = .among values ∧ ∃ v ∈ values, fitted.get? name = some (.single v)
  kept : ∀ name, (available.get? name).isSome → (fitted.get? name).isSome
  again : ∀ target, p.reconcile q { name := q.name, target, properties := fitted } = fitted

/--
Where each constraint can be met at all, a copy has what is available but for the properties that
will not do, and a copy of the copy has the same properties.
-/
theorem adjusts_reconcile (hp : p.Chooses) {q : Requirement} (hq : q.constraints.Satisfiable)
    (spec : ValueSpec) : p.Adjusts q spec.properties (p.reconcile q spec) where
  unconstrained name hf hw := by
    rw [hp.get?_reconcile, if_neg hf.symm, hw]
    rfl
  met name hf wanted offered hw ho hs := by
    rw [hp.get?_reconcile, if_neg hf.symm, hw]
    exact congrArg some (Choice.fit_of_serves ho hs)
  unmet name hf wanted hw hs := by
    rw [hp.get?_reconcile, if_neg hf.symm, hw]
    cases wanted with
    | any =>
      -- Whatever is offered will do, so nothing is offered.
      cases ho : spec.properties.get? name with
      | none => exact .inl (by simp [Choice.fit, ho])
      | some offered => exact absurd PropertyValues.serves_any (hs offered ho)
    | among values =>
      have hne : values ≠ ∅ := SortedSet.exists_mem_iff.1 (hq name values hw)
      rw [Option.elim_some, Choice.fit_of_not_serves hne hs]
      rcases hp.among.pick_cases name values with h | ⟨v, hv, h⟩
      · exact .inl (congrArg some h)
      · exact .inr ⟨values, rfl, v, hv, congrArg some h⟩
  kept name ha := by
    rw [hp.get?_reconcile]
    split
    · rfl
    · cases q.constraints.get? name with
      | none => exact ha
      | some wanted => rfl
  again target := hp.reconcile_reconcile rfl

def usdOrEur : Requirement where
  name := "DiscountCurve"
  target := .known ⟨.security, "Bond"⟩
  constraints := ((Properties.withValues ∅ "Ccy" ["USD", "EUR"]).withAny "Tenor").withValues
    functionProperty ["Interpolated", "Bootstrapped"]

def gbpCurve : ValueSpec where
  name := "Curve"
  target := ⟨.security, "Gilt"⟩
  properties := (Properties.withValue ∅ "Ccy" "GBP").withValue "Rating" "AA"

/-- The currency will not do, the tenor and the function are new, and the rating stays. -/
theorem adjusts_reconcile_gbpCurve :
    lowest.Chooses ∧ usdOrEur.constraints.Satisfiable ∧
      lowest.Adjusts usdOrEur gbpCurve.properties (lowest.reconcile usdOrEur gbpCurve) ∧
      lowest.reconcile usdOrEur gbpCurve =
        (((Properties.withValue ∅ "Ccy" "EUR").withValue functionProperty "Bootstrapped").withValue
          "Rating" "AA").withAny "Tenor" := by
  have hp := chooses_lowest
  have hq : usdOrEur.constraints.Satisfiable := by decide +kernel
  exact ⟨hp, hq, adjusts_reconcile hp hq gbpCurve, by decide +kernel⟩

end Policy

end ValueGraph
