import ValueGraph.Execution.Encoding
import ValueGraph.Proofs.Value.Encoding

namespace ValueGraph

open Json Codec

instance : Spelling Node where
  Spells j n := ∃ f is os ts, Spells f n.function ∧ Spells is n.inputs ∧ Spells os n.outputs ∧
    Spells ts n.terminal ∧ j = record [("function", f), ("target", encode n.target),
      ("inputs", is), ("outputs", os), ("terminal", ts)]

instance : Lossless Node where
  kept n := {
    plain := plain_record.2 (by simp)
    spells_encode := ⟨_, _, _, _, (kept n.function).spells_encode, (kept n.inputs).spells_encode,
      (kept n.outputs).spells_encode, (kept n.terminal).spells_encode, rfl⟩
    decode_eq := by
      rintro _ ⟨f, is, os, ts, hf, his, hos, hts, rfl⟩
      show (fields? _ (record _)).bind _ = _
      simp [decode_of_spells hf, decode_of_spells his, decode_of_spells hos,
        decode_of_spells hts] }

instance : Spelling CacheSelection where
  Spells
    | j, .shared values => ∃ vs, Spells vs values ∧ j = tagged "Shared" vs
    | j, .unshared values => ∃ vs, Spells vs values ∧ j = tagged "Private" vs

instance : Lossless CacheSelection where
  kept
  | .shared values | .unshared values => {
    plain := plain_tagged.2 (by simp)
    spells_encode := ⟨_, (kept values).spells_encode, rfl⟩
    decode_eq := by
      rintro _ ⟨vs, hvs, rfl⟩
      show (variant? (tagged _ _)).bind _ = _
      simp [decode_of_spells hvs] }

section Ids

variable {limit n : Nat} {j : Json}

theorem natBelow_nat (h : n < limit) : natBelow limit (Json.nat n) = some n := by
  simp [natBelow, Json.nat, nat?, h]

theorem lt_of_natBelow (h : natBelow limit j = some n) : n < limit := by
  simpa using (Option.filter_eq_some_iff.1 h).2

/-- A node id can be read back only if it has 32 bits. -/
def NodeId.Fits (id : NodeId) : Prop := id < UInt32.size

/-- A job number can be read back only if it has 64 bits. -/
def JobId.Fits (id : JobId) : Prop := id.number < UInt64.size

theorem NodeId.decode?_nat {id : NodeId} (h : id.Fits) : decode? (Json.nat id) = some id :=
  natBelow_nat h

theorem NodeId.fits_of_decode? {id : NodeId} (h : decode? j = some id) : id.Fits :=
  lt_of_natBelow h

instance : Spelling JobId := {}

theorem kept_jobId {id : JobId} (h : id.Fits) : Kept id where
  plain := plain_nat
  spells_encode := rfl
  decode_eq := by
    rintro _ rfl
    show (natBelow _ (Json.nat id.number)).map _ = _
    rw [natBelow_nat h]
    rfl

theorem JobId.fits_of_decode {id : JobId} (h : decode j = some id) : id.Fits := by
  obtain ⟨n, hn, rfl⟩ := Option.map_eq_some_iff.1 h
  exact lt_of_natBelow hn

end Ids

section Jobs

variable {j : Json} {i : JobItem} {job : Job}

instance : Spelling JobItem where
  Spells j i := ∃ f is os, Spells f i.function ∧ Spells is i.inputs ∧ Spells os i.outputs ∧
    j = record [("node", Json.nat i.node), ("function", f), ("target", encode i.target),
      ("inputs", is), ("outputs", os)]

theorem kept_jobItem (h : i.node.Fits) : Kept i where
  plain := plain_record.2 (by simp)
  spells_encode := ⟨_, _, _, (kept i.function).spells_encode, (kept i.inputs).spells_encode,
    (kept i.outputs).spells_encode, rfl⟩
  decode_eq := by
    rintro _ ⟨f, is, os, hf, his, hos, rfl⟩
    show (fields? _ (record _)).bind _ = _
    simp [NodeId.decode?_nat h, decode_of_spells hf, decode_of_spells his, decode_of_spells hos]

theorem JobItem.fits_of_decode (h : decode j = some i) : i.node.Fits := by
  obtain ⟨fields, -, h⟩ := Option.bind_eq_some_iff.1 h
  split at h
  next =>
    simp only [Option.bind_eq_bind, Option.bind_eq_some_iff] at h
    obtain ⟨id, ⟨k, -, hid⟩, _, -, _, -, _, -, _, -, hi⟩ := h
    cases hi
    exact NodeId.fits_of_decode? hid
  next => cases h

def Job.Fits (job : Job) : Prop := job.id.Fits ∧ ∀ i ∈ job.items, i.node.Fits

instance : Spelling Job where
  Spells j job := ∃ is cs, Spells is job.items ∧ Spells cs job.cache ∧ j = record
    [("id", encode job.id), ("calculation_configuration", encode job.configuration),
      ("items", is), ("cache_selection", cs)]

theorem kept_job (h : job.Fits) : Kept job :=
  have hid := kept_jobId h.1
  have hitems := kept_list fun i hi => kept_jobItem (h.2 i hi)
  { plain := plain_record.2 (by simp [hid.plain, hitems.plain])
    spells_encode := ⟨_, _, hitems.spells_encode, (kept job.cache).spells_encode, rfl⟩
    decode_eq := by
      rintro _ ⟨is, cs, his, hcs, rfl⟩
      show (fields? _ (record _)).bind _ = _
      simp [hid.decode_eq rfl, hitems.decode_eq his, decode_of_spells hcs] }

theorem Job.fits_of_decode (h : decode j = some job) : job.Fits := by
  obtain ⟨fields, -, h⟩ := Option.bind_eq_some_iff.1 h
  split at h
  next =>
    simp only [required, Option.bind_eq_bind, Option.bind_eq_some_iff] at h
    obtain ⟨id, ⟨_, -, hid⟩, _, -, items, ⟨_, -, hitems⟩, _, -, hjob⟩ := h
    cases hjob
    exact ⟨JobId.fits_of_decode hid, forall_mem_of_decode JobItem.fits_of_decode hitems⟩
  next => cases h

end Jobs

section Results

variable {j : Json} {o : ItemOutcome} {r : JobResult}

instance : Spelling ItemStatus := {}

instance : Lossless ItemStatus where
  kept
  | .success => ⟨plain_string, rfl, by rintro _ rfl; rfl⟩
  | .failure reason => {
    plain := plain_tagged.2 (by simp)
    spells_encode := rfl
    decode_eq := by
      rintro _ rfl
      show (variant? (tagged _ _)).bind _ = _
      simp }

instance : Spelling ItemOutcome := {}

theorem kept_itemOutcome (h : o.node.Fits) : Kept o where
  plain := plain_record.2 (by simp)
  spells_encode := rfl
  decode_eq := by
    rintro _ rfl
    show (fields? _ (record _)).bind _ = _
    simp [NodeId.decode?_nat h]

theorem ItemOutcome.fits_of_decode (h : decode j = some o) : o.node.Fits := by
  obtain ⟨fields, -, h⟩ := Option.bind_eq_some_iff.1 h
  split at h
  next =>
    simp only [Option.bind_eq_bind, Option.bind_eq_some_iff] at h
    obtain ⟨id, ⟨k, -, hid⟩, _, -, ho⟩ := h
    cases ho
    exact NodeId.fits_of_decode? hid
  next => cases h

def JobResult.Fits (r : JobResult) : Prop := r.job.Fits ∧ ∀ o ∈ r.items, o.node.Fits

instance : Spelling JobResult := {}

theorem kept_jobResult (h : r.Fits) : Kept r :=
  have hjob := kept_jobId h.1
  have hitems := kept_list fun o ho => kept_itemOutcome (h.2 o ho)
  { plain := plain_record.2 (by simp [hjob.plain, hitems.plain])
    spells_encode := rfl
    decode_eq := by
      rintro _ rfl
      show (fields? _ (record _)).bind _ = _
      simp [hjob.decode_eq rfl, hitems.decode_eq hitems.spells_encode] }

theorem JobResult.fits_of_decode (h : decode j = some r) : r.Fits := by
  obtain ⟨fields, -, h⟩ := Option.bind_eq_some_iff.1 h
  split at h
  next =>
    simp only [required, Option.bind_eq_bind, Option.bind_eq_some_iff] at h
    obtain ⟨id, ⟨_, -, hid⟩, items, ⟨_, -, hitems⟩, hr⟩ := h
    cases hr
    exact ⟨JobId.fits_of_decode hid, forall_mem_of_decode ItemOutcome.fits_of_decode hitems⟩
  next => cases h

end Results

/-- Values, nodes, jobs and results come back from text as they were. -/
theorem persists_values_and_jobs :
    Persists TargetRef ∧ Persists Properties ∧ Persists Requirement ∧ Persists ValueSpec ∧
      Persists NodeFunction ∧ Persists Node ∧ Persists CacheSelection ∧ Persists Job Job.Fits ∧
        Persists JobResult JobResult.Fits :=
  ⟨persists_of_lossless, persists_of_lossless, persists_of_lossless, persists_of_lossless,
    persists_of_lossless, persists_of_lossless, persists_of_lossless,
    persists_of_kept (fun _ => kept_job) (fun _ _ => Job.fits_of_decode),
    persists_of_kept (fun _ => kept_jobResult) (fun _ _ => JobResult.fits_of_decode)⟩

/-- The largest ids, texts with characters to escape, and a set that is listed out of order. -/
theorem persists_values_and_jobs_largest :
    let currencies := tagged "Values" (.array [.string "USD", .string "EUR", .string "USD"])
    let p : Properties := ⟨.ofList [("Currency", .among (.ofList ["EUR", "USD"]))]⟩
    let i : JobItem :=
      { node := UInt32.size - 1, function := .relabel, target := ⟨.security, "\"\\\n\x01"⟩
        inputs := [⟨"é😀", ⟨.trade, ""⟩, p⟩], outputs := [⟨"", ⟨.position, ""⟩, ∅⟩] }
    let job : Job :=
      { id := ⟨UInt64.size - 1⟩, configuration := "", items := [i], cache := .shared ∅ }
    (job.Fits ∧ read? (write job) = some job) ∧
      read? (record [("props", record [("Currency", currencies)])]).print = some p := by
  intro currencies p i job
  obtain ⟨-, hproperties, -, -, -, -, -, hjob, -⟩ := persists_values_and_jobs
  have hfits : job.Fits := by
    refine ⟨?_, List.forall_mem_singleton.2 ?_⟩
    · show UInt64.size - 1 < UInt64.size
      decide
    · show UInt32.size - 1 < UInt32.size
      decide
  have hcurrencies : Spells currencies (PropertyValues.among (.ofList ["EUR", "USD"])) := by
    refine ⟨_, ⟨["USD", "EUR", "USD"], ⟨_, rfl, ?_⟩, fun v => ?_⟩, rfl⟩
    · exact .cons rfl (.cons rfl (.cons rfl .nil))
    · rw [SortedSet.mem_ofList]
      grind
  have hp : Spells (record [("props", record [("Currency", currencies)])]) p :=
    ⟨_, ⟨_, [("Currency", _)], rfl, .cons ⟨rfl, hcurrencies⟩ .nil, rfl⟩, rfl⟩
  exact ⟨⟨hfits, (hjob.returns job).2 hfits⟩,
    hproperties.agrees _ _ p (parse?_print (by simp [currencies])) trivial hp⟩

end ValueGraph
