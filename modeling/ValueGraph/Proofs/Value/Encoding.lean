import ValueGraph.Value.Encoding
import ValueGraph.Proofs.Json.Codec

namespace ValueGraph

open Json Codec

instance : Spelling TargetKind := {}

instance : Lossless TargetKind where
  kept k := ⟨plain_string, rfl, by rintro _ rfl; cases k <;> rfl⟩

instance : Spelling Target := {}

instance : Lossless Target where
  kept t := {
    plain := plain_record.2 (by simp)
    spells_encode := rfl
    decode_eq := by
      rintro _ rfl
      -- `simp` finds the fields once the reader stands there as what it does with them.
      show (fields? _ (record _)).bind _ = _
      simp }

instance : Spelling TargetRef := {}

instance : Lossless TargetRef where
  kept
  | .known t => {
    plain := plain_tagged.2 (by simp)
    spells_encode := rfl
    decode_eq := by
      rintro _ rfl
      show (variant? (tagged _ _)).bind _ = _
      simp }
  | .external k i => {
    plain := plain_tagged.2 (by simp)
    spells_encode := rfl
    decode_eq := by
      rintro _ rfl
      show (variant? (tagged _ _)).bind _ = _
      simp }

instance : Spelling PropertyValues where
  Spells
    | j, .any => j = encode PropertyValues.any
    | j, .among values => ∃ vs, Spells vs values ∧ j = tagged "Values" vs

instance : Lossless PropertyValues where
  kept
  | .any => ⟨plain_string, rfl, by rintro _ rfl; rfl⟩
  | .among values => {
    plain := plain_tagged.2 (by simp)
    spells_encode := ⟨_, (kept values).spells_encode, rfl⟩
    decode_eq := by
      rintro _ ⟨vs, hvs, rfl⟩
      show (variant? (tagged _ _)).bind _ = _
      simp [decode_of_spells hvs] }

instance : Spelling Properties where
  Spells j p := ∃ ps, Spells ps p.values ∧ j = record [("props", ps)]

instance : Lossless Properties where
  kept p := {
    plain := plain_record.2 (by simp)
    spells_encode := ⟨_, (kept p.values).spells_encode, rfl⟩
    decode_eq := by
      rintro _ ⟨ps, hps, rfl⟩
      show (fields? _ (record _)).bind _ = _
      simp [decode_of_spells hps] }

instance : Spelling Requirement where
  Spells j r := ∃ cs, Spells cs r.constraints ∧ j = record
    [("value_name", encode r.name), ("target", encode r.target), ("constraints", cs)]

instance : Lossless Requirement where
  kept r := {
    plain := plain_record.2 (by simp)
    spells_encode := ⟨_, (kept r.constraints).spells_encode, rfl⟩
    decode_eq := by
      rintro _ ⟨cs, hcs, rfl⟩
      show (fields? _ (record _)).bind _ = _
      simp [decode_of_spells hcs] }

instance : Spelling ValueSpec where
  Spells j s := ∃ ps, Spells ps s.properties ∧ j = record
    [("value_name", encode s.name), ("target", encode s.target), ("properties", ps)]

instance : Lossless ValueSpec where
  kept s := {
    plain := plain_record.2 (by simp)
    spells_encode := ⟨_, (kept s.properties).spells_encode, rfl⟩
    decode_eq := by
      rintro _ ⟨ps, hps, rfl⟩
      show (fields? _ (record _)).bind _ = _
      simp [decode_of_spells hps] }

instance : Spelling NodeFunction where
  Spells
    | j, .computation id parameters => ∃ ps, Spells ps parameters ∧
      j = tagged "Computation" (record [("id", encode id), ("parameters", ps)])
    | j, f => j = encode f

instance : Lossless NodeFunction where
  kept
  | .computation id parameters => {
    plain := plain_tagged.2 (by simp)
    spells_encode := ⟨_, (kept parameters).spells_encode, rfl⟩
    decode_eq := by
      rintro _ ⟨ps, hps, rfl⟩
      show (variant? (tagged _ _)).bind _ = _
      simp [decode_of_spells hps] }
  | .marketData | .relabel => ⟨plain_string, rfl, by rintro _ rfl; rfl⟩

end ValueGraph
