import Mathlib.Data.List.Forall2
import ValueGraph.Json.Codec
import ValueGraph.Proofs.Json.Tree

namespace ValueGraph

namespace Json

variable {α β : Type} {name : String} {j : Json} {ms : List (String × Json)}

theorem mapM_eq_some_iff {f : α → Option β} {l : List α} {m : List β} :
    l.mapM f = some m ↔ l.map f = m.map some := by
  induction l generalizing m with
  | nil => cases m <;> simp
  | cons a l ih => cases m <;> simp [List.mapM_cons, Option.bind_eq_some_iff, ← ih]

theorem mapM_eq_some_of_forall₂ {f : α → Option β} {l : List α} {m : List β}
    (h : List.Forall₂ (fun a b => f a = some b) l m) : l.mapM f = some m := by
  rw [mapM_eq_some_iff]
  induction h with
  | nil => rfl
  | cons hab _ ih => rw [List.map_cons, List.map_cons, hab, ih]

@[simp] theorem plain_string : (Json.string name).Plain := List.forall_mem_singleton.2 trivial

@[simp] theorem plain_nat {n : Nat} : (Json.nat n).Plain := List.forall_mem_singleton.2 rfl

@[simp] theorem plain_record : (record ms).Plain ↔ ∀ m ∈ ms, m.2.Plain :=
  plain_object.trans List.forall_mem_map

@[simp] theorem plain_tagged : (tagged name j).Plain ↔ j.Plain := by
  simp [tagged]

theorem filter_name_eq_singleton (hms : (ms.map (·.1)).Nodup) (h : (name, j) ∈ ms) :
    ms.filter (·.1 = name) = [(name, j)] := by
  induction ms with
  | nil => cases h
  | cons m ms ih =>
    obtain ⟨hm, hms⟩ := List.nodup_cons.1 hms
    rcases List.mem_cons.1 h with rfl | h
    · have hrest : ms.filter (·.1 = name) = [] := by
        rw [List.filter_eq_nil_iff]
        rintro m' hm' heq
        exact hm (List.mem_map.2 ⟨m', hm', by simpa using heq⟩)
      simp [hrest]
    · have hne : m.1 ≠ name := by
        rintro rfl
        exact hm (List.mem_map.2 ⟨_, h, rfl⟩)
      simp [hne, ih hms h]

theorem field?_record (hms : (ms.map (·.1)).Nodup) (h : (name, j) ∈ ms) :
    field? (ms.map fun (name, j) => (some name, j)) name = some (some j) := by
  have hfilter : (ms.map fun (name, j) => ((some name : Text), j)).filter (·.1 = some name) =
      [(some name, j)] := by
    rw [List.filter_map]
    simp [Function.comp_def, filter_name_eq_singleton hms h]
  rw [field?, hfilter]

@[simp] theorem fields?_record {names : List String} (hnames : ms.map (·.1) = names)
    (h : names.Nodup) : fields? names (record ms) = some (ms.map fun m => some m.2) := by
  subst hnames
  have hnamed : (ms.map fun (name, j) => ((some name : Text), j)).all (·.1.isSome) = true := by
    simp
  rw [record, fields?, partialFields?, if_pos hnamed, mapM_eq_some_iff, List.map_map, List.map_map]
  · exact List.map_congr_left fun m hm => field?_record h hm
  · exact nofun

@[simp] theorem variant?_tagged : variant? (tagged name j) = some (name, some j) := rfl

end Json

namespace Codec

open Json

def write {α : Type} [Codec α] (a : α) : String := (encode a).print

def read? {α : Type} [Codec α] (t : String) : Option α := (parse? t).bind decode

/--
The trees that spell a value: the one that it is written as, and those that list its sets and maps
in another order or repeat themselves. Unless a type says otherwise, there is one tree for a value.
-/
class Spelling (α : Type) [Codec α] where
  Spells : Json → α → Prop := fun j a => j = encode a

export Spelling (Spells)

section Kept

variable {α : Type} [Codec α] [Spelling α] {a : α} {j : Json} {t : String}

/-- Is the value read from each of its spellings, and written as one of them? -/
structure Kept (a : α) : Prop where
  plain : (encode a).Plain
  spells_encode : Spells (encode a) a
  decode_eq : ∀ {j}, Spells j a → decode j = some a

class Lossless (α : Type) [Codec α] [Spelling α] : Prop where
  kept : ∀ a : α, Kept a

export Lossless (kept)

theorem Kept.read?_eq (h : Kept a) (ht : parse? t = some j) (hj : Spells j a) :
    read? t = some a := by
  rw [read?, ht]
  exact h.decode_eq hj

theorem Kept.read?_write (h : Kept a) : read? (write a) = some a :=
  h.read?_eq (parse?_print h.plain) h.spells_encode

/-- Do the values of a type come back from text, as long as they fit? -/
structure Persists (α : Type) [Codec α] [Spelling α] (Fits : α → Prop := fun _ => True) : Prop where
  /-- A value is read back from the text that it is written as, if it fits and only then. -/
  returns : ∀ a : α, read? (write a) = some a ↔ Fits a
  /-- The value that any text is read as is read back from the text that it is written as. -/
  settles : ∀ (t : String) (a : α), read? t = some a → read? (write a) = some a
  /-- All texts that spell a value, whatever order they list its sets in, are read as that value;
  so they have one canonical form, the text that it is written as. -/
  agrees : ∀ (t : String) (j : Json) (a : α), parse? t = some j → Fits a → Spells j a →
    read? t = some a

theorem persists_of_kept {Fits : α → Prop} (hkept : ∀ a, Fits a → Kept a)
    (hfits : ∀ j a, decode j = some a → Fits a) : Persists α Fits := by
  have hread : ∀ t a, read? t = some a → Fits a := by
    intro t a h
    obtain ⟨j, -, hj⟩ := Option.bind_eq_some_iff.1 h
    exact hfits j a hj
  exact {
    returns := fun a => ⟨hread _ a, fun h => (hkept a h).read?_write⟩
    settles := fun t a h => (hkept a (hread t a h)).read?_write
    agrees := fun t j a ht h hj => (hkept a h).read?_eq ht hj }

theorem persists_of_lossless [Lossless α] : Persists α :=
  persists_of_kept (fun a _ => kept a) fun _ _ _ => trivial

variable [Lossless α]

@[simp] theorem plain_encode (a : α) : (encode a).Plain := (kept a).plain

theorem decode_of_spells (h : Spells j a) : decode j = some a := (kept a).decode_eq h

@[simp] theorem decode_encode (a : α) : decode (encode a) = some a :=
  decode_of_spells (kept a).spells_encode

end Kept

section Collections

variable {α β : Type} [Codec α] [Codec β] {a : α} {j : Json}

@[simp] theorem required_some : (required (some j) : Option α) = decode j := rfl

theorem forall_mem_of_decode {p : α → Prop} (h : ∀ {j a}, decode j = some a → p a) {as : List α}
    (has : decode j = some as) : ∀ a ∈ as, p a := by
  intro a ha
  obtain ⟨js, -, hjs⟩ := Option.bind_eq_some_iff.1 has
  have hmem : some a ∈ js.map decode := by
    rw [mapM_eq_some_iff.1 hjs]
    exact List.mem_map_of_mem ha
  obtain ⟨k, -, hk⟩ := List.mem_map.1 hmem
  exact h hk

variable [Spelling α] [Spelling β]

instance : Spelling String := {}

instance : Lossless String where
  kept s := ⟨plain_string, rfl, by rintro _ rfl; rfl⟩

instance : Spelling (List α) where
  Spells j as := ∃ js, j = .array js ∧ List.Forall₂ Spells js as

theorem kept_list {as : List α} (h : ∀ a ∈ as, Kept a) : Kept as where
  plain := plain_array.2 (List.forall_mem_map.2 fun a ha => (h a ha).plain)
  spells_encode := by
    refine ⟨_, rfl, List.forall₂_map_left_iff.2 (List.forall₂_same.2 ?_)⟩
    exact fun a ha => (h a ha).spells_encode
  decode_eq := by
    rintro _ ⟨js, rfl, hjs⟩
    apply mapM_eq_some_of_forall₂
    induction hjs with
    | nil => exact .nil
    | cons hj _ ih =>
      obtain ⟨ha, has⟩ := List.forall_mem_cons.1 h
      exact .cons (ha.decode_eq hj) (ih has)

instance [Lossless α] : Lossless (List α) where
  kept _ := kept_list fun a _ => kept a

/-- A set is spelled by every list of its members, in any order and with repetitions. -/
instance [Ord α] [Std.TransOrd α] : Spelling (SortedSet α) where
  Spells j s := ∃ as : List α, Spells j as ∧ ∀ a, a ∈ as ↔ a ∈ s

instance [Ord α] [Std.TransOrd α] [Std.LawfulEqOrd α] [Lossless α] : Lossless (SortedSet α) where
  kept s := {
    plain := (kept s.toList).plain
    spells_encode := ⟨s.toList, (kept s.toList).spells_encode, fun _ => .rfl⟩
    decode_eq := by
      rintro j ⟨as, hj, has⟩
      show (decode j).map SortedSet.ofList = some s
      rw [decode_of_spells hj, Option.map_some]
      congr 1
      apply SortedSet.ext_mem
      intro a
      rw [SortedSet.mem_ofList, has] }

/-- The members of a map may come in any order, and of those with one name the last counts. -/
instance : Spelling (SortedMap String β) where
  Spells j m := ∃ ms es, j = record ms ∧
    List.Forall₂ (fun m e => m.1 = e.1 ∧ Spells m.2 e.2) ms es ∧ SortedMap.ofList es = m

instance [Lossless β] : Lossless (SortedMap String β) where
  kept m := {
    plain := plain_record.2 (List.forall_mem_map.2 fun e _ => plain_encode e.2)
    spells_encode := by
      refine ⟨_, m.entries, rfl, ?_, SortedMap.ofList_entries⟩
      exact List.forall₂_map_left_iff.2 (List.forall₂_same.2 fun e _ =>
        ⟨rfl, (kept e.2).spells_encode⟩)
    decode_eq := by
      rintro _ ⟨ms, es, rfl, hms, rfl⟩
      have hes : (ms.map fun (name, j) => ((some name : Text), j)).mapM decodeMember = some es := by
        refine mapM_eq_some_of_forall₂ (List.forall₂_map_left_iff.2 ?_)
        refine hms.imp fun m e ⟨hname, hj⟩ => ?_
        rw [decodeMember, decode_of_spells hj, hname]
        rfl
      show ((ms.map fun (name, j) => ((some name : Text), j)).mapM decodeMember).map _ = _
      rw [hes, Option.map_some] }

end Collections

end Codec

end ValueGraph
