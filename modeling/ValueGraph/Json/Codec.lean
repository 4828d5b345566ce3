import ValueGraph.Collection.SortedMap
import ValueGraph.Json.Tree

namespace ValueGraph

class Codec (α : Type) where
  encode : α → Json
  decode : Json → Option α

namespace Json

/-- The value of a field; `none` if a name is no string or the field comes twice. -/
def field? (members : List (Text × Json)) (name : String) : Option (Option Json) :=
  match members.filter (·.1 = some name) with
  | [] => some none
  | [(_, j)] => some (some j)
  | _ => none

def partialFields? (names : List String) : Json → Option (List (Option Json))
  | object members =>
    if members.all (·.1.isSome) then names.mapM (field? members) else none
  | array js =>
    if js.length ≤ names.length then
      some (js.map some ++ List.replicate (names.length - js.length) none)
    else none
  | _ => none

/-- As `partialFields?`, but an array must hold every field. -/
def fields? (names : List String) (j : Json) : Option (List (Option Json)) :=
  match j with
  | array js => if js.length = names.length then some (js.map some) else none
  | j => partialFields? names j

def variant? : Json → Option (String × Option Json)
  | text (some name) => some (name, none)
  | object [(some name, j)] => some (name, some j)
  | _ => none

/-- A variant without content may be given `null` as content. -/
def isBare : Option Json → Bool
  | none => true
  | some j => j.isNull

def tagged (name : String) (content : Json) : Json := record [(name, content)]

end Json

namespace Codec

open Json

variable {α β : Type}

instance : Codec String := ⟨Json.string, string?⟩

instance : Codec Bool := ⟨.bool, bool?⟩

instance [Codec α] : Codec (Option α) where
  encode
    | none => .null
    | some a => encode a
  decode
    | .null => some none
    | j => (decode j).map some

instance [Codec α] : Codec (List α) where
  encode as := .array (as.map encode)
  decode j := do (← j.items?).mapM decode

/-- A set is written in ascending order and read in any order, repetitions included. -/
instance [Ord α] [Std.TransOrd α] [Codec α] : Codec (SortedSet α) where
  encode s := encode s.toList
  decode j := (decode j).map SortedSet.ofList

def decodeMember [Codec β] : Text × Json → Option (String × β)
  | (some name, j) => (decode j).map (name, ·)
  | (none, _) => none

/-- Of members with one name the last counts. -/
instance [Codec β] : Codec (SortedMap String β) where
  encode m := record (m.entries.map fun (k, v) => (k, encode v))
  decode
    | .object members => (members.mapM decodeMember).map SortedMap.ofList
    | _ => none

def required [Codec α] (j : Option Json) : Option α := j.bind decode

def natBelow (limit : Nat) (j : Json) : Option Nat := j.nat?.filter (· < limit)

end Codec

end ValueGraph
