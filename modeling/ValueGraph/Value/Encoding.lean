import ValueGraph.Json.Codec
import ValueGraph.Value.NodeFunction
import ValueGraph.Value.Requirement

namespace ValueGraph

open Json Codec

instance : Codec TargetKind where
  encode k := Json.string k.name
  decode j := do
    let (name, content) ← variant? j
    if isBare content then TargetKind.ofName? name else none

instance : Codec Target where
  encode t := record [("kind", encode t.kind), ("id", encode t.id)]
  decode j := do
    let [kind, id] ← fields? ["kind", "id"] j | none
    return { kind := ← required kind, id := ← required id }

instance : Codec TargetRef where
  encode
    | .known t => tagged "Specification" (encode t)
    | .external k i => tagged "External" (record [("kind", encode k), ("external_id", encode i)])
  decode j := do
    match ← variant? j with
    | ("Specification", some j) => return .known (← decode j)
    | ("External", some j) =>
      let [kind, id] ← fields? ["kind", "external_id"] j | none
      return .external (← required kind) (← required id)
    | _ => none

/-- The name may be left out of an object. -/
instance : Codec NamedTarget where
  encode t := record [("specification", encode t.target), ("name", encode t.name)]
  decode j := do
    let [target, name] ← fields? ["specification", "name"] j | none
    return { target := ← required target, name := ← required (some (name.getD .null)) }

instance : Codec PropertyValues where
  encode
    | .any => Json.string "Wildcard"
    | .among s => tagged "Values" (encode s)
  decode j := do
    match ← variant? j with
    | ("Wildcard", content) => if isBare content then return .any else none
    | ("Values", some j) => return .among (← decode j)
    | _ => none

instance : Codec Properties where
  encode p := record [("props", encode p.values)]
  decode j := do
    let [props] ← fields? ["props"] j | none
    return { values := ← required props }

instance : Codec Requirement where
  encode r := record
    [("value_name", encode r.name), ("target", encode r.target),
      ("constraints", encode r.constraints)]
  decode j := do
    let [name, target, constraints] ← fields? ["value_name", "target", "constraints"] j | none
    return { name := ← required name, target := ← required target,
             constraints := ← required constraints }

instance : Codec ValueSpec where
  encode s := record
    [("value_name", encode s.name), ("target", encode s.target),
      ("properties", encode s.properties)]
  decode j := do
    let [name, target, properties] ← fields? ["value_name", "target", "properties"] j | none
    return { name := ← required name, target := ← required target,
             properties := ← required properties }

instance : Codec NodeFunction where
  encode
    | .computation id parameters =>
      tagged "Computation" (record [("id", encode id), ("parameters", encode parameters)])
    | .marketData => Json.string "MarketDataSource"
    | .relabel => Json.string "Relabel"
  decode j := do
    match ← variant? j with
    | ("Computation", some j) =>
      let [id, parameters] ← fields? ["id", "parameters"] j | none
      return .computation (← required id) (← required parameters)
    | ("MarketDataSource", content) => if isBare content then return .marketData else none
    | ("Relabel", content) => if isBare content then return .relabel else none
    | _ => none

end ValueGraph
