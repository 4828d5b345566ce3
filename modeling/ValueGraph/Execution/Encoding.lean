import ValueGraph.Execution.Job
import ValueGraph.Value.Encoding

namespace ValueGraph

open Json Codec

instance : Codec Node where
  encode n := record
    [("function", encode n.function), ("target", encode n.target), ("inputs", encode n.inputs),
      ("outputs", encode n.outputs), ("terminal", encode n.terminal)]
  decode j := do
    let [function, target, inputs, outputs, terminal] ←
      fields? ["function", "target", "inputs", "outputs", "terminal"] j | none
    return { function := ← required function, target := ← required target,
             inputs := ← required inputs, outputs := ← required outputs,
             terminal := ← required terminal }

/-- Node ids have 32 bits. -/
def NodeId.decode? (j : Json) : Option NodeId := natBelow UInt32.size j

/-- Job numbers have 64 bits. -/
instance : Codec JobId where
  encode id := Json.nat id.number
  decode j := (natBelow UInt64.size j).map JobId.mk

instance : Codec JobItem where
  encode i := record
    [("node", Json.nat i.node), ("function", encode i.function), ("target", encode i.target),
      ("inputs", encode i.inputs), ("outputs", encode i.outputs)]
  decode j := do
    let [node, function, target, inputs, outputs] ←
      fields? ["node", "function", "target", "inputs", "outputs"] j | none
    return { node := ← node.bind NodeId.decode?, function := ← required function,
             target := ← required target, inputs := ← required inputs,
             outputs := ← required outputs }

instance : Codec CacheSelection where
  encode
    | .shared values => tagged "Shared" (encode values)
    | .unshared values => tagged "Private" (encode values)
  decode j := do
    match ← variant? j with
    | ("Shared", some j) => return .shared (← decode j)
    | ("Private", some j) => return .unshared (← decode j)
    | _ => none

instance : Codec Job where
  encode j := record
    [("id", encode j.id), ("calculation_configuration", encode j.configuration),
      ("items", encode j.items), ("cache_selection", encode j.cache)]
  decode j := do
    let [id, configuration, items, cache] ←
      fields? ["id", "calculation_configuration", "items", "cache_selection"] j | none
    return { id := ← required id, configuration := ← required configuration,
             items := ← required items, cache := ← required cache }

instance : Codec ItemStatus where
  encode
    | .success => Json.string "Success"
    | .failure reason => tagged "Failure" (encode reason)
  decode j := do
    match ← variant? j with
    | ("Success", content) => if isBare content then return .success else none
    | ("Failure", some j) => return .failure (← decode j)
    | _ => none

instance : Codec ItemOutcome where
  encode o := record [("node", Json.nat o.node), ("status", encode o.status)]
  decode j := do
    let [node, status] ← fields? ["node", "status"] j | none
    return { node := ← node.bind NodeId.decode?, status := ← required status }

instance : Codec JobResult where
  encode r := record [("job", encode r.job), ("items", encode r.items)]
  decode j := do
    let [job, items] ← fields? ["job", "items"] j | none
    return { job := ← required job, items := ← required items }

end ValueGraph
