import ValueGraph.Json.Codec

namespace ValueGraph

open Json Codec

structure CompilerConfig where
  /-- A requirement further down than this counts as part of a circle. -/
  maxDepth : Nat := 64
  /-- How long to wait before lookups are tried again, in milliseconds. -/
  backoff : Nat := 10
  parallel : Bool := true
  /-- Is every graph to be checked for faults? -/
  validate : Bool := false
  logFailures : Bool := true
deriving DecidableEq, Inhabited

inductive ConfigError
  | malformed
  | noDepth
deriving DecidableEq, Inhabited

def ConfigError.message : ConfigError → String
  | malformed => "Invalid compiler configuration"
  | noDepth => "Invalid compiler configuration: max_resolution_depth must be at least 1"

namespace CompilerConfig

/-- A setting that is left out is the default. -/
def setting {α : Type} [Codec α] (default : α) : Option Json → Option α
  | none => some default
  | some j => decode j

instance : Codec CompilerConfig where
  encode c := record
    [("max_resolution_depth", Json.nat c.maxDepth),
      ("blocked_retry_backoff_ms", Json.nat c.backoff),
      ("parallel_configurations", encode c.parallel), ("validate_graphs", encode c.validate),
      ("log_failures", encode c.logFailures)]
  decode j := do
    let [maxDepth, backoff, parallel, validate, logFailures] ← partialFields?
      ["max_resolution_depth", "blocked_retry_backoff_ms", "parallel_configurations",
        "validate_graphs", "log_failures"] j | none
    let d : CompilerConfig := {}
    return { maxDepth := ← maxDepth.elim (some d.maxDepth) (natBelow UInt64.size)
             backoff := ← backoff.elim (some d.backoff) (natBelow UInt64.size)
             parallel := ← setting d.parallel parallel
             validate := ← setting d.validate validate
             logFailures := ← setting d.logFailures logFailures }

def read (s : String) : Except ConfigError CompilerConfig :=
  match (Json.parse? s).bind decode with
  | none => .error .malformed
  | some (c : CompilerConfig) => if c.maxDepth = 0 then .error .noDepth else .ok c

end CompilerConfig

end ValueGraph
