import ValueGraph.Compile.Build

namespace ValueGraph

structure CompileRequest where
  requirements : SortedMap String (List Requirement) := ∅
  /-- The time that the values are for, in seconds. -/
  time : Int := 0
  portfolio : Option TargetRef := none
deriving Inhabited

namespace CompileRequest

def ofConfiguration (r : CompileRequest) (configuration : String) : List Requirement :=
  (r.requirements.get? configuration).getD []

/-- Makes the configuration part of the request, with these further requirements. -/
def withRequirements (r : CompileRequest) (configuration : String) (qs : List Requirement) :
    CompileRequest :=
  { r with
    requirements := r.requirements.insert configuration (r.ofConfiguration configuration ++ qs) }

end CompileRequest

structure CompiledGraphSet where
  /-- Tells the compilations of one compiler apart. -/
  initialization : Nat
  time : Int
  portfolio : Option Target
  compiled : SortedMap String CompiledGraph
deriving Inhabited

namespace CompiledGraphSet

variable (s : CompiledGraphSet)

def configurations : List String := s.compiled.keys

def graph? (configuration : String) : Option Graph := (s.compiled.get? configuration).map (·.graph)

def failures? (configuration : String) : Option FailureReport :=
  (s.compiled.get? configuration).map (·.report)

def failureCount : Nat := total (·.report.size) s.compiled.values

end CompiledGraphSet

structure OpenBuild where
  configuration : String
  build : Build
  complete : Bool := false
deriving Inhabited

namespace Compile

variable {σ : Type} (c : Collaborators σ) (flag : Ask σ Bool)

/--
Looks the portfolio up, at most `attempts` times: the outer `none` says that every lookup would
have had to wait.
-/
def portfolio (ref : TargetRef) :
    (attempts : Nat) → Ask σ (Option (Except CompileError (Option Target)))
  | 0, w => (none, w)
  | attempts + 1, w =>
    match flag w with
    | (true, w) => (some (.error .cancelled), w)
    | (false, w) =>
      match c.target ref w with
      | (.resolved t, w) => (some (.ok (some t.target)), w)
      | (.notFound, w) => (some (.ok none), w)
      | (.wouldBlock, w) => portfolio ref attempts w

def requestedPortfolio (request : CompileRequest) (attempts : Nat) :
    Ask σ (Option (Except CompileError (Option Target))) := fun w =>
  match request.portfolio with
  | none => (some (.ok none), w)
  | some ref => portfolio c flag ref attempts w

def start (config : CompilerConfig) (configuration : String) (qs : List Requirement) :
    Except CompileError OpenBuild := do
  let add (build : Build) (q : Requirement) : Except CompileError Build :=
    match build.add q with
    | (.ok (), build) => .ok build
    | (.error e, _) => .error e
  return { configuration, build := ← qs.foldlM add (.start configuration config) }

def startAll (config : CompilerConfig) (request : CompileRequest) :
    Except CompileError (List OpenBuild) :=
  request.requirements.entries.mapM fun e => start config e.1 e.2

/-- Advances every build that is not complete, one after another. -/
def advanceAll : List OpenBuild → Ask σ (Except CompileError (List OpenBuild))
  | [], w => (.ok [], w)
  | b :: bs, w =>
    if b.complete then
      let (rest, w) := advanceAll bs w
      (rest.map (b :: ·), w)
    else
      match b.build.advance c flag w with
      | ((.error e, _), w) => (.error e, w)
      | ((.ok status, build), w) =>
        let (rest, w) := advanceAll bs w
        (rest.map ({ b with build, complete := status = .complete } :: ·), w)

def rounds : (count : Nat) → List OpenBuild → Ask σ (Option (Except CompileError (List OpenBuild)))
  | 0, _, w => (none, w)
  | count + 1, bs, w =>
    match advanceAll c flag bs w with
    | (.error e, w) => (some (.error e), w)
    | (.ok bs, w) => if bs.all (·.complete) then (some (.ok bs), w) else rounds count bs w

def finishAll (bs : List OpenBuild) : Except CompileError (SortedMap String CompiledGraph) := do
  return .ofList (← bs.mapM fun b => return (b.configuration, ← b.build.finish))

def graphs (config : CompilerConfig) (request : CompileRequest) (count : Nat) :
    Ask σ (Option (Except CompileError (SortedMap String CompiledGraph))) := fun w =>
  match startAll config request with
  | .error e => (some (.error e), w)
  | .ok bs =>
    match rounds c flag count bs w with
    | (built, w) => (built.map (·.bind finishAll), w)

/--
Compiles a request. Lookups that would have to wait are tried again, `patience` times at most: the
answer is `none` if some would have to wait even then. The builds share nothing but the
collaborators, and each acts on the answers that it gets itself; so they are advanced one after
another here, even if the settings let them run side by side.
-/
def run (config : CompilerConfig) (initialization patience : Nat) (request : CompileRequest) :
    Ask σ (Option (Except CompileError CompiledGraphSet)) := fun w =>
  match requestedPortfolio c flag request (patience + 1) w with
  | (none, w) => (none, w)
  | (some (.error e), w) => (some (.error e), w)
  | (some (.ok portfolio), w) =>
    let set (compiled : SortedMap String CompiledGraph) : CompiledGraphSet :=
      { initialization, time := request.time, portfolio, compiled }
    match graphs c flag config request (patience + 1) w with
    | (compiled, w) => (compiled.map (·.map set), w)

end Compile

/-- Compiles requests, and numbers its compilations from 1. -/
structure Compiler where
  config : CompilerConfig
  next : Nat := 1
deriving Inhabited

namespace Compiler

variable {σ : Type}

def compile (compiler : Compiler) (c : Collaborators σ) (flag : Ask σ Bool) (patience : Nat)
    (request : CompileRequest) :
    Ask σ (Option (Except CompileError CompiledGraphSet) × Compiler) := fun w =>
  let (result, w) := Compile.run c flag compiler.config compiler.next patience request w
  ((result, { compiler with next := compiler.next + 1 }), w)

def compileNow (compiler : Compiler) (c : Collaborators σ) (patience : Nat)
    (request : CompileRequest) :
    Ask σ (Option (Except CompileError CompiledGraphSet) × Compiler) :=
  compiler.compile c (false, ·) patience request

end Compiler

end ValueGraph
