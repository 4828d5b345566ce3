import ValueGraph.Execution.Ledger
import ValueGraph.Graph.Order

namespace ValueGraph.Trace

/--
The way down to an entry: for each step, whether it leads to the last input of its node. The entry
at the top has the empty way.
-/
abbrev Way := List Bool

def Way.level (w : Way) : Nat := List.length w + 1

/-- A branch for the last step of the way, and a rail for each node above with inputs to come. -/
def Way.lead : Way → String
  | [] => ""
  | [last] => if last then "`--" else "|--"
  | last :: w => (if last then "   " else "|  ") ++ Way.lead w

inductive Mark
  /-- The producer, with its inputs as the entries that follow. -/
  | expanded (id : NodeId) (node : Node)
  /-- The producer was expanded at that level. -/
  | repeated (level : Nat)
  /-- No node of the graph produces the value. -/
  | outside
deriving DecidableEq

structure Entry where
  way : Way
  spec : ValueSpec
  mark : Mark
deriving DecidableEq

def below (way : Way) (inputs : List ValueSpec) : List (Way × ValueSpec) :=
  inputs.zipIdx.map fun (s, i) => (way ++ [decide (i + 1 = inputs.length)], s)

/-- Lists the entries for `todo` in order, where `levels` tells what was expanded so far. -/
def entries (g : Graph) (levels : SortedMap NodeId Nat) :
    (todo : List (Way × ValueSpec)) → List Entry
  | [] => []
  | (way, s) :: todo =>
    match _hs : g.source? s with
    | none => ⟨way, s, .outside⟩ :: entries g levels todo
    | some (id, n) =>
      match _hl : levels.get? id with
      | some level => ⟨way, s, .repeated level⟩ :: entries g levels todo
      | none =>
        ⟨way, s, .expanded id n⟩ ::
          entries g (levels.insert id way.level) (below way n.inputs.toList ++ todo)
termination_by todo => ((g.ids.filter (· ∉ levels)).length, todo.length)
decreasing_by
  · exact Prod.Lex.right _ (by simp)
  · exact Prod.Lex.right _ (by simp)
  · have hid : id ∈ g.ids := g.mem_ids_of_source? _hs
    exact Prod.Lex.left _ _ (SortedMap.length_filter_insert_lt hid _hl)

def stateText (l : Ledger) (configuration : String) (id : NodeId) : String :=
  match l.get? configuration id with
  | some .executed => " [OK]"
  | some (.failed reason) => s!" [Err: {reason}]"
  | none => " [?]"

def Entry.line (g : Graph) (ledger : Option Ledger) (e : Entry) : String :=
  let lead := e.way.lead
  let spec := e.spec
  match e.mark with
  | .outside => s!"{lead}{spec} (produced outside this graph)\n"
  | .repeated level => s!"{lead}{spec} -> (Ref to L{level})\n"
  | .expanded id n =>
    let level := e.way.level
    let function := n.function
    let terminal := if n.isTerminal spec then " [TERMINAL]" else ""
    let state := (ledger.map (stateText · g.configuration id)).getD ""
    s!"{lead}[L{level}] {spec} <- {function}{terminal}{state}\n"

def rule : String := "--------------------------------------------------\n"

def render (g : Graph) (s : ValueSpec) (ledger : Option Ledger) : String :=
  let body :=
    if (g.source? s).isSome then
      String.join ((entries g ∅ [([], s)]).map (·.line g ledger))
    else s!"No node produces {s}\n"
  s!"PRODUCTION TRACE for {s}:\n" ++ rule ++ body

end ValueGraph.Trace
