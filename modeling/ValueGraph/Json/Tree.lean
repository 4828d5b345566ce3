import ValueGraph.Json.Token

namespace ValueGraph

/-- Members keep their order and their repetitions; what these mean is up to the reader. -/
inductive Json
  | null
  | bool (b : Bool)
  | number (n : Json.Number)
  | text (t : Json.Text)
  | array (items : List Json)
  | object (members : List (Json.Text × Json))
deriving Inhabited

namespace Json

mutual

/-- Reads one value; each call uses up one unit of fuel. -/
def value : (fuel : Nat) → List Token → Option (Json × List Token)
  | 0, _ => none
  | _ + 1, [] => none
  | fuel + 1, t :: r =>
    match t with
    | .null => some (.null, r)
    | .bool b => some (.bool b, r)
    | .number n => some (.number n, r)
    | .text s => some (.text s, r)
    | .openArray =>
      match r with
      | .closeArray :: r => some (.array [], r)
      | r => (items fuel r).map fun (js, r) => (.array js, r)
    | .openObject =>
      match r with
      | .closeObject :: r => some (.object [], r)
      | r => (members fuel r).map fun (ms, r) => (.object ms, r)
    | _ => none

def items : (fuel : Nat) → List Token → Option (List Json × List Token)
  | 0, _ => none
  | fuel + 1, r =>
    match value fuel r with
    | some (j, .comma :: r) => (items fuel r).map fun (js, r) => (j :: js, r)
    | some (j, .closeArray :: r) => some ([j], r)
    | _ => none

def members : (fuel : Nat) → List Token → Option (List (Text × Json) × List Token)
  | fuel + 1, .text name :: .colon :: r =>
    match value fuel r with
    | some (j, .comma :: r) => (members fuel r).map fun (ms, r) => ((name, j) :: ms, r)
    | some (j, .closeObject :: r) => some ([(name, j)], r)
    | _ => none
  | _, _ => none

end

/-- The value that the tokens spell, all of them; two calls read at least one token. -/
def ofTokens? (ts : List Token) : Option Json :=
  match value (2 * ts.length) ts with
  | some (j, []) => some j
  | _ => none

def parse? (s : String) : Option Json := (scan s.toList).bind ofTokens?

mutual

def tokens : Json → List Token
  | null => [.null]
  | bool b => [.bool b]
  | number n => [.number n]
  | text t => [.text t]
  | array js => .openArray :: itemTokens js ++ [.closeArray]
  | object ms => .openObject :: memberTokens ms ++ [.closeObject]

def itemTokens : List Json → List Token
  | [] => []
  | [j] => j.tokens
  | j :: js => j.tokens ++ .comma :: itemTokens js

def memberTokens : List (Text × Json) → List Token
  | [] => []
  | [(name, j)] => .text name :: .colon :: j.tokens
  | (name, j) :: ms => .text name :: .colon :: j.tokens ++ .comma :: memberTokens ms

end

def print (j : Json) : String := String.ofList (j.tokens.flatMap Token.write)

def nat (n : Nat) : Json := number { whole := n }

def int (n : Int) : Json := number { negative := n < 0, whole := n.natAbs }

def string (s : String) : Json := text (some s)

def record (members : List (String × Json)) : Json :=
  object (members.map fun (name, j) => (some name, j))

def nat? : Json → Option Nat
  | number ⟨false, n, []⟩ => some n
  | _ => none

def int? : Json → Option Int
  | number ⟨true, n, []⟩ => some (-n)
  | number ⟨false, n, []⟩ => some n
  | _ => none

def string? : Json → Option String
  | text t => t
  | _ => none

def bool? : Json → Option Bool
  | bool b => some b
  | _ => none

def items? : Json → Option (List Json)
  | array js => some js
  | _ => none

def isNull : Json → Bool
  | null => true
  | _ => false

end Json

end ValueGraph
