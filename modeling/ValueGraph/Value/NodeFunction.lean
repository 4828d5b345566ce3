import ValueGraph.Collection.SortedMap

namespace ValueGraph

inductive NodeFunction
  /-- A function of the catalog. -/
  | computation (id : String) (parameters : SortedMap String String)
  /-- Takes its value from the market data layer. -/
  | marketData
  /-- Publishes its one input under another specification. -/
  | relabel
deriving DecidableEq, Inhabited

namespace NodeFunction

def marketDataId : String := "MarketDataSourcingFunction"

def relabelId : String := "ValueRelabelingFunction"

def id : NodeFunction → String
  | computation i _ => i
  | marketData => marketDataId
  | relabel => relabelId

instance : ToString NodeFunction := ⟨id⟩

def parameters? : NodeFunction → Option (SortedMap String String)
  | computation _ p => some p
  | _ => none

def isMarketData : NodeFunction → Bool
  | marketData => true
  | _ => false

end NodeFunction

end ValueGraph
