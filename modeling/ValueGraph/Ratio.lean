namespace ValueGraph

/-- The share of `part` in `whole`, both below 2 ^ 64; nothing of nothing is nothing. -/
def ratio (part whole : Nat) : Float :=
  if whole = 0 then 0 else part.toUInt64.toFloat / whole.toUInt64.toFloat

end ValueGraph
