namespace ValueGraph.Json

/-- A number as written: what follows the whole part (fraction, exponent) is kept as it stands. -/
structure Number where
  negative : Bool := false
  whole : Nat
  tail : List Char := []
deriving DecidableEq, Inhabited

/-- The string that a text stands for; escapes of unpaired surrogates stand for none. -/
abbrev Text := Option String

inductive Token
  | openObject | closeObject | openArray | closeArray | colon | comma
  | null
  | bool (b : Bool)
  | number (n : Number)
  | text (t : Text)
deriving DecidableEq, Inhabited

def isBlank (c : Char) : Bool := c = ' ' || c = '\t' || c = '\n' || c = '\r'

def hexDigit? (c : Char) : Option Nat :=
  if '0' ≤ c ∧ c ≤ '9' then some (c.toNat - '0'.toNat)
  else if 'a' ≤ c ∧ c ≤ 'f' then some (c.toNat - 'a'.toNat + 10)
  else if 'A' ≤ c ∧ c ≤ 'F' then some (c.toNat - 'A'.toNat + 10)
  else none

def hex4? (a b c d : Char) : Option Nat := do
  let a ← hexDigit? a
  let b ← hexDigit? b
  let c ← hexDigit? c
  let d ← hexDigit? d
  return ((a * 16 + b) * 16 + c) * 16 + d

def shortEscape? : Char → Option Char
  | '"' => some '"'
  | '\\' => some '\\'
  | '/' => some '/'
  | 'b' => some '\x08'
  | 'f' => some '\x0c'
  | 'n' => some '\n'
  | 'r' => some '\r'
  | 't' => some '\t'
  | _ => none

/-- Reads a text up to its closing quote, as code points and surrogate halves. -/
def scanText : List Char → Option (List Nat × List Char)
  | [] => none
  | '"' :: r => some ([], r)
  | '\\' :: 'u' :: a :: b :: c :: d :: r => do
    let u ← hex4? a b c d
    let (us, r) ← scanText r
    return (u :: us, r)
  | '\\' :: e :: r => do
    let c ← shortEscape? e
    let (us, r) ← scanText r
    return (c.toNat :: us, r)
  | c :: r =>
    if c.toNat < 0x20 ∨ c = '\\' then none
    else do
      let (us, r) ← scanText r
      return (c.toNat :: us, r)

def isHighSurrogate (u : Nat) : Bool := 0xD800 ≤ u ∧ u < 0xDC00

def isLowSurrogate (u : Nat) : Bool := 0xDC00 ≤ u ∧ u < 0xE000

/-- Joins surrogate pairs; fails on a half that has no partner. -/
def joinSurrogates : List Nat → Option (List Char)
  | [] => some []
  | [u] => if isHighSurrogate u || isLowSurrogate u then none else some [Char.ofNat u]
  | u :: v :: r =>
    if isHighSurrogate u then
      if isLowSurrogate v then
        (joinSurrogates r).map (Char.ofNat (0x10000 + (u - 0xD800) * 0x400 + (v - 0xDC00)) :: ·)
      else none
    else if isLowSurrogate u then none
    else (joinSurrogates (v :: r)).map (Char.ofNat u :: ·)

def digitsValue (ds : List Char) : Nat := ds.foldl (fun n c => n * 10 + (c.toNat - '0'.toNat)) 0

/-- A whole part: one digit, or several of which the first is not zero. -/
def scanWhole (s : List Char) : Option (Nat × List Char) :=
  match s.takeWhile Char.isDigit with
  | [] => none
  | '0' :: _ :: _ => none
  | ds => some (digitsValue ds, s.dropWhile Char.isDigit)

def scanDigits (s : List Char) : Option (List Char × List Char) :=
  match s.takeWhile Char.isDigit with
  | [] => none
  | ds => some (ds, s.dropWhile Char.isDigit)

def scanFraction : List Char → Option (List Char × List Char)
  | '.' :: r => (scanDigits r).map fun (ds, r) => ('.' :: ds, r)
  | r => some ([], r)

def scanExponent : List Char → Option (List Char × List Char)
  | e :: r =>
    if e = 'e' ∨ e = 'E' then
      match r with
      | '+' :: r => (scanDigits r).map fun (ds, r) => (e :: '+' :: ds, r)
      | '-' :: r => (scanDigits r).map fun (ds, r) => (e :: '-' :: ds, r)
      | r => (scanDigits r).map fun (ds, r) => (e :: ds, r)
    else some ([], e :: r)
  | [] => some ([], [])

def scanNumber (negative : Bool) (s : List Char) : Option (Number × List Char) := do
  let (whole, r) ← scanWhole s
  let (fraction, r) ← scanFraction r
  let (exponent, r) ← scanExponent r
  return (⟨negative, whole, fraction ++ exponent⟩, r)

def scanToken (c : Char) (s : List Char) : Option (Token × List Char) :=
  match c, s with
  | '{', r => some (.openObject, r)
  | '}', r => some (.closeObject, r)
  | '[', r => some (.openArray, r)
  | ']', r => some (.closeArray, r)
  | ':', r => some (.colon, r)
  | ',', r => some (.comma, r)
  | 'n', 'u' :: 'l' :: 'l' :: r => some (.null, r)
  | 't', 'r' :: 'u' :: 'e' :: r => some (.bool true, r)
  | 'f', 'a' :: 'l' :: 's' :: 'e' :: r => some (.bool false, r)
  | '"', r => do
    let (us, r) ← scanText r
    return (.text ((joinSurrogates us).map String.ofList), r)
  | '-', r => (scanNumber true r).map fun (n, r) => (.number n, r)
  | c, r => (scanNumber false (c :: r)).map fun (n, r) => (.number n, r)

def scanAll : (fuel : Nat) → List Char → Option (List Token)
  | _, [] => some []
  | 0, _ => none
  | fuel + 1, c :: r =>
    if isBlank c then scanAll fuel r
    else do
      let (t, r) ← scanToken c r
      let ts ← scanAll fuel r
      return t :: ts

/-- The tokens of a text; every token and blank has at least one character. -/
def scan (s : List Char) : Option (List Token) := scanAll s.length s

def hexDigit (n : Nat) : Char := (Nat.digitChar n)

/-- Quotes, backslashes and control characters are escaped, in the shortest way there is. -/
def writeChar (c : Char) : List Char :=
  match c with
  | '"' => ['\\', '"']
  | '\\' => ['\\', '\\']
  | '\x08' => ['\\', 'b']
  | '\x0c' => ['\\', 'f']
  | '\n' => ['\\', 'n']
  | '\r' => ['\\', 'r']
  | '\t' => ['\\', 't']
  | c =>
    if c.toNat < 0x20 then ['\\', 'u', '0', '0', hexDigit (c.toNat / 16), hexDigit (c.toNat % 16)]
    else [c]

def writeText (s : String) : List Char := '"' :: s.toList.flatMap writeChar ++ ['"']

def writeNumber (n : Number) : List Char :=
  (if n.negative then ['-'] else []) ++ Nat.toDigits 10 n.whole ++ n.tail

namespace Token

def write : Token → List Char
  | openObject => ['{']
  | closeObject => ['}']
  | openArray => ['[']
  | closeArray => [']']
  | colon => [':']
  | comma => [',']
  | null => ['n', 'u', 'l', 'l']
  | bool true => ['t', 'r', 'u', 'e']
  | bool false => ['f', 'a', 'l', 's', 'e']
  | number n => writeNumber n
  | text (some s) => writeText s
  | text none => ['"', '\\', 'u', 'd', '8', '0', '0', '"']

end Token

end ValueGraph.Json
