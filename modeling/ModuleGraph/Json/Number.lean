import ModuleGraph.Decimal.Shortest
import ModuleGraph.Json

namespace ModuleGraph

inductive Number
  | integer (n : Int)
  | real (x : Binary64)
deriving DecidableEq

namespace Number

def digitValue (c : Char) : Nat := c.toNat - 48

/-- Reads digits for as long as the number they make stays below `2 ^ 64`, and gives back the
digits that are left. -/
def accumulate (n : Nat) : List Char → Nat × List Char
  | [] => (n, [])
  | c :: s =>
    if n * 10 + digitValue c < Nat.pow 2 64 then accumulate (n * 10 + digitValue c) s
    else (n, c :: s)

def natOfDigits (digits : List Char) : Nat := digits.foldl (fun n c => n * 10 + digitValue c) 0

def exponentOf : List Char → Int
  | 'e' :: '-' :: s | 'E' :: '-' :: s => -natOfDigits s
  | 'e' :: '+' :: s | 'E' :: '+' :: s => natOfDigits s
  | 'e' :: s | 'E' :: s => natOfDigits s
  | _ => 0

def scaled (negative : Bool) (significand : Nat) (exponent : Int) : Option Number :=
  ((Binary64.ofNat significand).bind (·.scaleTen exponent)).map fun x => .real { x with negative }

/-- An unsigned spelling: the significand takes as many digits as 64 bits hold, before and after
the point; whole digits that found no room count as tens. -/
def ofUnsigned (negative : Bool) (s : List Char) : Option Number :=
  let rest := s.dropWhile Char.isDigit
  let (whole, dropped) := accumulate 0 (s.takeWhile Char.isDigit)
  match rest with
  | [] =>
    if dropped ≠ [] then scaled negative whole dropped.length
    else if !negative then some (.integer whole)
    else if whole = 0 ∨ Nat.pow 2 63 < whole then scaled negative whole 0
    else some (.integer (-whole))
  | '.' :: s =>
    let digits := s.takeWhile Char.isDigit
    let (significand, ignored) := accumulate whole digits
    let places : Int := digits.length - ignored.length
    scaled negative significand
      (dropped.length - places + exponentOf (s.dropWhile Char.isDigit))
  | _ => scaled negative whole (dropped.length + exponentOf rest)

def ofLexeme : List Char → Option Number
  | '-' :: s => ofUnsigned true s
  | s => ofUnsigned false s

def read (lexeme : List Char) : Except Json.Fault Number :=
  match ofLexeme lexeme with
  | some n => .ok n
  | none => .error .malformed

/-- Writes `digits * 10 ^ exponent` in positions when the leading digit stands from the fifth
place after the point to the sixteenth before it, else with an exponent that bears its sign. -/
def layout (x : Decimal.Scientific) : String :=
  let digits := toString x.digits
  let length : Int := digits.length
  let point := length + x.exponent
  let zeros := fun (n : Int) => String.ofList (List.replicate n.toNat '0')
  let cut := fun (n : Nat) =>
    String.ofList (digits.toList.take n) ++ "." ++ String.ofList (digits.toList.drop n)
  if 0 ≤ x.exponent ∧ point ≤ 16 then digits ++ zeros x.exponent ++ ".0"
  else if 0 < point ∧ point ≤ 16 then cut point.toNat
  else if -5 < point ∧ point ≤ 0 then "0." ++ zeros (-point) ++ digits
  else
    (if length = 1 then digits else cut 1) ++ (if 0 < point then "e+" else "e") ++
      toString (point - 1)

def text : Number → String
  | integer n => toString n
  | real x => (if x.negative then "-" else "") ++ layout (Decimal.shortest x)

def toJson (n : Number) : Json := .number n.text.toList

end Number

end ModuleGraph
