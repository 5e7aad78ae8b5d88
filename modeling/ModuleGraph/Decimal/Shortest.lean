import ModuleGraph.Decimal.Binary64

/-! The shortest decimal that reads back as a given binary number: on the grids of one, two and
more significant digits the first grid with a point that rounds to the number, and there the
nearer one, or of two equally near ones the even one. -/
namespace ModuleGraph.Decimal

structure Scientific where
  digits : Nat
  exponent : Int
deriving DecidableEq

def Scientific.normalize (fuel : Nat) (s : Scientific) : Scientific :=
  match fuel with
  | 0 => s
  | fuel + 1 =>
    if s.digits ≠ 0 ∧ s.digits % 10 = 0 then normalize fuel ⟨s.digits / 10, s.exponent + 1⟩ else s

/-- The place of the leading digit of `num / den`: the greatest `p` with `10 ^ p ≤ num / den`. -/
def leadingPlace (num den : Nat) : Int :=
  if den ≤ num then (Nat.toDigits 10 (num / den)).length - 1
  else -((List.range 400).find? fun j => den ≤ num * Nat.pow 10 j).getD 0

/-- The interval of the reals that round to a positive number, with the number itself, all over
one denominator; the ends belong to it when the mantissa is even. -/
structure Interval where
  low : Nat
  value : Nat
  high : Nat
  den : Nat
  closed : Bool

def Interval.of (x : Binary64) : Interval :=
  let below := if x.mantissa = Nat.pow 2 52 ∧ Binary64.leastExponent < x.exponent then 1 else 2
  let place := fun n => (Binary64.shift n 1 (x.exponent - 2)).1
  { low := place (4 * x.mantissa - below)
    value := place (4 * x.mantissa)
    high := place (4 * x.mantissa + 2)
    den := (Binary64.shift 1 1 (x.exponent - 2)).2
    closed := x.mantissa % 2 = 0 }

def Interval.contains (i : Interval) (n : Nat) (k : Int) : Bool :=
  let p := n * Nat.pow 10 k.toNat * i.den
  let scale := Nat.pow 10 (-k).toNat
  if i.closed then i.low * scale ≤ p && p ≤ i.high * scale
  else i.low * scale < p && p < i.high * scale

def Interval.onGrid (i : Interval) (k : Int) : Option Scientific :=
  let num := i.value * Nat.pow 10 (-k).toNat
  let den := i.den * Nat.pow 10 k.toNat
  let n := num / den
  match i.contains n k, i.contains (n + 1) k with
  | true, true => some ⟨Binary64.roundQuotient num den, k⟩
  | true, false => some ⟨n, k⟩
  | false, true => some ⟨n + 1, k⟩
  | false, false => none

/-- The fewest digits that read back as the magnitude of a number. -/
def shortest (x : Binary64) : Scientific :=
  if x.mantissa = 0 then ⟨0, 0⟩
  else
    let i := Interval.of x
    let p := leadingPlace i.value i.den
    let found := (List.range 17).findSome? fun (n : Nat) => i.onGrid (p - n)
    (found.getD ⟨0, 0⟩).normalize 20

end ModuleGraph.Decimal
