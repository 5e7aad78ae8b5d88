namespace ModuleGraph

/-- The finite number `mantissa * 2 ^ exponent` with a sign. The mantissa is below `2 ^ 53`, and
below `2 ^ 52` only where the exponent is least. -/
structure Binary64 where
  negative : Bool
  mantissa : Nat
  exponent : Int
deriving DecidableEq

namespace Binary64

def leastExponent : Int := -1074

def greatestExponent : Int := 971

/-- The integer nearest to a quotient; of two nearest the even one. -/
def roundQuotient (num den : Nat) : Nat :=
  let q := num / den
  let r := num % den
  if 2 * r < den then q else if den < 2 * r then q + 1 else q + q % 2

def shift (num den : Nat) (k : Int) : Nat × Nat :=
  if 0 ≤ k then (num * Nat.pow 2 k.toNat, den) else (num, den * Nat.pow 2 (-k).toNat)

/-- The magnitude nearest to `num / den * 2 ^ k`; none if that is beyond the greatest. -/
def magnitude (num den : Nat) (k : Int) : Option (Nat × Int) :=
  if num = 0 then some (0, leastExponent)
  else
    let low := max (k + num.log2 - den.log2 - 53) leastExponent
    let fits := fun (e : Int) => let q := shift num den (k - e); q.1 / q.2 < Nat.pow 2 53
    let e := if fits low then low else low + 1
    let q := shift num den (k - e)
    let m := roundQuotient q.1 q.2
    let (m, e) := if m = Nat.pow 2 53 then (Nat.pow 2 52, e + 1) else (m, e)
    if greatestExponent < e then none else some (m, e)

def ofMagnitude (p : Nat × Int) : Binary64 := ⟨false, p.1, p.2⟩

def ofNat (n : Nat) : Option Binary64 := (magnitude n 1 0).map ofMagnitude

def mul (x y : Binary64) : Option Binary64 :=
  (magnitude (x.mantissa * y.mantissa) 1 (x.exponent + y.exponent)).map ofMagnitude

def div (x y : Binary64) : Option Binary64 :=
  (magnitude x.mantissa y.mantissa (x.exponent - y.exponent)).map ofMagnitude

/-- `x * 10 ^ k` in the arithmetic of these numbers: times or divided by the number nearest to the
power, of which `10 ^ 308` is the greatest there is. -/
def scaleTen (x : Binary64) (k : Int) : Option Binary64 :=
  if k.natAbs ≤ 308 then
    (ofNat (Nat.pow 10 k.natAbs)).bind fun p => if 0 ≤ k then x.mul p else x.div p
  else if x.mantissa = 0 then some x
  else if 0 ≤ k then none
  else ((ofNat (Nat.pow 10 308)).bind x.div).bind fun y => scaleTen y (k + 308)
termination_by k.natAbs

end Binary64

end ModuleGraph
