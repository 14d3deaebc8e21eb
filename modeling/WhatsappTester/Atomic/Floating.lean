import Mathlib.Data.Rat.Floor

namespace WhatsappTester.Atomic.Floating

/-- The values of a double, with one zero. -/
inductive Double
  | nan
  | infinite (negative : Bool)
  | finite (value : Rat)
  deriving DecidableEq, Repr

/-- `2 ^ e` -/
def power (e : Int) : Rat :=
  if 0 ≤ e then (2 ^ e.toNat : Nat) else mkRat 1 (2 ^ (-e).toNat)

/-- The greatest `e` with `2 ^ e ≤ a`, for a positive `a`. -/
def exponent (a : Rat) : Int :=
  let e : Int := a.num.toNat.log2 - a.den.log2
  if power e ≤ a then e else e - 1

/-- The nearest integer, the even one of two that are equally near. -/
def nearest (q : Rat) : Int :=
  let rest := q - q.floor
  if rest < 1 / 2 ∨ rest = 1 / 2 ∧ q.floor % 2 = 0 then q.floor else q.floor + 1

/-- The double nearest to a number: 53 binary digits, down to the 1074th after the point. -/
def toDouble (q : Rat) : Double :=
  if q = 0 then .finite 0
  else
    let a := if q < 0 then -q else q
    let unit := power (max (exponent a - 52) (-1074))
    let value := nearest (a / unit) * unit
    if power 1024 ≤ value then .infinite (decide (q < 0))
    else .finite (if q < 0 then -value else value)

def mul : Double → Double → Double
  | .finite a, .finite b => toDouble (a * b)
  | .infinite s, .infinite s' => .infinite (s != s')
  | .infinite s, .finite b | .finite b, .infinite s =>
    if b = 0 then .nan else .infinite (s != decide (b < 0))
  | .nan, _ | _, .nan => .nan

def neg : Double → Double
  | .finite a => .finite (-a)
  | .infinite s => .infinite (!s)
  | .nan => .nan

end WhatsappTester.Atomic.Floating
