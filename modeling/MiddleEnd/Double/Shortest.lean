import MiddleEnd.Double

/-! # Shortest decimals

The decimal of fewest digits that is closer to a given double than to any
other.  A finite double is `m * 2 ^ q`; the numbers that round to it lie
between the midpoints to its two neighbours, both midpoints included when `m` is
even.  For one digit, two digits and so on, the two decimals next to the double
are tried; the first that lies between the midpoints is the answer.
-/

namespace MiddleEnd.Double

/-- A positive number as digits and a power of ten: `0.d₁d₂… * 10 ^ point`. -/
structure Decimal where
  digits : List Char
  point : Int
deriving Repr, DecidableEq, Inhabited

/-- The number `num / den`. -/
structure Ratio where
  num : Nat
  den : Nat
deriving Repr, DecidableEq, Inhabited

/-- `n * 2 ^ e` as a ratio. -/
def scaled (n : Nat) (e : Int) : Ratio :=
  ⟨n * Nat.pow 2 e.toNat, Nat.pow 2 (-e).toNat⟩

def exponentField (d : Double) : Nat :=
  d.magnitude.toNat / Nat.pow 2 52

def fraction (d : Double) : Nat :=
  d.magnitude.toNat % Nat.pow 2 52

/-- The integer `m` of `m * 2 ^ q`. -/
def significand (d : Double) : Nat :=
  if d.exponentField = 0 then d.fraction else d.fraction + Nat.pow 2 52

/-- The exponent `q` of `m * 2 ^ q`. -/
def exponent (d : Double) : Int :=
  if d.exponentField = 0 then -1074 else (d.exponentField : Int) - 1075

/-- The magnitude of a finite double. -/
def value (d : Double) : Ratio :=
  scaled (4 * d.significand) (d.exponent - 2)

/-- The midpoint to the next greater double. -/
def upper (d : Double) : Ratio :=
  scaled (4 * d.significand + 2) (d.exponent - 2)

/-- The midpoint to the next smaller double, which is nearer below a power of two. -/
def lower (d : Double) : Ratio :=
  scaled (if d.fraction = 0 ∧ 1 < d.exponentField then 4 * d.significand - 1
    else 4 * d.significand - 2) (d.exponent - 2)

/-- Whether `n * 10 ^ p` rounds to the double. -/
def readsBack (d : Double) (n : Nat) (p : Int) : Bool :=
  let num := n * Nat.pow 10 p.toNat
  let den := Nat.pow 10 (-p).toNat
  let below := d.lower.num * den
  let here := num * d.lower.den
  let above := d.upper.num * den
  if d.significand % 2 = 0 then decide (below ≤ here ∧ here ≤ above)
  else decide (below < here ∧ here < above)

/-- How many digits stand before the point, counted negative for zeros after it:
    the `k` with `10 ^ (k - 1) ≤ v < 10 ^ k`. -/
def magnitudeDigits (d : Double) : Int :=
  let shifted := d.value.num * Nat.pow 10 400 / d.value.den
  ((Nat.toDigits 10 shifted).length : Int) - 400

/-- Of the two decimals with `count` digits next to the double, the nearer one that
    reads back; a tie goes up. -/
def candidate (d : Double) (count : Nat) : Option Decimal :=
  let p := d.magnitudeDigits - count
  let num := d.value.num * Nat.pow 10 (-p).toNat
  let den := d.value.den * Nat.pow 10 p.toNat
  let down := num / den
  let ofInteger (n : Nat) : Decimal :=
    let digits := Nat.toDigits 10 n
    ⟨(digits.reverse.dropWhile (· == '0')).reverse, p + digits.length⟩
  match d.readsBack down p, d.readsBack (down + 1) p with
  | true, true => some (ofInteger (if den ≤ 2 * (num % den) then down + 1 else down))
  | true, false => some (ofInteger down)
  | false, true => some (ofInteger (down + 1))
  | false, false => none

/-- The shortest decimal of a positive finite double.  Seventeen digits are
    always enough. -/
def shortest (d : Double) : Decimal :=
  ((List.range 17).findSome? fun n => d.candidate (n + 1)).getD ⟨[], 0⟩

end MiddleEnd.Double
