import MiddleEnd.Double.Shortest

/-! # Doubles as text

Shortest digits, written with a point from `0.0001` up to sixteen digits before
the point, and with an exponent elsewhere.
-/

namespace MiddleEnd.Double

/-- The decisions of a way to write floats. -/
structure Style where
  /-- The fewest digits before the point (negative: zeros after it) without an exponent. -/
  leastPoint : Int
  /-- The most digits before the point without an exponent. -/
  mostPoint : Int
  /-- What ends a whole number. -/
  whole : String
  /-- What stands before an exponent. -/
  mark : String
deriving Repr, Inhabited

/-- How literals are written in printed code. -/
def literal : Style := ⟨-3, 16, ".0", "e"⟩

def positional (how : Style) (d : Decimal) : String :=
  let digits := d.digits
  if d.point ≤ 0 then
    "0." ++ String.ofList (List.replicate (-d.point).toNat '0' ++ digits)
  else
    let before := d.point.toNat
    if digits.length ≤ before then
      String.ofList (digits ++ List.replicate (before - digits.length) '0') ++ how.whole
    else
      String.ofList (digits.take before) ++ "." ++ String.ofList (digits.drop before)

def scientific (how : Style) (d : Decimal) : String :=
  let rest := d.digits.drop 1
  String.ofList (d.digits.take 1) ++
    (if rest.isEmpty then "" else "." ++ String.ofList rest) ++
    how.mark ++ (if d.point - 1 < 0 then "-" else "") ++ (d.point - 1).natAbs.repr

def magnitudeText (how : Style) (d : Double) : String :=
  if d.magnitude == 0 then "0" ++ how.whole
  else if d.isInfinite then "inf"
  else
    let decimal := d.shortest
    if how.leastPoint ≤ decimal.point ∧ decimal.point ≤ how.mostPoint then
      positional how decimal
    else scientific how decimal

/-- A float as text; a NaN has no sign. -/
def text (d : Double) : String :=
  if d.isNaN then "NaN"
  else (if d.isNegative then "-" else "") ++ magnitudeText literal d

end MiddleEnd.Double
