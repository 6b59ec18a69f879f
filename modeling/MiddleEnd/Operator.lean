import MiddleEnd.Double

/-! # Operators

The operators of the language.  Arithmetic and change of sign come once for
integers, which have 64 bits and wrap around, and once for floats.
-/

namespace MiddleEnd

/-- Change of sign. -/
inductive Negation where
  | int
  | float
deriving Repr, DecidableEq, Inhabited

/-- Arithmetic on integers. -/
inductive IntOp where
  | add
  | sub
deriving Repr, DecidableEq, Inhabited

/-- Arithmetic on floats. -/
inductive FloatOp where
  | add
  | sub
  | mul
  | div
deriving Repr, DecidableEq, Inhabited

/-- Arithmetic on two numbers of one kind. -/
inductive Arith where
  | int (op : IntOp)
  | float (op : FloatOp)
deriving Repr, DecidableEq, Inhabited

/-- The comparisons of the source language. -/
inductive Comparison where
  | eq
  | ne
  | le
  | ge
  | lt
  | gt
deriving Repr, DecidableEq, Inhabited

/-- The tests that code is left with. -/
inductive Test where
  | eq
  | le
deriving Repr, DecidableEq, Inhabited

def IntOp.apply : IntOp → Int64 → Int64 → Int64
  | .add, m, n => m + n
  | .sub, m, n => m - n

def FloatOp.apply : FloatOp → Double → Double → Double
  | .add, a, b => a.add b
  | .sub, a, b => a.sub b
  | .mul, a, b => a.mul b
  | .div, a, b => a.div b

namespace Test

def ints : Test → Int64 → Int64 → Bool
  | .eq, m, n => m == n
  | .le, m, n => decide (m ≤ n)

def floats : Test → Double → Double → Bool
  | .eq, a, b => a.eq b
  | .le, a, b => a.le b

end Test

end MiddleEnd
