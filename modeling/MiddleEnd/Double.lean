/-! # Doubles

A double is a 64-bit word read as IEEE 754 binary64.  Keeping the word makes
equality of doubles decidable and tells the two zeros apart; the comparisons of
the language are those of the standard and are read off the word as well.
-/

namespace MiddleEnd

/-- A binary64 number, by its bits. -/
structure Double where
  bits : UInt64
deriving Repr, DecidableEq, Inhabited

namespace Double

def signBit : UInt64 := 0x8000000000000000

/-- The bits of positive infinity; every greater magnitude is a NaN. -/
def infinityBits : UInt64 := 0x7ff0000000000000

/-- The bit that makes a NaN quiet. -/
def quietBit : UInt64 := 0x0008000000000000

/-- The NaN that an operation without a result answers. -/
def invalid : Double := ⟨0xfff8000000000000⟩

def isNegative (d : Double) : Bool :=
  d.bits &&& signBit != 0

def magnitude (d : Double) : UInt64 :=
  d.bits &&& (signBit - 1)

def isNaN (d : Double) : Bool :=
  infinityBits < d.magnitude

def isInfinite (d : Double) : Bool :=
  d.magnitude == infinityBits

/-- Numbers are ordered as these integers are; both zeros are at 0. -/
def key (d : Double) : Int :=
  if d.isNegative then -(d.magnitude.toNat : Int) else d.magnitude.toNat

/-- Equality of numbers: the zeros are equal and a NaN equals nothing. -/
def eq (a b : Double) : Bool :=
  !a.isNaN && !b.isNaN && a.key == b.key

/-- Order of numbers: a NaN is below and above nothing. -/
def le (a b : Double) : Bool :=
  !a.isNaN && !b.isNaN && decide (a.key ≤ b.key)

/-- The number with the other sign, also for zeros and NaNs. -/
def neg (d : Double) : Double :=
  ⟨d.bits ^^^ signBit⟩

/-- An operation on numbers.  An operand that is a NaN is the answer, the left
    one first. -/
def lift (op : Float → Float → Float) (a b : Double) : Double :=
  if a.isNaN then ⟨a.bits ||| quietBit⟩
  else if b.isNaN then ⟨b.bits ||| quietBit⟩
  else
    let r : Double := ⟨(op (Float.ofBits a.bits) (Float.ofBits b.bits)).toBits⟩
    if r.isNaN then invalid else r

def add : Double → Double → Double := lift (· + ·)
def sub : Double → Double → Double := lift (· - ·)
def mul : Double → Double → Double := lift (· * ·)
def div : Double → Double → Double := lift (· / ·)

end Double

end MiddleEnd
