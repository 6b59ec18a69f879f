import MiddleEnd.Double.Text
import MiddleEnd.Name
import MiddleEnd.Operator

/-! # Operations

The straight-line part of code: an operation takes names and yields a value,
without a call and without a choice.
-/

namespace MiddleEnd

/-- One operation on named values. -/
inductive Op where
  | unit
  | int (n : Int64)
  | float (d : Double)
  | negate (op : Negation) (x : Name)
  | arith (op : Arith) (x y : Name)
  | var (x : Name)
  | tuple (xs : List Name)
  | get (array index : Name)
  | put (array index value : Name)
  | externArray (x : Name)
deriving Repr, DecidableEq, Inhabited

namespace Op

/-- The names an operation uses.  An external array is known by a label, which
    is not among them. -/
def names : Op → List Name
  | .unit | .int _ | .float _ | .externArray _ => []
  | .negate _ x | .var x => [x]
  | .arith _ x y | .get x y => [x, y]
  | .tuple xs => xs
  | .put x y z => [x, y, z]

def map (f : Name → Name) : Op → Op
  | .unit => .unit
  | .int n => .int n
  | .float d => .float d
  | .negate op x => .negate op (f x)
  | .arith op x y => .arith op (f x) (f y)
  | .var x => .var (f x)
  | .tuple xs => .tuple (xs.map f)
  | .get x y => .get (f x) (f y)
  | .put x y z => .put (f x) (f y) (f z)
  | .externArray x => .externArray x

theorem map_id (o : Op) : o.map id = o := by
  cases o <;> simp [map]

/-- Whether the operation changes the store. -/
def isEffectful : Op → Bool
  | .put .. => true
  | .unit | .int _ | .float _ | .negate .. | .arith .. | .var _ | .tuple _ | .get ..
  | .externArray _ => false

/-- Equality in which floats are compared as numbers: the zeros are equal and a
    NaN is not even equal to itself. -/
def numEq : Op → Op → Bool
  | .float a, .float b => a.eq b
  | a, b => a == b

def intSign : IntOp → String
  | .add => "+"
  | .sub => "-"

def floatSign : FloatOp → String
  | .add => "+."
  | .sub => "-."
  | .mul => "*."
  | .div => "/."

def arithSign : Arith → String
  | .int op => intSign op
  | .float op => floatSign op

def argsText (xs : List Name) : String :=
  "(" ++ Name.commas xs ++ ")"

def text : Op → String
  | .unit => "()"
  | .int n => n.toInt.repr
  | .float d => d.text
  | .negate .int x => "-" ++ x
  | .negate .float x => "-." ++ x
  | .arith op x y => x ++ " " ++ arithSign op ++ " " ++ y
  | .var x => x
  | .tuple xs => argsText xs
  | .get x y => x ++ ".(" ++ y ++ ")"
  | .put x y z => x ++ ".(" ++ y ++ ") <- " ++ z
  | .externArray x => "extern " ++ x

end Op

end MiddleEnd
