import MiddleEnd.Knf
import MiddleEnd.Scope

/-! # Equality up to bound names

Two pieces of code are the same up to renaming when a walk through both finds
the same nodes and pairs their binders one with the other.
-/

namespace MiddleEnd.Knf

/-- Which bound names of the left code go with which of the right code. -/
structure Pairing where
  left : Scope Name
  right : Scope Name

namespace Pairing

def empty : Pairing := ⟨.empty, .empty⟩

def bind (p : Pairing) (x y : Name) : Pairing :=
  ⟨p.left.bind x y, p.right.bind y x⟩

def bindAll (p : Pairing) (xs ys : List Name) : Pairing :=
  ⟨p.left.bindAll (xs.zip ys), p.right.bindAll (ys.zip xs)⟩

/-- Whether two occurrences mean the same: binders that go together, or one free name. -/
def same (p : Pairing) (x y : Name) : Bool :=
  match p.left.get? x, p.right.get? y with
  | some y', some x' => y' == y && x' == x
  | none, none => x == y
  | _, _ => false

def sameAll (p : Pairing) : List Name → List Name → Bool
  | [], [] => true
  | x :: xs, y :: ys => p.same x y && p.sameAll xs ys
  | _, _ => false

/-- Whether operations are the same; floats are compared by their bits. -/
def sameOp (p : Pairing) : Op → Op → Bool
  | .unit, .unit => true
  | .int m, .int n => m == n
  | .float c, .float d => c.bits == d.bits
  | .negate s x, .negate t y => s == t && p.same x y
  | .arith s x1 x2, .arith t y1 y2 => s == t && p.same x1 y1 && p.same x2 y2
  | .var x, .var y => p.same x y
  | .tuple xs, .tuple ys => p.sameAll xs ys
  | .get x1 x2, .get y1 y2 => p.same x1 y1 && p.same x2 y2
  | .put x1 x2 x3, .put y1 y2 y3 => p.same x1 y1 && p.same x2 y2 && p.same x3 y3
  | .externArray x, .externArray y => x == y
  | _, _ => false

end Pairing

/-- Equality under binders that have been paired. -/
def alphaEqIn (p : Pairing) : Knf → Knf → Bool
  | .op o, .op o' => p.sameOp o o'
  | .branch t x1 x2 a1 a2, .branch u y1 y2 b1 b2 =>
      t == u && p.same x1 y1 && p.same x2 y2 && a1.alphaEqIn p b1 && a2.alphaEqIn p b2
  | .letIn x s a1 a2, .letIn y t b1 b2 =>
      s == t && a1.alphaEqIn p b1 && a2.alphaEqIn (p.bind x y) b2
  | .letRec f s xs a1 a2, .letRec g t ys b1 b2 =>
      let inner := p.bind f g
      s == t && xs.map (·.2) == ys.map (·.2) &&
        a1.alphaEqIn (inner.bindAll (xs.map (·.1)) (ys.map (·.1))) b1 &&
        a2.alphaEqIn inner b2
  | .app f xs, .app g ys => p.same f g && p.sameAll xs ys
  | .letTuple xs x a, .letTuple ys y b =>
      xs.map (·.2) == ys.map (·.2) && p.same x y &&
        a.alphaEqIn (p.bindAll (xs.map (·.1)) (ys.map (·.1))) b
  | .externApp f xs, .externApp g ys => f == g && p.sameAll xs ys
  | _, _ => false

/-- Whether two pieces of code differ in the choice of bound names only. -/
def alphaEq (a b : Knf) : Bool :=
  a.alphaEqIn .empty b

end MiddleEnd.Knf
