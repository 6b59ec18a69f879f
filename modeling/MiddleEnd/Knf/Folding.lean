import MiddleEnd.Knf
import MiddleEnd.Scope

/-! # Constant folding

An operation on known numbers is replaced by its result, a test on known numbers
by the arm it chooses, and the components of a known tuple by their names.
-/

namespace MiddleEnd

namespace Op

/-- Whether the value is known from the operation: a number or a tuple of names. -/
def isKnown : Op → Bool
  | .int _ | .float _ | .tuple _ => true
  | .unit | .negate .. | .arith .. | .var _ | .get .. | .put .. | .externArray _ => false

end Op

namespace Knf

/-- The names whose values are known, and the operations that yield them. -/
abbrev Knowns := Scope Op

namespace Knowns

def int? (s : Knowns) (x : Name) : Option Int64 :=
  match s.get? x with
  | some (.int n) => some n
  | _ => none

def float? (s : Knowns) (x : Name) : Option Double :=
  match s.get? x with
  | some (.float d) => some d
  | _ => none

def tuple? (s : Knowns) (x : Name) : Option (List Name) :=
  match s.get? x with
  | some (.tuple xs) => some xs
  | _ => none

def test? (s : Knowns) (test : Test) (x y : Name) : Option Bool :=
  match int? s x, int? s y with
  | some m, some n => some (test.ints m n)
  | _, _ =>
      match float? s x, float? s y with
      | some a, some b => some (test.floats a b)
      | _, _ => none

def foldOp (s : Knowns) : Op → Op
  | .var x => (s.get? x).getD (.var x)
  | .negate .int x =>
      match int? s x with
      | some n => .int (-n)
      | none => .negate .int x
  | .negate .float x =>
      match float? s x with
      | some d => .float d.neg
      | none => .negate .float x
  | .arith (.int k) x y =>
      match int? s x, int? s y with
      | some m, some n => .int (k.apply m n)
      | _, _ => .arith (.int k) x y
  | .arith (.float k) x y =>
      match float? s x, float? s y with
      | some a, some b => .float (k.apply a b)
      | _, _ => .arith (.float k) x y
  | .unit => .unit
  | .int n => .int n
  | .float d => .float d
  | .tuple xs => .tuple xs
  | .get x y => .get x y
  | .put x y z => .put x y z
  | .externArray x => .externArray x

/-- What is known where `x` is bound to folded code. -/
def learn (s : Knowns) (x : Name) : Knf → Knowns
  | .op o => if o.isKnown then s.bind x o else s
  | _ => s

end Knowns

/-- Bind the names of a pattern one after the other to the components of a tuple. -/
def letEach : List ((Name × Mono) × Name) → Knf → Knf
  | [], body => body
  | ((x, ty), z) :: rest, body => .letIn x ty (.op (.var z)) (letEach rest body)

/-- Fold constants, where `s` is known. -/
def foldConstantsIn (s : Knowns) : Knf → Knf
  | .op o => .op (s.foldOp o)
  | .branch test x y e1 e2 =>
      match s.test? test x y with
      | some true => e1.foldConstantsIn s
      | some false => e2.foldConstantsIn s
      | none => .branch test x y (e1.foldConstantsIn s) (e2.foldConstantsIn s)
  | .letIn x ty e1 e2 =>
      let e1 := e1.foldConstantsIn s
      .letIn x ty e1 (e2.foldConstantsIn (s.learn x e1))
  | .letRec f ty formals body rest =>
      .letRec f ty formals (body.foldConstantsIn s) (rest.foldConstantsIn s)
  | .letTuple pattern y e =>
      match s.tuple? y with
      | some zs =>
          if zs.length = pattern.length then letEach (pattern.zip zs) (e.foldConstantsIn s)
          else .letTuple pattern y (e.foldConstantsIn s)
      | none => .letTuple pattern y (e.foldConstantsIn s)
  | .app f xs => .app f xs
  | .externApp f xs => .externApp f xs

def foldConstants (e : Knf) : Knf :=
  e.foldConstantsIn .empty

end Knf

end MiddleEnd
