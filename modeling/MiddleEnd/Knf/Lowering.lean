import MiddleEnd.Knf
import MiddleEnd.Scope
import MiddleEnd.Signature
import MiddleEnd.Term

/-! # From typed terms to K-normal code

Operands are computed from left to right and named.  An operand that is a
variable keeps its name; any other is bound to a new one, around the operation
that uses it.  Truth values are the integers 1 and 0, and every comparison is a
branch on one of two tests.
-/

namespace MiddleEnd

/-- Why a typed term has no code. -/
inductive LowerError where
  /-- An external name is used as a value and is not an array. -/
  | notAnArray (x : Name)
  /-- An external name is called and is not a function. -/
  | notAFunction (x : Name)
deriving Repr, DecidableEq, Inhabited

def LowerError.message : LowerError → String
  | .notAnArray x => "external variable `" ++ x ++ "` does not have an array type"
  | .notAFunction x => "external function `" ++ x ++ "` does not have a function type"

namespace Lowering

/-- A step of lowering; the names it has made stay made when it fails. -/
abbrev Lower := ExceptT LowerError (StateM Supply)

/-- Code with the type of its value. -/
abbrev Lowered := Knf × Mono

/-- Operands that are computed before the operation that uses them. -/
abbrev Pending := List ((Name × Mono) × Knf)

/-- Bind pending operands around code, the first outermost. -/
def wrap (pending : Pending) (body : Knf) : Knf :=
  pending.foldr (fun p body => .letIn p.1.1 p.1.2 p.2 body) body

def operand (step : Lower Lowered) : Lower (Name × Pending) := do
  match ← step with
  | (.op (.var x), _) => return (x, [])
  | (e, ty) =>
      let x ← Supply.temporary ty.tag
      return (x, [((x, ty), e)])

def truth (b : Bool) : Lower Lowered :=
  return (.op (.int (if b then 1 else 0)), .bool)

def comparison (op : Comparison) (x y : Name) (yes no : Knf) : Knf :=
  match op with
  | .eq => .branch .eq x y yes no
  | .ne => .branch .eq x y no yes
  | .le => .branch .le x y yes no
  | .ge => .branch .le y x yes no
  | .lt => .branch .le y x no yes
  | .gt => .branch .le x y no yes

/-- Choose between two steps by a comparison of two operands. -/
def compareThen (op : Comparison) (left right yes no : Lower Lowered) : Lower Lowered := do
  let (x, p) ← operand left
  let (y, q) ← operand right
  let (yes, ty) ← yes
  let (no, _) ← no
  return (wrap (p ++ q) (comparison op x y yes no), ty)

/-- Choose between two steps by a truth value: it is compared with false. -/
def testThen (cond yes no : Lower Lowered) : Lower Lowered := do
  let (x, p) ← operand cond
  let (yes, ty) ← yes
  let (no, _) ← no
  let z ← Supply.temporary Mono.bool.tag
  return (wrap p (.letIn z .bool (.op (.int 0)) (.branch .eq x z no yes)), ty)

def unary (left : Lower Lowered) (build : Name → Op) (ty : Mono) : Lower Lowered := do
  let (x, p) ← operand left
  return (wrap p (.op (build x)), ty)

def binary (left right : Lower Lowered) (build : Name → Name → Op) (ty : Mono) :
    Lower Lowered := do
  let (x, p) ← operand left
  let (y, q) ← operand right
  return (wrap (p ++ q) (.op (build x y)), ty)

/-- The external function that makes an array with elements of a type. -/
def createArray : Ty → Name
  | .float => "create_float_array"
  | _ => "create_array"

def binders (xs : List (Name × Ty)) : List (Name × Mono) :=
  xs.map fun b => (b.1, b.2.mono)

/-- The label of a callee that is an external function; a callee that is bound or
    is not a mere name has none. -/
def externalCallee (externals : Signature) (scope : Scope Mono) :
    Typed → Except LowerError (Option Name)
  | .var _ f =>
      if scope.contains f then .ok none
      else match externals.find? f with
        | some (.fn _ _) => .ok (some f)
        | _ => .error (.notAFunction f)
  | _ => .ok none

variable (externals : Signature)

mutual
def lower (scope : Scope Mono) : Typed → Lower Lowered
  | .unit _ => return (.op .unit, .unit)
  | .bool _ b => truth b
  | .int _ n => return (.op (.int n), .int)
  | .float _ d => return (.op (.float d), .float)
  | .not _ c => branch scope c (lower scope c) (truth false) (truth true)
  | .negate _ op e => unary (lower scope e) (.negate op) op.ty.mono
  | .arith _ op l r => binary (lower scope l) (lower scope r) (.arith op) op.ty.mono
  | .compare _ op l r =>
      compareThen op (lower scope l) (lower scope r) (truth true) (truth false)
  | .ifThenElse _ c t e => branch scope c (lower scope c) (lower scope t) (lower scope e)
  | .letIn _ (x, ty) e1 e2 => do
      let (e1, _) ← lower scope e1
      let (e2, bodyTy) ← lower (scope.bind x ty.mono) e2
      return (.letIn x ty.mono e1 e2, bodyTy)
  | .var _ x =>
      match scope.get? x with
      | some ty => return (.op (.var x), ty)
      | none =>
          match externals.find? x with
          | some (.array elem) => return (.op (.externArray x), .array elem.mono)
          | _ => throw (.notAnArray x)
  | .letRec _ (f, ty) formals body rest => do
      let inner := scope.bind f ty.mono
      let (body, _) ← lower (inner.bindAll (binders formals)) body
      let (rest, restTy) ← lower inner rest
      return (.letRec f ty.mono (binders formals) body rest, restTy)
  | .app ty callee args => do
      match ← externalCallee externals scope callee with
      | some f =>
          let (xs, p) ← lowerList scope args
          return (wrap p (.externApp f xs), ty.mono)
      | none =>
          let (f, p) ← operand (lower scope callee)
          let (xs, q) ← lowerList scope args
          return (wrap (p ++ q) (.app f xs), ty.mono)
  | .tuple ty elems => do
      let (xs, p) ← lowerList scope elems
      return (wrap p (.op (.tuple xs)), ty.mono)
  | .letTuple _ pattern e1 e2 => do
      let (y, p) ← operand (lower scope e1)
      let (e2, ty) ← lower (scope.bindAll (binders pattern)) e2
      return (wrap p (.letTuple (binders pattern) y e2), ty)
  | .array ty len init => do
      let (x, p) ← operand (lower scope len)
      let (y, q) ← operand (lower scope init)
      return (wrap (p ++ q) (.externApp (createArray init.note) [x, y]), ty.mono)
  | .get ty a i => binary (lower scope a) (lower scope i) .get ty.mono
  | .put _ a i v => do
      let (x, p) ← operand (lower scope a)
      let (y, q) ← operand (lower scope i)
      let (z, r) ← operand (lower scope v)
      return (wrap (p ++ q ++ r) (.op (.put x y z)), .unit)
  | .seq _ e1 e2 => do
      let (e1, _) ← lower scope e1
      let x ← Supply.temporary Mono.unit.tag
      let (e2, ty) ← lower scope e2
      return (.letIn x .unit e1 e2, ty)

/-- Code that chooses between two steps by a condition.  A negation swaps the
    steps and a comparison becomes a test; any other condition is computed, by
    `value`, and tested. -/
def branch (scope : Scope Mono) (cond : Typed) (value yes no : Lower Lowered) :
    Lower Lowered :=
  match cond with
  | .not _ c => branch scope c (lower scope c) no yes
  | .compare _ op l r => compareThen op (lower scope l) (lower scope r) yes no
  | _ => testThen value yes no

/-- Names for operands, computed from left to right. -/
def lowerList (scope : Scope Mono) : List Typed → Lower (List Name × Pending)
  | [] => return ([], [])
  | e :: es => do
      let (x, p) ← operand (lower scope e)
      let (xs, q) ← lowerList scope es
      return (x :: xs, p ++ q)
end

def program (e : Typed) : Lower Lowered :=
  lower externals .empty e

end Lowering

end MiddleEnd
