import MiddleEnd.Name
import MiddleEnd.Operator
import MiddleEnd.Ty

/-! # Terms

The source language: strict, with recursive functions of any number of
arguments, tuples and mutable arrays.  A term carries a note on every node and
on every binder.  In a source term a binder may be annotated with a type and
nodes have nothing to note; in a typed term both notes are types.
-/

namespace MiddleEnd

def Negation.ty : Negation → Ty
  | .int => .int
  | .float => .float

def Arith.ty : Arith → Ty
  | .int _ => .int
  | .float _ => .float

/-- Terms with a note of type `Note` on each node and one of type `Ann` on each
    binder. -/
inductive Term (Note Ann : Type) where
  | unit (note : Note)
  | bool (note : Note) (b : Bool)
  | int (note : Note) (n : Int64)
  | float (note : Note) (d : Double)
  | not (note : Note) (e : Term Note Ann)
  | negate (note : Note) (op : Negation) (e : Term Note Ann)
  | arith (note : Note) (op : Arith) (l r : Term Note Ann)
  | compare (note : Note) (op : Comparison) (l r : Term Note Ann)
  | ifThenElse (note : Note) (cond yes no : Term Note Ann)
  | letIn (note : Note) (x : Name × Ann) (bound body : Term Note Ann)
  | var (note : Note) (x : Name)
  | letRec (note : Note) (f : Name × Ann) (formals : List (Name × Ann))
      (body rest : Term Note Ann)
  | app (note : Note) (callee : Term Note Ann) (args : List (Term Note Ann))
  | tuple (note : Note) (elems : List (Term Note Ann))
  | letTuple (note : Note) (pattern : List (Name × Ann)) (bound body : Term Note Ann)
  | array (note : Note) (len init : Term Note Ann)
  | get (note : Note) (array index : Term Note Ann)
  | put (note : Note) (array index value : Term Note Ann)
  | seq (note : Note) (first second : Term Note Ann)
deriving Repr, Inhabited

/-- Terms as a programmer writes them. -/
abbrev Source := Term Unit (Option Ty)

/-- Terms in which every node and every binder has its type. -/
abbrev Typed := Term Ty Ty

namespace Term

variable {Note Ann : Type}

def note : Term Note Ann → Note
  | .unit n | .bool n _ | .int n _ | .float n _ | .not n _ | .negate n _ _
  | .arith n _ _ _ | .compare n _ _ _ | .ifThenElse n _ _ _ | .letIn n _ _ _ | .var n _
  | .letRec n _ _ _ _ | .app n _ _ | .tuple n _ | .letTuple n _ _ _ | .array n _ _
  | .get n _ _ | .put n _ _ _ | .seq n _ _ => n

end Term

abbrev Typed.ty (e : Typed) : Ty := e.note

section
variable {m : Type → Type} [Monad m] (f : Ty → m Ty)

def Typed.mapBinderM (b : Name × Ty) : m (Name × Ty) :=
  return (b.1, ← f b.2)

mutual
/-- Change every type of a term: binders before the terms next to them, the
    parts of a node from left to right, and the node itself last. -/
def Typed.mapTypesM : Typed → m Typed
  | .unit ty => return .unit (← f ty)
  | .bool ty b => return .bool (← f ty) b
  | .int ty n => return .int (← f ty) n
  | .float ty d => return .float (← f ty) d
  | .var ty x => return .var (← f ty) x
  | .not ty e => do
      let e ← mapTypesM e
      return .not (← f ty) e
  | .negate ty op e => do
      let e ← mapTypesM e
      return .negate (← f ty) op e
  | .arith ty op l r => do
      let l ← mapTypesM l
      let r ← mapTypesM r
      return .arith (← f ty) op l r
  | .compare ty op l r => do
      let l ← mapTypesM l
      let r ← mapTypesM r
      return .compare (← f ty) op l r
  | .ifThenElse ty c t e => do
      let c ← mapTypesM c
      let t ← mapTypesM t
      let e ← mapTypesM e
      return .ifThenElse (← f ty) c t e
  | .letIn ty x e1 e2 => do
      let x ← mapBinderM f x
      let e1 ← mapTypesM e1
      let e2 ← mapTypesM e2
      return .letIn (← f ty) x e1 e2
  | .letRec ty g formals body rest => do
      let g ← mapBinderM f g
      let formals ← formals.mapM (mapBinderM f)
      let body ← mapTypesM body
      let rest ← mapTypesM rest
      return .letRec (← f ty) g formals body rest
  | .app ty callee args => do
      let callee ← mapTypesM callee
      let args ← mapTypesListM args
      return .app (← f ty) callee args
  | .tuple ty elems => do
      let elems ← mapTypesListM elems
      return .tuple (← f ty) elems
  | .letTuple ty pattern e1 e2 => do
      let pattern ← pattern.mapM (mapBinderM f)
      let e1 ← mapTypesM e1
      let e2 ← mapTypesM e2
      return .letTuple (← f ty) pattern e1 e2
  | .array ty len init => do
      let len ← mapTypesM len
      let init ← mapTypesM init
      return .array (← f ty) len init
  | .get ty a i => do
      let a ← mapTypesM a
      let i ← mapTypesM i
      return .get (← f ty) a i
  | .put ty a i v => do
      let a ← mapTypesM a
      let i ← mapTypesM i
      let v ← mapTypesM v
      return .put (← f ty) a i v
  | .seq ty e1 e2 => do
      let e1 ← mapTypesM e1
      let e2 ← mapTypesM e2
      return .seq (← f ty) e1 e2

def Typed.mapTypesListM : List Typed → m (List Typed)
  | [] => return []
  | e :: es => do
      let e ← mapTypesM e
      let es ← mapTypesListM es
      return e :: es
end

end

end MiddleEnd
