import MiddleEnd.Scope
import MiddleEnd.Signature
import MiddleEnd.Term
import MiddleEnd.Ty.Unify

/-! # Type inference

Inference walks a source term once, from left to right, and solves an equation
between types at every rule of the language.  A name that nothing binds is
external: its type is looked up in the signature or, the first time, made up and
noted there.  The walk ends at the first equation without a solution.
-/

namespace MiddleEnd.Typing

/-- What inference knows at a point of its walk. -/
structure State where
  table : Ty.Table
  warnings : List Warning
  externals : Signature
  /-- Variables of the caller's types and the variables that stand for them here. -/
  imported : List (Nat × Nat)
deriving Repr, Inhabited

/-- A step of inference; what it has found out survives its failure. -/
abbrev Infer := ExceptT TypeError (StateM State)

def warn (w : Warning) : StateM State Unit :=
  modify fun s => { s with warnings := s.warnings ++ [w] }

def fresh : StateM State Ty := fun s =>
  let (v, table) := s.table.fresh
  (.var v, { s with table })

def unify (expected found : Ty) : Infer Unit := fun s =>
  let (result, table) := s.table.unify expected found
  (result, { s with table })

/-- The variable that stands for a variable of the caller. -/
def importVar (v : Nat) : StateM State Ty := do
  match (← get).imported.lookup v with
  | some w => return .var w
  | none => fun s =>
      let (w, table) := s.table.fresh
      (.var w, { s with table, imported := (v, w) :: s.imported })

/-- A type of the caller in the variables of this inference. -/
def importTy (ty : Ty) : StateM State Ty :=
  ty.substM importVar

/-- A binder with its annotation, or with a type yet unknown. -/
def binder (x : Name × Option Ty) : StateM State (Name × Ty) := do
  match x.2 with
  | some ty => return (x.1, ← importTy ty)
  | none => return (x.1, ← fresh)

/-- The type of an occurrence of a name. -/
def occurrence (scope : Scope Ty) (x : Name) : StateM State Ty := do
  match scope.get? x with
  | some ty => return ty
  | none =>
      match (← get).externals.find? x with
      | some ty => return ty
      | none => do
          warn (.assumedExternal x)
          let ty ← fresh
          modify fun s => { s with externals := s.externals.insert x ty }
          return ty

mutual
/-- Give every node and every binder of a term its type. -/
def infer (scope : Scope Ty) : Source → Infer Typed
  | .unit _ => return .unit .unit
  | .bool _ b => return .bool .bool b
  | .int _ n => return .int .int n
  | .float _ d => return .float .float d
  | .not _ e => do
      let e ← infer scope e
      unify .bool e.ty
      return .not .bool e
  | .negate _ op e => do
      let e ← infer scope e
      unify op.ty e.ty
      return .negate op.ty op e
  | .arith _ op l r => do
      let l ← infer scope l
      let r ← infer scope r
      unify op.ty l.ty
      unify op.ty r.ty
      return .arith op.ty op l r
  | .compare _ op l r => do
      let l ← infer scope l
      let r ← infer scope r
      unify l.ty r.ty
      return .compare .bool op l r
  | .ifThenElse _ c t e => do
      let c ← infer scope c
      unify .bool c.ty
      let t ← infer scope t
      let e ← infer scope e
      unify t.ty e.ty
      return .ifThenElse t.ty c t e
  | .letIn _ x e1 e2 => do
      let x ← binder x
      let e1 ← infer scope e1
      unify x.2 e1.ty
      let e2 ← infer (scope.bind x.1 x.2) e2
      return .letIn e2.ty x e1 e2
  | .var _ x => do
      let ty ← occurrence scope x
      return .var ty x
  | .letRec _ f formals body rest => do
      let f ← binder f
      let formals ← formals.mapM fun x => (binder x : Infer (Name × Ty))
      let inner := scope.bind f.1 f.2
      let body ← infer (inner.bindAll formals) body
      unify f.2 (.fn (formals.map (·.2)) body.ty)
      let rest ← infer inner rest
      return .letRec rest.ty f formals body rest
  | .app _ callee args => do
      let callee ← infer scope callee
      let args ← inferList scope args
      let result ← fresh
      unify callee.ty (.fn (args.map (·.ty)) result)
      return .app result callee args
  | .tuple _ elems => do
      let elems ← inferList scope elems
      return .tuple (.tuple (elems.map (·.ty))) elems
  | .letTuple _ pattern e1 e2 => do
      let pattern ← pattern.mapM fun x => (binder x : Infer (Name × Ty))
      let e1 ← infer scope e1
      unify (.tuple (pattern.map (·.2))) e1.ty
      let e2 ← infer (scope.bindAll pattern) e2
      return .letTuple e2.ty pattern e1 e2
  | .array _ len init => do
      let len ← infer scope len
      unify .int len.ty
      let init ← infer scope init
      return .array (.array init.ty) len init
  | .get _ a i => do
      let elem ← fresh
      let a ← infer scope a
      unify (.array elem) a.ty
      let i ← infer scope i
      unify .int i.ty
      return .get elem a i
  | .put _ a i v => do
      let elem ← fresh
      let a ← infer scope a
      unify (.array elem) a.ty
      let i ← infer scope i
      unify .int i.ty
      let v ← infer scope v
      unify elem v.ty
      return .put .unit a i v
  | .seq _ e1 e2 => do
      let e1 ← infer scope e1
      unify .unit e1.ty
      let e2 ← infer scope e2
      return .seq e2.ty e1 e2

def inferList (scope : Scope Ty) : List Source → Infer (List Typed)
  | [] => return []
  | e :: es => do
      let e ← infer scope e
      let es ← inferList scope es
      return e :: es
end

/-- Bring the signature into the variables of this inference. -/
def importExternals : StateM State Unit := do
  let externals ← (← get).externals.mapM importTy
  modify fun s => { s with externals }

/-- The type without variables that a type has become. -/
def settle (ty : Ty) : StateM State Ty := fun s =>
  let (ty, settled) := s.table.settle ty
  (ty, { s with
    table := settled.table
    warnings := s.warnings ++ settled.defaulted.map .defaultedToInt })

/-- A program has no value. -/
def requireUnit (ty : Ty) : Infer Unit := fun s =>
  match s.table.unify .unit ty with
  | (.ok _, table) => (.ok (), { s with table })
  | (.error _, table) => (.error (.notUnit (table.resolve ty)), { s with table })

/-- Infer a program, then replace every type by what it has become, in the term
    first and then in the signature. -/
def program (e : Source) : Infer Typed := do
  importExternals
  let e ← infer .empty e
  requireUnit e.ty
  let e ← (Typed.mapTypesM settle e : StateM State Typed)
  let externals ← ((← get).externals.mapM settle : StateM State Signature)
  modify fun s => { s with externals }
  return e

/-- What inference of a program has come to. -/
structure Outcome where
  result : Except TypeError Typed
  warnings : List Warning
  externals : Signature

/-- Infer the types of a program.  The signature gains the external names of the
    program, also when it has no type. -/
def outcome (e : Source) (externals : Signature) : Outcome :=
  let (result, s) := (program e).run.run
    { table := .empty, warnings := [], externals, imported := [] }
  { result, warnings := s.warnings, externals := s.externals }

end MiddleEnd.Typing
