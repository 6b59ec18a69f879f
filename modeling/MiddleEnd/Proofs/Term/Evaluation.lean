import Mathlib
import MiddleEnd.Knf.Lowering
import MiddleEnd.Proofs.Knf.Evaluation

/-! # Evaluation of terms

Call by value, from left to right, and a callee before its arguments.  Truth values
are the integers 1 and 0.  A name that is not bound stands for something external:
for a function where it is called and for an array elsewhere.  Arrays are made by
external functions, one for arrays of floats and one for all others.
-/

namespace MiddleEnd

namespace Value

variable {F G : Type}

def ofBool (b : Bool) : Value F :=
  .int (if b then 1 else 0)

/-- Whether a value counts as true; only integers do or do not. -/
def truth? : Value F → Option Bool
  | .int n => some (n != 0)
  | _ => none

/-- Comparison of two values.  All comparisons come from two tests: `a < b` is the
    opposite of `b ≤ a`, and `a > b` the opposite of `a ≤ b`. -/
def compare (op : Comparison) (v w : Value F) : Option Bool :=
  match op with
  | .eq => v.test .eq w
  | .ne => (v.test .eq w).map not
  | .le => v.test .le w
  | .ge => w.test .le v
  | .lt => (w.test .le v).map not
  | .gt => (v.test .le w).map not

end Value

namespace Typed

/-- A function value: its code and the values of the names in force where it was
    defined. -/
inductive Closure where
  | mk (env : Scope (Value Closure)) (self : Name) (formals : List Name) (body : Typed)

abbrev Env := Scope (Value Closure)

/-- The external function that a callee is: a name that is not bound. -/
def externalCallee? (env : Env) : Typed → Option Name
  | .var _ f => if (env.get? f).isSome then none else some f
  | _ => none

variable {W : Outside}

section
variable (call : Closure → List (Value Closure) → Run W Closure (Value Closure))

mutual
/-- Evaluate a term, where `call` tells what calls do. -/
def evalWith (env : Env) : Typed → Run W Closure (Value Closure)
  | .unit _ => return .unit
  | .bool _ b => return .ofBool b
  | .int _ n => return .int n
  | .float _ d => return .float d
  | .not _ e => do
      let v ← evalWith env e
      let b ← Run.ofOption v.truth?
      return .ofBool (!b)
  | .negate _ op e => do
      let v ← evalWith env e
      Run.ofOption (v.negate op)
  | .arith _ op l r => do
      let v ← evalWith env l
      let w ← evalWith env r
      Run.ofOption (v.arith op w)
  | .compare _ op l r => do
      let v ← evalWith env l
      let w ← evalWith env r
      let b ← Run.ofOption (v.compare op w)
      return .ofBool b
  | .ifThenElse _ c t e => do
      let v ← evalWith env c
      match ← Run.ofOption v.truth? with
      | true => evalWith env t
      | false => evalWith env e
  | .letIn _ (x, _) e1 e2 => do
      let v ← evalWith env e1
      evalWith (env.bind x v) e2
  | .var _ x =>
      match env.get? x with
      | some v => return v
      | none => do
          let a ← Run.ofOption (W.external x)
          return .array a
  | .letRec _ (f, _) formals body rest =>
      evalWith (env.bind f (.fn (.mk env f (formals.map (·.1)) body))) rest
  | .app _ callee args =>
      match externalCallee? env callee with
      | some f => do
          let vs ← evalList env args
          Run.external f vs
      | none => do
          let v ← evalWith env callee
          let vs ← evalList env args
          let c ← Run.ofOption v.function?
          call c vs
  | .tuple _ elems => do
      let vs ← evalList env elems
      return .tuple vs
  | .letTuple _ pattern e1 e2 => do
      let v ← evalWith env e1
      let vs ← Run.ofOption v.components?
      if vs.length = pattern.length then
        evalWith (env.bindEach ((pattern.map (·.1)).zip vs)) e2
      else Run.stuck
  | .array _ len init => do
      let v ← evalWith env len
      let w ← evalWith env init
      Run.external (Lowering.createArray init.note) [v, w]
  | .get _ a i => do
      let v ← evalWith env a
      let w ← evalWith env i
      let place ← Run.ofOption (v.place? w)
      Run.load place
  | .put _ a i e => do
      let v ← evalWith env a
      let w ← evalWith env i
      let u ← evalWith env e
      let place ← Run.ofOption (v.place? w)
      Run.store place u
  | .seq _ e1 e2 => do
      let _ ← evalWith env e1
      evalWith env e2

def evalList (env : Env) : List Typed → Run W Closure (List (Value Closure))
  | [] => return []
  | e :: es => do
      let v ← evalWith env e
      let vs ← evalList env es
      return v :: vs
end

theorem evalWith_var_of_bound {env : Env} {ty : Ty} {x : Name} {v : Value Closure}
    (h : env.get? x = some v) : evalWith call env (.var ty x) = pure v := by
  rw [evalWith, h]

theorem evalWith_var_of_unbound {env : Env} {ty : Ty} {x : Name} (h : env.get? x = none) :
    evalWith call env (.var ty x) = (do
      let a ← Run.ofOption (W.external x)
      return .array a) := by
  rw [evalWith, h]

end

/-- A call, with calls up to the given depth. -/
def call (W : Outside) : Nat → Closure → List (Value Closure) → Run W Closure (Value Closure)
  | 0, _, _ => Run.unfinished
  | depth + 1, .mk env self formals body, args =>
      if args.length = formals.length then
        evalWith (call W depth)
          ((env.bind self (.fn (.mk env self formals body))).bindEach (formals.zip args)) body
      else Run.stuck

def runs (W : Outside) (e : Typed) : Runs W Closure :=
  fun depth => evalWith (call W depth) .empty e (Memory.start W Closure)

mutual
def boundNames : Typed → List Name
  | .unit _ | .bool .. | .int .. | .float .. | .var .. => []
  | .not _ e | .negate _ _ e => boundNames e
  | .arith _ _ l r | .compare _ _ l r | .array _ l r | .get _ l r | .seq _ l r =>
      boundNames l ++ boundNames r
  | .ifThenElse _ c t e | .put _ c t e => boundNames c ++ (boundNames t ++ boundNames e)
  | .letIn _ (x, _) e1 e2 => x :: (boundNames e1 ++ boundNames e2)
  | .letRec _ (f, _) formals body rest =>
      f :: (formals.map (·.1) ++ (boundNames body ++ boundNames rest))
  | .app _ callee args => boundNames callee ++ boundNamesList args
  | .tuple _ elems => boundNamesList elems
  | .letTuple _ pattern e1 e2 => pattern.map (·.1) ++ (boundNames e1 ++ boundNames e2)

def boundNamesList : List Typed → List Name
  | [] => []
  | e :: es => boundNames e ++ boundNamesList es
end

theorem forall_boundNamesList {P : Name → Prop} {es : List Typed} :
    (∀ x ∈ boundNamesList es, P x) ↔ ∀ e ∈ es, ∀ x ∈ boundNames e, P x := by
  induction es with
  | nil => simp [boundNamesList]
  | cons e es ih => rw [boundNamesList, List.forall_mem_append, List.forall_mem_cons, ih]

theorem forall_boundNames_app {P : Name → Prop} {ty : Ty} {e : Typed} {es : List Typed} :
    (∀ x ∈ boundNames (.app ty e es), P x) ↔
      (∀ x ∈ boundNames e, P x) ∧ ∀ a ∈ es, ∀ x ∈ boundNames a, P x := by
  rw [boundNames, List.forall_mem_append, forall_boundNamesList]

end Typed

end MiddleEnd
