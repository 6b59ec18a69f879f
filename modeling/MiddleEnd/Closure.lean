import MiddleEnd.Mono
import MiddleEnd.Op

/-! # Code with closures

Functions stand at the top level.  A closure is a function's label with the
values of the names its body uses besides its formals; a function that uses no
such names can be called by its label alone.
-/

namespace MiddleEnd

/-- The code of a body. -/
inductive Code where
  | op (o : Op)
  | branch (test : Test) (x y : Name) (yes no : Code)
  | letIn (x : Name) (ty : Mono) (bound body : Code)
  | makeClosure (x : Name) (ty : Mono) (entry : Name) (captured : List Name) (body : Code)
  | callClosure (f : Name) (args : List Name)
  | callDirect (label : Name) (args : List Name)
  | letTuple (pattern : List (Name × Mono)) (y : Name) (body : Code)
deriving Repr, DecidableEq, Inhabited

/-- The names that code uses and does not bind, possibly more than once each;
    labels are not among them. -/
def Code.freeVars : Code → List Name
  | .op o => o.names
  | .branch _ x y e1 e2 => x :: y :: (e1.freeVars ++ e2.freeVars)
  | .letIn x _ e1 e2 => e1.freeVars ++ e2.freeVars.filter (· ≠ x)
  | .makeClosure x _ _ captured e => e.freeVars.filter (· ≠ x) ++ captured
  | .callClosure f xs => f :: xs
  | .callDirect _ xs => xs
  | .letTuple pattern y e => y :: e.freeVars.filter (· ∉ pattern.map (·.1))

/-- A function at the top level. -/
structure Function where
  name : Name
  ty : Mono
  formals : List (Name × Mono)
  /-- The names its body takes from its closure, sorted. -/
  captured : List (Name × Mono)
  body : Code
deriving Repr, DecidableEq, Inhabited

/-- Functions, each after those its body uses to define, and the code to start with. -/
structure Program where
  functions : List Function
  main : Code
deriving Repr, DecidableEq, Inhabited

end MiddleEnd
