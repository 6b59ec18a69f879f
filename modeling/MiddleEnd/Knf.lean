import MiddleEnd.Mono
import MiddleEnd.Op

/-! # K-normal code

Code in which every intermediate result has a name: operations, tests and calls
take names only, and what is computed on the way is bound by a `let` around
them.
-/

namespace MiddleEnd

/-- K-normal code. -/
inductive Knf where
  | op (o : Op)
  | branch (test : Test) (x y : Name) (yes no : Knf)
  | letIn (x : Name) (ty : Mono) (bound body : Knf)
  | letRec (f : Name) (ty : Mono) (formals : List (Name × Mono)) (body rest : Knf)
  | app (f : Name) (args : List Name)
  | letTuple (pattern : List (Name × Mono)) (y : Name) (body : Knf)
  | externApp (label : Name) (args : List Name)
deriving Repr, DecidableEq, Inhabited

namespace Knf

/-- The names that code uses and does not bind, possibly more than once each. -/
def freeVars : Knf → List Name
  | .op o => o.names
  | .branch _ x y e1 e2 => x :: y :: (e1.freeVars ++ e2.freeVars)
  | .letIn x _ e1 e2 => e1.freeVars ++ e2.freeVars.filter (· ≠ x)
  | .letRec f _ formals body rest =>
      (body.freeVars.filter (· ∉ formals.map (·.1)) ++ rest.freeVars).filter (· ≠ f)
  | .app f xs => f :: xs
  | .letTuple pattern y e => y :: e.freeVars.filter (· ∉ pattern.map (·.1))
  | .externApp _ xs => xs

def size : Knf → Nat
  | .op _ | .app _ _ | .externApp _ _ => 1
  | .branch _ _ _ e1 e2 => 1 + e1.size + e2.size
  | .letIn _ _ e1 e2 => 1 + e1.size + e2.size
  | .letRec _ _ _ body rest => 1 + body.size + rest.size
  | .letTuple _ _ e => 1 + e.size

/-- Whether running the code may be noticed: it may store into an array or call
    a function.  The body of a function does not run where it is defined. -/
def isEffectful : Knf → Bool
  | .op o => o.isEffectful
  | .branch _ _ _ e1 e2 => e1.isEffectful || e2.isEffectful
  | .letIn _ _ e1 e2 => e1.isEffectful || e2.isEffectful
  | .letRec _ _ _ _ rest => rest.isEffectful
  | .letTuple _ _ e => e.isEffectful
  | .app _ _ | .externApp _ _ => true

/-- The same code name by name, with floats compared as numbers. -/
def numEq : Knf → Knf → Bool
  | .op o, .op p => o.numEq p
  | .branch t x y a1 a2, .branch u z w b1 b2 =>
      t == u && x == z && y == w && a1.numEq b1 && a2.numEq b2
  | .letIn x s a1 a2, .letIn y t b1 b2 => x == y && s == t && a1.numEq b1 && a2.numEq b2
  | .letRec f s xs a1 a2, .letRec g t ys b1 b2 =>
      f == g && s == t && xs == ys && a1.numEq b1 && a2.numEq b2
  | .letTuple xs x a, .letTuple ys y b => xs == ys && x == y && a.numEq b
  | .app f xs, .app g ys => f == g && xs == ys
  | .externApp f xs, .externApp g ys => f == g && xs == ys
  | _, _ => false

end Knf

end MiddleEnd
