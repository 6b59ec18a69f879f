import MiddleEnd.Name
import MiddleEnd.Ty

/-! # What inference reports

A type error ends inference; a warning tells of something that was assumed.
-/

namespace MiddleEnd

/-- Why a program has no type. -/
inductive TypeError where
  /-- Two types have different shapes. -/
  | mismatch (expected found : Ty)
  /-- A variable would have to contain itself. -/
  | infinite (var : Nat) (ty : Ty)
  /-- Two functions or two tuples have different numbers of components. -/
  | arity (expected found : Nat) (expectedTy foundTy : Ty)
  /-- The program as a whole has a value. -/
  | notUnit (found : Ty)
deriving Repr, DecidableEq, Inhabited

namespace TypeError

/-- Whether the error is about two types that cannot be made equal. -/
def fromUnification : TypeError → Bool
  | .notUnit _ => false
  | .mismatch .. | .infinite .. | .arity .. => true

def message : TypeError → String
  | .mismatch expected found =>
      "cannot unify `" ++ expected.text ++ "` with `" ++ found.text ++ "`"
  | .infinite var ty => "infinite type: ?" ++ var.repr ++ " occurs in `" ++ ty.text ++ "`"
  | .arity expected found expectedTy foundTy =>
      "cannot unify `" ++ expectedTy.text ++ "` with `" ++ foundTy.text ++ "`: expected " ++
        expected.repr ++ " components, found " ++ found.repr
  | .notUnit found => "top level does not have type `Unit` (found `" ++ found.text ++ "`)"

end TypeError

/-- What inference assumed on its own. -/
inductive Warning where
  /-- A name that nothing binds is external. -/
  | assumedExternal (x : Name)
  /-- A type that nothing determines is the type of integers. -/
  | defaultedToInt (var : Nat)
deriving Repr, DecidableEq, Inhabited

def Warning.message : Warning → String
  | .assumedExternal x => "free variable `" ++ x ++ "` assumed as external"
  | .defaultedToInt var =>
      "uninstantiated type variable ?" ++ var.repr ++ " assumed to be `Int`"

end MiddleEnd
