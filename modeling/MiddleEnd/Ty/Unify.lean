import MiddleEnd.Ty.Table
import MiddleEnd.Typing.Report

/-! # Unification and defaulting

Two types are made equal one difference at a time: find the first place where
they differ, reading from left to right, and solve that difference in the table;
then look again.  Every solved difference leaves one class less to be bound, so
there are at most as many as there are variables.
-/

namespace MiddleEnd.Ty

mutual
/-- The first place, from left to right, where two types differ in their heads:
    in the kind of type, in the number of components or in the variable. -/
def firstDifference : Ty → Ty → Option (Ty × Ty)
  | .unit, .unit | .bool, .bool | .int, .int | .float, .float => none
  | .fn ps r, .fn qs s =>
      if ps.length = qs.length then firstDifferenceList ps qs <|> r.firstDifference s
      else some (.fn ps r, .fn qs s)
  | .tuple xs, .tuple ys =>
      if xs.length = ys.length then firstDifferenceList xs ys
      else some (.tuple xs, .tuple ys)
  | .array x, .array y => x.firstDifference y
  | .var v, .var w => if v = w then none else some (.var v, .var w)
  | a, b => some (a, b)

/-- The first difference between the members of two lists of one length. -/
def firstDifferenceList : List Ty → List Ty → Option (Ty × Ty)
  | x :: xs, y :: ys => x.firstDifference y <|> firstDifferenceList xs ys
  | _, _ => none
end

namespace Table

/-- Bind a class, unless it occurs in the type. -/
def bindVar (t : Table) (v : Nat) (ty : Ty) : Except TypeError Table :=
  if t.occurs v ty then .error (.infinite v ty) else .ok (t.bind v ty)

/-- Solve one difference between types read through the table. -/
def solve (t : Table) : Ty → Ty → Except TypeError Table
  | .var v, .var w => .ok (t.union v w)
  | .var v, b => t.bindVar v b
  | a, .var w => t.bindVar w a
  | .fn ps r, .fn qs s => .error (.arity ps.length qs.length (.fn ps r) (.fn qs s))
  | .tuple xs, .tuple ys => .error (.arity xs.length ys.length (.tuple xs) (.tuple ys))
  | a, b => .error (.mismatch a b)

/-- Solve up to `rounds` differences.  What was solved before a failure stays
    in the table. -/
def unifyWithin : Nat → Table → Ty → Ty → Except TypeError Unit × Table
  | 0, t, a, b => (.error (.mismatch a b), t)
  | rounds + 1, t, a, b =>
      match (t.resolve a).firstDifference (t.resolve b) with
      | none => (.ok (), t)
      | some (x, y) =>
          match t.solve x y with
          | .ok t' => unifyWithin rounds t' a b
          | .error e => (.error e, t)

/-- Make two types equal.  A last round sees that no difference is left. -/
def unify (t : Table) (a b : Ty) : Except TypeError Unit × Table :=
  unifyWithin (t.size + 1) t a b

/-- A table on its way to having no unbound classes, with the classes bound to
    the type of integers so far. -/
structure Settling where
  table : Table
  defaulted : List Nat
deriving Repr, Inhabited

/-- The type of a variable, followed through at most `depth` bindings; a class
    that is not bound becomes the type of integers for good. -/
def settleVar : Nat → Nat → StateM Settling Ty
  | 0, _ => return .int
  | depth + 1, v => do
      let s ← get
      match s.table.binding? v with
      | some ty => ty.substM (settleVar depth)
      | none => do
          let r := s.table.root v
          set ({ table := s.table.bind r .int, defaulted := s.defaulted ++ [r] } : Settling)
          return .int

/-- A type read through the table without variables. -/
def settle (t : Table) (ty : Ty) : Ty × Settling :=
  (ty.substM (settleVar t.size)).run { table := t, defaulted := [] }

end Table

end MiddleEnd.Ty
