import MiddleEnd.Ty

/-! # Type tables

A type table holds what is known about the variables of an inference.  Variables
fall into classes of equals, one member of each class stands for it, and a class
may be bound to a type.  A class is bound once and for all, and the types it is
bound to stay as they were written: reading a type through the table is
`resolve`.
-/

namespace MiddleEnd.Ty

/-- What is known of one variable.  Rank and binding count only for the variable
    that stands for its class. -/
structure Cell where
  root : Nat
  rank : Nat
  bound : Option Ty
deriving Repr, Inhabited

/-- The cells of the variables made so far; variable `n` has cell `n`. -/
structure Table where
  cells : Array Cell
deriving Repr, Inhabited

namespace Table

def empty : Table := ⟨#[]⟩

def size (t : Table) : Nat := t.cells.size

/-- Make a variable in a class of its own. -/
def fresh (t : Table) : Nat × Table :=
  (t.size, ⟨t.cells.push ⟨t.size, 0, none⟩⟩)

/-- The variable that stands for the class of `v`. -/
def root (t : Table) (v : Nat) : Nat :=
  match t.cells[v]? with
  | some c => c.root
  | none => v

/-- How much has been merged into the class of `v`. -/
def rank (t : Table) (v : Nat) : Nat :=
  match t.cells[t.root v]? with
  | some c => c.rank
  | none => 0

/-- What the class of `v` is bound to. -/
def binding? (t : Table) (v : Nat) : Option Ty :=
  match t.cells[t.root v]? with
  | some c => c.bound
  | none => none

def bind (t : Table) (v : Nat) (ty : Ty) : Table :=
  ⟨t.cells.modify (t.root v) fun c => { c with bound := some ty }⟩

/-- Put the class of `loser` under the one that `winner` stands for. -/
def redirect (t : Table) (loser winner : Nat) : Table :=
  ⟨t.cells.map fun c => if c.root = loser then { c with root := winner } else c⟩

/-- Merge two classes.  The class of lower rank goes under the other; between
    equal ranks the class of `a` goes under that of `b`, whose rank grows. -/
def union (t : Table) (a b : Nat) : Table :=
  let ra := t.root a
  let rb := t.root b
  if ra = rb then t
  else if t.rank b < t.rank a then t.redirect rb ra
  else if t.rank a < t.rank b then t.redirect ra rb
  else ⟨(t.redirect ra rb).cells.modify rb fun c => { c with rank := c.rank + 1 }⟩

/-- What a variable stands for, followed through at most `depth` bindings. -/
def lookup (t : Table) : Nat → Nat → Ty
  | 0, v => .var (t.root v)
  | depth + 1, v =>
      match t.binding? v with
      | some ty => ty.subst (t.lookup depth)
      | none => .var (t.root v)

/-- A type read through the table: bound variables are replaced by what they are
    bound to, others by the variable that stands for their class.  No chain of
    bindings is longer than the table, since no variable is bound to a type in
    which it occurs. -/
def resolve (t : Table) (ty : Ty) : Ty :=
  ty.subst (t.lookup t.size)

/-- Whether `w` is in the class of `v` or leads to it through at most `depth`
    bindings. -/
def leadsTo (t : Table) (v : Nat) : Nat → Nat → Bool
  | 0, w => t.root w == t.root v
  | depth + 1, w =>
      t.root w == t.root v ||
        match t.binding? w with
        | some ty => ty.anyVar (t.leadsTo v depth)
        | none => false

/-- Whether the class of `v` occurs in a type, be it inside a binding. -/
def occurs (t : Table) (v : Nat) (ty : Ty) : Bool :=
  ty.anyVar (t.leadsTo v t.size)

end Table

end MiddleEnd.Ty
