import MiddleEnd.Name
import MiddleEnd.Text.Quoted

/-! # Scopes

A scope gives meanings to names.  Binders enter it in groups: the formals of a
function or the names of a pattern are one group, a single binder is a group of
one.  A later group hides an earlier one, and in one group the last of several
bindings of a name counts.
-/

namespace MiddleEnd

/-- The groups of bindings in force, the innermost group first and, in each
    group, the last binding first. -/
structure Scope (α : Type) where
  groups : List (List (Name × α))
deriving Repr

namespace Scope

variable {α : Type}

def empty : Scope α := ⟨[]⟩

instance : Inhabited (Scope α) := ⟨empty⟩

/-- Bind a group of names at once.  A group without names leaves no trace. -/
def bindAll (s : Scope α) (bindings : List (Name × α)) : Scope α :=
  match bindings with
  | [] => s
  | _ => ⟨bindings.reverse :: s.groups⟩

def bind (s : Scope α) (x : Name) (a : α) : Scope α :=
  ⟨[(x, a)] :: s.groups⟩

/-- The meaning of a name, from the innermost group that binds it. -/
def get? (s : Scope α) (x : Name) : Option α :=
  s.groups.findSome? fun group => group.lookup x

def contains (s : Scope α) (x : Name) : Bool :=
  (s.get? x).isSome

def isEmpty (s : Scope α) : Bool :=
  s.groups.isEmpty

@[simp] theorem get?_empty (x : Name) : (empty : Scope α).get? x = none := rfl

@[simp] theorem get?_bind (s : Scope α) (x y : Name) (a : α) :
    (s.bind x a).get? y = if y = x then some a else s.get? y := by
  by_cases h : y = x
  · subst h
    simp [get?, bind]
  · have miss : (y == x) = false := by simpa using h
    simp [get?, bind, List.lookup_cons, miss, h]

theorem get?_bindAll (s : Scope α) (bindings : List (Name × α)) (y : Name) :
    (s.bindAll bindings).get? y = (bindings.reverse.lookup y).or (s.get? y) := by
  cases bindings with
  | nil => simp [bindAll]
  | cons b bs =>
      simp only [bindAll, get?, List.findSome?_cons]
      cases (b :: bs).reverse.lookup y <;> rfl

theorem contains_bind (s : Scope α) (x y : Name) (a : α) :
    (s.bind x a).contains y = (decide (y = x) || s.contains y) := by
  rw [contains, contains, get?_bind]
  split <;> simp [*]

theorem contains_bindAll (s : Scope α) (bindings : List (Name × α)) (y : Name) :
    (s.bindAll bindings).contains y = (decide (y ∈ bindings.map (·.1)) || s.contains y) := by
  rw [contains, contains, get?_bindAll, Option.isSome_or]
  congr 1
  rw [Bool.eq_iff_iff]
  simp [List.lookup_isSome_iff]

/-- The bindings of a group that no later binding of the group hides. -/
def visible (group : List (Name × α)) : List (Name × α) :=
  group.foldr (fun b rest => b :: rest.filter (·.1 ≠ b.1)) []

def groupText (value : α → String) (group : List (Name × α)) : String :=
  "\x7b" ++ ", ".intercalate ((visible group).map fun b => Text.quoted b.1 ++ ": " ++ value b.2) ++
    "\x7d"

/-- The groups as text, innermost first. -/
def text (value : α → String) (s : Scope α) : String :=
  "[" ++ ", ".intercalate (s.groups.map (groupText value)) ++ "]"

end Scope

end MiddleEnd
