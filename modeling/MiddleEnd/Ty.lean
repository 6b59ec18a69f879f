import MiddleEnd.Mono

/-! # Types with variables

Inference works on types in which a variable stands for a type not known yet.
-/

namespace MiddleEnd

/-- A type; `var n` is the variable number `n` of a type table. -/
inductive Ty where
  | unit
  | bool
  | int
  | float
  | fn (params : List Ty) (result : Ty)
  | tuple (elems : List Ty)
  | array (elem : Ty)
  | var (n : Nat)
deriving Repr, Inhabited

namespace Ty

mutual
def same : Ty → Ty → Bool
  | .unit, .unit => true
  | .bool, .bool => true
  | .int, .int => true
  | .float, .float => true
  | .fn ps r, .fn qs s => sameList ps qs && r.same s
  | .tuple xs, .tuple ys => sameList xs ys
  | .array x, .array y => x.same y
  | .var m, .var n => m == n
  | _, _ => false

def sameList : List Ty → List Ty → Bool
  | [], [] => true
  | a :: as, b :: bs => a.same b && sameList as bs
  | _, _ => false
end

mutual
theorem same_iff_eq (a b : Ty) : a.same b = true ↔ a = b := by
  cases a <;> cases b <;> simp [same, same_iff_eq, sameList_iff_eq]

theorem sameList_iff_eq (as bs : List Ty) : sameList as bs = true ↔ as = bs := by
  cases as <;> cases bs <;> simp [sameList, same_iff_eq, sameList_iff_eq]
end

instance : DecidableEq Ty := fun a b => decidable_of_iff _ (same_iff_eq a b)

mutual
/-- A type as text: `(Int, Float) -> Bool`, `(Int, Int)`, `Array<Int>`, `?3`. -/
def text : Ty → String
  | .unit => "Unit"
  | .bool => "Bool"
  | .int => "Int"
  | .float => "Float"
  | .fn ps r => "(" ++ textList ps ++ ") -> " ++ r.text
  | .tuple es => "(" ++ textList es ++ ")"
  | .array e => "Array<" ++ e.text ++ ">"
  | .var n => "?" ++ n.repr

def textList : List Ty → String
  | [] => ""
  | [t] => t.text
  | t :: u :: ts => t.text ++ ", " ++ textList (u :: ts)
end

mutual
/-- Put a type in place of every variable. -/
def subst (σ : Nat → Ty) : Ty → Ty
  | .fn ps r => .fn (substList σ ps) (r.subst σ)
  | .tuple es => .tuple (substList σ es)
  | .array e => .array (e.subst σ)
  | .var n => σ n
  | .unit => .unit
  | .bool => .bool
  | .int => .int
  | .float => .float

def substList (σ : Nat → Ty) : List Ty → List Ty
  | [] => []
  | t :: ts => t.subst σ :: substList σ ts
end

mutual
/-- Put a type in place of every variable, from left to right, where finding
    the type may have an effect. -/
def substM {m : Type → Type} [Monad m] (σ : Nat → m Ty) : Ty → m Ty
  | .fn ps r => return .fn (← substListM σ ps) (← r.substM σ)
  | .tuple es => return .tuple (← substListM σ es)
  | .array e => return .array (← e.substM σ)
  | .var n => σ n
  | .unit => return .unit
  | .bool => return .bool
  | .int => return .int
  | .float => return .float

def substListM {m : Type → Type} [Monad m] (σ : Nat → m Ty) : List Ty → m (List Ty)
  | [] => return []
  | t :: ts => return (← t.substM σ) :: (← substListM σ ts)
end

mutual
/-- Whether some variable of the type satisfies the test. -/
def anyVar (p : Nat → Bool) : Ty → Bool
  | .fn ps r => anyVarList p ps || r.anyVar p
  | .tuple es => anyVarList p es
  | .array e => e.anyVar p
  | .var n => p n
  | .unit | .bool | .int | .float => false

def anyVarList (p : Nat → Bool) : List Ty → Bool
  | [] => false
  | t :: ts => t.anyVar p || anyVarList p ts
end

def isGround (t : Ty) : Bool :=
  !t.anyVar fun _ => true

mutual
/-- The ground type in code; a variable that is left counts as an integer. -/
def mono : Ty → Mono
  | .unit => .unit
  | .bool => .bool
  | .int => .int
  | .float => .float
  | .fn ps r => .fn (monoList ps) r.mono
  | .tuple es => .tuple (monoList es)
  | .array e => .array e.mono
  | .var _ => .int

def monoList : List Ty → List Mono
  | [] => []
  | t :: ts => t.mono :: monoList ts
end

end Ty

end MiddleEnd
