/-! # Ground types

The types that code carries after inference: no variables are left.
-/

namespace MiddleEnd

/-- A type without variables. -/
inductive Mono where
  | unit
  | bool
  | int
  | float
  | fn (params : List Mono) (result : Mono)
  | tuple (elems : List Mono)
  | array (elem : Mono)
deriving Repr, Inhabited

namespace Mono

mutual
def same : Mono → Mono → Bool
  | .unit, .unit => true
  | .bool, .bool => true
  | .int, .int => true
  | .float, .float => true
  | .fn ps r, .fn qs s => sameList ps qs && r.same s
  | .tuple xs, .tuple ys => sameList xs ys
  | .array x, .array y => x.same y
  | _, _ => false

def sameList : List Mono → List Mono → Bool
  | [], [] => true
  | a :: as, b :: bs => a.same b && sameList as bs
  | _, _ => false
end

mutual
theorem same_iff_eq (a b : Mono) : a.same b = true ↔ a = b := by
  cases a <;> cases b <;> simp [same, same_iff_eq, sameList_iff_eq]

theorem sameList_iff_eq (as bs : List Mono) : sameList as bs = true ↔ as = bs := by
  cases as <;> cases bs <;> simp [sameList, same_iff_eq, sameList_iff_eq]
end

instance : DecidableEq Mono := fun a b => decidable_of_iff _ (same_iff_eq a b)

/-- The letter that marks an intermediate result of this type. -/
def tag : Mono → Char
  | .unit => 'u'
  | .bool => 'b'
  | .int => 'i'
  | .float => 'd'
  | .fn _ _ => 'f'
  | .tuple _ => 't'
  | .array _ => 'a'

/-- What a function of this type returns, if it is the type of a function. -/
def result? : Mono → Option Mono
  | .fn _ r => some r
  | _ => none

mutual
/-- A type as text: `(int, float) -> bool`, `(int * int)`, `int array`. -/
def text : Mono → String
  | .unit => "unit"
  | .bool => "bool"
  | .int => "int"
  | .float => "float"
  | .fn ps r => "(" ++ textList ", " ps ++ ") -> " ++ r.text
  | .tuple es => "(" ++ textList " * " es ++ ")"
  | .array e => e.text ++ " array"

/-- Types as text, with a separator between neighbours. -/
def textList (sep : String) : List Mono → String
  | [] => ""
  | [t] => t.text
  | t :: u :: ts => t.text ++ sep ++ textList sep (u :: ts)
end

end Mono

end MiddleEnd
