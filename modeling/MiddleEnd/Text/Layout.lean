import MiddleEnd.Mono
import MiddleEnd.Name
import MiddleEnd.Operator

/-! # Layout of code

The forms that K-normal code and code with closures are printed in.  Each takes
the texts of its parts, already laid out, and the column it starts at.
-/

namespace MiddleEnd.Layout

/-- Blanks up to a column. -/
def pad (column : Nat) : String :=
  String.ofList (List.replicate column ' ')

def binder (x : Name) (ty : Mono) : String :=
  x ++ ": " ++ ty.text

def binders (xs : List (Name × Mono)) : String :=
  ", ".intercalate (xs.map fun b => binder b.1 b.2)

def testSign : Test → String
  | .eq => "="
  | .le => "<="

/-- A branch; both arms stand two columns further in. -/
def branch (column : Nat) (test : Test) (x y : Name) (yes no : String) : String :=
  "if " ++ x ++ " " ++ testSign test ++ " " ++ y ++ " then\n" ++
    pad (column + 2) ++ yes ++ "\n" ++
    pad column ++ "else\n" ++
    pad (column + 2) ++ no

/-- A binding that fits on a line. -/
def shortLet (column : Nat) (x : Name) (ty : Mono) (bound body : String) : String :=
  "let " ++ binder x ty ++ " = " ++ bound ++ " in\n" ++ pad column ++ body

/-- A binding whose bound code stands on lines of its own, two columns further in. -/
def longLet (column : Nat) (x : Name) (ty : Mono) (bound body : String) : String :=
  "let " ++ binder x ty ++ " =\n" ++
    pad (column + 2) ++ bound ++ "\n" ++
    pad column ++ "in\n" ++
    pad column ++ body

def letTuple (column : Nat) (pattern : List (Name × Mono)) (y : Name) (body : String) : String :=
  "let (" ++ binders pattern ++ ") = " ++ y ++ " in\n" ++ pad column ++ body

end MiddleEnd.Layout
