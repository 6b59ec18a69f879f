import MiddleEnd.Closure
import MiddleEnd.Text.Layout

/-! # Code with closures as text -/

namespace MiddleEnd

namespace Code

/-- Whether the code takes several lines. -/
def isCompound : Code → Bool
  | .branch .. | .letIn .. | .makeClosure .. | .letTuple .. => true
  | .op _ | .callClosure .. | .callDirect .. => false

/-- The code as text from a column on; its first line is not indented. -/
def layout (column : Nat) : Code → String
  | .op o => o.text
  | .branch test x y e1 e2 =>
      Layout.branch column test x y (e1.layout (column + 2)) (e2.layout (column + 2))
  | .letIn x ty e1 e2 =>
      if e1.isCompound then
        Layout.longLet column x ty (e1.layout (column + 2)) (e2.layout column)
      else Layout.shortLet column x ty (e1.layout column) (e2.layout column)
  | .makeClosure x ty entry captured e =>
      Layout.shortLet column x ty
        ("closure " ++ entry ++ " [" ++ Name.commas captured ++ "]") (e.layout column)
  | .callClosure f xs => "call_closure " ++ f ++ Op.argsText xs
  | .callDirect f xs => "call " ++ f ++ Op.argsText xs
  | .letTuple pattern y e => Layout.letTuple column pattern y (e.layout column)

def text (e : Code) : String :=
  e.layout 0

end Code

def Function.text (f : Function) : String :=
  "fn " ++ f.name ++ "(" ++ Layout.binders f.formals ++ ")" ++
    (if f.captured.isEmpty then "" else " [" ++ Layout.binders f.captured ++ "]") ++
    (match f.ty.result? with
      | some r => " -> " ++ r.text
      | none => "") ++
    " =\n  " ++ f.body.layout 2

/-- A program as text, with an empty line after each function. -/
def Program.text (p : Program) : String :=
  String.join (p.functions.map fun f => f.text ++ "\n\n") ++ "main =\n  " ++ p.main.layout 2

end MiddleEnd
