import MiddleEnd.Knf
import MiddleEnd.Text.Layout

/-! # K-normal code as text -/

namespace MiddleEnd.Knf

/-- Whether the code takes several lines. -/
def isCompound : Knf → Bool
  | .branch .. | .letIn .. | .letRec .. | .letTuple .. => true
  | .op _ | .app .. | .externApp .. => false

/-- The head of a function definition, up to the sign before its body. -/
def functionHead (f : Name) (ty : Mono) (formals : List (Name × Mono)) : String :=
  "let rec " ++ f ++
    String.join (formals.map fun b => " (" ++ Layout.binder b.1 b.2 ++ ")") ++
    (match ty.result? with
      | some r => ": " ++ r.text
      | none => "") ++ " ="

/-- The code as text from a column on; its first line is not indented. -/
def layout (column : Nat) : Knf → String
  | .op o => o.text
  | .branch test x y e1 e2 =>
      Layout.branch column test x y (e1.layout (column + 2)) (e2.layout (column + 2))
  | .letIn x ty e1 e2 =>
      if e1.isCompound then
        Layout.longLet column x ty (e1.layout (column + 2)) (e2.layout column)
      else Layout.shortLet column x ty (e1.layout column) (e2.layout column)
  | .letRec f ty formals body rest =>
      functionHead f ty formals ++ "\n" ++
        Layout.pad (column + 2) ++ body.layout (column + 2) ++ "\n" ++
        Layout.pad column ++ "in\n" ++
        Layout.pad column ++ rest.layout column
  | .app f xs => f ++ Op.argsText xs
  | .letTuple pattern y e => Layout.letTuple column pattern y (e.layout column)
  | .externApp f xs => "extern " ++ f ++ Op.argsText xs

def text (e : Knf) : String :=
  e.layout 0

end MiddleEnd.Knf
