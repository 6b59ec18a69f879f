import MiddleEnd.Event
import MiddleEnd.Knf.Renaming

/-! # Copies

A binding of a name to a name is dropped, and the name it stands for is used in
its place.
-/

namespace MiddleEnd.Knf

/-- Drop copies; `s` holds the copies met on the way. -/
def dropCopiesIn (s : Scope Name) : Knf → Knf
  | .op o => .op (o.map s.target)
  | .branch test x y e1 e2 =>
      .branch test (s.target x) (s.target y) (e1.dropCopiesIn s) (e2.dropCopiesIn s)
  | .letIn x ty e1 e2 =>
      match e1.dropCopiesIn s with
      | .op (.var y) => e2.dropCopiesIn (s.bind x y)
      | e1 => .letIn x ty e1 (e2.dropCopiesIn s)
  | .letRec f ty formals body rest =>
      .letRec f ty formals (body.dropCopiesIn s) (rest.dropCopiesIn s)
  | .app f xs => .app (s.target f) (xs.map s.target)
  | .letTuple pattern y e => .letTuple pattern (s.target y) (e.dropCopiesIn s)
  | .externApp f xs => .externApp f (xs.map s.target)

def dropCopies (e : Knf) : Knf :=
  e.dropCopiesIn .empty

/-- The copies that are dropped, in the order in which they are met. -/
def copiesIn (s : Scope Name) : Knf → List Event
  | .branch _ _ _ e1 e2 => e1.copiesIn s ++ e2.copiesIn s
  | .letIn x _ e1 e2 =>
      e1.copiesIn s ++
        match e1.dropCopiesIn s with
        | .op (.var y) => .copied x y :: e2.copiesIn (s.bind x y)
        | _ => e2.copiesIn s
  | .letRec _ _ _ body rest => body.copiesIn s ++ rest.copiesIn s
  | .letTuple _ _ e => e.copiesIn s
  | .op _ | .app .. | .externApp .. => []

def copies (e : Knf) : List Event :=
  e.copiesIn .empty

end MiddleEnd.Knf
