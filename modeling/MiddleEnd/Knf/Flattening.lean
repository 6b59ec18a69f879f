import MiddleEnd.Knf

/-! # Flat bindings

What is bound inside a bound expression is bound before it instead, so that no
`let` binds code that itself starts with a binder.
-/

namespace MiddleEnd.Knf

/-- Bind `x` to code whose own leading binders are moved outward. -/
def hoist (x : Name) (ty : Mono) (body : Knf) : Knf → Knf
  | .letIn y u e1 e2 => .letIn y u e1 (hoist x ty body e2)
  | .letRec f u formals e1 e2 => .letRec f u formals e1 (hoist x ty body e2)
  | .letTuple pattern z e => .letTuple pattern z (hoist x ty body e)
  | .op o => .letIn x ty (.op o) body
  | .branch test y z e1 e2 => .letIn x ty (.branch test y z e1 e2) body
  | .app f xs => .letIn x ty (.app f xs) body
  | .externApp f xs => .letIn x ty (.externApp f xs) body

/-- Move every binder out of bound code. -/
def flatten : Knf → Knf
  | .branch test x y e1 e2 => .branch test x y e1.flatten e2.flatten
  | .letIn x ty e1 e2 => hoist x ty e2.flatten e1.flatten
  | .letRec f ty formals body rest => .letRec f ty formals body.flatten rest.flatten
  | .letTuple pattern y e => .letTuple pattern y e.flatten
  | .op o => .op o
  | .app f xs => .app f xs
  | .externApp f xs => .externApp f xs

end MiddleEnd.Knf
