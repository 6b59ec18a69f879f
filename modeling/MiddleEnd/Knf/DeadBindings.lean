import MiddleEnd.Event
import MiddleEnd.Knf

/-! # Dead bindings

A binding is dead when nothing uses what it binds and running it cannot be
noticed.
-/

namespace MiddleEnd.Knf

def usesAny (pattern : List (Name × Mono)) (e : Knf) : Bool :=
  pattern.any fun b => b.1 ∈ e.freeVars

def isLive (x : Name) (bound body : Knf) : Bool :=
  bound.isEffectful || decide (x ∈ body.freeVars)

/-- Drop dead bindings, the last first. -/
def dropDead : Knf → Knf
  | .branch test x y e1 e2 => .branch test x y e1.dropDead e2.dropDead
  | .letIn x ty e1 e2 =>
      let e1 := e1.dropDead
      let e2 := e2.dropDead
      if isLive x e1 e2 then .letIn x ty e1 e2 else e2
  | .letRec f ty formals body rest =>
      let rest := rest.dropDead
      if f ∈ rest.freeVars then .letRec f ty formals body.dropDead rest else rest
  | .letTuple pattern y e =>
      let e := e.dropDead
      if usesAny pattern e then .letTuple pattern y e else e
  | .op o => .op o
  | .app f xs => .app f xs
  | .externApp f xs => .externApp f xs

/-- The bindings that `dropDead` drops, each after those inside it. -/
def deadBindings : Knf → List Event
  | .branch _ _ _ e1 e2 => e1.deadBindings ++ e2.deadBindings
  | .letIn x _ e1 e2 =>
      e1.deadBindings ++ e2.deadBindings ++
        if isLive x e1.dropDead e2.dropDead then [] else [.variableDropped x]
  | .letRec f _ _ body rest =>
      rest.deadBindings ++
        if f ∈ rest.dropDead.freeVars then body.deadBindings else [.functionDropped f]
  | .letTuple pattern _ e =>
      e.deadBindings ++
        if usesAny pattern e.dropDead then [] else [.patternDropped (pattern.map (·.1))]
  | .op _ | .app .. | .externApp .. => []

end MiddleEnd.Knf
