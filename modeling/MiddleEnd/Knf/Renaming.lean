import MiddleEnd.Knf
import MiddleEnd.Scope

/-! # New names for binders

Every binder gets a new name, and every occurrence follows its binder.  Free
names may be replaced on the way.
-/

namespace MiddleEnd

/-- What a name is replaced by; a name that the scope does not bind stays. -/
def Scope.target (s : Scope Name) (x : Name) : Name :=
  (s.get? x).getD x

namespace Knf

/-- New names for a group of binders, from left to right. -/
def freshenBinders : List (Name × Mono) → StateM Supply (List (Name × Mono))
  | [] => return []
  | (x, ty) :: rest => do
      let y ← Supply.numbered x
      return (y, ty) :: (← freshenBinders rest)

def renamed (olds news : List (Name × Mono)) : List (Name × Name) :=
  (olds.map (·.1)).zip (news.map (·.1))

/-- Rename every binder; `s` says what the names in force are replaced by. -/
def freshenIn (s : Scope Name) : Knf → StateM Supply Knf
  | .op o => return .op (o.map s.target)
  | .branch test x y e1 e2 => do
      let e1 ← e1.freshenIn s
      let e2 ← e2.freshenIn s
      return .branch test (s.target x) (s.target y) e1 e2
  | .letIn x ty e1 e2 => do
      let x' ← Supply.numbered x
      let e1 ← e1.freshenIn s
      let e2 ← e2.freshenIn (s.bind x x')
      return .letIn x' ty e1 e2
  | .letRec f ty formals body rest => do
      let f' ← Supply.numbered f
      let formals' ← freshenBinders formals
      let inner := s.bind f f'
      let body ← body.freshenIn (inner.bindAll (renamed formals formals'))
      let rest ← rest.freshenIn inner
      return .letRec f' ty formals' body rest
  | .app f xs => return .app (s.target f) (xs.map s.target)
  | .letTuple pattern y e => do
      let pattern' ← freshenBinders pattern
      let e ← e.freshenIn (s.bindAll (renamed pattern pattern'))
      return .letTuple pattern' (s.target y) e
  | .externApp f xs => return .externApp f (xs.map s.target)

def freshen (e : Knf) : StateM Supply Knf :=
  e.freshenIn .empty

end Knf

end MiddleEnd
