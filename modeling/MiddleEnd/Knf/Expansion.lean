import MiddleEnd.Event
import MiddleEnd.Knf.Renaming

/-! # Expansion of calls

A call of a small function is replaced by its body, with the arguments in place
of the formals and with new names for all binders of the copy.
-/

namespace MiddleEnd.Knf

/-- A function small enough to be copied, as it was before its own calls were
    expanded. -/
structure Candidate where
  formals : List Name
  body : Knf
deriving Repr, DecidableEq, Inhabited

/-- The functions to copy once `f` is defined. -/
def candidates (threshold : Nat) (s : Scope Candidate) (f : Name)
    (formals : List (Name × Mono)) (body : Knf) : Scope Candidate :=
  if body.size ≤ threshold then s.bind f ⟨formals.map (·.1), body⟩ else s

/-- Expand calls of the functions in scope; a function body with at most
    `threshold` nodes is small. -/
def expandCallsIn (threshold : Nat) (s : Scope Candidate) : Knf → StateM Supply Knf
  | .branch test x y e1 e2 => do
      let e1 ← e1.expandCallsIn threshold s
      let e2 ← e2.expandCallsIn threshold s
      return .branch test x y e1 e2
  | .letIn x ty e1 e2 => do
      let e1 ← e1.expandCallsIn threshold s
      let e2 ← e2.expandCallsIn threshold s
      return .letIn x ty e1 e2
  | .letRec f ty formals body rest => do
      let inner := candidates threshold s f formals body
      let body ← body.expandCallsIn threshold inner
      let rest ← rest.expandCallsIn threshold inner
      return .letRec f ty formals body rest
  | .app f xs =>
      match s.get? f with
      | some c => c.body.freshenIn (Scope.empty.bindAll (c.formals.zip xs))
      | none => return .app f xs
  | .letTuple pattern y e => do
      let e ← e.expandCallsIn threshold s
      return .letTuple pattern y e
  | .op o => return .op o
  | .externApp f xs => return .externApp f xs

def expandCalls (threshold : Nat) (e : Knf) : StateM Supply Knf :=
  e.expandCallsIn threshold .empty

def expansionsIn (threshold : Nat) (s : Scope Candidate) : Knf → List Event
  | .branch _ _ _ e1 e2 => e1.expansionsIn threshold s ++ e2.expansionsIn threshold s
  | .letIn _ _ e1 e2 => e1.expansionsIn threshold s ++ e2.expansionsIn threshold s
  | .letRec f _ formals body rest =>
      let inner := candidates threshold s f formals body
      body.expansionsIn threshold inner ++ rest.expansionsIn threshold inner
  | .app f _ => if s.contains f then [.inlined f] else []
  | .letTuple _ _ e => e.expansionsIn threshold s
  | .op _ | .externApp .. => []

def expansions (threshold : Nat) (e : Knf) : List Event :=
  e.expansionsIn threshold .empty

end MiddleEnd.Knf
