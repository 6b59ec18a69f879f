import MiddleEnd.Closure
import MiddleEnd.Event
import MiddleEnd.Knf
import MiddleEnd.Scope

/-! # Making closures

Every function of K-normal code becomes a function at the top level.  A function
is first taken to need no closure, and calls of it in its own body to go by its
label.  If the converted body then has free names besides the formals, the body
is converted again without that assumption, and the function is called through
closures.
-/

namespace MiddleEnd.Knf

/-- Converted code, and the functions defined in it in order. -/
structure Converted where
  functions : List Function
  code : Code
deriving Repr, DecidableEq, Inhabited

def externLabel (f : Name) : Name :=
  "min_caml_" ++ f

/-- The free names of a body besides the formals, sorted. -/
def outerNames (formals : List (Name × Mono)) (body : Code) : List Name :=
  Name.sorted (body.freeVars.filter (· ∉ formals.map (·.1)))

/-- The free names of a body besides the formals and the function itself, sorted. -/
def capturedNames (f : Name) (formals : List (Name × Mono)) (body : Code) : List Name :=
  (outerNames formals body).filter (· ≠ f)

/-- Put a function before the code that follows its definition.  A closure is
    made only if that code uses the function as a value.  A captured name without
    a type in scope counts as an integer. -/
def define (inner : Scope Mono) (f : Name) (ty : Mono) (formals : List (Name × Mono))
    (captured : List Name) (body rest : Converted) : Converted :=
  { functions := body.functions ++
      ⟨f, ty, formals, captured.map fun z => (z, (inner.get? z).getD .int), body.code⟩ ::
        rest.functions
    code := if f ∈ rest.code.freeVars then .makeClosure f ty f captured rest.code
      else rest.code }

/-- Convert code.  `scope` has the types of the names in force and `known` the
    functions that are called by their labels. -/
def closeIn (scope : Scope Mono) (known : List Name) : Knf → Converted
  | .op o => ⟨[], .op o⟩
  | .branch test x y e1 e2 =>
      let c1 := e1.closeIn scope known
      let c2 := e2.closeIn scope known
      ⟨c1.functions ++ c2.functions, .branch test x y c1.code c2.code⟩
  | .letIn x ty e1 e2 =>
      let c1 := e1.closeIn scope known
      let c2 := e2.closeIn (scope.bind x ty) known
      ⟨c1.functions ++ c2.functions, .letIn x ty c1.code c2.code⟩
  | .letRec f ty formals body rest =>
      let inner := scope.bind f ty
      let guess := body.closeIn (inner.bindAll formals) (f :: known)
      if outerNames formals guess.code = [] then
        define inner f ty formals [] guess (rest.closeIn inner (f :: known))
      else
        let again := body.closeIn (inner.bindAll formals) known
        define inner f ty formals (capturedNames f formals again.code) again
          (rest.closeIn inner known)
  | .app f xs => ⟨[], if f ∈ known then .callDirect f xs else .callClosure f xs⟩
  | .letTuple pattern y e =>
      let c := e.closeIn (scope.bindAll pattern) known
      ⟨c.functions, .letTuple pattern y c.code⟩
  | .externApp f xs => ⟨[], .callDirect (externLabel f) xs⟩

def toProgram (e : Knf) : Program :=
  let c := e.closeIn .empty []
  ⟨c.functions, c.code⟩

/-- What the code after a definition reports about the function's closure. -/
def closureEvents (f : Name) (rest : Converted) : List Event :=
  if f ∈ rest.code.freeVars then [] else [.closureDropped f]

/-- What the conversion of code reports, discarded attempts included. -/
def closeEventsIn (scope : Scope Mono) (known : List Name) : Knf → List Event
  | .branch _ _ _ e1 e2 =>
      e1.closeEventsIn scope known ++ e2.closeEventsIn scope known
  | .letIn x ty e1 e2 =>
      e1.closeEventsIn scope known ++ e2.closeEventsIn (scope.bind x ty) known
  | .letRec f ty formals body rest =>
      let inner := scope.bind f ty
      let guess := body.closeIn (inner.bindAll formals) (f :: known)
      body.closeEventsIn (inner.bindAll formals) (f :: known) ++
        if outerNames formals guess.code = [] then
          rest.closeEventsIn inner (f :: known) ++
            closureEvents f (rest.closeIn inner (f :: known))
        else
          [.notClosed (outerNames formals guess.code) f, .needsClosure f] ++
            body.closeEventsIn (inner.bindAll formals) known ++
            rest.closeEventsIn inner known ++
            closureEvents f (rest.closeIn inner known)
  | .app f _ => if f ∈ known then [.calledDirectly f] else []
  | .letTuple pattern _ e => e.closeEventsIn (scope.bindAll pattern) known
  | .op _ | .externApp .. => []

def closeEvents (e : Knf) : List Event :=
  e.closeEventsIn .empty []

end MiddleEnd.Knf
