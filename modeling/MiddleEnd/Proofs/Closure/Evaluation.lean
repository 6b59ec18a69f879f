import Mathlib
import MiddleEnd.Closure.Conversion
import MiddleEnd.Proofs.Knf.Evaluation

/-! # Evaluation of code with closures

A closure is a record: the label of a function and the values of the names that
the function takes from it.  A call through a closure makes these names, the
formals and the name of the function itself known to the body.  A call by label
makes the formals known and nothing else, or calls an external function.
-/

namespace MiddleEnd

def externName? (label : Name) : Option Name :=
  if "min_caml_".toList <+: label.toList then some (.ofList (label.toList.drop 9)) else none

theorem externName?_externLabel (f : Name) : externName? (Knf.externLabel f) = some f := by
  have split : (Knf.externLabel f).toList = "min_caml_".toList ++ f.toList := String.toList_append
  have drop : ("min_caml_".toList ++ f.toList).drop 9 = f.toList := rfl
  rw [externName?, split, if_pos (List.prefix_append _ _), drop, String.ofList_toList]

def Program.function? (P : Program) (label : Name) : Option Function :=
  P.functions.find? (·.name = label)

theorem Program.name_of_function? {P : Program} {label : Name} {F : Function}
    (h : P.function? label = some F) : F.name = label := by
  simpa using List.find?_some h

namespace Code

/-- A closure: where its code starts, and what it has captured. -/
inductive Closure where
  | mk (entry : Name) (captured : List (Value Closure))

abbrev Env := Scope (Value Closure)

/-- The function that a closure calls, and the names it gives to the body besides the
    formals. -/
def Closure.open? (P : Program) : Closure → Option (Function × Env)
  | .mk entry values =>
      match P.function? entry with
      | some F =>
          if values.length = F.captured.length then
            some (F, (Scope.empty.bind F.name (.fn (.mk entry values))).bindEach
              ((F.captured.map (·.1)).zip values))
          else none
      | none => none

variable {W : Outside}

/-- Evaluate code, where `call` tells what calls of functions do. -/
def evalWith (P : Program)
    (call : Function × Env → List (Value Closure) → Run W Closure (Value Closure))
    (env : Env) : Code → Run W Closure (Value Closure)
  | .op o => o.eval env.get?
  | .branch test x y e1 e2 => do
      let v ← Run.ofOption (env.get? x)
      let w ← Run.ofOption (env.get? y)
      match ← Run.ofOption (v.test test w) with
      | true => e1.evalWith P call env
      | false => e2.evalWith P call env
  | .letIn x _ e1 e2 => do
      let v ← e1.evalWith P call env
      e2.evalWith P call (env.bind x v)
  | .makeClosure x _ entry captured e => do
      let values ← Run.ofOption (lookAll env.get? captured)
      e.evalWith P call (env.bind x (.fn (.mk entry values)))
  | .callClosure f xs => do
      let v ← Run.ofOption (env.get? f)
      let args ← Run.ofOption (lookAll env.get? xs)
      let c ← Run.ofOption v.function?
      let callee ← Run.ofOption (c.open? P)
      call callee args
  | .callDirect label xs => do
      let args ← Run.ofOption (lookAll env.get? xs)
      match P.function? label with
      | some F => call (F, .empty) args
      | none =>
          let f ← Run.ofOption (externName? label)
          Run.external f args
  | .letTuple pattern y e => do
      let v ← Run.ofOption (env.get? y)
      let vs ← Run.ofOption v.components?
      if vs.length = pattern.length then
        e.evalWith P call (env.bindEach ((pattern.map (·.1)).zip vs))
      else Run.stuck

end Code

namespace Program

/-- A call, with calls up to the given depth. -/
def call (W : Outside) (P : Program) :
    Nat → Function × Code.Env → List (Value Code.Closure) →
      Run W Code.Closure (Value Code.Closure)
  | 0, _, _ => Run.unfinished
  | depth + 1, (F, env), args =>
      if args.length = F.formals.length then
        F.body.evalWith P (call W P depth) (env.bindEach ((F.formals.map (·.1)).zip args))
      else Run.stuck

def runs (W : Outside) (P : Program) : Runs W Code.Closure :=
  fun depth => P.main.evalWith P (call W P depth) .empty (Memory.start W Code.Closure)

end Program

end MiddleEnd
