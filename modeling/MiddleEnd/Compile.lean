import MiddleEnd.Closure.Conversion
import MiddleEnd.Knf.Lowering
import MiddleEnd.Knf.Rounds
import MiddleEnd.Typing.Inference

/-! # Compilation

From a source term to a program with closures, with a journal of what was done.
-/

namespace MiddleEnd

/-- Why a source term is not compiled. -/
inductive CompileError where
  | type (e : TypeError)
  | lower (e : LowerError)
deriving Repr, DecidableEq, Inhabited

namespace CompileError

def cause : CompileError → String
  | .type e => e.message
  | .lower e => e.message

/-- The error in words, with the stage it comes from. -/
def message : CompileError → String
  | .type e => "type error: " ++ e.message
  | .lower e => "lowering error: " ++ e.message

end CompileError

/-- What compilation has come to.  The signature and the supply are as they were
    left, also by a failure. -/
structure Compiled where
  result : Except CompileError Program
  externals : Signature
  supply : Supply

/-- Compile a source term, with names counted from the start. -/
def compile (options : Options) (externals : Signature) (e : Source) : Compiled :=
  let typing := Typing.outcome e externals
  match typing.result with
  | .error err => ⟨.error (.type err), typing.externals, .new⟩
  | .ok typed =>
      match (Lowering.program typing.externals typed).run.run .new with
      | (.error err, supply) => ⟨.error (.lower err), typing.externals, supply⟩
      | (.ok (code, _), supply) =>
          let (improved, supply) := (code.improve options).run supply
          ⟨.ok improved.code.toProgram, typing.externals, supply⟩

/-- How much an entry of the journal matters. -/
inductive Level where
  | debug
  | info
  | warn
deriving Repr, DecidableEq, Inhabited

structure Entry where
  level : Level
  message : String
deriving Repr, DecidableEq, Inhabited

def Entry.ofEvents (events : List Event) : List Entry :=
  events.map fun e => ⟨.debug, e.message⟩

def journal (options : Options) (externals : Signature) (e : Source) : List Entry :=
  let typing := Typing.outcome e externals
  let start := ⟨.info, "type checking"⟩ :: typing.warnings.map fun w => ⟨.warn, w.message⟩
  match typing.result with
  | .error _ => start
  | .ok typed =>
      start ++ [⟨.info, "K-normalizing"⟩] ++
        match (Lowering.program typing.externals typed).run.run .new with
        | (.error _, _) => []
        | (.ok (code, _), supply) =>
            let improved := ((code.improve options).run supply).1.code
            [⟨.info, "optimizing"⟩] ++
              Entry.ofEvents ((code.improveEvents options).run supply).1 ++
              [⟨.info, "closure converting"⟩] ++
              Entry.ofEvents improved.closeEvents ++
              [⟨.info, "compiled into " ++ improved.toProgram.functions.length.repr ++
                " top-level function(s)"⟩]

end MiddleEnd
