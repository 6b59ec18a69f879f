import MiddleEnd.Name

/-! # Events

The decisions that the improvement of code and the making of closures report
while they work.
-/

namespace MiddleEnd

/-- A decision worth reporting. -/
inductive Event where
  /-- A name was replaced by the name it is a copy of. -/
  | copied (x y : Name)
  /-- A call was replaced by the body of the function. -/
  | inlined (f : Name)
  /-- A binding was dropped. -/
  | variableDropped (x : Name)
  /-- A function definition was dropped. -/
  | functionDropped (f : Name)
  /-- The binding of the components of a tuple was dropped. -/
  | patternDropped (xs : List Name)
  /-- A round changed nothing but names. -/
  | settled (rounds : Nat)
  /-- The last round allowed still changed something. -/
  | boundMet (rounds : Nat)
  /-- A function is called without a closure. -/
  | calledDirectly (f : Name)
  /-- A function that was taken for closed has free names. -/
  | notClosed (free : List Name) (f : Name)
  /-- A function is only called through a closure. -/
  | needsClosure (f : Name)
  /-- A closure that nothing uses is not made. -/
  | closureDropped (f : Name)
deriving Repr, DecidableEq, Inhabited

def Event.message : Event → String
  | .copied x y => "beta-reducing " ++ x ++ " = " ++ y
  | .inlined f => "inlining " ++ f
  | .variableDropped x => "eliminating variable " ++ x
  | .functionDropped f => "eliminating function " ++ f
  | .patternDropped xs => "eliminating variables " ++ Name.commas xs
  | .settled n => "optimizer reached a fixpoint after " ++ n.repr ++ " iteration(s)"
  | .boundMet n => "optimizer stopped at the iteration bound (" ++ n.repr ++ ")"
  | .calledDirectly f => "directly applying " ++ f
  | .notClosed free f =>
      "free variable(s) " ++ Name.commas free ++ " found in function " ++ f
  | .needsClosure f => "function " ++ f ++ " cannot be directly applied"
  | .closureDropped f => "eliminating closure " ++ f

end MiddleEnd
