import MiddleEnd.Knf.AlphaEq
import MiddleEnd.Knf.Copies
import MiddleEnd.Knf.DeadBindings
import MiddleEnd.Knf.Expansion
import MiddleEnd.Knf.Flattening
import MiddleEnd.Knf.Folding
import MiddleEnd.Options

/-! # Rounds of improvement

A round renames all binders, drops copies, flattens bindings, expands calls,
folds constants and drops dead bindings.  Rounds follow each other until one
changes nothing but names or their number is used up.
-/

namespace MiddleEnd.Knf

def round (threshold : Nat) (e : Knf) : StateM Supply Knf := do
  let e ← e.freshen
  let e ← e.dropCopies.flatten.expandCalls threshold
  return e.foldConstants.dropDead

/-- Improved code, and how the rounds ended. -/
structure Improved where
  code : Knf
  /-- How many rounds were made. -/
  rounds : Nat
  /-- Whether the last round changed nothing but names. -/
  settled : Bool
deriving Repr, DecidableEq, Inhabited

/-- Make up to `left` more rounds after `done` ones. -/
def improveWithin (threshold : Nat) : (left done : Nat) → Knf → StateM Supply Improved
  | 0, done, e => return ⟨e, done, false⟩
  | left + 1, done, e => do
      let next ← e.round threshold
      if next.alphaEq e then return ⟨next, done + 1, true⟩
      else improveWithin threshold left (done + 1) next

/-- Improve code in rounds.  All binders are renamed before the first round, so
    that they are different also when no round is made. -/
def improve (options : Options) (e : Knf) : StateM Supply Improved := do
  let e ← e.freshen
  improveWithin options.inlineThreshold options.maxIterations 0 e

def roundEvents (threshold : Nat) (e : Knf) : StateM Supply (List Event) := do
  let e ← e.freshen
  let flat := e.dropCopies.flatten
  let expanded ← flat.expandCalls threshold
  return e.copies ++ flat.expansions threshold ++ expanded.foldConstants.deadBindings

def improveEventsWithin (threshold : Nat) : (left done : Nat) → Knf → StateM Supply (List Event)
  | 0, done, _ => return [.boundMet done]
  | left + 1, done, e => do
      let start ← get
      let events ← e.roundEvents threshold
      set start
      let next ← e.round threshold
      if next.alphaEq e then return events ++ [.settled (done + 1)]
      else return events ++ (← improveEventsWithin threshold left (done + 1) next)

def improveEvents (options : Options) (e : Knf) : StateM Supply (List Event) := do
  let e ← e.freshen
  improveEventsWithin options.inlineThreshold options.maxIterations 0 e

end MiddleEnd.Knf
