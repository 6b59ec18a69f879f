import Mathlib
import MiddleEnd.Proofs.Closure.Conversion

/-! # Functions on one list

The functions of a program can be collected on one list while code is converted.  A function
is added when its body has been converted; if the body has to be converted again, the list is
cut back to what it was before the first attempt.  Attempts may fail inside attempts, but
whatever is on the list already stays there and makes no difference, and each function of the
code is added once.
-/

namespace MiddleEnd

/-- What a function is called, with its type and its formals. -/
structure Heading where
  name : Name
  ty : Mono
  formals : List (Name × Mono)
deriving Repr, DecidableEq

def Function.heading (F : Function) : Heading :=
  ⟨F.name, F.ty, F.formals⟩

namespace Knf

/-- The headings of the functions that code defines: first those in the body of a function, then
    its own, then those in the code after it. -/
def headings : Knf → List Heading
  | .op _ | .app .. | .externApp .. => []
  | .branch _ _ _ e1 e2 | .letIn _ _ e1 e2 => e1.headings ++ e2.headings
  | .letRec f ty formals body rest => body.headings ++ ⟨f, ty, formals⟩ :: rest.headings
  | .letTuple _ _ e => e.headings

/-- Each function is lifted once, however often its body was converted. -/
theorem headings_closeIn (e : Knf) (scope : Scope Mono) (known : List Name) :
    (e.closeIn scope known).functions.map (·.heading) = e.headings := by
  induction e generalizing scope known with
  | op | app | externApp => rfl
  | branch test x y e1 e2 ih1 ih2 => simp [closeIn, headings, ih1, ih2]
  | letIn x ty e1 e2 ih1 ih2 => simp [closeIn, headings, ih1, ih2]
  | letRec f ty formals body rest ih1 ih2 =>
      obtain ⟨known', -, eq⟩ := closeIn_letRec f ty formals body rest scope known
      rw [eq]
      simp only [define, headings, List.map_append, List.map_cons, ih1, ih2]
      rfl
  | letTuple pattern y e ih => simp [closeIn, headings, ih]

/-! ## Conversion with a list -/

/-- A step that may change the list of functions. -/
abbrev Emit := StateM (List Function)

/-- Add a function, then convert the code that follows its definition. -/
def defineOnto (inner : Scope Mono) (f : Name) (ty : Mono) (formals : List (Name × Mono))
    (captured : List Name) (body : Code) (rest : Emit Code) : Emit Code := do
  modify (· ++ [lifted inner f ty formals captured body])
  let rest ← rest
  return if f ∈ rest.freeVars then .makeClosure f ty f captured rest else rest

/-- Convert code and add its functions to the list.  A failed attempt is taken back by cutting
    the list to the length that it had before. -/
def closeOnto (scope : Scope Mono) (known : List Name) : Knf → Emit Code
  | .op o => return .op o
  | .branch test x y e1 e2 => do
      let e1 ← e1.closeOnto scope known
      let e2 ← e2.closeOnto scope known
      return .branch test x y e1 e2
  | .letIn x ty e1 e2 => do
      let e1 ← e1.closeOnto scope known
      let e2 ← e2.closeOnto (scope.bind x ty) known
      return .letIn x ty e1 e2
  | .letRec f ty formals body rest => do
      let inner := scope.bind f ty
      let start := (← get).length
      let guess ← body.closeOnto (inner.bindAll formals) (f :: known)
      if outerNames formals guess = [] then
        defineOnto inner f ty formals [] guess (rest.closeOnto inner (f :: known))
      else
        modify (·.take start)
        let again ← body.closeOnto (inner.bindAll formals) known
        defineOnto inner f ty formals (capturedNames f formals again) again
          (rest.closeOnto inner known)
  | .app f xs => return if f ∈ known then .callDirect f xs else .callClosure f xs
  | .letTuple pattern y e => do
      let e ← e.closeOnto (scope.bindAll pattern) known
      return .letTuple pattern y e
  | .externApp f xs => return .callDirect (externLabel f) xs

/-- Whatever is on the list, the step gives this result and adds these functions at the end. -/
def Emits {α : Type} (step : Emit α) (a : α) (added : List Function) : Prop :=
  ∀ emitted, step.run emitted = (a, emitted ++ added)

namespace Emits

variable {α β : Type} {a : α} {b : β} {added added' : List Function}

theorem pure (a : α) : Emits (Pure.pure a) a [] := by
  intro emitted
  rw [Step.run_pure, List.append_nil]

theorem bind {step : Emit α} {next : α → Emit β} (h : Emits step a added)
    (hnext : Emits (next a) b added') : Emits (step >>= next) b (added ++ added') := by
  intro emitted
  rw [Step.run_bind, h emitted, hnext, List.append_assoc]

theorem map {step : Emit α} (h : Emits step a added) (g : α → β) :
    Emits (do let a ← step; return g a) (g a) added := by
  have last : Emits (step >>= fun a => Pure.pure (g a)) (g a) (added ++ []) := h.bind (pure (g a))
  rwa [List.append_nil] at last

theorem add (F : Function) : Emits (modify (· ++ [F])) ⟨⟩ [F] :=
  fun _ => rfl

/-- What a failed attempt has added is gone when the list has its old length again. -/
theorem retract {step : Emit α} (h : Emits step a added) (emitted failed : List Function) :
    (do modify (·.take emitted.length); step : Emit α).run (emitted ++ failed) =
      (a, emitted ++ added) := by
  show step.run ((emitted ++ failed).take emitted.length) = _
  rw [List.take_left, h]

theorem define {inner : Scope Mono} {f : Name} {ty : Mono} {formals : List (Name × Mono)}
    {captured : List Name} {body rest : Converted} {step : Emit Code}
    (h : Emits step rest.code rest.functions) :
    Emits (defineOnto inner f ty formals captured body.code step)
      (define inner f ty formals captured body rest).code
      (lifted inner f ty formals captured body.code :: rest.functions) :=
  (add _).bind (h.map _)

/-- Conversion with a list gives what conversion gives, and adds its functions. -/
theorem close (e : Knf) (scope : Scope Mono) (known : List Name) :
    Emits (e.closeOnto scope known) (e.closeIn scope known).code
      (e.closeIn scope known).functions := by
  induction e generalizing scope known with
  | op | app | externApp => exact pure _
  | branch test x y e1 e2 ih1 ih2 =>
      exact (ih1 scope known).bind ((ih2 scope known).map _)
  | letIn x ty e1 e2 ih1 ih2 =>
      exact (ih1 scope known).bind ((ih2 (scope.bind x ty) known).map _)
  | letTuple pattern y e ih => exact (ih (scope.bindAll pattern) known).map _
  | letRec f ty formals body rest ih1 ih2 =>
      intro emitted
      let inner := scope.bind f ty
      have guess := ih1 (inner.bindAll formals) (f :: known)
      have again := ih1 (inner.bindAll formals) known
      rw [closeOnto, closeIn, Step.run_bind, Step.run_get, Step.run_bind, guess emitted]
      dsimp only
      split
      case isTrue closed =>
        rw [define (ih2 inner (f :: known)), List.append_assoc]
        rfl
      case isFalse outer =>
        exact retract (again.bind (define (ih2 inner known))) emitted _

end Emits

/-- Every function is lifted exactly once.  The functions of the program have, in order, the
    headings of the definitions of the code, those in the body of a function before it and those in
    the code after it behind it.  The program is also what conversion with one list makes, where a
    failed attempt is taken back; and converting any code this way, in any scope and with any known
    functions, only adds functions at the end of the list, one for each definition in the code, and
    neither they nor the converted code depend on what was on the list. -/
theorem toProgram_lifts_once (e : Knf) :
    e.toProgram.functions.map (·.heading) = e.headings ∧
    (e.closeOnto .empty []).run [] = (e.toProgram.main, e.toProgram.functions) ∧
    ∀ (part : Knf) (scope : Scope Mono) (known : List Name), ∃ (code : Code)
      (added : List Function), added.map (·.heading) = part.headings ∧
        ∀ emitted, (part.closeOnto scope known).run emitted = (code, emitted ++ added) := by
  refine ⟨headings_closeIn e .empty [], Emits.close e .empty [] [], ?_⟩
  intro part scope known
  exact ⟨_, _, headings_closeIn part scope known, Emits.close part scope known⟩

/-- Three functions inside each other.  The one in the middle captures `z`, and so does the outer
    one; each has a failed attempt, so that the innermost one is lifted four times and taken back
    three times. -/
def retrying : Knf :=
  .letIn "z" .int (.op (.int 1))
    (.letRec "f" (.fn [.int] .int) [("x", .int)]
      (.letRec "g" (.fn [.int] .int) [("y", .int)]
        (.letRec "h" (.fn [.int] .int) [("w", .int)] (.op (.var "w"))
          (.letIn "t" .int (.app "h" ["y"]) (.op (.arith (.int .add) "t" "z"))))
        (.app "g" ["x"]))
      (.app "f" ["z"]))

example : retrying.toProgram.functions.map (·.name) = ["h", "g", "f"] := by decide +kernel

end Knf

end MiddleEnd
