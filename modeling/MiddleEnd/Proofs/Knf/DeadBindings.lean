import Mathlib
import MiddleEnd.Proofs.Knf.FreeNames
import MiddleEnd.Proofs.Knf.OpenCode

/-! # Dead bindings

Dropping dead bindings is right for all code: nothing is asked of its names, which may
hide each other.  It also leaves nothing to drop, in the code itself and in all code
inside it.  That a binding is live is said of the code that is left, in which bindings
further in may have gone, so one that was used by dead bindings only goes with them.
-/

namespace MiddleEnd.Knf

/-- The code and all code inside it, function bodies too. -/
def parts : Knf → List Knf
  | .op o => [.op o]
  | .branch test x y e1 e2 => .branch test x y e1 e2 :: (e1.parts ++ e2.parts)
  | .letIn x ty e1 e2 => .letIn x ty e1 e2 :: (e1.parts ++ e2.parts)
  | .letRec f ty formals body rest =>
      .letRec f ty formals body rest :: (body.parts ++ rest.parts)
  | .app f xs => [.app f xs]
  | .letTuple pattern y e => .letTuple pattern y e :: e.parts
  | .externApp f xs => [.externApp f xs]

/-- If the code starts with a binder, then what it binds is used, or binding it may be
    noticed. -/
def BindsLive : Knf → Prop
  | .letIn x _ bound body => bound.isEffectful = true ∨ x ∈ body.freeVars
  | .letRec f _ _ _ rest => f ∈ rest.freeVars
  | .letTuple pattern _ body => ∃ x ∈ pattern.map (·.1), x ∈ body.freeVars
  | .op _ | .branch .. | .app .. | .externApp .. => True

instance : DecidablePred BindsLive
  | .letIn x _ bound body =>
      inferInstanceAs (Decidable (bound.isEffectful = true ∨ x ∈ body.freeVars))
  | .letRec f _ _ _ rest => inferInstanceAs (Decidable (f ∈ rest.freeVars))
  | .letTuple pattern _ body =>
      inferInstanceAs (Decidable (∃ x ∈ pattern.map (·.1), x ∈ body.freeVars))
  | .op _ | .branch .. | .app .. | .externApp .. => .isTrue trivial

/-- No binding that is left is dead. -/
theorem bindsLive_dropDead (e : Knf) : ∀ part ∈ e.dropDead.parts, part.BindsLive := by
  induction e with
  | op | app | externApp => exact List.forall_mem_singleton.mpr trivial
  | branch test x y e1 e2 ih1 ih2 =>
      rw [dropDead, parts, List.forall_mem_cons, List.forall_mem_append]
      exact ⟨trivial, ih1, ih2⟩
  | letIn x ty e1 e2 ih1 ih2 =>
      rw [dropDead]
      split
      case isTrue live =>
        rw [parts, List.forall_mem_cons, List.forall_mem_append]
        exact ⟨isLive_iff.mp live, ih1, ih2⟩
      case isFalse => exact ih2
  | letRec f ty formals body rest ih1 ih2 =>
      rw [dropDead]
      split
      case isTrue used =>
        rw [parts, List.forall_mem_cons, List.forall_mem_append]
        exact ⟨used, ih1, ih2⟩
      case isFalse => exact ih2
  | letTuple pattern y e ih =>
      rw [dropDead]
      split
      case isTrue used =>
        rw [parts, List.forall_mem_cons]
        exact ⟨usesAny_iff.mp used, ih⟩
      case isFalse => exact ih

/-- Dropping dead bindings is right for all code, and leaves nothing dead.  In every environment
    and from every memory, code that does not get stuck becomes code that does not get stuck
    either, that ends if and only if the code does, with the same effects, the same visible result
    and the same visible memory, and that shows the same effects where it does not end.  No name
    becomes free, running the code may be noticed as before, and everything that is still bound,
    at any depth, is used or may be noticed. -/
theorem dropDead_leaves_live (e : Knf) :
    (∀ (W : Outside) (env : Env) (m : Memory W Closure), (e.runsIn W env m).Safe →
      (e.dropDead.runsIn W env m).Safe ∧
        (e.runsIn W env m).SameBehaviour (e.dropDead.runsIn W env m)) ∧
    (∀ x ∈ e.dropDead.freeVars, x ∈ e.freeVars) ∧
    e.dropDead.isEffectful = e.isEffectful ∧
    ∀ part ∈ e.dropDead.parts, part.BindsLive := by
  have improves : Improves true (.free e) e e.dropDead :=
    improves_dropDead e fun a _ => Context.tracks_free e a
  have uses : e.Uses (· ∈ e.freeVars) := uses_iff.mpr fun x used => used
  exact ⟨improves.refines_open, uses_iff.mp (uses_dropDead uses), isEffectful_dropDead e,
    bindsLive_dropDead e⟩

/-- Code in which one name hides another and a function, a pattern and three bindings are dead,
    the first of them only because the others are. -/
def cascade : Knf :=
  .letIn "x" .int (.op (.int 1))
    (.letIn "y" .int (.op (.arith (.int .add) "x" "x"))
      (.letRec "f" (.fn [.int] .int) [("x", .int)] (.app "f" ["y"])
        (.letTuple [("p", .int), ("p", .int)] "t"
          (.letIn "x" .unit (.externApp "print_int" ["z"])
            (.letIn "y" .int (.op (.arith (.int .sub) "p" "z"))
              (.op (.tuple ["x", "z"])))))))

def cascadeEnv : Env :=
  Scope.empty.bindAll [("z", .int 3), ("t", .tuple [.int 1, .int 2]), ("x", .float ⟨0⟩)]

theorem safe_cascade :
    (cascade.runsIn .accepting cascadeEnv (Memory.start .accepting Closure)).Safe := by
  intro n
  exact nofun

/-- Only the call of the external function is left, with the binding that is used. -/
theorem dropDead_cascade :
    (∃ part ∈ cascade.parts, ¬ part.BindsLive) ∧
    cascade.dropDead =
      .letIn "x" .unit (.externApp "print_int" ["z"]) (.op (.tuple ["x", "z"])) ∧
    (cascade.runsIn .accepting cascadeEnv (Memory.start .accepting Closure)).Safe ∧
    (cascade.dropDead.runsIn .accepting cascadeEnv (Memory.start .accepting Closure)).Safe ∧
    (cascade.runsIn .accepting cascadeEnv (Memory.start .accepting Closure)).SameBehaviour
      (cascade.dropDead.runsIn .accepting cascadeEnv (Memory.start .accepting Closure)) ∧
    ∀ part ∈ cascade.dropDead.parts, part.BindsLive := by
  obtain ⟨preserves, -, -, live⟩ := dropDead_leaves_live cascade
  obtain ⟨safe, same⟩ := preserves .accepting cascadeEnv (Memory.start .accepting Closure)
    safe_cascade
  exact ⟨by decide, by decide, safe_cascade, safe, same, live⟩

end MiddleEnd.Knf
