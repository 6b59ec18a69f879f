import Mathlib
import MiddleEnd.Knf.Rounds
import MiddleEnd.Proofs.Knf.Passes
import MiddleEnd.Proofs.Knf.Simulation

/-! # Improvement preserves behaviour

A round refines the code it is applied to, so any number of rounds does.  The one
thing a round needs is names: a supply has `2 ^ 32` of them, and the names that one
round draws have to be different.  Where the count of the supply stands, and
whether it starts again from zero in a round or between rounds, does not matter.
-/

namespace MiddleEnd.Knf

/-- The code whose calls a round expands. -/
def prepared (c : Supply) (e : Knf) : Knf :=
  (e.freshened .empty c).dropCopies.flatten

/-- The binders for which a round draws names: those of the code, and those of the
    function bodies that it copies. -/
def roundBinders (threshold : Nat) (c : Supply) (e : Knf) : List Name :=
  e.binders ++ (e.prepared c).copiedBinders threshold .empty

/-- Each of up to `left` rounds finds enough names in the supply. -/
def NamesSuffice (threshold : Nat) : (left : Nat) → Supply → Knf → Prop
  | 0, _, _ => True
  | left + 1, c, e =>
      (e.roundBinders threshold c).length ≤ 2 ^ 32 ∧
        (((e.round threshold).run c).1.alphaEq e = false →
          NamesSuffice threshold left ((e.round threshold).run c).2 ((e.round threshold).run c).1)

instance NamesSuffice.decidable (threshold : Nat) :
    ∀ left c e, Decidable (NamesSuffice threshold left c e)
  | 0, _, _ => .isTrue trivial
  | left + 1, c, e =>
      have := NamesSuffice.decidable threshold left ((e.round threshold).run c).2
        ((e.round threshold).run c).1
      inferInstanceAs (Decidable (_ ∧ (_ → _)))

/-- The supply has enough names for the improvement of code: neither the renaming at the start
    nor any of the rounds draws a name twice. -/
def EnoughNames (options : Options) (c : Supply) (e : Knf) : Prop :=
  e.binders.length ≤ 2 ^ 32 ∧
    (e.freshened .empty c).NamesSuffice options.inlineThreshold options.maxIterations
      (c.skip e.binders.length)

instance (options : Options) (c : Supply) (e : Knf) : Decidable (e.EnoughNames options c) :=
  inferInstanceAs (Decidable (_ ∧ _))

theorem round_run (threshold : Nat) (e : Knf) (c : Supply) :
    (e.round threshold).run c =
      (((e.prepared c).expanded threshold .empty (c.skip e.binders.length)).foldConstants.dropDead,
        c.skip (e.roundBinders threshold c).length) := by
  simp only [round, freshen, expandCalls, Step.run_bind, Step.run_pure, freshenIn_run,
    expandCallsIn_run, Supply.skip_skip, roundBinders, List.length_append]
  rfl

theorem improve_run (e : Knf) (c : Supply) (options : Options) :
    (e.improve options).run c =
      (improveWithin options.inlineThreshold options.maxIterations 0 (e.freshened .empty c)).run
        (c.skip e.binders.length) := by
  rw [improve, freshen, Step.run_bind, freshenIn_run]

namespace Context

/-- Where no name is bound, different names are free to be bound. -/
theorem new_start {ys : List Name} (h : ys.Nodup) : start.New ys :=
  ⟨⟨h, fun _ _ bound => bound⟩, fun _ _ bound => bound⟩

theorem tracks_start (s : Scope Name) : start.Tracks s :=
  fun _ bound => bound.elim

end Context

/-! ## The passes of a round -/

theorem start_freshened (e : Knf) (c : Supply) (names : e.binders.length ≤ 2 ^ 32) :
    Improves true .start e (e.freshened .empty c) :=
  improves_freshened e (Context.tracks_start _) (Context.new_start (c.nodup_names names)).toFresh

theorem start_dropCopies {e : Knf} (nodup : e.binders.Nodup) :
    Improves true .start e e.dropCopies :=
  improves_dropCopiesIn e (Context.tracks_start _) .empty (Context.new_start nodup)

theorem start_flatten {e : Knf} (nodup : e.binders.Nodup) : Improves true .start e e.flatten :=
  improves_flatten e (Context.tracks_start _) (Context.new_start nodup)

theorem start_expanded (threshold : Nat) {e : Knf} {c : Supply}
    (nodup : (e.binders ++ c.names (e.copiedBinders threshold .empty)).Nodup) :
    Improves true .start e (e.expanded threshold .empty c) := by
  have new := Context.new_start nodup
  exact improves_expanded threshold e (Context.tracks_start _) new.left .empty new.toFresh

theorem start_foldConstants {e : Knf} (nodup : e.binders.Nodup) :
    Improves true .start e e.foldConstants :=
  improves_foldConstantsIn e (Context.tracks_start _) .empty (Context.new_start nodup)

theorem start_dropDead (e : Knf) : Improves true .start e e.dropDead :=
  improves_dropDead e fun _ _ bound => bound.elim

section
variable {e : Knf} {c : Supply}

theorem nodup_freshened (names : e.binders.length ≤ 2 ^ 32) :
    (e.freshened .empty c).binders.Nodup := by
  rw [binders_freshened]
  exact c.nodup_names names

theorem nodup_dropCopies (names : e.binders.length ≤ 2 ^ 32) :
    (e.freshened .empty c).dropCopies.binders.Nodup :=
  (nodup_freshened names).sublist (binders_dropCopiesIn _ _)

/-- The names of the code before calls are expanded are among those drawn for it. -/
theorem binders_prepared (e : Knf) (c : Supply) :
    (e.prepared c).binders.Subperm (c.names e.binders) := by
  refine (binders_flatten _).subperm.trans ?_
  rw [← binders_freshened .empty]
  exact (binders_dropCopiesIn _ _).subperm

variable {threshold : Nat}

theorem length_binders_le (names : (e.roundBinders threshold c).length ≤ 2 ^ 32) :
    e.binders.length ≤ 2 ^ 32 := by
  rw [roundBinders, List.length_append] at names
  omega

/-- The names of copies are drawn after those of the code itself. -/
theorem nodup_copied (names : (e.roundBinders threshold c).length ≤ 2 ^ 32) :
    ((e.prepared c).binders ++ (c.skip e.binders.length).names
      ((e.prepared c).copiedBinders threshold .empty)).Nodup := by
  have drawn := c.nodup_names names
  rw [roundBinders, Supply.names_append] at drawn
  refine ((Context.new_start drawn).of_subperm ?_).nodup
  exact (List.subperm_append_right _).mpr (binders_prepared e c)

theorem nodup_expanded (names : (e.roundBinders threshold c).length ≤ 2 ^ 32) :
    ((e.prepared c).expanded threshold .empty (c.skip e.binders.length)).binders.Nodup :=
  (binders_expanded threshold .empty _ _).nodup_iff.mpr (nodup_copied names)

end

section
variable (W : Outside)

theorem refines_freshened (e : Knf) (c : Supply) (names : e.binders.length ≤ 2 ^ 32) :
    (e.runs W).Refines ((e.freshened .empty c).runs W) :=
  (start_freshened e c names).refines W

theorem refines_prepared (e : Knf) (c : Supply) (names : e.binders.length ≤ 2 ^ 32) :
    (e.runs W).Refines ((e.prepared c).runs W) := by
  have copies := (start_dropCopies (nodup_freshened (c := c) names)).refines W
  have flat := (start_flatten (nodup_dropCopies (c := c) names)).refines W
  exact ((refines_freshened W e c names).trans copies).trans flat

/-- A round refines the code, if it finds enough names. -/
theorem refines_round (threshold : Nat) (e : Knf) (c : Supply)
    (names : (e.roundBinders threshold c).length ≤ 2 ^ 32) :
    (e.runs W).Refines (((e.round threshold).run c).1.runs W) := by
  have prepared := refines_prepared W e c (length_binders_le names)
  have expanded := (start_expanded threshold (nodup_copied names)).refines W
  have folded := (start_foldConstants (nodup_expanded names)).refines W
  rw [round_run]
  exact ((prepared.trans expanded).trans folded).trans ((start_dropDead _).refines W)

/-- Rounds refine the code, if each finds enough names. -/
theorem refines_improveWithin (threshold left done : Nat) (e : Knf) (c : Supply)
    (names : e.NamesSuffice threshold left c) :
    (e.runs W).Refines (((improveWithin threshold left done e).run c).1.code.runs W) := by
  induction left generalizing done e c with
  | zero => exact .refl _
  | succ left ih =>
      obtain ⟨enough, later⟩ := names
      have first := refines_round W threshold e c enough
      rw [improveWithin, Step.run_bind]
      cases settled : ((e.round threshold).run c).1.alphaEq e with
      | true => exact first
      | false => exact first.trans (ih (done + 1) _ _ (later settled))

theorem refines_improve (options : Options) {e : Knf} {c : Supply}
    (names : e.EnoughNames options c) :
    (e.runs W).Refines (((e.improve options).run c).1.code.runs W) := by
  rw [improve_run]
  exact (refines_freshened W e c names.1).trans (refines_improveWithin W _ _ 0 _ _ names.2)

end

/-- The improvement of code preserves behaviour: from every state of the supply and
    with all options, a program that does not get stuck is improved to one that does
    not get stuck either, that ends if and only if the program does, with the same
    effects, the same visible result and the same visible memory, and that shows the
    same effects where it does not end. -/
theorem improve_preserves_behaviour (W : Outside) (options : Options) (e : Knf) (c : Supply)
    (names : e.EnoughNames options c) (safe : (e.runs W).Safe) :
    ((((e.improve options).run c).1.code).runs W).Safe ∧
      (e.runs W).SameBehaviour ((((e.improve options).run c).1.code).runs W) :=
  refines_improve W options names safe

/-- Code that hands out 42, which a small function computes. -/
def answering : Knf :=
  .letRec "f" (.fn [.int] .int) [("x", .int)]
    (.letIn "one" .int (.op (.int 1)) (.op (.arith (.int .add) "x" "one")))
    (.letIn "a" .int (.op (.int 41))
      (.letIn "r" .int (.app "f" ["a"]) (.externApp "print_int" ["r"])))

theorem safe_answering : (answering.runs .accepting).Safe := by
  intro n
  cases n with
  | zero => exact nofun
  | succ n => exact nofun

/-- The supply may start again from zero while the code is renamed. -/
theorem improve_answering :
    answering.EnoughNames {} ⟨4294967293⟩ ∧ (answering.runs .accepting).Safe ∧
    (((answering.improve {}).run ⟨4294967293⟩).1.code.runs .accepting).Safe ∧
    (answering.runs .accepting).SameBehaviour
      (((answering.improve {}).run ⟨4294967293⟩).1.code.runs .accepting) := by
  have names : answering.EnoughNames {} ⟨4294967293⟩ := by decide +kernel
  exact ⟨names, safe_answering,
    improve_preserves_behaviour .accepting {} answering ⟨4294967293⟩ names safe_answering⟩

end MiddleEnd.Knf
