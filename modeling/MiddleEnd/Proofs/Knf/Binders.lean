import Mathlib
import MiddleEnd.Proofs.Knf.Rounds

/-! # Binders are unique

A round gives new names to all binders, and names of their own to the binders of
the function bodies that it copies.  The other passes move binders, forget them or
take a pattern apart, and bind no name twice that was bound once.  So all binders
are different after every pass of every round, whatever the code binds at the start.
-/

namespace MiddleEnd.Knf

def passes (threshold : Nat) : List (Knf → StateM Supply Knf) :=
  [freshen, fun e => return e.dropCopies, fun e => return e.flatten, expandCalls threshold,
    fun e => return e.foldConstants, fun e => return e.dropDead]

def stages : List (Knf → StateM Supply Knf) → Knf → StateM Supply (List Knf)
  | [], _ => return []
  | pass :: rest, e => do
      let e ← pass e
      return e :: (← stages rest e)

def improveStagesWithin (threshold : Nat) : (left : Nat) → Knf → StateM Supply (List Knf)
  | 0, _ => return []
  | left + 1, e => do
      let round ← stages (passes threshold) e
      let next := round.getLastD e
      if next.alphaEq e then return round
      else return round ++ (← improveStagesWithin threshold left next)

/-- All code that the improvement of code goes through: the renamed code, and the code
    after each pass of every round. -/
def improveStages (options : Options) (e : Knf) : StateM Supply (List Knf) := do
  let e ← e.freshen
  return e :: (← improveStagesWithin options.inlineThreshold options.maxIterations e)

section
variable (threshold : Nat) (e : Knf) (c : Supply)

def expandedRound : Knf :=
  (e.prepared c).expanded threshold .empty (c.skip e.binders.length)

theorem stages_run :
    (stages (passes threshold) e).run c =
      ([e.freshened .empty c, (e.freshened .empty c).dropCopies, e.prepared c,
          e.expandedRound threshold c, (e.expandedRound threshold c).foldConstants,
          (e.expandedRound threshold c).foldConstants.dropDead],
        c.skip (e.roundBinders threshold c).length) := by
  simp only [stages, passes, freshen, expandCalls, Step.run_bind, Step.run_pure, freshenIn_run,
    expandCallsIn_run, Supply.skip_skip, roundBinders, List.length_append]
  rfl

/-- The last stage of a round is what the round comes to. -/
theorem getLastD_stages :
    ((stages (passes threshold) e).run c).1.getLastD e = ((e.round threshold).run c).1 := by
  rw [stages_run, round_run]
  rfl

/-- In a round all binders are different after every pass. -/
theorem nodup_stages (names : (e.roundBinders threshold c).length ≤ 2 ^ 32) :
    ∀ stage ∈ ((stages (passes threshold) e).run c).1, stage.binders.Nodup := by
  have few := length_binders_le names
  have renamed := nodup_freshened (c := c) few
  have copies := nodup_dropCopies (c := c) few
  have flat : (e.prepared c).binders.Nodup := (binders_flatten _).nodup_iff.mpr copies
  have expanded : (e.expandedRound threshold c).binders.Nodup := nodup_expanded names
  have folded := expanded.sublist (binders_foldConstantsIn .empty (e.expandedRound threshold c))
  have live := folded.sublist (binders_dropDead _)
  rw [stages_run]
  simp only [List.forall_mem_cons]
  exact ⟨renamed, copies, flat, expanded, folded, live, List.forall_mem_nil _⟩

end

/-! ## All rounds -/

theorem getLastD_append {α : Type} (xs ys : List α) (a : α) :
    (xs ++ ys).getLastD a = ys.getLastD (xs.getLastD a) := by
  simp only [List.getLastD_eq_getLast?, List.getLast?_append, Option.getD_or]

section
variable (threshold left : Nat) (e : Knf) (c : Supply)

theorem run_improveStagesWithin :
    (improveStagesWithin threshold (left + 1) e).run c =
      if ((e.round threshold).run c).1.alphaEq e then
        (((stages (passes threshold) e).run c).1, ((e.round threshold).run c).2)
      else
        let rest := (improveStagesWithin threshold left ((e.round threshold).run c).1).run
          ((e.round threshold).run c).2
        (((stages (passes threshold) e).run c).1 ++ rest.1, rest.2) := by
  have supply : ((stages (passes threshold) e).run c).2 = ((e.round threshold).run c).2 := by
    rw [stages_run, round_run]
  rw [improveStagesWithin, Step.run_bind]
  simp only [getLastD_stages, supply]
  split <;> rfl

/-- The stages are those of the rounds that are made: six in each, and the last one is what
    the rounds come to. -/
theorem improveStagesWithin_spec (done : Nat) :
    ((improveStagesWithin threshold left e).run c).1.getLastD e =
        ((improveWithin threshold left done e).run c).1.code ∧
      ((improveStagesWithin threshold left e).run c).1.length + 6 * done =
        6 * ((improveWithin threshold left done e).run c).1.rounds ∧
      ((improveStagesWithin threshold left e).run c).2 =
        ((improveWithin threshold left done e).run c).2 := by
  induction left generalizing done e c with
  | zero => exact ⟨rfl, Nat.zero_add _, rfl⟩
  | succ left ih =>
      have six : ((stages (passes threshold) e).run c).1.length = 6 := by rw [stages_run]; rfl
      rw [run_improveStagesWithin, improveWithin, Step.run_bind]
      split
      · refine ⟨getLastD_stages threshold e c, ?_, rfl⟩
        simp only [Step.run_pure, six]
        omega
      · obtain ⟨last, count, supply⟩ :=
          ih ((e.round threshold).run c).1 ((e.round threshold).run c).2 (done + 1)
        refine ⟨?_, ?_, supply⟩
        · rw [getLastD_append, getLastD_stages, last]
        · rw [List.length_append, six, ← count]
          omega

/-- All binders are different after every pass, if each round finds enough names. -/
theorem nodup_improveStagesWithin (names : e.NamesSuffice threshold left c) :
    ∀ stage ∈ ((improveStagesWithin threshold left e).run c).1, stage.binders.Nodup := by
  induction left generalizing e c with
  | zero => exact nofun
  | succ left ih =>
      obtain ⟨enough, later⟩ := names
      have first := nodup_stages threshold e c enough
      rw [run_improveStagesWithin]
      split
      · exact first
      · rename_i unsettled
        rw [List.forall_mem_append]
        exact ⟨first, ih _ _ (later (Bool.eq_false_iff.mpr unsettled))⟩

end

theorem run_improveStages (options : Options) (e : Knf) (c : Supply) :
    (e.improveStages options).run c =
      let rounds := (improveStagesWithin options.inlineThreshold options.maxIterations
        (e.freshened .empty c)).run (c.skip e.binders.length)
      (e.freshened .empty c :: rounds.1, rounds.2) := by
  rw [improveStages, freshen, Step.run_bind, freshenIn_run]
  rfl

/-- The stages are the renamed code and six in every round, and the last one is the
    improved code. -/
theorem improveStages_spec (options : Options) (e : Knf) (c : Supply) :
    ((e.improveStages options).run c).1.getLast? = some ((e.improve options).run c).1.code ∧
      ((e.improveStages options).run c).1.length =
        1 + 6 * ((e.improve options).run c).1.rounds ∧
      ((e.improveStages options).run c).2 = ((e.improve options).run c).2 := by
  obtain ⟨last, count, supply⟩ := improveStagesWithin_spec options.inlineThreshold
    options.maxIterations (e.freshened .empty c) (c.skip e.binders.length) 0
  rw [improve_run, run_improveStages]
  refine ⟨?_, ?_, supply⟩
  · rw [List.getLast?_cons, ← List.getLastD_eq_getLast?, last]
  · rw [List.length_cons]
    omega

theorem nodup_improveStages {options : Options} {e : Knf} {c : Supply}
    (names : e.EnoughNames options c) :
    ∀ stage ∈ ((e.improveStages options).run c).1, stage.binders.Nodup := by
  rw [run_improveStages, List.forall_mem_cons]
  exact ⟨nodup_freshened names.1, nodup_improveStagesWithin _ _ _ _ names.2⟩

theorem nodup_improve {options : Options} {e : Knf} {c : Supply}
    (names : e.EnoughNames options c) : ((e.improve options).run c).1.code.binders.Nodup :=
  nodup_improveStages names _ (List.mem_of_getLast? (improveStages_spec options e c).1)

/-- Every binder of improved code is unique, whatever the code binds, with all options and
    also if no round is made.  So is every binder after each pass of every round: the
    stages of the improvement, the renamed code and six in a round, have different
    binders, and the last of them is the improved code. -/
theorem improve_binders_unique (options : Options) (e : Knf) (c : Supply)
    (names : e.EnoughNames options c) :
    ((e.improve options).run c).1.code.binders.Nodup ∧
      (∀ stage ∈ ((e.improveStages options).run c).1, stage.binders.Nodup) ∧
      ((e.improveStages options).run c).1.getLast? = some ((e.improve options).run c).1.code ∧
      ((e.improveStages options).run c).1.length = 1 + 6 * ((e.improve options).run c).1.rounds ∧
      ((e.improveStages options).run c).2 = ((e.improve options).run c).2 :=
  ⟨nodup_improve names, nodup_improveStages names, improveStages_spec options e c⟩

/-- Code that binds one name again and again, also twice in a group of formals and in a
    pattern, with a function that calls itself. -/
def shadowing : Knf :=
  .letRec "x" (.fn [.int, .int] .int) [("x.1", .int), ("x.1", .int)]
    (.letIn "x" .int (.op (.arith (.int .add) "x.1" "x.1")) (.app "x" ["x", "x.1"]))
    (.letIn "x" .int (.letIn "x" .int (.op (.int 1)) (.app "x" ["x", "x"]))
      (.letIn "x" (.tuple [.int, .int]) (.op (.tuple ["x", "y"]))
        (.letTuple [("x", .int), ("x", .int)] "x" (.op (.var "x")))))

theorem improve_shadowing :
    shadowing.EnoughNames ⟨10, 2⟩ ⟨7⟩ ∧
    ((shadowing.improve ⟨10, 2⟩).run ⟨7⟩).1.code.binders.Nodup ∧
    ∀ stage ∈ ((shadowing.improveStages ⟨10, 2⟩).run ⟨7⟩).1, stage.binders.Nodup := by
  have names : shadowing.EnoughNames ⟨10, 2⟩ ⟨7⟩ := by decide +kernel
  obtain ⟨code, stages, -⟩ := improve_binders_unique ⟨10, 2⟩ shadowing ⟨7⟩ names
  exact ⟨names, code, stages⟩

end MiddleEnd.Knf
