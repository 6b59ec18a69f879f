import Mathlib
import MiddleEnd.Proofs.Knf.NameIndependence

/-! # Settled code is stable

A round that changes nothing but names would not change anything else later either: a round
on code that is equal up to bound names does the same, with other names.
-/

namespace MiddleEnd.Knf

/-- Rounds that settle end with one that changes nothing but names. -/
theorem exists_last_round {threshold left done : Nat} {e : Knf} {c : Supply}
    (settled : ((improveWithin threshold left done e).run c).1.settled = true) :
    ∃ (a : Knf) (s : Supply),
      ((improveWithin threshold left done e).run c).1.code = ((a.round threshold).run s).1 ∧
      ((a.round threshold).run s).1.alphaEq a = true ∧
      (e.NamesSuffice threshold left c → (a.roundBinders threshold s).length ≤ 2 ^ 32) := by
  induction left generalizing done e c with
  | zero => cases settled
  | succ left ih =>
      rw [improveWithin_run] at settled ⊢
      split at settled
      case isTrue last =>
        rw [if_pos last]
        exact ⟨e, c, rfl, last, fun names => names.1⟩
      case isFalse unsettled =>
        rw [if_neg unsettled]
        obtain ⟨a, s, code, last, names⟩ := ih settled
        refine ⟨a, s, code, last, fun suffice => names (suffice.2 ?_)⟩
        exact Bool.eq_false_iff.mpr unsettled

section
variable {threshold : Nat} {a : Knf} {s : Supply}

theorem nodup_round (names : (a.roundBinders threshold s).length ≤ 2 ^ 32) :
    ((a.round threshold).run s).1.binders.Nodup := by
  refine nodup_stages threshold a s names _ ?_
  rw [stages_run, round_run]
  simp [expandedRound]

variable {r : Knf} (closed : r.freeVars = []) (nodup : r.binders.Nodup)
include closed nodup

/-- New names for closed code whose binders are different are a permutation of names. -/
theorem exists_perm_freshened (names : r.binders.length ≤ 2 ^ 32) (d : Supply) :
    ∃ τ : Equiv.Perm Name, r.freshened .empty d = r.relabel τ := by
  obtain ⟨τ, drawn⟩ := Name.exists_perm_of_nodup (d.length_names r.binders).symm nodup
    (d.nodup_names names)
  exact ⟨τ, freshened_eq_relabel drawn (by simp [closed])⟩

/-- Once a round has changed nothing but names, a round on the renamed result changes nothing
    but names. -/
theorem round_again (last : ((a.round threshold).run s).1 = r) (same : r.alphaEq a = true)
    (names : (a.roundBinders threshold s).length ≤ 2 ^ 32) (d d' : Supply) :
    let renamed := r.freshened .empty d
    let next := ((renamed.round threshold).run d').1
    renamed.alphaEq r = true ∧ next.alphaEq renamed = true ∧ next.alphaEq r = true := by
  intro renamed next
  have few : r.binders.length ≤ 2 ^ 32 := by
    rw [length_binders_eq same]
    exact length_binders_le names
  obtain ⟨τ, eq⟩ := exists_perm_freshened closed nodup few d
  have eq : renamed = r.relabel τ := eq
  have renamedClosed : renamed.freeVars = [] := by
    rw [eq, freeVars_relabel τ.injective, closed, List.map_nil]
  have sameRenamed : renamed.alphaEq a = true := by
    rw [eq, alphaEq_relabel_left τ.injective closed, same]
  have none : ∀ {P : Name → Prop}, ∀ x ∈ renamed.freeVars, P x := by simp [renamedClosed]
  -- the round on the renamed code is the last round once more, with other names
  have length : (renamed.roundBinders threshold d').length = (a.roundBinders threshold s).length := by
    have size := length_binders_eq sameRenamed
    obtain ⟨σ, drawn⟩ := exists_perm_names d' s size (size ▸ length_binders_le names)
    exact length_roundBinders_eq σ.injective sameRenamed none threshold drawn
  obtain ⟨σ, drawn⟩ := exists_perm_names d' s length (length ▸ names)
  have nextEq : next.relabel σ = r :=
    (relabel_round σ.injective sameRenamed none threshold drawn).trans last
  have nextClosed : next.freeVars = [] := by
    have free := congrArg freeVars nextEq
    rwa [freeVars_relabel σ.injective, closed, List.map_eq_nil_iff] at free
  have toResult : ∀ b : Knf, next.alphaEq b = r.alphaEq b := by
    intro b
    rw [← alphaEq_relabel_left σ.injective nextClosed, nextEq]
  refine ⟨?_, ?_, ?_⟩
  · rw [eq, alphaEq_relabel_left τ.injective closed, alphaEq_self]
  · rw [toResult, eq, alphaEq_relabel_self τ.injective closed]
  · rw [toResult, alphaEq_self]

end

/-- Code on which the rounds have settled is stable, if it is closed, as it is for code that has
    a type: improving it once more, with any number of rounds and from any state of the supply,
    changes nothing but names, and settles in the first round. -/
theorem improve_settled_stable (threshold bound again : Nat) (e : Knf) (c d : Supply)
    (names : e.EnoughNames ⟨threshold, bound⟩ c)
    (settled : ((e.improve ⟨threshold, bound⟩).run c).1.settled = true)
    (closed : ((e.improve ⟨threshold, bound⟩).run c).1.code.freeVars = []) :
    let r := ((e.improve ⟨threshold, bound⟩).run c).1.code
    let r' := ((r.improve ⟨threshold, again⟩).run d).1
    r'.code.alphaEq r = true ∧ r'.rounds = min 1 again ∧ (r'.settled = true ↔ 0 < again) := by
  rw [improve_run] at settled closed ⊢
  obtain ⟨a, s, code, last, suffice⟩ := exists_last_round settled
  intro r r'
  have few := suffice names.2
  have nodup : r.binders.Nodup := by
    rw [show r = _ from code]
    exact nodup_round few
  rw [← code] at last
  have stable := round_again closed nodup code.symm last few d (d.skip r.binders.length)
  have run : r' = ((improveWithin threshold again 0 (r.freshened .empty d)).run
      (d.skip r.binders.length)).1 := by rw [← improve_run r d ⟨threshold, again⟩]
  cases again with
  | zero =>
      rw [run]
      exact ⟨stable.1, rfl, by simp [improveWithin]⟩
  | succ again =>
      rw [improveWithin_run, if_pos stable.2.1] at run
      rw [run]
      exact ⟨stable.2.2, by simp, by simp⟩

/-- The improved code is improved again with the names of its own last rounds. -/
theorem improve_answering_again :
    answering.EnoughNames ⟨10, 1000⟩ ⟨0⟩ ∧
      ((answering.improve ⟨10, 1000⟩).run ⟨0⟩).1.settled = true ∧
      ((answering.improve ⟨10, 1000⟩).run ⟨0⟩).1.code.freeVars = [] ∧
      ((((answering.improve ⟨10, 1000⟩).run ⟨0⟩).1.code.improve ⟨10, 5⟩).run ⟨2⟩).1.code.alphaEq
        ((answering.improve ⟨10, 1000⟩).run ⟨0⟩).1.code = true := by
  have names : answering.EnoughNames ⟨10, 1000⟩ ⟨0⟩ := by decide +kernel
  have settled : ((answering.improve ⟨10, 1000⟩).run ⟨0⟩).1.settled = true := by decide +kernel
  have closed : ((answering.improve ⟨10, 1000⟩).run ⟨0⟩).1.code.freeVars = [] := by decide +kernel
  exact ⟨names, settled, closed,
    (improve_settled_stable 10 1000 5 answering ⟨0⟩ ⟨2⟩ names settled closed).1⟩

/-- Code that calls a function of two arguments with one, next to a name like the one that is
    missing. -/
def readingShort : Knf :=
  .letRec "f" (.fn [.int, .int] .int) [("x", .int), ("y", .int)] (.op (.var "y"))
    (.letIn "y" .int (.externApp "read" [])
      (.letIn "z" .int (.app "f" ["y"]) (.op (.arith (.int .add) "y" "z"))))

/-- The rounds settle on code with a free name, and a new name for its binder can be that
    name. -/
theorem improve_readingShort_again :
    readingShort.freeVars = [] ∧
      readingShort.EnoughNames ⟨10, 1000⟩ ⟨0⟩ ∧
      ((readingShort.improve ⟨10, 1000⟩).run ⟨0⟩).1.settled = true ∧
      ((((readingShort.improve ⟨10, 1000⟩).run ⟨0⟩).1.code.improve ⟨10, 1000⟩).run ⟨7⟩).1.code.alphaEq
        ((readingShort.improve ⟨10, 1000⟩).run ⟨0⟩).1.code = false := by
  decide +kernel

end MiddleEnd.Knf
