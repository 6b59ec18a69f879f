import Mathlib
import MiddleEnd.Proofs.Typing.Recompilation

/-! # Defaults of a program

Once a program has been walked, all its types and the entries of the signature are read
through the table, and a class of which nothing is known gets its default with a warning.
These types are in variables of the table, where a class that has got its default is bound
from then on.  So no class is reported twice.
-/

namespace MiddleEnd.Typing

/-- What holds of the warnings all the time while types are settled: one has been added for each
    class that has got its default, and no class has got it twice. -/
def Defaulting (size : Nat) (warnings : List Warning) (s : State) : Prop :=
  ∃ vars : List Nat, s.warnings = warnings ++ vars.map .defaultedToInt ∧
    Ty.Table.Settling.Once size vars ⟨s.table, []⟩

theorem preserves_settle {size : Nat} {warnings : List Warning} {ty : Ty}
    (below : ty.Below size) : Preserves (Defaulting size warnings) (settle ty) := by
  rintro s ⟨vars, reported, once⟩
  have each : ∀ v ∈ ty.vars, Preserves (Ty.Table.Settling.Once size vars)
      (Ty.Table.settleVar s.table.size v) := by
    intro v hv
    exact Ty.Table.preserves_settleVar (below v hv)
  have after := Ty.preserves_substM each _ once
  refine ⟨vars ++ _, ?_, after.later⟩
  rw [List.map_append, ← List.append_assoc, ← reported]
  rfl

section
variable {e : Source} {externals : Signature} {s : State} {u : Typed}

/-- The notes of a term follow from its binders by the typing rules, and the binders have
    variables of the table.  A note with another variable would still have two types when the
    binders have got theirs. -/
theorem Walked.notes_below (walked : Walked (.start externals) e u s) :
    ∀ ty ∈ u.notes, ty.Below s.table.size := by
  intro ty mem v hv
  by_contra outside
  let ρ : Ty → Nat → Ty := Function.update s.table.settled v
  have agrees : ∀ τ, ∀ w < s.table.size, ρ τ w = s.table.settled w := by
    intro τ w inside
    exact Function.update_of_ne (by omega) ..
  have now : Consistent s.solution s s.table.settled :=
    ⟨walked.more.ready, walked.more.ready.solution_solves⟩
  have solves : ∀ τ, (s.solution.withTypes (ρ τ)).Solves s := by
    intro τ
    refine ⟨now.solves.toFits.congr now.ready.toSound (agrees τ), ?_⟩
    intro x ty found
    exact now.externals_of_agrees (agrees τ) found
  have binders : ∀ τ, (instantiate (ρ τ) u).binders = (instantiate s.table.settled u).binders := by
    intro τ
    rw [instantiate, instantiate, Term.binders_map, Term.binders_map]
    refine List.map_congr_left fun b mem => ?_
    have below := below_of_binds walked.inferred.binders b mem
    rw [Term.mapBinder, Term.mapBinder, subst_eq_of_agrees below (agrees τ)]
  have same : instantiate (ρ .int) u = instantiate (ρ .float) u := by
    have typing := fun τ => walked.isTyping (solves τ)
    refine (typing .int).typed.eq_of_binders (typing .float).typed ?_ ?_
    · exact (typing .int).source.erase.trans (typing .float).source.erase.symm
    · exact (binders .int).trans (binders .float).symm
  have notes := congrArg Term.notes same
  rw [instantiate, instantiate, Term.notes_map, Term.notes_map, List.map_inj_left] at notes
  have types := Ty.eq_of_subst_eq (notes ty mem) hv
  simp [ρ] at types

/-- Settling adds a warning for each class that gets its default, and no class gets it twice. -/
theorem Walked.warnings_settleAll (walked : Walked (.start externals) e u s)
    (entries : ∀ b ∈ s.externals, b.2.Below s.table.size) :
    ∃ vars : List Nat, vars.Nodup ∧
      ((settleAll u).run s).2.warnings = s.warnings ++ vars.map .defaultedToInt := by
  have start : Defaulting s.table.size s.warnings s := by
    refine ⟨[], (List.append_nil _).symm, walked.more.ready.table, rfl, List.nodup_nil, ?_⟩
    exact List.forall_mem_nil _
  obtain ⟨height, settling⟩ := walked.more.ready.settling
  -- The signature stays as it is until the types of the term are settled.
  obtain ⟨-, same, terms⟩ := returns_mapTypesM u
    (fun ty mem => (returns_settle ty).and (preserves_settle (walked.notes_below ty mem)))
    (fun b mem => (returns_settle b.2).and
      (preserves_settle (below_of_binds walked.inferred.binders b mem))) s ⟨settling, start⟩
  rw [run_settleAll]
  dsimp only
  rw [same.externals]
  obtain ⟨vars, warnings, once⟩ :=
    preserves_signature (fun b mem => preserves_settle (entries b mem)) _ terms
  exact ⟨vars, (List.append_nil vars) ▸ once.nodup, warnings⟩

end

end MiddleEnd.Typing
