import Mathlib
import MiddleEnd.Proofs.Closure.Typing
import MiddleEnd.Proofs.Knf.ImprovementTypes
import MiddleEnd.Proofs.Knf.LoweringTypes
import MiddleEnd.Proofs.Typing.ExternalNames
import MiddleEnd.Proofs.Typing.Recompilation

/-! # Compilation preserves behaviour

A compiled program is what inference, lowering, improvement and the making of closures come
to, one after the other, and each of them keeps types and behaviour.  What is left is that
they fit together.  Lowered code is closed because it has a type.  Improvement makes all
binders different, as the making of closures needs them, and numbers them: so no function gets
the label of an external function, unless the name of that one is numbered too.
-/

namespace MiddleEnd

/-! ## Labels -/

theorem Supply.isSome_number?_of_mem_names {c : Supply} {xs : List Name} {y : Name}
    (h : y ∈ c.names xs) : y.number?.isSome := by
  obtain ⟨k, stem, -, -, rfl⟩ := ahead_of_mem_names h
  rw [Name.number?_append, Option.isSome_some]

/-- The label of an external function is numbered only if its name is: what comes before the
    name holds no dot. -/
theorem Name.number?_externLabel (f : Name) : (Knf.externLabel f).number? = f.number? := by
  have letters : (Knf.externLabel f).toList.reverse =
      f.toList.reverse ++ "min_caml_".toList.reverse := by
    rw [Knf.externLabel, String.toList_append, List.reverse_append]
  rw [number?, number?, number, number, letters]
  cases stop : f.toList.reverse.dropWhile Char.isDigit with
  | nil =>
      rw [List.dropWhile_append, stop, List.isEmpty_nil, if_pos rfl]
      rw [if_neg fun dotted => absurd dotted.2 (by decide),
        if_neg fun dotted => absurd dotted.2 (by decide)]
  | cons c before =>
      have digits : (f.toList.reverse.takeWhile Char.isDigit).length ≠ f.toList.reverse.length := by
        intro full
        have split := congrArg List.length
          (List.takeWhile_append_dropWhile (p := Char.isDigit) (l := f.toList.reverse))
        rw [stop, List.length_append, full, List.length_cons] at split
        omega
      rw [List.dropWhile_append, stop, List.isEmpty_cons, if_neg Bool.false_ne_true,
        List.takeWhile_append, if_neg digits]
      rfl

namespace Knf

def Numbered (e : Knf) : Prop :=
  ∀ x ∈ e.binders, x.number?.isSome

theorem numbered_freshened (e : Knf) (c : Supply) : (e.freshened .empty c).Numbered := by
  intro x hx
  rw [binders_freshened] at hx
  exact Supply.isSome_number?_of_mem_names hx

/-- A round numbers all binders, whatever they were. -/
theorem numbered_round (threshold : Nat) (e : Knf) (c : Supply) :
    ((e.round threshold).run c).1.Numbered := by
  intro x hx
  rw [round_run] at hx
  have folded := (binders_dropDead _).subset hx
  have expanded := (binders_foldConstantsIn _ _).subset folded
  rcases List.mem_append.mp ((binders_expanded ..).mem_iff.mp expanded) with own | copied
  · exact Supply.isSome_number?_of_mem_names ((binders_prepared e c).subset own)
  · exact Supply.isSome_number?_of_mem_names copied

theorem Numbered.improveWithin {e : Knf} (h : e.Numbered) (threshold left done : Nat)
    (c : Supply) : ((Knf.improveWithin threshold left done e).run c).1.code.Numbered := by
  induction left generalizing done e c with
  | zero => exact h
  | succ left ih =>
      have next := numbered_round threshold e c
      rw [Knf.improveWithin, Step.run_bind]
      split
      · exact next
      · exact ih next (done + 1) _

theorem numbered_improve (options : Options) (e : Knf) (c : Supply) :
    ((e.improve options).run c).1.code.Numbered := by
  rw [improve_run]
  exact (numbered_freshened e c).improveWithin _ _ 0 _

/-- Code calls external functions by the names in the signature, and those that make arrays. -/
theorem HasType.number?_externs {externals : Signature} {Γ : Scope Mono} {e : Knf} {τ : Mono}
    (typed : e.HasType externals Γ τ) (unnumbered : ∀ x ∈ externals.names, x.number? = none) :
    ∀ g ∈ e.externs, g.number? = none := by
  induction typed with
  | op | app => exact nofun
  | branch _ _ _ _ ih1 ih2 | letIn _ _ ih1 ih2 | letRec _ _ ih1 ih2 =>
      exact List.forall_mem_append.mpr ⟨ih1, ih2⟩
  | letTuple _ _ ih => exact ih
  | externApp call =>
      refine List.forall_mem_singleton.mpr ?_
      cases call with
      | @listed f ps r found =>
          apply unnumbered
          by_contra absent
          rw [Signature.find?_eq_none_iff.mpr absent] at found
          cases found
      | createArray ty =>
          have plain : Name.number? "create_array" = none := rfl
          cases ty with
          | float => rfl
          | _ => exact plain

theorem externLabel_notMem_functionNames {externals : Signature} {e : Knf} {τ : Mono}
    (typed : e.HasType externals .empty τ) (numbered : e.Numbered)
    (unnumbered : ∀ x ∈ externals.names, x.number? = none) :
    ∀ g ∈ e.externs, externLabel g ∉ e.functionNames := by
  intro g called function
  have some := numbered _ ((functionNames_subperm e).subset function)
  rw [Name.number?_externLabel, typed.number?_externs unnumbered g called] at some
  cases some

end Knf

/-! ## Compilation -/

/-- The code of a program before it is improved, and the supply that is left for that. -/
def lowered? (externals : Signature) (e : Source) : Option (Knf × Supply) :=
  match (Typing.outcome e externals).result with
  | .error _ => none
  | .ok t =>
      match (Lowering.program (Typing.outcome e externals).externals t).run.run .new with
      | (.error _, _) => none
      | (.ok (k, _), c) => some (k, c)

/-- What a successful compilation consists of. -/
theorem compile_ok {options : Options} {externals : Signature} {e : Source} {p : Program}
    (compiled : (compile options externals e).result = .ok p) :
    ∃ t k ty c, (Typing.outcome e externals).result = .ok t ∧
      Gives (Lowering.program (Typing.outcome e externals).externals t) .new (k, ty) c ∧
      lowered? externals e = some (k, c) ∧
      p = ((k.improve options).run c).1.code.toProgram := by
  rw [compile] at compiled
  split at compiled
  · cases compiled
  · rename_i t accepted
    split at compiled
    · cases compiled
    · rename_i k ty c lowered
      refine ⟨t, k, ty, c, accepted, lowered, ?_, (Except.ok.inj compiled).symm⟩
      rw [lowered?, accepted]
      dsimp only
      rw [lowered]

/-- Compilation preserves types and behaviour.  A compiled program comes from the source term
    with the types that inference finds, and it is a program of the type of units.  If the term
    does not get stuck, neither does the program; it ends if and only if the term does, with the
    same effects, the same visible result and the same visible memory, and it shows the same
    effects where it does not end.  For this no binder may be named like an intermediate result,
    no external function like a numbered binder, and the supply needs enough names. -/
theorem compile_preserves_behaviour (W : Outside) (options : Options) (externals : Signature)
    (e : Source) (p : Program) (compiled : (compile options externals e).result = .ok p)
    (plain : ∀ x ∈ e.binders.map (·.1), x.isTemporary = false)
    (unnumbered : ∀ x ∈ (compile options externals e).externals.names, x.number? = none)
    (names : ∀ r ∈ lowered? externals e, r.1.EnoughNames options r.2) :
    p.HasType (compile options externals e).externals .unit ∧
      ∃ t, (Typing.outcome e externals).result = .ok t ∧ t.erase = e.erase ∧
        (Typed.runs W t).Refines (p.runs W) := by
  obtain ⟨t, k, ty, c, accepted, lowered, code, rfl⟩ := compile_ok compiled
  rw [externals_compile] at unnumbered ⊢
  have enough := names (k, c) code
  have erased := (Typing.accepted_typed accepted).1
  obtain ⟨rfl, typed⟩ := Lowering.program_hasType accepted plain lowered enough.1
  have improved := typed.improve enough
  have distinct := Knf.nodup_improve enough
  refine ⟨improved.toProgram distinct, t, accepted, erased, ?_⟩
  rw [← Lowering.names_eq_of_erase_eq erased, Lowering.names_binders] at plain
  have lowering := Lowering.runs_matches lowered plain enough.1 W
  have labels := Knf.externLabel_notMem_functionNames improved (Knf.numbered_improve options k c)
    unnumbered
  have closures := Knf.matches_toProgram W improved.closed distinct labels
  exact (lowering.refines.trans (Knf.refines_improve W options enough)).trans closures.refines

theorem compile_reporting_behaves (W : Outside) :
    reportingProgram.HasType (compile ⟨2, 3⟩ reportingExternals reporting).externals .unit ∧
      ∃ t, (Typing.outcome reporting reportingExternals).result = .ok t ∧
        t.erase = reporting.erase ∧ (Typed.runs W t).Refines (reportingProgram.runs W) :=
  compile_preserves_behaviour W ⟨2, 3⟩ reportingExternals reporting reportingProgram
    compile_reporting (by decide) (by decide +kernel) (by decide +kernel)

end MiddleEnd
