import Mathlib
import MiddleEnd.Proofs.Knf.LoweringErrors
import MiddleEnd.Proofs.Typing.Recompilation

/-! # Programs that share a signature

A program that has types but no code leaves its signature with the types that it has found
for external names.  The next program is typed with them.  It is compiled as if there had
been no other program if it gives the same types to the names that it uses.
-/

namespace MiddleEnd

/-! ## Lowering looks at the external names of a term -/

namespace Lowering

variable {externals externals' : Signature}

/-- The signatures have the same entries for the names of these occurrences. -/
def Agree (externals externals' : Signature) (os : List Occurrence) : Prop :=
  ∀ o ∈ os, externals.find? o.name = externals'.find? o.name

theorem agree_append {os os' : List Occurrence} :
    Agree externals externals' (os ++ os') ↔
      Agree externals externals' os ∧ Agree externals externals' os' :=
  List.forall_mem_append

theorem externalCallee_congr {scope : Scope Mono} {e : Typed}
    (agree : Agree externals externals' (e.calleeIn scope)) :
    externalCallee externals scope e = externalCallee externals' scope e := by
  cases e with
  | var ty f =>
      rw [externalCallee, externalCallee]
      split
      · rfl
      · rename_i free
        have mem : ⟨.callee, f⟩ ∈ (Term.var ty f : Typed).calleeIn scope :=
          List.mem_filter.mpr ⟨List.mem_singleton_self _, by simpa using free⟩
        rw [agree _ mem]
  | _ => rfl

theorem branch_congr {scope : Scope Mono} {e : Typed} (tested : isTested e = true)
    (value yes no : Lower Lowered) :
    branch externals scope e value yes no = branch externals' scope e value yes no := by
  rw [branch_eq_testThen tested, branch_eq_testThen tested]

/-- The code of a term, as a value and as a condition, depends on the types of the external
    names that it uses. -/
theorem lower_congr (e : Typed) (scope : Scope Mono)
    (agree : Agree externals externals' (e.looseIn scope)) :
    lower externals scope e = lower externals' scope e ∧
      ∀ value yes no,
        branch externals scope e value yes no = branch externals' scope e value yes no := by
  induction e using Term.induct generalizing scope with
  | unit | bool | int | float => exact ⟨by simp only [lower], branch_congr rfl⟩
  | var ty x =>
      refine ⟨?_, branch_congr rfl⟩
      rw [lower, lower]
      cases found : scope.get? x with
      | some ty => rfl
      | none =>
          rw [Term.looseIn, Term.loose, scope.unbound_singleton found] at agree
          rw [agree _ (List.mem_singleton_self _)]
  | not ty e ih =>
      obtain ⟨value, choice⟩ := ih scope agree
      refine ⟨?_, fun _ yes no => ?_⟩
      · rw [lower, lower, value, choice]
      · simp only [branch, value, choice]
  | negate n op e ih =>
      refine ⟨?_, branch_congr rfl⟩
      rw [lower, lower, (ih scope agree).1]
  | arith n op l r ihl ihr =>
      rw [Term.looseIn, Term.loose, Scope.unbound_append, agree_append] at agree
      refine ⟨?_, branch_congr rfl⟩
      rw [lower, lower, (ihl scope agree.1).1, (ihr scope agree.2).1]
  | compare n op l r ihl ihr =>
      rw [Term.looseIn, Term.loose, Scope.unbound_append, agree_append] at agree
      have left := (ihl scope agree.1).1
      have right := (ihr scope agree.2).1
      refine ⟨?_, fun _ yes no => ?_⟩
      · rw [lower, lower, left, right]
      · simp only [branch, left, right]
  | ifThenElse n c t e ihc iht ihe =>
      rw [Term.looseIn, Term.loose, Scope.unbound_append, Scope.unbound_append, agree_append,
        agree_append] at agree
      obtain ⟨value, choice⟩ := ihc scope agree.1
      refine ⟨?_, branch_congr rfl⟩
      rw [lower, lower, value, choice, (iht scope agree.2.1).1, (ihe scope agree.2.2).1]
  | letIn n x e1 e2 ih1 ih2 =>
      rw [Term.looseIn_letIn scope n x e1 e2 x.2.mono, agree_append] at agree
      refine ⟨?_, branch_congr rfl⟩
      rw [lower, lower, (ih1 scope agree.1).1, (ih2 _ agree.2).1]
  | letRec n f formals body rest ihbody ihrest =>
      rw [Term.looseIn_letRec scope n f formals body rest f.2.mono (binders_names formals),
        agree_append] at agree
      refine ⟨?_, branch_congr rfl⟩
      rw [lower, lower, (ihbody _ agree.1).1, (ihrest _ agree.2).1]
  | letTuple n pattern e1 e2 ih1 ih2 =>
      rw [Term.looseIn_letTuple scope n pattern e1 e2 (binders_names pattern),
        agree_append] at agree
      refine ⟨?_, branch_congr rfl⟩
      rw [lower, lower, (ih1 scope agree.1).1, (ih2 _ agree.2).1]
  | app n e es ih ihs =>
      rw [Term.looseIn_app, agree_append] at agree
      have args : ∀ a ∈ es, lower externals scope a = lower externals' scope a := fun a ha =>
        (ihs a ha scope (List.forall_mem_flatMap.mp agree.2 a ha)).1
      have callee := (ih scope (Term.forall_name_callee
        (P := fun x => externals.find? x = externals'.find? x) scope agree.1)).1
      refine ⟨?_, branch_congr rfl⟩
      rw [lower, lower, externalCallee_congr agree.1, lowerList_eq, lowerList_eq,
        List.map_congr_left args, callee]
  | tuple n es ihs =>
      rw [Term.looseIn_tuple] at agree
      have elems : ∀ a ∈ es, lower externals scope a = lower externals' scope a := fun a ha =>
        (ihs a ha scope (List.forall_mem_flatMap.mp agree a ha)).1
      refine ⟨?_, branch_congr rfl⟩
      rw [lower, lower, lowerList_eq, lowerList_eq, List.map_congr_left elems]
  | array n l r ihl ihr | get n l r ihl ihr | seq n l r ihl ihr =>
      rw [Term.looseIn, Term.loose, Scope.unbound_append, agree_append] at agree
      refine ⟨?_, branch_congr rfl⟩
      rw [lower, lower, (ihl scope agree.1).1, (ihr scope agree.2).1]
  | put n a i v iha ihi ihv =>
      rw [Term.looseIn, Term.loose, Scope.unbound_append, Scope.unbound_append, agree_append,
        agree_append] at agree
      refine ⟨?_, branch_congr rfl⟩
      rw [lower, lower, (iha scope agree.1).1, (ihi scope agree.2.1).1, (ihv scope agree.2.2).1]

end Lowering

/-! ## Typing with an instance of a signature -/

namespace Typing

/-- Where the first signature has a type for a name that the program uses, so has the second
    one, and it is the same. -/
def SameUse (externals known : Signature) (e : Source) : Prop :=
  ∀ o ∈ e.loose, externals.Keeps known o.name

section
variable {externals externals' : Signature} {σ : Nat → Ty} {q : Source} {t : Typed}
  (plain : ∀ x ∈ q.binders, ∀ ty, x.2 = some ty → ty.isGround = true)
  (ground : Ground externals')
  (entries : ∀ x ty, externals.find? x = some ty → externals'.find? x = some (ty.subst σ))

include plain ground entries

theorem accepted_of_instance (accepted : (outcome q externals').result = .ok t) :
    ∃ t, (outcome q externals).result = .ok t := by
  obtain ⟨u, s, walked, -, -⟩ := accepted_walked accepted
  have solved := walked.isTyping walked.more.ready.solution_solves
  have typing := solved.of_instance plain ground entries
  exact accepted_of_typable ⟨_, _, _, typing.source, typing.entries, typing.typed⟩

/-- With an instance of the signature the program has the same types if it uses the names of
    the instance as the instance says. -/
theorem outcome_of_instance (accepted : (outcome q externals).result = .ok t)
    (use : SameUse externals' (outcome q externals).externals q) :
    (outcome q externals').result = .ok t ∧
      Lowering.Agree (outcome q externals').externals (outcome q externals).externals t.loose := by
  obtain ⟨bare, typed⟩ := accepted_typed accepted
  obtain ⟨u, s, walked, rfl, final⟩ := accepted_walked accepted
  have typing := walked.isTyping walked.more.ready.solution_solves
  let known : Signature := externals' ++ (outcome q externals).externals
  have find : ∀ x, known.find? x =
      (externals'.find? x).or ((outcome q externals).externals.find? x) :=
    fun x => List.lookup_append
  have keeps : ∀ o ∈ (instantiate s.table.settled u).loose,
      (outcome q externals).externals.Keeps known o.name := by
    intro o mem ty found
    rw [Term.loose_eq_of_erase_eq bare] at mem
    rw [find]
    cases entry : externals'.find? o.name with
    | some ty' => rw [← found, use o mem ty' entry, Option.some_or]
    | none => rw [Option.none_or, found]
  rw [← Scope.unbound_empty (α := Ty) (Term.loose _)] at keeps ⊢
  have again : IsTyping q externals' s.solution.callers known (instantiate s.table.settled u) := by
    refine ⟨typing.source, ?_, typed.congr keeps⟩
    intro x ty found
    rw [find, found, Option.some_or, Ty.subst_of_isGround (ground.find? found)]
  obtain ⟨result, left⟩ := outcome_of_between accepted
    (fun typing => ⟨σ, typing.of_instance plain ground entries⟩) again
  refine ⟨result, fun o mem => ?_⟩
  obtain ⟨ty, found, -⟩ := typed.forall_known o mem
  rw [found, left o.name ty found (keeps o mem ty found)]

end

end Typing

/-! ## Compilation after another program -/

section
variable {options : Options} {externals externals' : Signature} {e : Source} {t : Typed}

theorem result_compile_congr (result' : (Typing.outcome e externals').result = .ok t)
    (result : (Typing.outcome e externals).result = .ok t)
    (agree : Lowering.Agree (Typing.outcome e externals').externals
      (Typing.outcome e externals).externals t.loose) :
    (compile options externals' e).result = (compile options externals e).result := by
  rw [← Scope.unbound_empty (α := Mono) t.loose] at agree
  have same : Lowering.program (Typing.outcome e externals').externals t =
      Lowering.program (Typing.outcome e externals).externals t :=
    (Lowering.lower_congr t .empty agree).1
  simp only [compile, result', result, same]
  split <;> rfl

end

/-- A program that has no code leaves the types that it has found for external names.  Another
    program whose annotations have no variables is then compiled as if there had been no
    other program if, on its own, it gives these types to the names that it uses. -/
theorem compile_after_lower_error (options options' : Options) (externals : Signature)
    (p q : Source) (err : LowerError)
    (failed : (compile options externals p).result = .error (.lower err))
    (plain : ∀ x ∈ q.binders, ∀ ty, x.2 = some ty → ty.isGround = true)
    (use : ∀ t, (Typing.outcome q externals).result = .ok t →
      Typing.SameUse (compile options externals p).externals
        (Typing.outcome q externals).externals q)
    (program : Program) :
    (compile options' (compile options externals p).externals q).result = .ok program ↔
      (compile options' externals q).result = .ok program := by
  obtain ⟨tp, accepted⟩ := accepted_of_ne_type_error (by rw [failed]; nofun)
  obtain ⟨u, s, -, -, -, final, -, entries⟩ := Typing.accepted_solved accepted
  have ground := Typing.ground_solution s
  rw [externals_compile, final] at use ⊢
  have same : ∀ t, (Typing.outcome q externals).result = .ok t →
      (compile options' s.solution.externals q).result = (compile options' externals q).result := by
    intro t own
    obtain ⟨result, agree⟩ := Typing.outcome_of_instance plain ground entries own (use t own)
    exact result_compile_congr result own agree
  constructor
  · intro compiled
    obtain ⟨t', own'⟩ := accepted_of_compiled compiled
    obtain ⟨t, own⟩ := Typing.accepted_of_instance plain ground entries own'
    rw [← same t own, compiled]
  · intro compiled
    obtain ⟨t, own⟩ := accepted_of_compiled compiled
    rw [same t own, compiled]

/-- A program that has no code: it shows a number that its caller does not have. -/
def showingLimit : Source :=
  .app () (.var () "print_int")
    [.arith () (.int .add) (.var () "limit") (.get () (.var () "cells") (.int () 0))]

/-- A program that uses two of its external names in the same way. -/
def showingCell : Source :=
  .letIn () ("cell", some .int) (.get () (.var () "cells") (.int () 1))
    (.app () (.var () "print_int") [.var () "cell"])

def printing : Signature :=
  [("print_int", .fn [.int] .unit)]

def showingCellProgram : Program where
  functions := []
  main :=
    .letIn "Ta1.9" (.array .int) (.op (.externArray "cells"))
      (.letIn "Ti2.10" .int (.op (.int 1))
        (.letIn "cell.11" .int (.op (.get "Ta1.9" "Ti2.10"))
          (.callDirect "min_caml_print_int" ["cell.11"])))

theorem compile_after_showingLimit :
    (compile ⟨2, 3⟩ printing showingLimit).result = .error (.lower (.notAnArray "limit")) ∧
      (compile ⟨2, 3⟩ printing showingLimit).externals =
        [("cells", .array .int), ("limit", .int), ("print_int", .fn [.int] .unit)] ∧
      (compile ⟨2, 3⟩ printing showingCell).result = .ok showingCellProgram ∧
      ((compile ⟨2, 3⟩ (compile ⟨2, 3⟩ printing showingLimit).externals showingCell).result =
          .ok showingCellProgram ↔
        (compile ⟨2, 3⟩ printing showingCell).result = .ok showingCellProgram) := by
  have failed : (compile ⟨2, 3⟩ printing showingLimit).result =
      .error (.lower (.notAnArray "limit")) := by cbv
  have left : (compile ⟨2, 3⟩ printing showingLimit).externals =
      [("cells", .array .int), ("limit", .int), ("print_int", .fn [.int] .unit)] := by cbv
  have own : (Typing.outcome showingCell printing).externals =
      [("cells", .array .int), ("print_int", .fn [.int] .unit)] := by cbv
  have plain : ∀ x ∈ showingCell.binders, ∀ ty, x.2 = some ty → ty.isGround = true := by
    intro x mem ty annotated
    fin_cases mem
    cases annotated
    rfl
  have use : Typing.SameUse (compile ⟨2, 3⟩ printing showingLimit).externals
      (Typing.outcome showingCell printing).externals showingCell := by
    rw [left, own]
    intro o mem ty found
    fin_cases mem <;> exact found
  exact ⟨failed, left, by cbv,
    compile_after_lower_error ⟨2, 3⟩ ⟨2, 3⟩ printing showingLimit showingCell _ failed plain
      (fun _ _ => use) showingCellProgram⟩

/-- A program that uses an external name in another way is compiled no more. -/
def fillingLimit : Source :=
  .put () (.var () "limit") (.int () 0) (.int () 1)

theorem compile_fillingLimit :
    (compile ⟨2, 3⟩ printing showingLimit).result = .error (.lower (.notAnArray "limit")) ∧
      fillingLimit.binders = [] ∧
      (compile ⟨2, 3⟩ printing fillingLimit).result =
        .ok { functions := []
              main :=
                .letIn "Ta1.7" (.array .int) (.op (.externArray "limit"))
                  (.letIn "Ti2.8" .int (.op (.int 0))
                    (.letIn "Ti3.9" .int (.op (.int 1))
                      (.op (.put "Ta1.7" "Ti2.8" "Ti3.9")))) } ∧
      (compile ⟨2, 3⟩ (compile ⟨2, 3⟩ printing showingLimit).externals fillingLimit).result =
        .error (.type (.mismatch (.array (.var 0)) .int)) :=
  ⟨by cbv, rfl, by cbv, by cbv⟩

end MiddleEnd
