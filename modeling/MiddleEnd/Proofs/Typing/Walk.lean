import Mathlib
import MiddleEnd.Proofs.Term.Occurrences
import MiddleEnd.Proofs.Ty.Defaulting
import MiddleEnd.Proofs.Typing.Soundness

/-! # The walk of inference

Inference walks a term from left to right.  On its way it meets the free names of the term,
and takes those that the signature does not have for new external names; all else that it
does, it does in its table.  So what is kept by the steps that only change the table and by
the assumption of a new name is kept by the whole walk, and it is kept up to the point where
a walk fails, which has met the first of the free names.
-/

namespace MiddleEnd

namespace Typing

/-- What is said of the states before and after a stretch of the walk and of the names that it
    meets: it can be said of every step, and what is said of two stretches can be said of both
    together. -/
structure Account where
  Holds : List Name → State → State → Prop
  table : ∀ {s s' : State}, s'.externals = s.externals → s'.warnings = s.warnings →
    s.table.size ≤ s'.table.size → Holds [] s s'
  known : ∀ {s : State} {x : Name} {ty : Ty}, s.externals.find? x = some ty → Holds [x] s s
  assume : ∀ {s : State} {x : Name}, s.externals.find? x = none → Holds [x] s (s.assume x)
  trans : ∀ {xs ys : List Name} {s s' s'' : State}, Holds xs s s' → Holds ys s' s'' →
    Holds (xs ++ ys) s s''

variable {R : Account} {α β : Type} {xs ys : List Name} {s s' : State}

theorem size_le_fresh (t : Ty.Table) : t.size ≤ t.fresh.2.size :=
  (Nat.le_succ _).trans_eq (Ty.Table.size_fresh t).symm

namespace Account

theorem refl (R : Account) (s : State) : R.Holds [] s s :=
  R.table rfl rfl le_rfl

theorem preserves_importVar (R : Account) (v : Nat) : Preserves (R.Holds xs s) (importVar v) := by
  intro s₁ holds
  cases found : s₁.imported.lookup v with
  | some w =>
      rw [run_importVar_known found]
      exact holds
  | none =>
      rw [run_importVar_new found]
      refine List.append_nil xs ▸ R.trans holds ?_
      exact R.table rfl rfl (size_le_fresh s₁.table)

end Account

/-- The step meets these names, or the first of them where it fails. -/
structure Meets (R : Account) (xs : List Name) (step : Infer α) : Prop where
  done : ∀ {s a s'}, Gives step s a s' → R.Holds xs s s'
  failed : ∀ {s err s'}, step.run.run s = (.error err, s') →
    ∃ seen, seen <+: xs ∧ R.Holds seen s s'

/-! ## Steps -/

theorem name_of_binder {x : Name × Option Ty} {b : Name × Ty}
    (h : Gives (liftM (binder x) : Infer (Name × Ty)) s b s') : b.1 = x.1 := by
  obtain ⟨rfl, -⟩ := h.of_lift
  obtain ⟨x, annotation⟩ := x
  cases annotation <;> rfl

theorem names_of_binders {formals : List (Name × Option Ty)} {bs : List (Name × Ty)}
    (h : Gives (formals.mapM fun x => (liftM (binder x) : Infer (Name × Ty))) s bs s') :
    bs.map (·.1) = formals.map (·.1) := by
  induction formals generalizing s bs s' with
  | nil =>
      obtain ⟨rfl, -⟩ := h.of_pure
      rfl
  | cons x formals ih =>
      rw [List.mapM_cons] at h
      obtain ⟨b, s₁, first, h⟩ := h.of_bind
      obtain ⟨cs, s₂, others, h⟩ := h.of_bind
      obtain ⟨rfl, -⟩ := h.of_pure
      rw [List.map_cons, List.map_cons, ih others, name_of_binder first]

namespace Meets

theorem of_run {step : Infer α} (h : ∀ s, R.Holds xs s (step.run.run s).2) :
    Meets R xs step := by
  constructor
  · intro s a s' gives
    have holds := h s
    rw [gives] at holds
    exact holds
  · intro s err s' failed
    have holds := h s
    rw [failed] at holds
    exact ⟨xs, List.prefix_rfl, holds⟩

theorem pure (a : α) : Meets R [] (Pure.pure a : Infer α) :=
  of_run R.refl

theorem bind {step : Infer α} {next : α → Infer β} (h : Meets R xs step)
    (hnext : ∀ {s a s'}, Gives step s a s' → Meets R ys (next a)) :
    Meets R (xs ++ ys) (step >>= next) := by
  constructor
  · intro s b s' gives
    obtain ⟨a, s₁, first, second⟩ := gives.of_bind
    exact R.trans (h.done first) ((hnext first).done second)
  · intro s err s' failed
    rw [Step.run_bind_except] at failed
    split at failed
    · rename_i a s₁ first
      obtain ⟨seen, before, holds⟩ := (hnext first).failed failed
      exact ⟨xs ++ seen, (List.prefix_append_right_inj xs).mpr before,
        R.trans (h.done first) holds⟩
    · rename_i first
      cases failed
      obtain ⟨seen, before, holds⟩ := h.failed first
      exact ⟨seen, before.trans (List.prefix_append ..), holds⟩

/-- A step that meets no names may come first. -/
theorem after {step : Infer α} {next : α → Infer β} (h : Meets R [] step)
    (hnext : ∀ {s a s'}, Gives step s a s' → Meets R xs (next a)) :
    Meets R xs (step >>= next) :=
  h.bind hnext

theorem of_eq {step : Infer α} (h : Meets R xs step) (eq : xs = ys) : Meets R ys step :=
  eq ▸ h

theorem mapM {f : α → Infer β} (h : ∀ a, Meets R [] (f a)) (as : List α) :
    Meets R [] (as.mapM f) := by
  induction as with
  | nil => exact .pure _
  | cons a as ih =>
      rw [List.mapM_cons]
      exact (h a).after fun _ => ih.after fun _ => .pure _

theorem fresh : Meets R [] (liftM fresh : Infer Ty) :=
  of_run fun s => R.table rfl rfl (size_le_fresh s.table)

theorem unify (a b : Ty) : Meets R [] (unify a b) :=
  of_run fun s => R.table rfl rfl (Ty.Table.size_unify s.table a b).ge

theorem requireUnit (ty : Ty) : Meets R [] (requireUnit ty) := by
  refine of_run fun s => ?_
  have run : ((Typing.requireUnit ty).run.run s).2 = ((Typing.unify .unit ty).run.run s).2 := by
    simp only [Typing.requireUnit, Typing.unify, ExceptT.run, StateT.run]
    split <;> rename_i unified <;> rw [unified]
  rw [run]
  exact R.table rfl rfl (Ty.Table.size_unify s.table .unit ty).ge

theorem binder (x : Name × Option Ty) : Meets R [] (liftM (binder x) : Infer (Name × Ty)) := by
  refine of_run fun s => ?_
  obtain ⟨x, annotation⟩ := x
  cases annotation with
  | none => exact R.table rfl rfl (size_le_fresh s.table)
  | some ty =>
      have each : Preserves (R.Holds [] s) (importTy ty) :=
        Ty.preserves_substM fun v _ => R.preserves_importVar v
      exact each s (R.refl s)

theorem occurrence (n : Unit) (scope : Scope Ty) (x : Name) :
    Meets R ((Term.var n x : Source).freeNamesIn scope)
      (liftM (occurrence scope x) : Infer Ty) := by
  refine of_run fun s => ?_
  show R.Holds _ s ((Typing.occurrence scope x).run s).2
  cases bound : scope.get? x with
  | some ty =>
      rw [run_occurrence_bound bound, Term.freeNamesIn_var_bound scope bound]
      exact R.refl s
  | none =>
      rw [Term.freeNamesIn_var_free scope bound]
      cases found : s.externals.find? x with
      | some ty =>
          rw [run_occurrence_known bound found]
          exact R.known found
      | none =>
          rw [run_occurrence_new bound found]
          exact R.assume found

/-! ## Terms -/

theorem inferList {es : List Source} {scope : Scope Ty}
    (h : ∀ e ∈ es, Meets R (e.freeNamesIn scope) (infer scope e)) :
    Meets R (es.flatMap (Term.freeNamesIn scope)) (inferList scope es) := by
  induction es with
  | nil => exact .pure _
  | cons e es ih =>
      rw [List.forall_mem_cons] at h
      refine of_eq (h.1.bind fun _ => (ih h.2).bind fun _ => .pure _) ?_
      rw [List.append_nil, List.flatMap_cons]

/-- Inference of a term meets its free names from left to right. -/
theorem infer (e : Source) (scope : Scope Ty) :
    Meets R (e.freeNamesIn scope) (infer scope e) := by
  induction e using Term.induct generalizing scope with
  | unit | bool | int | float => exact .pure _
  | var n x => exact of_eq ((occurrence n scope x).bind fun _ => .pure _) (List.append_nil _)
  | not n e ih | negate n op e ih =>
      exact of_eq ((ih scope).bind fun _ => (unify _ _).bind fun _ => .pure _) (List.append_nil _)
  | arith n op l r hl hr =>
      refine of_eq ((hl scope).bind fun _ => (hr scope).bind fun _ =>
        (unify _ _).bind fun _ => (unify _ _).bind fun _ => .pure _) ?_
      simp [Term.freeNamesIn, Term.looseIn, Term.loose]
  | compare n op l r hl hr =>
      refine of_eq ((hl scope).bind fun _ => (hr scope).bind fun _ =>
        (unify _ _).bind fun _ => .pure _) ?_
      simp [Term.freeNamesIn, Term.looseIn, Term.loose]
  | ifThenElse n c t e hc ht he =>
      refine of_eq ((hc scope).bind fun _ => (unify _ _).bind fun _ => (ht scope).bind fun _ =>
        (he scope).bind fun _ => (unify _ _).bind fun _ => .pure _) ?_
      simp [Term.freeNamesIn, Term.looseIn, Term.loose]
  | letIn n x e1 e2 h1 h2 =>
      refine (binder x).after fun {s b s'} bound => ?_
      refine of_eq ((h1 scope).bind fun _ => (unify _ _).bind fun _ => (h2 _).bind fun _ =>
        .pure _) ?_
      simp [Term.freeNamesIn, Term.looseIn_letIn scope n x e1 e2 b.2, name_of_binder bound]
  | letRec n f formals body rest hbody hrest =>
      refine (binder f).after fun {s b s'} bound => (mapM binder formals).after fun each => ?_
      refine of_eq ((hbody _).bind fun _ => (unify _ _).bind fun _ => (hrest _).bind fun _ =>
        .pure _) ?_
      have names := names_of_binders each
      simp [Term.freeNamesIn, Term.looseIn_letRec scope n f formals body rest b.2 names,
        name_of_binder bound]
  | letTuple n pattern e1 e2 h1 h2 =>
      refine (mapM binder pattern).after fun each => ?_
      refine of_eq ((h1 scope).bind fun _ => (unify _ _).bind fun _ => (h2 _).bind fun _ =>
        .pure _) ?_
      simp [Term.freeNamesIn, Term.looseIn_letTuple scope n pattern e1 e2 (names_of_binders each)]
  | app n e es he hes =>
      refine of_eq ((he scope).bind fun _ => (inferList fun a ha => hes a ha scope).bind fun _ =>
        fresh.bind fun _ => (unify _ _).bind fun _ => .pure _) ?_
      simp [Term.freeNamesIn_app]
  | tuple n es hes =>
      refine of_eq ((inferList fun a ha => hes a ha scope).bind fun _ => .pure _) ?_
      simp [Term.freeNamesIn_tuple]
  | array n len init hlen hinit =>
      refine of_eq ((hlen scope).bind fun _ => (unify _ _).bind fun _ => (hinit scope).bind fun _ =>
        .pure _) ?_
      simp [Term.freeNamesIn, Term.looseIn, Term.loose]
  | get n a i ha hi =>
      refine of_eq (fresh.bind fun _ => (ha scope).bind fun _ => (unify _ _).bind fun _ =>
        (hi scope).bind fun _ => (unify _ _).bind fun _ => .pure _) ?_
      simp [Term.freeNamesIn, Term.looseIn, Term.loose]
  | put n a i v ha hi hv =>
      refine of_eq (fresh.bind fun _ => (ha scope).bind fun _ => (unify _ _).bind fun _ =>
        (hi scope).bind fun _ => (unify _ _).bind fun _ => (hv scope).bind fun _ =>
          (unify _ _).bind fun _ => .pure _) ?_
      simp [Term.freeNamesIn, Term.looseIn, Term.loose]
  | seq n e1 e2 h1 h2 =>
      refine of_eq ((h1 scope).bind fun _ => (unify _ _).bind fun _ => (h2 scope).bind fun _ =>
        .pure _) ?_
      simp [Term.freeNamesIn, Term.looseIn, Term.loose]

end Meets

/-! ## Programs -/

/-- The walk of a program meets its free names; if it fails, it has met the first of them. -/
theorem Account.of_error {e : Source} {err : TypeError} (R : Account)
    (failed : (program e).run.run s = (.error err, s')) :
    ∃ seen, seen <+: e.freeNames ∧ R.Holds seen (importExternals.run s).2 s' := by
  have walk : Meets R (e.freeNames ++ [])
      (do requireUnit (Typed.ty (← infer .empty e)) : Infer Unit) :=
    (e.freeNamesIn_empty ▸ Meets.infer e .empty).bind fun _ => .requireUnit _
  rw [List.append_nil] at walk
  exact walk.failed (program_fails failed)

theorem Walked.account {e : Source} {u : Typed} (walked : Walked s e u s') (R : Account) :
    R.Holds e.freeNames (importExternals.run s).2 s' := by
  obtain ⟨s₀, walk, unit⟩ := walked.steps
  have holds := R.trans ((Meets.infer e .empty).done walk) ((Meets.unify _ _).done unit)
  rwa [Term.freeNamesIn_empty, List.append_nil] at holds

end Typing

end MiddleEnd
