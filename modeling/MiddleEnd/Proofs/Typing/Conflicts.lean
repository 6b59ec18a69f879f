import Mathlib
import MiddleEnd.Proofs.Ty.Calls
import MiddleEnd.Proofs.Typing.Principality

/-! # What type errors name

A unification that fails has solved some differences before, and it reports the first one that
it cannot solve.  Nothing is changed in the table after that, so the report is about the two
types as they are read through the table that is left: it names a place in them where their heads
differ and all heads before it agree.
-/

namespace MiddleEnd

namespace Ty

/-- The kinds of types. -/
inductive Kind where
  | unit
  | bool
  | int
  | float
  | fn
  | tuple
  | array
  | var
deriving Repr, DecidableEq

def kind : Ty → Kind
  | .unit => .unit
  | .bool => .bool
  | .int => .int
  | .float => .float
  | .fn _ _ => .fn
  | .tuple _ => .tuple
  | .array _ => .array
  | .var _ => .var

/-- The number of parameters of a function or of elements of a tuple. -/
def arity? : Ty → Option Nat
  | .fn ps _ => some ps.length
  | .tuple es => some es.length
  | .unit | .bool | .int | .float | .array _ | .var _ => none

theorem kind_ne_var {t : Ty} : t.kind ≠ .var ↔ ∀ v, t ≠ .var v := by
  cases t <;> simp [kind]

/-- Types of one kind differ in their heads only if they are variables, functions or tuples. -/
theorem kind_ne {x y : Ty} (differ : x.sameHead y = false) (type : ∀ v, x ≠ .var v)
    (functions : ∀ ps r qs s, x = .fn ps r → y ≠ .fn qs s)
    (tuples : ∀ xs ys, x = .tuple xs → y ≠ .tuple ys) : x.kind ≠ y.kind := by
  intro same
  cases x with
  | var v => exact type v rfl
  | fn ps r =>
      cases y with
      | fn qs s => exact functions ps r qs s rfl rfl
      | _ => cases same
  | tuple xs =>
      cases y with
      | tuple ys => exact tuples xs ys rfl rfl
      | _ => cases same
  | _ => cases y <;> simp_all [kind, sameHead]

namespace Table

/-- The types `x` and `y` stand at the same place in `a` and in `b`, read through the table, where
    their heads differ, and the table has nothing to add to them. -/
structure Current (t : Table) (a b x y : Ty) : Prop where
  place : Place (t.resolve a) (t.resolve b) x y
  left : t.resolve x = x
  right : t.resolve y = y

/-- The error is about a conflict between the types. -/
def Conflict (t : Table) (a b : Ty) : TypeError → Prop
  | .mismatch x y => t.Current a b x y ∧ x.kind ≠ y.kind ∧ x.kind ≠ .var ∧ y.kind ≠ .var
  | .arity m n x y =>
      t.Current a b x y ∧ x.kind = y.kind ∧ x.arity? = some m ∧ y.arity? = some n ∧ m ≠ n
  | .infinite v x =>
      (t.Current a b (.var v) x ∨ t.Current a b x (.var v)) ∧ t.Unbound v ∧ v ∈ x.vars ∧
        x.kind ≠ .var
  | .notUnit _ => False

section
variable {t t' : Table} {a b x y : Ty} {v : Nat} {err : TypeError}

/-- A unification that fails stops at a difference that it cannot solve. -/
theorem Solving.stops {r : Except TypeError Unit} (h : Solving a b t r t')
    (error : r = .error err) : ∃ x y, (t'.resolve a).firstDifference (t'.resolve b) = some (x, y) ∧
      t'.solve x y = .error err := by
  induction h with
  | done => cases error
  | failed difference unsolved =>
      cases error
      exact ⟨_, _, difference, unsolved⟩
  | solved _ _ _ _ ih => exact ih error

theorem conflict_of_bindVar (free : t.Unbound v) (hx : ∀ w ∈ x.vars, t.Unbound w)
    (current : t.Current a b (.var v) x ∨ t.Current a b x (.var v)) (type : ∀ w, x ≠ .var w)
    (h : t.bindVar v x = .error err) : t.Conflict a b err := by
  rw [bindVar] at h
  split at h
  · rename_i occurs
    cases h
    exact ⟨current, free, (occurs_iff_mem free hx).mp occurs, kind_ne_var.mpr type⟩
  · cases h

theorem conflict_of_solve (current : t.Current a b x y) (hx : ∀ v ∈ x.vars, t.Unbound v)
    (hy : ∀ v ∈ y.vars, t.Unbound v) (h : t.solve x y = .error err) : t.Conflict a b err := by
  have differ := current.place.sameHead_eq
  revert h
  fun_cases solve t x y with
  | case1 v w =>
      intro h
      cases h
  | case2 v y type =>
      exact conflict_of_bindVar (hx v (List.mem_singleton_self v)) hy (.inl current) type
  | case3 x w type =>
      exact conflict_of_bindVar (hy w (List.mem_singleton_self w)) hx (.inr current) type
  | case4 ps r qs s =>
      intro h
      cases h
      exact ⟨current, rfl, rfl, rfl, by simpa [sameHead] using differ⟩
  | case5 xs ys =>
      intro h
      cases h
      exact ⟨current, rfl, rfl, rfl, by simpa [sameHead] using differ⟩
  | case6 x y _ left right functions tuples =>
      intro h
      cases h
      refine ⟨current, kind_ne differ left functions tuples, ?_, ?_⟩
      · exact kind_ne_var.mpr left
      · exact kind_ne_var.mpr right

theorem Valid.conflict (valid : t.Valid) (ha : a.Below t.size) (hb : b.Below t.size)
    (h : (t.unify a b).1 = .error err) : (t.unify a b).2.Conflict a b err := by
  have run := unify_solving valid ha hb
  obtain ⟨x, y, difference, unsolved⟩ := run.stops h
  obtain ⟨order, ordered⟩ := (run.toExtends valid).valid
  have place := place_of_firstDifference difference
  have hx : ∀ v ∈ x.vars, (t.unify a b).2.Unbound v :=
    fun v hv => ordered.descends.unbound_of_mem_resolve (place.vars_left v hv)
  have hy : ∀ v ∈ y.vars, (t.unify a b).2.Unbound v :=
    fun v hv => ordered.descends.unbound_of_mem_resolve (place.vars_right v hv)
  exact conflict_of_solve ⟨place, resolve_eq_self hx, resolve_eq_self hy⟩ hx hy unsolved

/-- Where unification with the type of units fails, there is another type, and it is known. -/
theorem Valid.kind_of_unify_unit (valid : t.Valid) (below : a.Below t.size)
    (h : (t.unify .unit a).1 = .error err) :
    ((t.unify .unit a).2.resolve a).kind ≠ .unit ∧ ((t.unify .unit a).2.resolve a).kind ≠ .var := by
  have known : Below t.size .unit := List.forall_mem_nil _
  obtain ⟨x, y, difference, unsolved⟩ := (unify_solving valid known below).stops h
  generalize (t.unify .unit a).2 = t' at difference unsolved
  have unit : t'.resolve .unit = .unit := rfl
  rw [unit] at difference
  generalize t'.resolve a = found at difference
  cases found with
  | unit => cases difference
  | var v =>
      cases difference
      cases unsolved
  | bool | int | float | fn | tuple | array => simp [kind]

theorem fromUnification_of_solve (h : t.solve x y = .error err) : err.fromUnification = true := by
  have infinite {v : Nat} {ty : Ty} (h : t.bindVar v ty = .error err) :
      err.fromUnification = true := by
    rw [bindVar] at h
    split at h
    · cases h
      rfl
    · cases h
  revert h
  fun_cases solve t x y with
  | case1 v w =>
      intro h
      cases h
  | case2 | case3 => exact infinite
  | case4 | case5 | case6 =>
      intro h
      cases h
      rfl

theorem fromUnification_of_unifyWithin {rounds : Nat}
    (h : (unifyWithin rounds t a b).1 = .error err) : err.fromUnification = true := by
  fun_induction unifyWithin rounds t a b with
  | case1 =>
      cases h
      rfl
  | case2 => cases h
  | case3 _ _ _ _ _ _ _ _ _ ih => exact ih h
  | case4 _ _ _ _ _ _ _ _ unsolved =>
      cases h
      exact fromUnification_of_solve unsolved

end

end Table

end Ty

namespace Typing

/-! ## Inference -/

/-- If the step fails, then because two types cannot be made equal. -/
def FailsToUnify {α : Type} (step : Infer α) : Prop :=
  ∀ s err s', step.run.run s = (.error err, s') → err.fromUnification = true

namespace FailsToUnify

variable {α β : Type}

theorem of_lift (x : StateM State α) : FailsToUnify (liftM x : Infer α) := by
  intro s err s' failed
  cases failed

theorem of_pure (a : α) : FailsToUnify (Pure.pure a : Infer α) :=
  of_lift (Pure.pure a)

theorem bind {step : Infer α} {next : α → Infer β} (h : FailsToUnify step)
    (hnext : ∀ a, FailsToUnify (next a)) : FailsToUnify (step >>= next) := by
  intro s err s' failed
  rw [Step.run_bind_except] at failed
  split at failed
  · exact hnext _ _ _ _ failed
  · rename_i first
    cases failed
    exact h _ _ _ first

theorem of_mapM {f : α → Infer β} (h : ∀ a, FailsToUnify (f a)) (as : List α) :
    FailsToUnify (as.mapM f) := by
  induction as with
  | nil => exact of_pure _
  | cons a as ih =>
      rw [List.mapM_cons]
      exact (h a).bind fun _ => ih.bind fun _ => of_pure _

theorem of_unify (a b : Ty) : FailsToUnify (unify a b) := by
  intro s err s' failed
  have result : ((unify a b).run.run s).1 = (s.table.unify a b).1 := rfl
  rw [failed] at result
  exact Ty.Table.fromUnification_of_unifyWithin result.symm

theorem of_inferList {es : List Source} {scope : Scope Ty}
    (h : ∀ e ∈ es, FailsToUnify (infer scope e)) : FailsToUnify (inferList scope es) := by
  induction es with
  | nil => exact of_pure _
  | cons e es ih =>
      rw [List.forall_mem_cons] at h
      exact h.1.bind fun _ => (ih h.2).bind fun _ => of_pure _

theorem of_infer (e : Source) (scope : Scope Ty) : FailsToUnify (infer scope e) := by
  induction e using Term.induct generalizing scope with
  | unit | bool | int | float => exact of_pure _
  | var n x => exact (of_lift _).bind fun _ => of_pure _
  | not n e ih | negate n op e ih =>
      exact (ih scope).bind fun _ => (of_unify _ _).bind fun _ => of_pure _
  | arith n op l r hl hr =>
      exact (hl scope).bind fun _ => (hr scope).bind fun _ =>
        (of_unify _ _).bind fun _ => (of_unify _ _).bind fun _ => of_pure _
  | compare n op l r hl hr =>
      exact (hl scope).bind fun _ => (hr scope).bind fun _ => (of_unify _ _).bind fun _ => of_pure _
  | ifThenElse n c t e hc ht he =>
      exact (hc scope).bind fun _ => (of_unify _ _).bind fun _ => (ht scope).bind fun _ =>
        (he scope).bind fun _ => (of_unify _ _).bind fun _ => of_pure _
  | letIn n x e1 e2 h1 h2 =>
      exact (of_lift _).bind fun _ => (h1 scope).bind fun _ => (of_unify _ _).bind fun _ =>
        (h2 _).bind fun _ => of_pure _
  | letRec n f formals body rest hbody hrest =>
      exact (of_lift _).bind fun _ => (of_mapM (fun _ => of_lift _) formals).bind fun _ =>
        (hbody _).bind fun _ => (of_unify _ _).bind fun _ => (hrest _).bind fun _ => of_pure _
  | letTuple n pattern e1 e2 h1 h2 =>
      exact (of_mapM (fun _ => of_lift _) pattern).bind fun _ => (h1 scope).bind fun _ =>
        (of_unify _ _).bind fun _ => (h2 _).bind fun _ => of_pure _
  | app n e es he hes =>
      exact (he scope).bind fun _ => (of_inferList fun a ha => hes a ha scope).bind fun _ =>
        (of_lift _).bind fun _ => (of_unify _ _).bind fun _ => of_pure _
  | tuple n es hes => exact (of_inferList fun a ha => hes a ha scope).bind fun _ => of_pure _
  | array n len init hlen hinit =>
      exact (hlen scope).bind fun _ => (of_unify _ _).bind fun _ => (hinit scope).bind fun _ =>
        of_pure _
  | get n a i ha hi =>
      exact (of_lift _).bind fun _ => (ha scope).bind fun _ => (of_unify _ _).bind fun _ =>
        (hi scope).bind fun _ => (of_unify _ _).bind fun _ => of_pure _
  | put n a i v ha hi hv =>
      exact (of_lift _).bind fun _ => (ha scope).bind fun _ => (of_unify _ _).bind fun _ =>
        (hi scope).bind fun _ => (of_unify _ _).bind fun _ => (hv scope).bind fun _ =>
          (of_unify _ _).bind fun _ => of_pure _
  | seq n e1 e2 h1 h2 =>
      exact (h1 scope).bind fun _ => (of_unify _ _).bind fun _ => (h2 scope).bind fun _ => of_pure _

end FailsToUnify

/-- A program that has the wrong type has a known one. -/
theorem kind_of_notUnit {e : Source} {externals : Signature} {found : Ty}
    (rejected : (outcome e externals).result = .error (.notUnit found)) :
    found.kind ≠ .unit ∧ found.kind ≠ .var := by
  obtain ⟨ready, -⟩ := importExternals_ready (sound_start externals)
  have failed := program_fails (s := .start externals) (Prod.ext rejected rfl)
  rw [Step.run_bind_except] at failed
  split at failed
  · rename_i t s₁ walk
    obtain ⟨more, inferred⟩ := infers e ready (scopeBelow_empty _) walk
    have unit : ((requireUnit (Typed.ty t)).run.run s₁).1 = .error (.notUnit found) :=
      congrArg Prod.fst failed
    simp only [requireUnit, ExceptT.run, StateT.run] at unit
    split at unit
    · cases unit
    · rename_i err table unified
      cases unit
      have kinds := more.ready.table.kind_of_unify_unit inferred.below (congrArg Prod.fst unified)
      rw [unified] at kinds
      exact kinds
  · rename_i walk
    cases failed
    exact absurd (FailsToUnify.of_infer e .empty _ _ _ walk) Bool.false_ne_true

/-- A type error names a conflict.  In every table that calls lead to, a unification that fails
    reports types that stand at the same place of the two types, as these are in the table that it
    leaves, and to which that table has nothing to add: two types of different kinds, two
    functions or tuples with the reported different numbers of components, or an unbound variable
    that occurs inside the other type.  A program that is rejected for its type has a type that is
    known and is not the one of units. -/
theorem errors_name_conflicts :
    (∀ (t : Ty.Table) (a b : Ty) (err : TypeError), Ty.Table.Reaches .empty t →
        a.Below t.size → b.Below t.size → (t.unify a b).1 = .error err →
        (t.unify a b).2.Conflict a b err) ∧
      ∀ (e : Source) (externals : Signature) (found : Ty),
        (outcome e externals).result = .error (.notUnit found) →
        found.kind ≠ .unit ∧ found.kind ≠ .var := by
  constructor
  · intro t a b err reached ha hb failed
    exact reached.valid.conflict ha hb failed
  · intro e externals found rejected
    exact kind_of_notUnit rejected

/-- The conflict is at a variable that the same unification has bound before. -/
theorem conflict_partlyUnified :
    let a : Ty := .tuple [.var 1, .tuple [.var 2, .int]]
    let b : Ty := .tuple [.bool, .tuple [.array .bool, .var 0]]
    let e : Source := .letIn () ("x", none) (.int () 1) (.tuple () [.var () "x"])
    (Ty.Table.partlyUnified.unify a b).1 = .error (.mismatch .int .bool) ∧
      (Ty.Table.partlyUnified.unify a b).2.Conflict a b (.mismatch .int .bool) ∧
      (outcome e []).result = .error (.notUnit (.tuple [.int])) ∧
      (Ty.tuple [.int]).kind ≠ .unit ∧ (Ty.tuple [.int]).kind ≠ .var := by
  intro a b e
  have failed : (Ty.Table.partlyUnified.unify a b).1 = .error (.mismatch .int .bool) := by cbv
  have rejected : (outcome e []).result = .error (.notUnit (.tuple [.int])) := by cbv
  have conflict := errors_name_conflicts.1 Ty.Table.partlyUnified a b _
    Ty.Table.reaches_partlyUnified (by decide +kernel) (by decide +kernel) failed
  exact ⟨failed, conflict, rejected, errors_name_conflicts.2 e [] _ rejected⟩

end Typing

end MiddleEnd
