import Mathlib
import MiddleEnd.Proofs.Steps
import MiddleEnd.Proofs.Ty.Unify
import MiddleEnd.Proofs.Typing.Rules
import MiddleEnd.Typing.Inference

/-! # What inference knows, and its solutions

A solution gives types to the variables of an inference and to those of its
caller, and it has the types of external names.  Every step of inference leaves
fewer solutions: what solves a later state solves all states before it.  So what
a step has found out can be used at the end.
-/

namespace MiddleEnd

theorem lookup_map_snd {α β : Type} (f : α → β) (x : Name) (bs : List (Name × α)) :
    (bs.map fun b => (b.1, f b.2)).lookup x = (bs.lookup x).map f := by
  induction bs with
  | nil => rfl
  | cons b bs ih =>
      simp only [List.map_cons, List.lookup]
      split
      · rfl
      · exact ih

namespace Scope

variable {α β : Type}

def map (f : α → β) (s : Scope α) : Scope β :=
  ⟨s.groups.map fun group => group.map fun b => (b.1, f b.2)⟩

theorem get?_map (f : α → β) (s : Scope α) (x : Name) : (s.map f).get? x = (s.get? x).map f := by
  rw [get?, get?, map]
  induction s.groups with
  | nil => rfl
  | cons group groups ih =>
      rw [List.map_cons, List.findSome?_cons, List.findSome?_cons, lookup_map_snd]
      cases group.lookup x with
      | none => exact ih
      | some a => rfl

theorem map_bind (f : α → β) (s : Scope α) (x : Name) (a : α) :
    (s.bind x a).map f = (s.map f).bind x (f a) := rfl

theorem map_bindAll (f : α → β) (s : Scope α) (bindings : List (Name × α)) :
    (s.bindAll bindings).map f = (s.map f).bindAll (bindings.map (Term.mapBinder f)) := by
  cases bindings with
  | nil => rfl
  | cons b bs => simp [bindAll, map, Term.mapBinder]

end Scope

theorem Signature.find?_insert {sig : Signature} {x : Name} (new : sig.find? x = none) (ty : Ty)
    (y : Name) : (sig.insert x ty).find? y = if y = x then some ty else sig.find? y := by
  rw [find?] at new ⊢
  rw [find?]
  induction sig with
  | nil =>
      by_cases eq : y = x
      · simp [insert, eq]
      · have miss : (y == x) = false := by simpa using eq
        simp [insert, List.lookup, eq, miss]
  | cons b rest ih =>
      obtain ⟨z, u⟩ := b
      rw [List.lookup] at new
      split at new
      · cases new
      · rename_i other
        have ne : x ≠ z := by simpa using other
        rw [insert, if_neg ne]
        split
        · by_cases eq : y = x
          · simp [List.lookup, eq]
          · have miss : (y == x) = false := by simpa using eq
            simp [List.lookup, eq, miss]
        · rw [List.lookup, List.lookup, ih new]
          by_cases eq : y = z
          · have other : y ≠ x := fun same => ne (same.symm.trans eq)
            rw [if_neg other, if_neg other]
          · have miss : (y == z) = false := by simpa using eq
            simp [miss]

theorem lookup_rel {α β : Type} {R : α → β → Prop} {bs : List (Name × α)} {cs : List (Name × β)}
    (h : List.Forall₂ (fun b c => c.1 = b.1 ∧ R b.2 c.2) bs cs) (x : Name) :
    Option.Rel R (bs.lookup x) (cs.lookup x) := by
  induction h with
  | nil => exact .none
  | @cons b c bs cs head _ ih =>
      rw [List.lookup, List.lookup, head.1]
      split
      · exact .some head.2
      · exact ih

namespace Typing

open Ty (Below)
open Ty.Table (Models)

/-- Types for the variables of an inference, types for the variables of its caller, and
    the types of external names. -/
structure Solution where
  types : Nat → Ty
  callers : Nat → Ty
  externals : Signature

namespace Solution

/-- What the solution makes of a type of the inference. -/
def apply (A : Solution) (ty : Ty) : Ty :=
  ty.subst A.types

variable (A : Solution)

@[simp] theorem apply_array (e : Ty) : A.apply (.array e) = .array (A.apply e) := rfl

@[simp] theorem apply_tuple (es : List Ty) : A.apply (.tuple es) = .tuple (es.map A.apply) := by
  rw [apply, Ty.subst, Ty.substList_eq_map]
  rfl

@[simp] theorem apply_fn (ps : List Ty) (r : Ty) :
    A.apply (.fn ps r) = .fn (ps.map A.apply) (A.apply r) := by
  rw [apply, Ty.subst, Ty.substList_eq_map]
  rfl

theorem apply_negation (op : Negation) : A.apply op.ty = op.ty := by
  cases op <;> rfl

theorem apply_arith (op : Arith) : A.apply op.ty = op.ty := by
  cases op <;> rfl

end Solution

/-- The table of the state is valid and the variables of the caller stand for variables
    of the table. -/
structure Sound (s : State) : Prop where
  table : s.table.Valid
  imported : ∀ v w, s.imported.lookup v = some w → w < s.table.size

/-- The solution makes true what is known about variables. -/
structure Solution.Fits (A : Solution) (s : State) : Prop where
  models : Models A.types s.table
  imported : ∀ v w, s.imported.lookup v = some w → A.callers v = A.types w

/-- More is known about variables in the second state. -/
structure Grows (s s' : State) : Prop where
  sound : Sound s'
  size_le : s.table.size ≤ s'.table.size
  fits : ∀ A : Solution, A.Fits s' → A.Fits s
  externals : s'.externals = s.externals

theorem Grows.refl {s : State} (sound : Sound s) : Grows s s :=
  ⟨sound, le_rfl, fun _ => id, rfl⟩

theorem Grows.trans {s s' s'' : State} (h : Grows s s') (h' : Grows s' s'') : Grows s s'' :=
  ⟨h'.sound, h.size_le.trans h'.size_le, fun A fits => h.fits A (h'.fits A fits),
    h'.externals.trans h.externals⟩

section
variable {s s' : State}

/-- More is known about variables if more is said by the table. -/
theorem grows_of_table {t : Ty.Table} (sound : Sound s) (h : s.table.Extends t) :
    Grows s { s with table := t } := by
  refine ⟨⟨h.valid, ?_⟩, h.size_le, ?_, rfl⟩
  · intro v w found
    exact (sound.imported v w found).trans_le h.size_le
  · intro A fits
    exact ⟨h.models _ fits.models, fits.imported⟩

theorem below_var {n v : Nat} (h : v < n) : (Ty.var v).Below n := by
  intro w hw
  obtain rfl := List.mem_singleton.mp hw
  exact h

theorem below_fresh (t : Ty.Table) : (Ty.var t.size).Below t.fresh.2.size :=
  below_var ((Nat.lt_succ_self _).trans_eq (Ty.Table.size_fresh t).symm)

theorem grows_fresh (sound : Sound s) :
    Grows s (fresh.run s).2 ∧ (fresh.run s).1.Below (fresh.run s).2.table.size :=
  ⟨grows_of_table sound (Ty.Table.extends_fresh sound.table), below_fresh s.table⟩

theorem unify_gives {a b : Ty} (sound : Sound s) (ha : a.Below s.table.size)
    (hb : b.Below s.table.size) (h : Gives (unify a b) s () s') :
    Grows s s' ∧ ∀ A : Solution, A.Fits s' → A.apply a = A.apply b := by
  have run : (unify a b).run.run s =
      ((s.table.unify a b).1, { s with table := (s.table.unify a b).2 }) := rfl
  rw [Gives, run, Prod.mk.injEq] at h
  obtain ⟨ok, rfl⟩ := h
  obtain ⟨more, equal⟩ := Ty.Table.unify_sound sound.table ha hb (Prod.ext ok rfl)
  exact ⟨grows_of_table sound more, fun A fits => equal _ fits.models⟩

/-! ## Types of the caller -/

/-- A type of the caller and the same type in the variables of the inference. -/
structure Imported (s : State) (ty ty' : Ty) : Prop where
  below : ty'.Below s.table.size
  equal : ∀ A : Solution, A.Fits s → A.apply ty' = ty.subst A.callers

theorem Imported.later {ty ty' : Ty} (h : Imported s ty ty') (grows : Grows s s') :
    Imported s' ty ty' :=
  ⟨h.below.mono grows.size_le, fun A fits => h.equal A (grows.fits A fits)⟩

/-- The step brings a type of the caller into the variables of the inference. -/
def Imports (x : StateM State Ty) (ty : Ty) : Prop :=
  ∀ s, Sound s → Grows s (x.run s).2 ∧ Imported (x.run s).2 ty (x.run s).1

theorem run_importVar_known {v w : Nat} (found : s.imported.lookup v = some w) :
    (importVar v).run s = (.var w, s) := by
  rw [importVar, Step.run_bind]
  simp only [Step.run_get, found]
  rfl

theorem run_importVar_new {v : Nat} (new : s.imported.lookup v = none) :
    (importVar v).run s = (.var s.table.size,
      { s with
        table := s.table.fresh.2
        imported := (v, s.table.size) :: s.imported }) := by
  rw [importVar, Step.run_bind]
  simp only [Step.run_get, new]
  rfl

theorem lookup_cons_eq (imported : List (Nat × Nat)) (v w u : Nat) :
    ((v, w) :: imported).lookup u = if u = v then some w else imported.lookup u := by
  by_cases eq : u = v
  · simp [eq]
  · have miss : (u == v) = false := by simpa using eq
    simp [List.lookup, eq, miss]

theorem imports_importVar (v : Nat) : Imports (importVar v) (.var v) := by
  intro s sound
  cases found : s.imported.lookup v with
  | some w =>
      rw [run_importVar_known found]
      refine ⟨.refl sound, below_var (sound.imported v w found), ?_⟩
      intro A fits
      exact (fits.imported v w found).symm
  | none =>
      have more := Ty.Table.extends_fresh sound.table
      rw [run_importVar_new found]
      refine ⟨⟨⟨more.valid, ?_⟩, more.size_le, ?_, rfl⟩, below_fresh s.table, ?_⟩
      · intro u w
        rw [lookup_cons_eq, Ty.Table.size_fresh]
        split
        · intro eq
          cases eq
          omega
        · intro old
          have := sound.imported u w old
          omega
      · intro A fits
        refine ⟨more.models _ fits.models, ?_⟩
        intro u w old
        apply fits.imported u w
        rw [lookup_cons_eq, if_neg, old]
        rintro rfl
        rw [found] at old
        cases old
      · intro A fits
        refine (fits.imported v s.table.size ?_).symm
        rw [lookup_cons_eq, if_pos rfl]

theorem below_fn {n : Nat} {ps : List Ty} {r : Ty} (hps : ∀ p ∈ ps, p.Below n) (hr : r.Below n) :
    (Ty.fn ps r).Below n := by
  intro v hv
  rcases List.mem_append.mp hv with hv | hv
  · obtain ⟨p, hp, hv⟩ := Ty.mem_varsList.mp hv
    exact hps p hp v hv
  · exact hr v hv

theorem below_tuple {n : Nat} {es : List Ty} (h : ∀ e ∈ es, e.Below n) :
    (Ty.tuple es).Below n := by
  intro v hv
  obtain ⟨e, he, hv⟩ := Ty.mem_varsList.mp hv
  exact h e he v hv

theorem below_negation {n : Nat} (op : Negation) : op.ty.Below n := by
  cases op <;> exact nofun

theorem below_arith {n : Nat} (op : Arith) : op.ty.Below n := by
  cases op <;> exact nofun

theorem imports_list {tys : List Ty} (h : ∀ ty ∈ tys, Imports (ty.substM importVar) ty) :
    ∀ s, Sound s → Grows s ((Ty.substListM importVar tys).run s).2 ∧
      (∀ ty ∈ ((Ty.substListM importVar tys).run s).1,
        ty.Below ((Ty.substListM importVar tys).run s).2.table.size) ∧
      ∀ A : Solution, A.Fits ((Ty.substListM importVar tys).run s).2 →
        ((Ty.substListM importVar tys).run s).1.map A.apply = tys.map (·.subst A.callers) := by
  induction tys with
  | nil => exact fun s sound => ⟨.refl sound, nofun, fun _ _ => rfl⟩
  | cons ty tys ih =>
      intro s sound
      rw [List.forall_mem_cons] at h
      obtain ⟨grows, below, equal⟩ := h.1 s sound
      obtain ⟨grows', below', equal'⟩ := ih h.2 _ grows.sound
      simp only [Ty.substListM, Step.run_bind, Step.run_pure]
      refine ⟨grows.trans grows', ?_, ?_⟩
      · rw [List.forall_mem_cons]
        exact ⟨below.mono grows'.size_le, below'⟩
      · intro A fits
        rw [List.map_cons, List.map_cons, equal' A fits, equal A (grows'.fits A fits)]

theorem imports_importTy (ty : Ty) : Imports (importTy ty) ty := by
  rw [importTy]
  induction ty using Ty.induct with
  | unit | bool | int | float => exact fun s sound => ⟨.refl sound, nofun, fun _ _ => rfl⟩
  | var n => exact imports_importVar n
  | array e ih =>
      intro s sound
      obtain ⟨grows, below, equal⟩ := ih s sound
      simp only [Ty.substM, Step.run_bind, Step.run_pure]
      refine ⟨grows, below, ?_⟩
      intro A fits
      rw [Solution.apply_array, Ty.subst, equal A fits]
  | tuple es ih =>
      intro s sound
      obtain ⟨grows, below, equal⟩ := imports_list ih s sound
      simp only [Ty.substM, Step.run_bind, Step.run_pure]
      refine ⟨grows, below_tuple below, ?_⟩
      intro A fits
      rw [Solution.apply_tuple, Ty.subst, Ty.substList_eq_map, equal A fits]
  | fn ps r ihps ihr =>
      intro s sound
      obtain ⟨grows, below, equal⟩ := imports_list ihps s sound
      obtain ⟨grows', below', equal'⟩ := ihr _ grows.sound
      simp only [Ty.substM, Step.run_bind, Step.run_pure]
      refine ⟨grows.trans grows', below_fn ?_ below', ?_⟩
      · intro p hp
        exact (below p hp).mono grows'.size_le
      · intro A fits
        rw [Solution.apply_fn, Ty.subst, Ty.substList_eq_map, equal A (grows'.fits A fits),
          equal' A fits]

/-! ## External names -/

/-- Besides, the types of external names are types of the inference. -/
structure Ready (s : State) : Prop extends Sound s where
  externals : ∀ x ty, s.externals.find? x = some ty → ty.Below s.table.size

/-- Besides, the solution has the types of external names. -/
structure Solution.Solves (A : Solution) (s : State) : Prop extends A.Fits s where
  externals : ∀ x ty, s.externals.find? x = some ty → A.externals.find? x = some (A.apply ty)

/-- More is known in the second state. -/
structure Extends (s s' : State) : Prop where
  ready : Ready s'
  size_le : s.table.size ≤ s'.table.size
  solves : ∀ A : Solution, A.Solves s' → A.Solves s

theorem Extends.refl (ready : Ready s) : Extends s s :=
  ⟨ready, le_rfl, fun _ => id⟩

theorem Extends.trans {s'' : State} (h : Extends s s') (h' : Extends s' s'') : Extends s s'' :=
  ⟨h'.ready, h.size_le.trans h'.size_le, fun A solves => h.solves A (h'.solves A solves)⟩

theorem Grows.toExtends (h : Grows s s') (ready : Ready s) : Extends s s' := by
  refine ⟨⟨h.sound, ?_⟩, h.size_le, ?_⟩
  · intro x ty found
    rw [h.externals] at found
    exact (ready.externals x ty found).mono h.size_le
  · intro A solves
    refine ⟨h.fits A solves.toFits, ?_⟩
    intro x ty found
    apply solves.externals x ty
    rw [h.externals, found]

def Equates (s : State) (a b : Ty) : Prop :=
  ∀ A : Solution, A.Solves s → A.apply a = A.apply b

theorem Equates.later {a b : Ty} (h : Equates s a b) (extension : Extends s s') :
    Equates s' a b :=
  fun A solves => h A (extension.solves A solves)

theorem unify_equates {a b : Ty} (ready : Ready s) (ha : a.Below s.table.size)
    (hb : b.Below s.table.size) (h : Gives (unify a b) s () s') :
    Extends s s' ∧ Equates s' a b := by
  obtain ⟨grows, equal⟩ := unify_gives ready.toSound ha hb h
  exact ⟨grows.toExtends ready, fun A solves => equal A solves.toFits⟩

theorem fresh_below {ty : Ty} (ready : Ready s) (h : Gives (liftM fresh : Infer Ty) s ty s') :
    Extends s s' ∧ ty.Below s'.table.size := by
  obtain ⟨rfl, rfl⟩ := h.of_lift
  obtain ⟨grows, below⟩ := grows_fresh ready.toSound
  exact ⟨grows.toExtends ready, below⟩

/-- The binder has the name of a binder of the source and, if one is given, its type. -/
structure Binds (s : State) (x : Name × Option Ty) (b : Name × Ty) : Prop where
  name : b.1 = x.1
  below : b.2.Below s.table.size
  annotation : ∀ A : Solution, A.Solves s → ∀ ty, x.2 = some ty → A.apply b.2 = ty.subst A.callers

theorem Binds.later {x : Name × Option Ty} {b : Name × Ty} (h : Binds s x b)
    (extension : Extends s s') : Binds s' x b :=
  ⟨h.name, h.below.mono extension.size_le,
    fun A solves => h.annotation A (extension.solves A solves)⟩

theorem Binds.erase_eq {x : Name × Option Ty} {b : Name × Ty} (h : Binds s x b) :
    Term.mapBinder (fun _ => ()) b = Term.mapBinder (fun _ => ()) x :=
  Prod.ext h.name rfl

theorem erase_binders {xs : List (Name × Option Ty)} {bs : List (Name × Ty)}
    (h : List.Forall₂ (Binds s) xs bs) :
    bs.map (Term.mapBinder fun _ => ()) = xs.map (Term.mapBinder fun _ => ()) := by
  induction h with
  | nil => rfl
  | cons head _ ih => rw [List.map_cons, List.map_cons, head.erase_eq, ih]

theorem binder_binds {x : Name × Option Ty} {b : Name × Ty} (ready : Ready s)
    (h : Gives (liftM (binder x) : Infer (Name × Ty)) s b s') : Extends s s' ∧ Binds s' x b := by
  obtain ⟨rfl, rfl⟩ := h.of_lift
  obtain ⟨x, ann⟩ := x
  cases ann with
  | none =>
      obtain ⟨grows, below⟩ := grows_fresh ready.toSound
      exact ⟨grows.toExtends ready, rfl, below, nofun⟩
  | some ty =>
      obtain ⟨grows, below, equal⟩ := imports_importTy ty s ready.toSound
      refine ⟨grows.toExtends ready, rfl, below, ?_⟩
      intro A solves ty' eq
      cases eq
      exact equal A solves.toFits

theorem binders_bind {xs : List (Name × Option Ty)} {bs : List (Name × Ty)} (ready : Ready s)
    (h : Gives (xs.mapM fun x => (binder x : Infer (Name × Ty))) s bs s') :
    Extends s s' ∧ List.Forall₂ (Binds s') xs bs := by
  induction xs generalizing s bs with
  | nil =>
      obtain ⟨rfl, rfl⟩ := h.of_pure
      exact ⟨.refl ready, .nil⟩
  | cons x xs ih =>
      rw [List.mapM_cons] at h
      obtain ⟨b, s₁, first, h⟩ := h.of_bind
      obtain ⟨bs, s₂, others, h⟩ := h.of_bind
      obtain ⟨rfl, rfl⟩ := h.of_pure
      obtain ⟨extension, bind⟩ := binder_binds ready first
      obtain ⟨extension', binds⟩ := ih extension.ready others
      exact ⟨extension.trans extension', .cons (bind.later extension') binds⟩

theorem forall_right {α β : Type} {R : α → β → Prop} {P : β → Prop} {as : List α} {bs : List β}
    (h : List.Forall₂ R as bs) (imp : ∀ a b, R a b → P b) : ∀ b ∈ bs, P b := by
  induction h with
  | nil => exact nofun
  | cons head _ ih => exact List.forall_mem_cons.mpr ⟨imp _ _ head, ih⟩

theorem below_of_binds {xs : List (Name × Option Ty)} {bs : List (Name × Ty)}
    (h : List.Forall₂ (Binds s) xs bs) : ∀ b ∈ bs, b.2.Below s.table.size :=
  forall_right h fun _ _ b => b.below

/-- All types in the scope are types of the inference. -/
def ScopeBelow (n : Nat) (scope : Scope Ty) : Prop :=
  ∀ x ty, scope.get? x = some ty → ty.Below n

theorem scopeBelow_empty (n : Nat) : ScopeBelow n .empty := by
  intro x ty bound
  cases bound

theorem ScopeBelow.mono {m n : Nat} {scope : Scope Ty} (h : ScopeBelow m scope) (le : m ≤ n) :
    ScopeBelow n scope :=
  fun x ty bound => (h x ty bound).mono le

theorem ScopeBelow.bind {n : Nat} {scope : Scope Ty} {b : Name × Ty} (h : ScopeBelow n scope)
    (hb : b.2.Below n) : ScopeBelow n (scope.bind b.1 b.2) := by
  intro x ty
  rw [Scope.get?_bind]
  split
  · intro eq
    cases eq
    exact hb
  · exact h x ty

theorem ScopeBelow.bindAll {n : Nat} {scope : Scope Ty} {bs : List (Name × Ty)}
    (h : ScopeBelow n scope) (hbs : ∀ b ∈ bs, b.2.Below n) : ScopeBelow n (scope.bindAll bs) := by
  intro x ty
  rw [Scope.get?_bindAll, Option.or_eq_some_iff]
  rintro (found | ⟨-, found⟩)
  · obtain ⟨before, after, eq, -⟩ := List.lookup_eq_some_iff.mp found
    refine hbs (x, ty) ?_
    rw [← List.mem_reverse, eq]
    exact List.mem_append_right _ (List.mem_cons_self ..)
  · exact h x ty found

/-- The term has this type once the types are known. -/
def Types (s : State) (scope : Scope Ty) (t : Typed) (ty : Ty) : Prop :=
  ∀ A : Solution, A.Solves s →
    HasType A.externals (scope.map A.apply) (t.map A.apply A.apply) (A.apply ty)

theorem Types.later {scope : Scope Ty} {t : Typed} {ty : Ty} (h : Types s scope t ty)
    (extension : Extends s s') : Types s' scope t ty :=
  fun A solves => h A (extension.solves A solves)

theorem Types.convert {scope : Scope Ty} {t : Typed} {ty ty' : Ty} (h : Types s scope t ty')
    (equal : Equates s ty ty') : Types s scope t ty := by
  intro A solves
  rw [equal A solves]
  exact h A solves

/-- What is known once a name that nothing binds is taken for an external one. -/
def State.assume (s : State) (x : Name) : State :=
  { s with
    table := s.table.fresh.2
    warnings := s.warnings ++ [.assumedExternal x]
    externals := s.externals.insert x (.var s.table.size) }

theorem assume_extends {x : Name} (ready : Ready s) (new : s.externals.find? x = none) :
    Extends s (s.assume x) := by
  have insert := Signature.find?_insert new (.var s.table.size)
  have more := Ty.Table.extends_fresh ready.table
  refine ⟨⟨⟨more.valid, ?_⟩, ?_⟩, more.size_le, ?_⟩
  · intro v w imported
    exact (ready.imported v w imported).trans_le more.size_le
  · intro y ty
    rw [State.assume, insert]
    split
    · intro eq
      cases eq
      exact below_fresh s.table
    · intro old
      exact (ready.externals y ty old).mono more.size_le
  · -- The entry is new, so every solution of the longer signature solves the old one.
    intro A solves
    refine ⟨⟨more.models _ solves.models, solves.imported⟩, ?_⟩
    intro y ty old
    apply solves.externals y ty
    rw [State.assume, insert, if_neg, old]
    rintro rfl
    rw [new] at old
    cases old

section
variable {scope : Scope Ty} {x : Name} {ty : Ty}

theorem run_occurrence_bound (bound : scope.get? x = some ty) :
    (occurrence scope x).run s = (ty, s) := by
  simp only [occurrence, bound]
  rfl

theorem run_occurrence_known (free : scope.get? x = none)
    (found : s.externals.find? x = some ty) : (occurrence scope x).run s = (ty, s) := by
  simp only [occurrence, free, Step.run_bind, Step.run_get, found]
  rfl

theorem run_occurrence_new (free : scope.get? x = none) (new : s.externals.find? x = none) :
    (occurrence scope x).run s = (.var s.table.size, s.assume x) := by
  simp only [occurrence, free, Step.run_bind, Step.run_get, new]
  rfl

end

theorem occurrence_types {scope : Scope Ty} {x : Name} {ty : Ty} (ready : Ready s)
    (below : ScopeBelow s.table.size scope)
    (h : Gives (liftM (occurrence scope x) : Infer Ty) s ty s') :
    Extends s s' ∧ ty.Below s'.table.size ∧ Types s' scope (.var ty x) ty := by
  obtain ⟨rfl, rfl⟩ := h.of_lift
  cases bound : scope.get? x with
  | some ty =>
      rw [run_occurrence_bound bound]
      refine ⟨.refl ready, below x ty bound, ?_⟩
      intro A _
      apply HasType.var
      rw [Scope.get?_map, bound]
      rfl
  | none =>
      have free : ∀ A : Solution, (scope.map A.apply).get? x = none := by
        intro A
        rw [Scope.get?_map, bound]
        rfl
      cases found : s.externals.find? x with
      | some ty =>
          rw [run_occurrence_known bound found]
          refine ⟨.refl ready, ready.externals x ty found, ?_⟩
          intro A solves
          exact .external (free A) (solves.externals x ty found)
      | none =>
          rw [run_occurrence_new bound found]
          refine ⟨assume_extends ready found, below_fresh s.table, ?_⟩
          intro A solves
          refine .external (free A) (solves.externals x _ ?_)
          rw [State.assume, Signature.find?_insert found, if_pos rfl]

/-! ## Terms -/

/-- What is known about a term after its inference. -/
structure Inferred (s : State) (scope : Scope Ty) (e : Source) (t : Typed) : Prop where
  below : (Typed.ty t).Below s.table.size
  erase : t.erase = e.erase
  binders : List.Forall₂ (Binds s) e.binders t.binders
  typed : Types s scope t (Typed.ty t)

theorem Inferred.later {scope : Scope Ty} {e : Source} {t : Typed} (h : Inferred s scope e t)
    (extension : Extends s s') : Inferred s' scope e t :=
  ⟨h.below.mono extension.size_le, h.erase, h.binders.imp fun _ _ b => b.later extension,
    h.typed.later extension⟩

/-- Inference of the term is sound. -/
def Infers (e : Source) : Prop :=
  ∀ ⦃scope s t s'⦄, Ready s → ScopeBelow s.table.size scope → Gives (infer scope e) s t s' →
    Extends s s' ∧ Inferred s' scope e t

/-- A part whose type is then made equal to the one that a rule expects. -/
theorem Infers.expect {scope : Scope Ty} {e : Source} {t : Typed} {s₁ : State} {ty : Ty}
    (he : Infers e) (ready : Ready s) (below : ScopeBelow s.table.size scope)
    (part : Gives (infer scope e) s t s₁) (equation : Gives (unify ty (Typed.ty t)) s₁ () s')
    (known : ty.Below s.table.size) :
    Extends s s' ∧ Inferred s' scope e t ∧ Types s' scope t ty := by
  obtain ⟨more, inferred⟩ := he ready below part
  obtain ⟨more', equal⟩ :=
    unify_equates more.ready (known.mono more.size_le) inferred.below equation
  have inferred' := inferred.later more'
  exact ⟨more.trans more', inferred', inferred'.typed.convert equal⟩

theorem infers_var (n : Unit) (x : Name) : Infers (.var n x) := by
  intro scope s t s' ready below h
  obtain ⟨ty, s₁, found, h⟩ := h.of_bind
  obtain ⟨rfl, rfl⟩ := h.of_pure
  obtain ⟨more, known, typed⟩ := occurrence_types ready below found
  exact ⟨more, known, rfl, .nil, typed⟩

end

end Typing

end MiddleEnd
