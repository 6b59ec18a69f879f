import Mathlib
import MiddleEnd.Proofs.Typing.Soundness

/-! # Completeness of type inference

Whatever has a derivation by the typing rules is accepted by inference.  While the
term is walked, the types of the derivation are types for the variables of the
inference: a new variable gets the type that the derivation has in its place, and
every equation that is solved holds in the derivation, so none of them fails.
Inference satisfies every typing rule in this sense, and hence finds every
derivation.
-/

namespace MiddleEnd

namespace Typing

/-- The same types of the caller and of external names, with other types for the variables
    of the inference. -/
def Solution.withTypes (A : Solution) (ρ : Nat → Ty) : Solution :=
  { A with types := ρ }

/-- With these types for variables all that is known is true. -/
structure Consistent (A : Solution) (s : State) (ρ : Nat → Ty) : Prop where
  ready : Ready s
  solves : (A.withTypes ρ).Solves s

/-- The signature of the inference has all external names. -/
def Covers (A : Solution) (s : State) : Prop :=
  ∀ x τ, A.externals.find? x = some τ → s.externals.find? x ≠ none

/-- The later state has a solution too, which only adds types for new variables.  The
    signature grows only where a name is missing in it. -/
structure Continues (A : Solution) (s : State) (ρ : Nat → Ty) (s' : State) (ρ' : Nat → Ty) :
    Prop extends Consistent A s' ρ' where
  size_le : s.table.size ≤ s'.table.size
  agrees : ∀ v < s.table.size, ρ' v = ρ v
  externals : Covers A s → s'.externals = s.externals

/-- The type of the inference stands for `τ`, with these types for variables. -/
structure Means (s : State) (ρ : Nat → Ty) (ty τ : Ty) : Prop where
  below : ty.Below s.table.size
  subst_eq : ty.subst ρ = τ

/-- The binder of the inference stands for the binder `c` of a derivation. -/
def BinderMeans (s : State) (ρ : Nat → Ty) (b c : Name × Ty) : Prop :=
  c.1 = b.1 ∧ Means s ρ b.2 c.2

/-- The types in the scope of the inference stand for those in a scope of a derivation. -/
def ScopeMeans (s : State) (ρ : Nat → Ty) (scope Γ : Scope Ty) : Prop :=
  ∀ x, Option.Rel (Means s ρ) (scope.get? x) (Γ.get? x)

/-- The step succeeds, and the types for variables can be continued over the new ones such
    that the result has the property. -/
def Succeeds {α : Type} (A : Solution) (x : Infer α) (s : State) (ρ : Nat → Ty)
    (Q : α → State → (Nat → Ty) → Prop) : Prop :=
  ∃ a s' ρ', Gives x s a s' ∧ Continues A s ρ s' ρ' ∧ Q a s' ρ'

section
variable {A : Solution} {s s' s'' : State} {ρ ρ' ρ'' : Nat → Ty} {scope Γ : Scope Ty}
  {ty ty' τ υ : Ty}

theorem Consistent.continues (now : Consistent A s ρ) : Continues A s ρ s ρ :=
  ⟨now, le_rfl, fun _ _ => rfl, fun _ => rfl⟩

theorem Continues.trans (h : Continues A s ρ s' ρ') (h' : Continues A s' ρ' s'' ρ'') :
    Continues A s ρ s'' ρ'' := by
  refine ⟨h'.toConsistent, h.size_le.trans h'.size_le, ?_, ?_⟩
  · intro v inside
    rw [h'.agrees v (inside.trans_le h.size_le), h.agrees v inside]
  · intro covers
    have first := h.externals covers
    rw [Covers, ← first] at covers
    exact (h'.externals covers).trans first

theorem subst_eq_of_agrees {n : Nat} (below : ty.Below n) (agrees : ∀ v < n, ρ' v = ρ v) :
    ty.subst ρ' = ty.subst ρ :=
  Ty.subst_congr fun v hv => agrees v (below v hv)

theorem Consistent.externals_of_agrees {x : Name} (now : Consistent A s ρ)
    (agrees : ∀ v < s.table.size, ρ' v = ρ v) (found : s.externals.find? x = some ty) :
    A.externals.find? x = some (ty.subst ρ') := by
  rw [subst_eq_of_agrees (now.ready.externals x ty found) agrees]
  exact now.solves.externals x ty found

/-! ## What types stand for -/

namespace Means

theorem later (h : Means s ρ ty τ) (more : Continues A s ρ s' ρ') : Means s' ρ' ty τ :=
  ⟨h.below.mono more.size_le, (subst_eq_of_agrees h.below more.agrees).trans h.subst_eq⟩

theorem unit : Means s ρ .unit .unit := ⟨nofun, rfl⟩

theorem bool : Means s ρ .bool .bool := ⟨nofun, rfl⟩

theorem int : Means s ρ .int .int := ⟨nofun, rfl⟩

theorem array (h : Means s ρ ty τ) : Means s ρ (.array ty) (.array τ) :=
  ⟨h.below, congrArg Ty.array h.subst_eq⟩

theorem map_subst {tys τs : List Ty} (h : List.Forall₂ (Means s ρ) tys τs) :
    tys.map (·.subst ρ) = τs := by
  induction h with
  | nil => rfl
  | cons head _ ih => rw [List.map_cons, head.subst_eq, ih]

theorem below_list {tys τs : List Ty} (h : List.Forall₂ (Means s ρ) tys τs) :
    ∀ ty ∈ tys, ty.Below s.table.size :=
  forall_right h.flip fun _ _ means => means.below

theorem tuple {tys τs : List Ty} (h : List.Forall₂ (Means s ρ) tys τs) :
    Means s ρ (.tuple tys) (.tuple τs) := by
  refine ⟨below_tuple (below_list h), ?_⟩
  rw [Ty.subst, Ty.substList_eq_map, map_subst h]

theorem fn {tys τs : List Ty} (h : List.Forall₂ (Means s ρ) tys τs) (result : Means s ρ ty τ) :
    Means s ρ (.fn tys ty) (.fn τs τ) := by
  refine ⟨below_fn (below_list h) result.below, ?_⟩
  rw [Ty.subst, Ty.substList_eq_map, map_subst h, result.subst_eq]

theorem negation (op : Negation) : Means s ρ op.ty op.ty :=
  ⟨below_negation op, by cases op <;> rfl⟩

theorem arith (op : Arith) : Means s ρ op.ty op.ty :=
  ⟨below_arith op, by cases op <;> rfl⟩

end Means

theorem BinderMeans.later {b c : Name × Ty} (h : BinderMeans s ρ b c)
    (more : Continues A s ρ s' ρ') : BinderMeans s' ρ' b c :=
  ⟨h.1, h.2.later more⟩

theorem binderMeans_types {bs cs : List (Name × Ty)} (h : List.Forall₂ (BinderMeans s ρ) bs cs) :
    List.Forall₂ (Means s ρ) (bs.map (·.2)) (cs.map (·.2)) := by
  rw [List.forall₂_map_left_iff, List.forall₂_map_right_iff]
  exact h.imp fun _ _ means => means.2

namespace ScopeMeans

theorem later (h : ScopeMeans s ρ scope Γ) (more : Continues A s ρ s' ρ') :
    ScopeMeans s' ρ' scope Γ := by
  intro x
  have found := h x
  generalize scope.get? x = o at found ⊢
  generalize Γ.get? x = o' at found ⊢
  cases found with
  | some means => exact .some (means.later more)
  | none => exact .none

theorem bind {b c : Name × Ty} (h : ScopeMeans s ρ scope Γ) (binder : BinderMeans s ρ b c) :
    ScopeMeans s ρ (scope.bind b.1 b.2) (Γ.bind c.1 c.2) := by
  intro x
  rw [Scope.get?_bind, Scope.get?_bind, binder.1]
  split
  · exact .some binder.2
  · exact h x

theorem bindAll {bs cs : List (Name × Ty)} (h : ScopeMeans s ρ scope Γ)
    (binders : List.Forall₂ (BinderMeans s ρ) bs cs) :
    ScopeMeans s ρ (scope.bindAll bs) (Γ.bindAll cs) := by
  intro x
  have found := lookup_rel (List.rel_reverse binders) x
  rw [Scope.get?_bindAll, Scope.get?_bindAll]
  generalize bs.reverse.lookup x = o at found ⊢
  generalize cs.reverse.lookup x = o' at found ⊢
  cases found with
  | some means => exact .some means
  | none => exact h x

end ScopeMeans

/-! ## Steps -/

namespace Succeeds

variable {α β : Type} {x : Infer α} {Q : α → State → (Nat → Ty) → Prop}

theorem pure {a : α} (now : Consistent A s ρ) (h : Q a s ρ) :
    Succeeds A (Pure.pure a) s ρ Q :=
  ⟨a, s, ρ, .pure a s, now.continues, h⟩

theorem bind {f : α → Infer β} {R : β → State → (Nat → Ty) → Prop} (h : Succeeds A x s ρ Q)
    (next : ∀ a s' ρ', Continues A s ρ s' ρ' → Q a s' ρ' → Succeeds A (f a) s' ρ' R) :
    Succeeds A (x >>= f) s ρ R := by
  obtain ⟨a, s₁, ρ₁, gives, more, ha⟩ := h
  obtain ⟨b, s₂, ρ₂, gives', more', hb⟩ := next a s₁ ρ₁ more ha
  exact ⟨b, s₂, ρ₂, gives.bind gives', more.trans more', hb⟩

theorem lift {x : StateM State α} {a : α} (run : x.run s = (a, s'))
    (more : Continues A s ρ s' ρ') (h : Q a s' ρ') : Succeeds A (liftM x) s ρ Q :=
  ⟨a, s', ρ', .lift run, more, h⟩

end Succeeds

/-- Where no external name is new, types for variables only need to fit. -/
theorem Grows.continues (grows : Grows s s') (now : Consistent A s ρ)
    (fits : (A.withTypes ρ').Fits s') (agrees : ∀ v < s.table.size, ρ' v = ρ v) :
    Continues A s ρ s' ρ' := by
  refine ⟨⟨(grows.toExtends now.ready).ready, fits, ?_⟩, grows.size_le, agrees,
    fun _ => grows.externals⟩
  intro x ty found
  rw [grows.externals] at found
  exact now.externals_of_agrees agrees found

theorem Solution.Fits.congr (fits : (A.withTypes ρ).Fits s) (sound : Sound s)
    (agrees : ∀ v < s.table.size, ρ' v = ρ v) : (A.withTypes ρ').Fits s := by
  refine ⟨fits.models.congr sound.table agrees, ?_⟩
  intro v w found
  exact (fits.imported v w found).trans (agrees w (sound.imported v w found)).symm

theorem update_agrees (ρ : Nat → Ty) (n : Nat) (τ : Ty) :
    ∀ v < n, Function.update ρ n τ v = ρ v :=
  fun _ inside => Function.update_of_ne inside.ne ..

/-- A new variable may get any type. -/
theorem fresh_continues (now : Consistent A s ρ) (τ : Ty) :
    ∃ ρ', Continues A s ρ (fresh.run s).2 ρ' ∧ Means (fresh.run s).2 ρ' (fresh.run s).1 τ := by
  have agrees := update_agrees ρ s.table.size τ
  have fits := now.solves.toFits.congr now.ready.toSound agrees
  obtain ⟨grows, below⟩ := grows_fresh now.ready.toSound
  exact ⟨_, grows.continues now ⟨fits.models.fresh, fits.imported⟩ agrees, below,
    Function.update_self ..⟩

theorem fresh_succeeds (now : Consistent A s ρ) (τ : Ty) :
    Succeeds A (liftM fresh) s ρ fun ty s' ρ' => Means s' ρ' ty τ := by
  obtain ⟨ρ', more, means⟩ := fresh_continues now τ
  exact .lift rfl more means

/-- An equation that holds can be solved. -/
theorem unify_succeeds (now : Consistent A s ρ) (left : Means s ρ ty τ) (right : Means s ρ ty' τ) :
    Succeeds A (unify ty ty') s ρ fun _ _ _ => True := by
  have equal : ty.subst ρ = ty'.subst ρ := left.subst_eq.trans right.subst_eq.symm
  obtain ⟨t, unified, models⟩ :=
    Ty.Table.unify_complete now.ready.table left.below right.below now.solves.models equal
  have gives : Gives (unify ty ty') s () { s with table := t } := by
    show ((s.table.unify ty ty').1, { s with table := (s.table.unify ty ty').2 }) = _
    rw [unified]
  obtain ⟨grows, -⟩ := unify_gives now.ready.toSound left.below right.below gives
  exact ⟨(), _, ρ, gives, grows.continues now ⟨models, now.solves.imported⟩ fun _ _ => rfl, trivial⟩

/-! ## Types of the caller -/

/-- Some types for variables fit the state and agree with those of the first `n`. -/
structure Fitted (A : Solution) (n : Nat) (ρ : Nat → Ty) (s : State) : Prop where
  sound : Sound s
  size_le : n ≤ s.table.size
  fits : ∃ ρ', (A.withTypes ρ').Fits s ∧ ∀ v < n, ρ' v = ρ v

theorem preserves_importVar (n v : Nat) : Preserves (Fitted A n ρ) (importVar v) := by
  rintro s ⟨sound, size_le, ρ', fits, agrees⟩
  obtain ⟨grows, -⟩ := imports_importVar v s sound
  refine ⟨grows.sound, size_le.trans grows.size_le, ?_⟩
  cases found : s.imported.lookup v with
  | some w =>
      rw [run_importVar_known found]
      exact ⟨ρ', fits, agrees⟩
  | none =>
      have agrees' := update_agrees ρ' s.table.size (A.callers v)
      have fits' := fits.congr sound agrees'
      rw [run_importVar_new found]
      refine ⟨_, ⟨fits'.models.fresh, ?_⟩, fun u hu => ?_⟩
      · intro u w
        rw [lookup_cons_eq]
        split
        · rename_i eq
          intro same
          cases same
          rw [eq]
          exact (Function.update_self s.table.size (A.callers v) ρ').symm
        · exact fits'.imported u w
      · rw [agrees' u (hu.trans_le size_le), agrees u hu]

theorem importTy_continues (now : Consistent A s ρ) (ty : Ty) :
    ∃ ρ', Continues A s ρ ((importTy ty).run s).2 ρ' ∧
      Means ((importTy ty).run s).2 ρ' ((importTy ty).run s).1 (ty.subst A.callers) := by
  have start : Fitted A s.table.size ρ s :=
    ⟨now.ready.toSound, le_rfl, ρ, now.solves.toFits, fun _ _ => rfl⟩
  have each : Preserves (Fitted A s.table.size ρ) (importTy ty) :=
    Ty.preserves_substM fun v _ => preserves_importVar s.table.size v
  obtain ⟨-, -, ρ', fits, agrees⟩ := each s start
  obtain ⟨grows, imported⟩ := imports_importTy ty s now.ready.toSound
  exact ⟨ρ', grows.continues now fits agrees, imported.below, imported.equal _ fits⟩

/-- The binder has the name of a binder of the source and, if one is given, its type. -/
def Respects (callers : Nat → Ty) (x : Name × Option Ty) (b : Name × Ty) : Prop :=
  b.1 = x.1 ∧ ∀ ty, x.2 = some ty → b.2 = ty.subst callers

theorem binder_succeeds {x : Name × Option Ty} {c : Name × Ty} (now : Consistent A s ρ)
    (respects : Respects A.callers x c) :
    Succeeds A (liftM (binder x)) s ρ fun b s' ρ' => BinderMeans s' ρ' b c := by
  obtain ⟨x, annotation⟩ := x
  cases annotation with
  | none =>
      obtain ⟨ρ', more, means⟩ := fresh_continues now c.2
      exact .lift rfl more ⟨respects.1, means⟩
  | some ty =>
      obtain ⟨ρ', more, means⟩ := importTy_continues now ty
      rw [← respects.2 ty rfl] at means
      exact .lift rfl more ⟨respects.1, means⟩

theorem binders_succeed {xs : List (Name × Option Ty)} {cs : List (Name × Ty)}
    (now : Consistent A s ρ) (respects : List.Forall₂ (Respects A.callers) xs cs) :
    Succeeds A (xs.mapM fun x => (binder x : Infer (Name × Ty))) s ρ fun bs s' ρ' =>
      List.Forall₂ (BinderMeans s' ρ') bs cs := by
  induction respects generalizing s ρ with
  | nil => exact .pure now .nil
  | cons head _ ih =>
      rw [List.mapM_cons]
      refine (binder_succeeds now head).bind fun b s₁ ρ₁ more₁ first => ?_
      refine (ih more₁.toConsistent).bind fun bs s₂ ρ₂ more₂ others => ?_
      exact .pure more₂.toConsistent (.cons (first.later more₂) others)

end

/-! ## Terms -/

/-- The term is the source term with types, which are right for its annotations. -/
structure Elaborates (callers : Nat → Ty) (e : Source) (t : Typed) : Prop where
  erase : t.erase = e.erase
  binders : List.Forall₂ (Respects callers) e.binders t.binders

theorem forall₂_of_append {α β : Type} {R : α → β → Prop} {as as' : List α} {bs bs' : List β}
    (full : as.length = bs.length) (h : List.Forall₂ R (as ++ as') (bs ++ bs')) :
    List.Forall₂ R as bs ∧ List.Forall₂ R as' bs' := by
  induction as generalizing bs with
  | nil =>
      obtain rfl := List.length_eq_zero_iff.mp full.symm
      exact ⟨.nil, h⟩
  | cons a as ih =>
      obtain ⟨b, bs, rfl⟩ := List.exists_cons_of_length_eq_add_one full.symm
      obtain ⟨head, rest⟩ := List.forall₂_cons.mp h
      obtain ⟨left, right⟩ := ih (Nat.succ.inj full) rest
      exact ⟨.cons head left, right⟩

section
variable {callers : Nat → Ty} {e : Source} {t : Typed}

theorem length_binders (erase : t.erase = e.erase) : e.binders.length = t.binders.length := by
  have same := congrArg (·.binders.length) erase
  simpa only [Term.erase, Term.binders_map, List.length_map] using same.symm

theorem elaborates_of_append {xs : List (Name × Option Ty)} {bs : List (Name × Ty)}
    (erase : t.erase = e.erase)
    (binders : List.Forall₂ (Respects callers) (e.binders ++ xs) (t.binders ++ bs)) :
    Elaborates callers e t ∧ List.Forall₂ (Respects callers) xs bs := by
  obtain ⟨own, others⟩ := forall₂_of_append (length_binders erase) binders
  exact ⟨⟨erase, own⟩, others⟩

theorem elaborates_pair {e' : Source} {t' : Typed} (erase : t.erase = e.erase)
    (erase' : t'.erase = e'.erase)
    (binders : List.Forall₂ (Respects callers) (e.binders ++ e'.binders) (t.binders ++ t'.binders)) :
    Elaborates callers e t ∧ Elaborates callers e' t' := by
  obtain ⟨first, rest⟩ := elaborates_of_append erase binders
  exact ⟨first, erase', rest⟩

theorem elaborates_list {es : List Source} {ts : List Typed}
    (erase : Term.mapList (fun _ => ()) (fun _ => ()) ts = Term.mapList (fun _ => ()) (fun _ => ()) es)
    (binders : List.Forall₂ (Respects callers) (Term.bindersList es) (Term.bindersList ts)) :
    List.Forall₂ (Elaborates callers) es ts := by
  induction es generalizing ts with
  | nil =>
      cases ts with
      | nil => exact .nil
      | cons => cases erase
  | cons e es ih =>
      cases ts with
      | nil => cases erase
      | cons t ts =>
          obtain ⟨head, tail⟩ := List.cons.inj erase
          obtain ⟨first, others⟩ := elaborates_of_append head binders
          exact .cons first (ih tail others)

end

/-- What is known agrees with a derivation: it has a solution, with which the types of the
    scope are those of the derivation. -/
structure Follows (A : Solution) (s : State) (ρ : Nat → Ty) (scope Γ : Scope Ty) : Prop extends
    Consistent A s ρ where
  names : ScopeMeans s ρ scope Γ

/-- What is found for a term stands for the derivation `t` of the type `τ`, with these types
    for variables: at the root and at all binders. -/
structure Found (s : State) (ρ : Nat → Ty) (t : Typed) (τ : Ty) (u : Typed) : Prop where
  type : Means s ρ (Typed.ty u) τ
  binders : List.Forall₂ (BinderMeans s ρ) u.binders t.binders

/-- Inference finds the derivation of this type for the term. -/
def Finds (A : Solution) (Γ : Scope Ty) (t : Typed) (τ : Ty) : Prop :=
  ∀ ⦃e scope s ρ⦄, Elaborates A.callers e t → Follows A s ρ scope Γ →
    Succeeds A (infer scope e) s ρ fun u s' ρ' => Found s' ρ' t τ u

section
variable {A : Solution} {s s' : State} {ρ ρ' : Nat → Ty} {scope Γ : Scope Ty} {ty τ υ : Ty}

namespace Follows

theorem later (h : Follows A s ρ scope Γ) (more : Continues A s ρ s' ρ') :
    Follows A s' ρ' scope Γ :=
  ⟨more.toConsistent, h.names.later more⟩

theorem bind {b c : Name × Ty} (h : Follows A s ρ scope Γ) (binder : BinderMeans s ρ b c) :
    Follows A s ρ (scope.bind b.1 b.2) (Γ.bind c.1 c.2) :=
  ⟨h.toConsistent, h.names.bind binder⟩

theorem bindAll {bs cs : List (Name × Ty)} (h : Follows A s ρ scope Γ)
    (binders : List.Forall₂ (BinderMeans s ρ) bs cs) :
    Follows A s ρ (scope.bindAll bs) (Γ.bindAll cs) :=
  ⟨h.toConsistent, h.names.bindAll binders⟩

end Follows

theorem Found.later {t u : Typed} (h : Found s ρ t τ u) (more : Continues A s ρ s' ρ') :
    Found s' ρ' t τ u :=
  ⟨h.type.later more, h.binders.imp fun _ _ b => b.later more⟩

/-- A part whose type is then made equal to the one that a rule expects. -/
theorem Finds.expect {α : Type} {e : Source} {t : Typed} {f : Typed → Infer α}
    {Q : α → State → (Nat → Ty) → Prop} (h : Finds A Γ t τ) (source : Elaborates A.callers e t)
    (now : Follows A s ρ scope Γ) (expected : Means s ρ ty τ)
    (next : ∀ u s' ρ', Continues A s ρ s' ρ' → Found s' ρ' t τ u → Succeeds A (f u) s' ρ' Q) :
    Succeeds A (infer scope e >>= fun u => unify ty (Typed.ty u) >>= fun _ => f u) s ρ Q := by
  refine (h source now).bind fun u s₁ ρ₁ more₁ found => ?_
  refine (unify_succeeds more₁.toConsistent (expected.later more₁) found.type).bind
    fun _ s₂ ρ₂ more₂ _ => ?_
  exact next u s₂ ρ₂ (more₁.trans more₂) (found.later more₂)

theorem finds_not {e : Typed} (he : Finds A Γ e .bool) : Finds A Γ (.not .bool e) .bool := by
  intro e scope s ρ source now
  cases e with
  | not _ e =>
      have part := (Term.not.inj source.erase).2
      refine he.expect ⟨part, source.binders⟩ now .bool fun u s₁ ρ₁ more found => ?_
      exact .pure more.toConsistent ⟨.bool, found.binders⟩
  | _ => cases source.erase

theorem finds_negate {op : Negation} {e : Typed} (he : Finds A Γ e op.ty) :
    Finds A Γ (.negate op.ty op e) op.ty := by
  intro e scope s ρ source now
  cases e with
  | negate _ _ e =>
      obtain ⟨-, rfl, part⟩ := Term.negate.inj source.erase
      refine he.expect ⟨part, source.binders⟩ now (.negation op) fun u s₁ ρ₁ more found => ?_
      exact .pure more.toConsistent ⟨.negation op, found.binders⟩
  | _ => cases source.erase

theorem finds_arith {op : Arith} {l r : Typed} (hl : Finds A Γ l op.ty) (hr : Finds A Γ r op.ty) :
    Finds A Γ (.arith op.ty op l r) op.ty := by
  intro e scope s ρ source now
  cases e with
  | arith _ _ l r =>
      obtain ⟨-, rfl, left, right⟩ := Term.arith.inj source.erase
      obtain ⟨left, right⟩ := elaborates_pair left right source.binders
      refine (hl left now).bind fun u s₁ ρ₁ more₁ isLeft => ?_
      refine (hr right (now.later more₁)).bind fun v s₂ ρ₂ more₂ isRight => ?_
      refine (unify_succeeds more₂.toConsistent (.arith op) (isLeft.later more₂).type).bind
        fun _ s₃ ρ₃ more₃ _ => ?_
      refine (unify_succeeds more₃.toConsistent (.arith op) (isRight.later more₃).type).bind
        fun _ s₄ ρ₄ more₄ _ => ?_
      have left := isLeft.later (more₂.trans (more₃.trans more₄))
      have right := isRight.later (more₃.trans more₄)
      exact .pure more₄.toConsistent ⟨.arith op, List.rel_append left.binders right.binders⟩
  | _ => cases source.erase

theorem finds_compare {op : Comparison} {l r : Typed} (hl : Finds A Γ l τ) (hr : Finds A Γ r τ) :
    Finds A Γ (.compare .bool op l r) .bool := by
  intro e scope s ρ source now
  cases e with
  | compare _ _ l r =>
      obtain ⟨-, rfl, left, right⟩ := Term.compare.inj source.erase
      obtain ⟨left, right⟩ := elaborates_pair left right source.binders
      refine (hl left now).bind fun u s₁ ρ₁ more₁ isLeft => ?_
      refine hr.expect right (now.later more₁) isLeft.type fun v s₂ ρ₂ more₂ isRight => ?_
      exact .pure more₂.toConsistent
        ⟨.bool, List.rel_append (isLeft.later more₂).binders isRight.binders⟩
  | _ => cases source.erase

theorem finds_ifThenElse {c y o : Typed} (hc : Finds A Γ c .bool) (hy : Finds A Γ y τ)
    (ho : Finds A Γ o τ) : Finds A Γ (.ifThenElse τ c y o) τ := by
  intro e scope s ρ source now
  cases e with
  | ifThenElse _ c y o =>
      obtain ⟨-, test, yes, no⟩ := Term.ifThenElse.inj source.erase
      obtain ⟨test, binders⟩ := elaborates_of_append test source.binders
      obtain ⟨yes, no⟩ := elaborates_pair yes no binders
      refine hc.expect test now .bool fun u s₁ ρ₁ more₁ isTest => ?_
      refine (hy yes (now.later more₁)).bind fun v s₂ ρ₂ more₂ isYes => ?_
      refine ho.expect no (now.later (more₁.trans more₂)) isYes.type fun w s₃ ρ₃ more₃ isNo => ?_
      have test := isTest.later (more₂.trans more₃)
      have yes := isYes.later more₃
      exact .pure more₃.toConsistent
        ⟨yes.type, List.rel_append test.binders (List.rel_append yes.binders isNo.binders)⟩
  | _ => cases source.erase

theorem finds_letIn {x : Name} {e1 e2 : Typed} (h1 : Finds A Γ e1 τ)
    (h2 : Finds A (Γ.bind x τ) e2 υ) : Finds A Γ (.letIn υ (x, τ) e1 e2) υ := by
  intro e scope s ρ source now
  cases e with
  | letIn _ x e1 e2 =>
      obtain ⟨-, -, first, second⟩ := Term.letIn.inj source.erase
      obtain ⟨name, binders⟩ := List.forall₂_cons.mp source.binders
      obtain ⟨first, second⟩ := elaborates_pair first second binders
      refine (binder_succeeds now.toConsistent name).bind fun b s₁ ρ₁ more₁ binder => ?_
      refine h1.expect first (now.later more₁) binder.2 fun u s₂ ρ₂ more₂ bound => ?_
      have inner := (now.later (more₁.trans more₂)).bind (binder.later more₂)
      refine (h2 second inner).bind fun v s₃ ρ₃ more₃ body => ?_
      exact .pure more₃.toConsistent ⟨body.type, .cons (binder.later (more₂.trans more₃))
        (List.rel_append (bound.later more₃).binders body.binders)⟩
  | _ => cases source.erase

theorem finds_letRec {f : Name} {formals : List (Name × Ty)} {body rest : Typed}
    (hbody : Finds A ((Γ.bind f (.fn (formals.map (·.2)) τ)).bindAll formals) body τ)
    (hrest : Finds A (Γ.bind f (.fn (formals.map (·.2)) τ)) rest υ) :
    Finds A Γ (.letRec υ (f, .fn (formals.map (·.2)) τ) formals body rest) υ := by
  intro e scope s ρ source now
  cases e with
  | letRec _ g params body rest =>
      obtain ⟨-, -, same, inside, after⟩ := Term.letRec.inj source.erase
      have full : params.length = formals.length := by simpa using (congrArg List.length same).symm
      obtain ⟨name, binders⟩ := List.forall₂_cons.mp source.binders
      obtain ⟨params, binders⟩ := forall₂_of_append full binders
      obtain ⟨inside, after⟩ := elaborates_pair inside after binders
      refine (binder_succeeds now.toConsistent name).bind fun b s₁ ρ₁ more₁ self => ?_
      refine (binders_succeed more₁.toConsistent params).bind fun bs s₂ ρ₂ more₂ params => ?_
      have inner := (now.later (more₁.trans more₂)).bind (self.later more₂)
      refine (hbody inside (inner.bindAll params)).bind fun u s₃ ρ₃ more₃ result => ?_
      have function := Means.fn (binderMeans_types (params.imp fun _ _ b => b.later more₃)) result.type
      refine (unify_succeeds more₃.toConsistent (self.later (more₂.trans more₃)).2 function).bind
        fun _ s₄ ρ₄ more₄ _ => ?_
      refine (hrest after (inner.later (more₃.trans more₄))).bind fun v s₅ ρ₅ more₅ isRest => ?_
      have more₃₅ := more₃.trans (more₄.trans more₅)
      have inBody := result.later (more₄.trans more₅)
      exact .pure more₅.toConsistent ⟨isRest.type, .cons (self.later (more₂.trans more₃₅))
        (List.rel_append (params.imp fun _ _ b => b.later more₃₅)
          (List.rel_append inBody.binders isRest.binders))⟩
  | _ => cases source.erase

theorem finds_letTuple {pattern : List (Name × Ty)} {e1 e2 : Typed}
    (h1 : Finds A Γ e1 (.tuple (pattern.map (·.2)))) (h2 : Finds A (Γ.bindAll pattern) e2 υ) :
    Finds A Γ (.letTuple υ pattern e1 e2) υ := by
  intro e scope s ρ source now
  cases e with
  | letTuple _ xs e1 e2 =>
      obtain ⟨-, same, first, second⟩ := Term.letTuple.inj source.erase
      have full : xs.length = pattern.length := by simpa using (congrArg List.length same).symm
      obtain ⟨xs, binders⟩ := forall₂_of_append full source.binders
      obtain ⟨first, second⟩ := elaborates_pair first second binders
      refine (binders_succeed now.toConsistent xs).bind fun bs s₁ ρ₁ more₁ pattern => ?_
      refine h1.expect first (now.later more₁) (.tuple (binderMeans_types pattern))
        fun u s₂ ρ₂ more₂ bound => ?_
      have inner := (now.later (more₁.trans more₂)).bindAll
        (pattern.imp fun _ _ b => b.later more₂)
      refine (h2 second inner).bind fun v s₃ ρ₃ more₃ body => ?_
      have names := pattern.imp fun _ _ b => b.later (more₂.trans more₃)
      exact .pure more₃.toConsistent ⟨body.type,
        List.rel_append names (List.rel_append (bound.later more₃).binders body.binders)⟩
  | _ => cases source.erase

theorem finds_array {len init : Typed} (hlen : Finds A Γ len .int) (hinit : Finds A Γ init τ) :
    Finds A Γ (.array (.array τ) len init) (.array τ) := by
  intro e scope s ρ source now
  cases e with
  | array _ len init =>
      obtain ⟨-, length, initial⟩ := Term.array.inj source.erase
      obtain ⟨length, initial⟩ := elaborates_pair length initial source.binders
      refine hlen.expect length now .int fun u s₁ ρ₁ more₁ isLength => ?_
      refine (hinit initial (now.later more₁)).bind fun v s₂ ρ₂ more₂ element => ?_
      exact .pure more₂.toConsistent ⟨element.type.array,
        List.rel_append (isLength.later more₂).binders element.binders⟩
  | _ => cases source.erase

theorem finds_get {a i : Typed} (ha : Finds A Γ a (.array τ)) (hi : Finds A Γ i .int) :
    Finds A Γ (.get τ a i) τ := by
  intro e scope s ρ source now
  cases e with
  | get _ a i =>
      obtain ⟨-, array, index⟩ := Term.get.inj source.erase
      obtain ⟨array, index⟩ := elaborates_pair array index source.binders
      refine (fresh_succeeds now.toConsistent τ).bind fun elem s₁ ρ₁ more₁ element => ?_
      refine ha.expect array (now.later more₁) element.array fun u s₂ ρ₂ more₂ isArray => ?_
      refine hi.expect index (now.later (more₁.trans more₂)) .int fun v s₃ ρ₃ more₃ isIndex => ?_
      exact .pure more₃.toConsistent ⟨element.later (more₂.trans more₃),
        List.rel_append (isArray.later more₃).binders isIndex.binders⟩
  | _ => cases source.erase

theorem finds_put {a i v : Typed} (ha : Finds A Γ a (.array τ)) (hi : Finds A Γ i .int)
    (hv : Finds A Γ v τ) : Finds A Γ (.put .unit a i v) .unit := by
  intro e scope s ρ source now
  cases e with
  | put _ a i v =>
      obtain ⟨-, array, index, value⟩ := Term.put.inj source.erase
      obtain ⟨array, binders⟩ := elaborates_of_append array source.binders
      obtain ⟨index, value⟩ := elaborates_pair index value binders
      refine (fresh_succeeds now.toConsistent τ).bind fun elem s₁ ρ₁ more₁ element => ?_
      refine ha.expect array (now.later more₁) element.array fun u s₂ ρ₂ more₂ isArray => ?_
      have now₂ := now.later (more₁.trans more₂)
      refine hi.expect index now₂ .int fun v s₃ ρ₃ more₃ isIndex => ?_
      refine hv.expect value (now₂.later more₃) (element.later (more₂.trans more₃))
        fun w s₄ ρ₄ more₄ isValue => ?_
      have array := isArray.later (more₃.trans more₄)
      have index := isIndex.later more₄
      exact .pure more₄.toConsistent
        ⟨.unit, List.rel_append array.binders (List.rel_append index.binders isValue.binders)⟩
  | _ => cases source.erase

theorem finds_seq {e1 e2 : Typed} (h1 : Finds A Γ e1 .unit) (h2 : Finds A Γ e2 τ) :
    Finds A Γ (.seq τ e1 e2) τ := by
  intro e scope s ρ source now
  cases e with
  | seq _ e1 e2 =>
      obtain ⟨-, first, second⟩ := Term.seq.inj source.erase
      obtain ⟨first, second⟩ := elaborates_pair first second source.binders
      refine h1.expect first now .unit fun u s₁ ρ₁ more₁ isFirst => ?_
      refine (h2 second (now.later more₁)).bind fun v s₂ ρ₂ more₂ last => ?_
      exact .pure more₂.toConsistent
        ⟨last.type, List.rel_append (isFirst.later more₂).binders last.binders⟩
  | _ => cases source.erase

/-! ## Several terms -/

theorem finds_list {es : List Source} {ts : List Typed} (hts : ∀ t ∈ ts, Finds A Γ t (Typed.ty t))
    (sources : List.Forall₂ (Elaborates A.callers) es ts) (now : Follows A s ρ scope Γ) :
    Succeeds A (inferList scope es) s ρ fun us s' ρ' =>
      List.Forall₂ (fun u t => Found s' ρ' t (Typed.ty t) u) us ts := by
  induction sources generalizing s ρ with
  | nil => exact .pure now.toConsistent .nil
  | cons source _ ih =>
      rw [List.forall_mem_cons] at hts
      refine (hts.1 source now).bind fun u s₁ ρ₁ more₁ first => ?_
      refine (ih hts.2 (now.later more₁)).bind fun us s₂ ρ₂ more₂ others => ?_
      exact .pure more₂.toConsistent (.cons (first.later more₂) others)

section
variable {us ts : List Typed} (h : List.Forall₂ (fun u t => Found s ρ t (Typed.ty t) u) us ts)
include h

theorem found_types : List.Forall₂ (Means s ρ) (us.map Typed.ty) (ts.map Typed.ty) := by
  rw [List.forall₂_map_left_iff, List.forall₂_map_right_iff]
  exact h.imp fun _ _ found => found.type

theorem found_binders :
    List.Forall₂ (BinderMeans s ρ) (Term.bindersList us) (Term.bindersList ts) := by
  induction h with
  | nil => exact .nil
  | cons head _ ih => exact List.rel_append head.binders ih

end

theorem finds_app {e : Typed} {es : List Typed} (he : Finds A Γ e (.fn (es.map Typed.ty) τ))
    (hes : ∀ a ∈ es, Finds A Γ a (Typed.ty a)) : Finds A Γ (.app τ e es) τ := by
  intro e scope s ρ source now
  cases e with
  | app _ e args =>
      obtain ⟨-, callee, args⟩ := Term.app.inj source.erase
      obtain ⟨callee, binders⟩ := elaborates_of_append callee source.binders
      refine (he callee now).bind fun u s₁ ρ₁ more₁ function => ?_
      refine (finds_list hes (elaborates_list args binders) (now.later more₁)).bind
        fun us s₂ ρ₂ more₂ found => ?_
      refine (fresh_succeeds more₂.toConsistent τ).bind fun result s₃ ρ₃ more₃ isResult => ?_
      have args := found.imp fun _ _ arg => arg.later more₃
      have callee := function.later (more₂.trans more₃)
      refine (unify_succeeds more₃.toConsistent callee.type (.fn (found_types args) isResult)).bind
        fun _ s₄ ρ₄ more₄ _ => ?_
      exact .pure more₄.toConsistent ⟨isResult.later more₄, List.rel_append
        (callee.later more₄).binders (found_binders (args.imp fun _ _ arg => arg.later more₄))⟩
  | _ => cases source.erase

theorem finds_tuple {es : List Typed} (hes : ∀ a ∈ es, Finds A Γ a (Typed.ty a)) :
    Finds A Γ (.tuple (.tuple (es.map Typed.ty)) es) (.tuple (es.map Typed.ty)) := by
  intro e scope s ρ source now
  cases e with
  | tuple _ elems =>
      have elems := (Term.tuple.inj source.erase).2
      refine (finds_list hes (elaborates_list elems source.binders) now).bind
        fun us s₁ ρ₁ more found => ?_
      exact .pure more.toConsistent ⟨.tuple (found_types found), found_binders found⟩
  | _ => cases source.erase

/-! ## Names -/

theorem finds_of_occurrence {x : Name} (h : ∀ ⦃scope s ρ⦄, Follows A s ρ scope Γ →
      Succeeds A (liftM (occurrence scope x)) s ρ fun ty s' ρ' => Means s' ρ' ty τ) :
    Finds A Γ (.var τ x) τ := by
  intro e scope s ρ source now
  cases e with
  | var _ y =>
      obtain ⟨-, rfl⟩ := Term.var.inj source.erase
      refine (h now).bind fun ty s₁ ρ₁ more means => ?_
      exact .pure more.toConsistent ⟨means, .nil⟩
  | _ => cases source.erase

theorem finds_var {x : Name} (bound : Γ.get? x = some τ) : Finds A Γ (.var τ x) τ := by
  apply finds_of_occurrence
  intro scope s ρ now
  have found := now.names x
  rw [bound] at found
  generalize known : scope.get? x = o at found
  cases found with
  | some means => exact .lift (run_occurrence_bound known) now.continues means

/-- A name that is new gets the type that it has in the derivation. -/
theorem assume_continues {x : Name} (now : Consistent A s ρ) (new : s.externals.find? x = none)
    (external : A.externals.find? x = some τ) :
    Continues A s ρ (s.assume x) (Function.update ρ s.table.size τ) := by
  have agrees := update_agrees ρ s.table.size τ
  have fits := now.solves.toFits.congr now.ready.toSound agrees
  have more := assume_extends now.ready new
  refine ⟨⟨more.ready, ⟨fits.models.fresh, fits.imported⟩, ?_⟩, more.size_le, agrees,
    fun covers => absurd new (covers x τ external)⟩
  intro y ty
  rw [State.assume, Signature.find?_insert new]
  split
  · rename_i eq
    intro same
    cases same
    rw [eq]
    exact external.trans (congrArg some (Function.update_self s.table.size τ ρ).symm)
  · intro old
    exact now.externals_of_agrees agrees old

theorem finds_external {x : Name} (free : Γ.get? x = none)
    (external : A.externals.find? x = some τ) : Finds A Γ (.var τ x) τ := by
  apply finds_of_occurrence
  intro scope s ρ now
  have unknown : scope.get? x = none := by
    have found := now.names x
    rw [free] at found
    generalize scope.get? x = o at found
    cases found
    rfl
  cases known : s.externals.find? x with
  | some ty =>
      have same := (now.solves.externals x ty known).symm.trans external
      exact .lift (run_occurrence_known unknown known) now.continues
        ⟨now.ready.externals x ty known, Option.some.inj same⟩
  | none =>
      exact .lift (run_occurrence_new unknown known) (assume_continues now.toConsistent known external)
        ⟨below_fresh s.table, Function.update_self ..⟩

/-- Inference satisfies every typing rule. -/
theorem HasType.finds {t : Typed} (h : HasType A.externals Γ t τ) : Finds A Γ t τ := by
  induction h with
  | unit | bool | int | float =>
      intro e scope s ρ source now
      cases e <;> cases source.erase
      exact .pure now.toConsistent ⟨⟨nofun, rfl⟩, .nil⟩
  | not _ he => exact finds_not he
  | negate _ he => exact finds_negate he
  | arith _ _ hl hr => exact finds_arith hl hr
  | compare _ _ hl hr => exact finds_compare hl hr
  | ifThenElse _ _ _ hc hy ho => exact finds_ifThenElse hc hy ho
  | letIn _ _ h1 h2 => exact finds_letIn h1 h2
  | var bound => exact finds_var bound
  | external free external => exact finds_external free external
  | letRec _ _ hbody hrest => exact finds_letRec hbody hrest
  | app _ _ he hes => exact finds_app he hes
  | tuple _ hes => exact finds_tuple hes
  | letTuple _ _ h1 h2 => exact finds_letTuple h1 h2
  | array _ _ hlen hinit => exact finds_array hlen hinit
  | get _ _ ha hi => exact finds_get ha hi
  | put _ _ _ ha hi hv => exact finds_put ha hi hv
  | seq _ _ h1 h2 => exact finds_seq h1 h2

/-! ## Programs -/

theorem preserves_signature {S : Type} {I : S → Prop} {f : Ty → StateM S Ty}
    {sig : Signature} (h : ∀ b ∈ sig, Preserves I (f b.2)) : Preserves I (sig.mapM f) := by
  induction sig with
  | nil => exact .pure _
  | cons b rest ih =>
      rw [List.forall_mem_cons] at h
      exact h.1.bind fun _ => (ih h.2).bind fun _ => .pure _

theorem importExternals_consistent (sound : Sound s) (fits : (A.withTypes ρ).Fits s)
    (known : ∀ x ty, s.externals.find? x = some ty →
      A.externals.find? x = some (ty.subst A.callers)) :
    ∃ ρ', Consistent A (importExternals.run s).2 ρ' := by
  have start : Fitted A s.table.size ρ s := ⟨sound, le_rfl, ρ, fits, fun _ _ => rfl⟩
  have each : Preserves (Fitted A s.table.size ρ) (s.externals.mapM importTy) :=
    preserves_signature fun _ _ => Ty.preserves_substM fun v _ =>
      preserves_importVar s.table.size v
  obtain ⟨-, -, ρ', fits', -⟩ := each s start
  obtain ⟨ready, -⟩ := importExternals_ready sound
  obtain ⟨-, entries⟩ := imports_signature s.externals sound
  refine ⟨ρ', ready, ⟨fits'.models, fits'.imported⟩, ?_⟩
  intro x ty found
  have found : ((s.externals.mapM importTy).run s).1.lookup x = some ty := found
  have rel := lookup_rel entries x
  rw [found] at rel
  generalize old : s.externals.lookup x = o at rel
  cases rel with
  | some imported =>
      rw [Solution.withTypes, known x _ old]
      exact congrArg some (imported.equal (A.withTypes ρ') fits').symm

/-- What comes after the walk of a program cannot fail. -/
theorem program_succeeds {e : Source} {t : Typed} (sound : Sound s) (fits : (A.withTypes ρ).Fits s)
    (known : ∀ x ty, s.externals.find? x = some ty →
      A.externals.find? x = some (ty.subst A.callers))
    (source : Elaborates A.callers e t) (typed : HasType A.externals .empty t .unit) :
    ∃ u s', Gives (program e) s u s' := by
  obtain ⟨ρ₀, start⟩ := importExternals_consistent sound fits known
  have names : ScopeMeans (importExternals.run s).2 ρ₀ .empty .empty := fun _ => .none
  obtain ⟨u, s₁, ρ₁, walk, more, isUnit⟩ := typed.finds source ⟨start, names⟩
  obtain ⟨⟨⟩, s₂, ρ₂, unit, -, -⟩ := unify_succeeds more.toConsistent .unit isUnit.type
  exact ⟨_, _, (Gives.lift rfl).bind (walk.bind ((gives_requireUnit_iff.mpr unit).bind rfl))⟩

/-- The program has a typing: some choice of types for the caller's variables, for all
    annotations and the whole signature, and types for the external names that the
    signature does not have, with which the typing rules give it the type of units. -/
def Typable (e : Source) (externals : Signature) : Prop :=
  ∃ (callers : Nat → Ty) (known : Signature) (t : Typed),
    Elaborates callers e t ∧
    (∀ x ty, externals.find? x = some ty → known.find? x = some (ty.subst callers)) ∧
    HasType known .empty t .unit

theorem typable_of_accepted {e : Source} {externals : Signature} {t : Typed}
    (accepted : (outcome e externals).result = .ok t) : Typable e externals := by
  obtain ⟨u, s₁, inferred, solves, rfl, -, derivation, entries⟩ := accepted_solved accepted
  refine ⟨s₁.solution.callers, s₁.solution.externals, _, ⟨?_, ?_⟩, entries, derivation⟩
  · exact (Term.erase_map ..).trans inferred.erase
  · rw [Term.binders_map, List.forall₂_map_right_iff]
    exact inferred.binders.imp fun x b binds => ⟨binds.name, binds.annotation _ solves⟩

theorem accepted_of_typable {e : Source} {externals : Signature} (h : Typable e externals) :
    ∃ t, (outcome e externals).result = .ok t := by
  obtain ⟨callers, known, t, source, agrees, typed⟩ := h
  let s : State := { table := .empty, warnings := [], externals, imported := [] }
  let A : Solution := ⟨fun _ => .int, callers, known⟩
  have sound : Sound s := ⟨Ty.Table.valid_empty, nofun⟩
  have fits : (A.withTypes A.types).Fits s := ⟨⟨fun _ => rfl, nofun⟩, nofun⟩
  obtain ⟨u, s', gives⟩ := program_succeeds sound fits agrees source typed
  exact ⟨u, congrArg Prod.fst gives⟩

/-- Inference is complete: it accepts exactly the programs that have a typing, and an error
    means that there is none. -/
theorem outcome_complete (e : Source) (externals : Signature) :
    ((∃ t, (outcome e externals).result = .ok t) ↔ Typable e externals) ∧
      ((∃ err, (outcome e externals).result = .error err) ↔ ¬ Typable e externals) := by
  have accepts : (∃ t, (outcome e externals).result = .ok t) ↔ Typable e externals :=
    ⟨fun ⟨_, accepted⟩ => typable_of_accepted accepted, accepted_of_typable⟩
  refine ⟨accepts, ?_⟩
  rw [← accepts]
  cases (outcome e externals).result with
  | ok t => simp
  | error err => simp

end

end Typing

end MiddleEnd
