import Mathlib
import MiddleEnd.Proofs.Knf.Drawing

/-! # Other names

The rewrites of K-normal code compare names and look at nothing else of them.  So a
change of all names that keeps different names different goes through every rewrite
that draws no names: whether names are changed before it or after it, the code is
the same.
-/

namespace MiddleEnd

namespace Name

/-- Lists in which the same places are equal differ by a change of names. -/
theorem exists_perm_map_eq {xs ys : List Name} (full : xs.length = ys.length)
    (one : ∀ p ∈ xs.zip ys, ∀ q ∈ xs.zip ys, p.1 = q.1 ↔ p.2 = q.2) :
    ∃ σ : Equiv.Perm Name, xs.map σ = ys := by
  induction xs generalizing ys with
  | nil =>
      obtain rfl := List.length_eq_zero_iff.mp full.symm
      exact ⟨1, rfl⟩
  | cons x xs ih =>
      obtain ⟨y, ys, rfl⟩ := List.exists_cons_of_length_eq_add_one full.symm
      rw [List.zip_cons_cons] at one
      have rest : ∀ p ∈ xs.zip ys, ∀ q ∈ xs.zip ys, p.1 = q.1 ↔ p.2 = q.2 := by
        intro p hp q hq
        exact one p (List.mem_cons_of_mem _ hp) q (List.mem_cons_of_mem _ hq)
      obtain ⟨σ, rfl⟩ := ih (Nat.succ.inj full) rest
      have head : ∀ z ∈ xs, x = z ↔ y = σ z := by
        intro z hz
        have mem : (z, σ z) ∈ xs.zip (xs.map σ) := by
          rw [← List.map_prod_left_eq_zip]
          exact List.mem_map_of_mem hz
        exact one (x, y) (List.mem_cons_self ..) (z, σ z) (List.mem_cons_of_mem _ mem)
      -- the first name is moved to its place, and no other is there already
      refine ⟨σ.trans (Equiv.swap (σ x) y), ?_⟩
      rw [List.map_cons, Equiv.trans_apply, Equiv.swap_apply_left]
      congr 1
      refine List.map_congr_left fun z hz => ?_
      rw [Equiv.trans_apply]
      by_cases eq : x = z
      · obtain rfl := eq
        rw [Equiv.swap_apply_left, (head x hz).mp rfl]
      · refine Equiv.swap_apply_of_ne_of_ne ?_ ?_
        · exact fun same => eq (σ.injective same).symm
        · exact fun same => eq ((head z hz).mpr same.symm)

/-- Lists of different names differ by a change of names. -/
theorem exists_perm_of_nodup {xs ys : List Name} (full : xs.length = ys.length) (hx : xs.Nodup)
    (hy : ys.Nodup) : ∃ σ : Equiv.Perm Name, xs.map σ = ys := by
  refine exists_perm_map_eq full fun p hp q hq => ?_
  obtain ⟨i, hi, rfl⟩ := List.mem_iff_getElem.mp hp
  obtain ⟨j, hj, rfl⟩ := List.mem_iff_getElem.mp hq
  rw [List.getElem_zip, List.getElem_zip, hx.getElem_inj_iff, hy.getElem_inj_iff]

end Name

namespace Scope

variable {α β : Type} {σ : Name → Name}

/-- Change the names that a scope binds, and what they mean. -/
def relabel (σ : Name → Name) (f : α → β) (s : Scope α) : Scope β :=
  ⟨s.groups.map fun group => group.map (Prod.map σ f)⟩

@[simp] theorem relabel_empty (f : α → β) : (empty : Scope α).relabel σ f = empty := rfl

@[simp] theorem relabel_bind (f : α → β) (s : Scope α) (x : Name) (a : α) :
    (s.bind x a).relabel σ f = (s.relabel σ f).bind (σ x) (f a) := rfl

theorem relabel_bindAll (f : α → β) (s : Scope α) (bindings : List (Name × α)) :
    (s.bindAll bindings).relabel σ f = (s.relabel σ f).bindAll (bindings.map (Prod.map σ f)) := by
  cases bindings with
  | nil => rfl
  | cons b bs => simp [bindAll, relabel]

theorem lookup_map_prod (inj : σ.Injective) (f : α → β) (bs : List (Name × α)) (x : Name) :
    (bs.map (Prod.map σ f)).lookup (σ x) = (bs.lookup x).map f := by
  induction bs with
  | nil => rfl
  | cons b bs ih =>
      have same : (σ x == σ b.1) = (x == b.1) := by simp [inj.eq_iff]
      rw [List.map_cons, List.lookup, Prod.map_fst, same, List.lookup]
      split
      · rfl
      · exact ih

theorem get?_relabel (inj : σ.Injective) (f : α → β) (s : Scope α) (x : Name) :
    (s.relabel σ f).get? (σ x) = (s.get? x).map f := by
  rw [get?, get?, relabel]
  induction s.groups with
  | nil => rfl
  | cons group groups ih =>
      rw [List.map_cons, List.findSome?_cons, List.findSome?_cons, lookup_map_prod inj]
      cases group.lookup x with
      | none => exact ih
      | some a => rfl

theorem target_relabel (inj : σ.Injective) (s : Scope Name) (x : Name) :
    (s.relabel σ σ).target (σ x) = σ (s.target x) := by
  rw [target, target, get?_relabel inj]
  cases s.get? x <;> rfl

end Scope

namespace Op

theorem map_map (f g : Name → Name) (o : Op) : (o.map f).map g = o.map fun x => g (f x) := by
  cases o <;> simp [map]

theorem map_congr {f g : Name → Name} {o : Op} (h : ∀ x ∈ o.names, f x = g x) :
    o.map f = o.map g := by
  cases o <;> simp_all [map, names]

@[simp] theorem names_map (f : Name → Name) (o : Op) : (o.map f).names = o.names.map f := by
  cases o <;> rfl

@[simp] theorem isEffectful_map (f : Name → Name) (o : Op) :
    (o.map f).isEffectful = o.isEffectful := by
  cases o <;> rfl

@[simp] theorem isKnown_map (f : Name → Name) (o : Op) : (o.map f).isKnown = o.isKnown := by
  cases o <;> rfl

end Op

namespace Knf

/-- Change all names of code, those that it binds and those that it uses. -/
def relabel (σ : Name → Name) : Knf → Knf
  | .op o => .op (o.map σ)
  | .branch test x y e1 e2 => .branch test (σ x) (σ y) (e1.relabel σ) (e2.relabel σ)
  | .letIn x ty e1 e2 => .letIn (σ x) ty (e1.relabel σ) (e2.relabel σ)
  | .letRec f ty formals body rest =>
      .letRec (σ f) ty (formals.map (Prod.map σ id)) (body.relabel σ) (rest.relabel σ)
  | .app f xs => .app (σ f) (xs.map σ)
  | .letTuple pattern y e => .letTuple (pattern.map (Prod.map σ id)) (σ y) (e.relabel σ)
  | .externApp f xs => .externApp f (xs.map σ)

theorem map_fst_map (σ : Name → Name) (bs : List (Name × Mono)) :
    (bs.map (Prod.map σ id)).map (·.1) = (bs.map (·.1)).map σ := by
  simp [Function.comp_def]

theorem map_snd_map (σ : Name → Name) (bs : List (Name × Mono)) :
    (bs.map (Prod.map σ id)).map (·.2) = bs.map (·.2) := by
  simp [Function.comp_def]

@[simp] theorem relabel_id (e : Knf) : e.relabel id = e := by
  induction e with
  | op o => exact congrArg Knf.op o.map_id
  | _ => simp_all [relabel]

@[simp] theorem binders_relabel (σ : Name → Name) (e : Knf) :
    (e.relabel σ).binders = e.binders.map σ := by
  induction e with
  | op | app | externApp => rfl
  | branch test x y e1 e2 ih1 ih2 => simp only [relabel, binders, ih1, ih2, List.map_append]
  | letIn x ty e1 e2 ih1 ih2 =>
      simp only [relabel, binders, ih1, ih2, List.map_append, List.map_cons]
  | letRec f ty formals body rest ih1 ih2 =>
      simp only [relabel, binders, ih1, ih2, map_fst_map, List.map_append, List.map_cons]
  | letTuple pattern y e ih => simp only [relabel, binders, ih, map_fst_map, List.map_append]

@[simp] theorem size_relabel (σ : Name → Name) (e : Knf) : (e.relabel σ).size = e.size := by
  induction e with
  | op | app | externApp => rfl
  | branch test x y e1 e2 ih1 ih2 => simp only [relabel, size, ih1, ih2]
  | letIn x ty e1 e2 ih1 ih2 => simp only [relabel, size, ih1, ih2]
  | letRec f ty formals body rest ih1 ih2 => simp only [relabel, size, ih1, ih2]
  | letTuple pattern y e ih => simp only [relabel, size, ih]

@[simp] theorem isEffectful_relabel (σ : Name → Name) (e : Knf) :
    (e.relabel σ).isEffectful = e.isEffectful := by
  induction e with
  | op o => exact Op.isEffectful_map σ o
  | app | externApp => rfl
  | branch test x y e1 e2 ih1 ih2 => simp only [relabel, isEffectful, ih1, ih2]
  | letIn x ty e1 e2 ih1 ih2 => simp only [relabel, isEffectful, ih1, ih2]
  | letRec f ty formals body rest _ ih => simp only [relabel, isEffectful, ih]
  | letTuple pattern y e ih => simp only [relabel, isEffectful, ih]

/-! ## Flat bindings -/

theorem relabel_hoist (σ : Name → Name) (x : Name) (ty : Mono) (body e : Knf) :
    (hoist x ty body e).relabel σ = hoist (σ x) ty (body.relabel σ) (e.relabel σ) := by
  induction e with
  | op | branch | app | externApp => rfl
  | letIn y u e1 e2 _ ih => simp only [hoist, relabel, ih]
  | letRec f u formals e1 e2 _ ih => simp only [hoist, relabel, ih]
  | letTuple pattern z e ih => simp only [hoist, relabel, ih]

theorem relabel_flatten (σ : Name → Name) (e : Knf) :
    e.flatten.relabel σ = (e.relabel σ).flatten := by
  induction e with
  | op | app | externApp => rfl
  | branch test x y e1 e2 ih1 ih2 => simp only [flatten, relabel, ih1, ih2]
  | letIn x ty e1 e2 ih1 ih2 => simp only [flatten, relabel, relabel_hoist, ih1, ih2]
  | letRec f ty formals body rest ih1 ih2 => simp only [flatten, relabel, ih1, ih2]
  | letTuple pattern y e ih => simp only [flatten, relabel, ih]

section
variable {σ : Name → Name} (inj : σ.Injective)
include inj

theorem filter_map_ne (x : Name) (xs : List Name) :
    (xs.map σ).filter (· ≠ σ x) = (xs.filter (· ≠ x)).map σ := by
  rw [List.filter_map]
  congr 2
  funext y
  simp [inj.eq_iff]

theorem filter_map_notMem (xs ys : List Name) :
    (xs.map σ).filter (· ∉ ys.map σ) = (xs.filter (· ∉ ys)).map σ := by
  rw [List.filter_map]
  congr 2
  funext y
  exact decide_eq_decide.mpr (not_congr (List.mem_map_of_injective inj))

@[simp] theorem freeVars_relabel (e : Knf) : (e.relabel σ).freeVars = e.freeVars.map σ := by
  induction e with
  | op o => exact Op.names_map σ o
  | app | externApp => rfl
  | branch test x y e1 e2 ih1 ih2 =>
      simp only [relabel, freeVars, ih1, ih2, List.map_cons, List.map_append]
  | letIn x ty e1 e2 ih1 ih2 =>
      simp only [relabel, freeVars, ih1, ih2, List.map_append, filter_map_ne inj]
  | letRec f ty formals body rest ih1 ih2 =>
      simp only [relabel, freeVars, ih1, ih2, map_fst_map, filter_map_notMem inj,
        ← List.map_append, filter_map_ne inj]
  | letTuple pattern y e ih =>
      simp only [relabel, freeVars, ih, map_fst_map, filter_map_notMem inj, List.map_cons]

/-! ## Copies -/

theorem map_target_relabel (s : Scope Name) (xs : List Name) :
    (xs.map s.target).map σ = (xs.map σ).map (s.relabel σ σ).target := by
  simp only [List.map_map, Function.comp_def, Scope.target_relabel inj]

theorem relabel_dropCopiesIn (s : Scope Name) (e : Knf) :
    (e.dropCopiesIn s).relabel σ = (e.relabel σ).dropCopiesIn (s.relabel σ σ) := by
  induction e generalizing s with
  | op o => simp only [dropCopiesIn, relabel, Op.map_map, Scope.target_relabel inj]
  | branch test x y e1 e2 ih1 ih2 =>
      simp only [dropCopiesIn, relabel, ih1, ih2, Scope.target_relabel inj]
  | letIn x ty e1 e2 ih1 ih2 =>
      simp only [dropCopiesIn, relabel, ← ih1, ← ih2]
      generalize e1.dropCopiesIn s = bound
      cases bound with
      | op o => cases o <;> simp [relabel, Op.map, ih2]
      | _ => rfl
  | letRec f ty formals body rest ih1 ih2 => simp only [dropCopiesIn, relabel, ih1, ih2]
  | app f xs =>
      simp only [dropCopiesIn, relabel, Scope.target_relabel inj, map_target_relabel inj]
  | letTuple pattern y e ih => simp only [dropCopiesIn, relabel, ih, Scope.target_relabel inj]
  | externApp f xs => simp only [dropCopiesIn, relabel, map_target_relabel inj]

theorem relabel_dropCopies (e : Knf) : e.dropCopies.relabel σ = (e.relabel σ).dropCopies :=
  relabel_dropCopiesIn inj .empty e

/-! ## Constants -/

namespace Knowns

theorem int?_relabel (s : Knowns) (x : Name) :
    int? (s.relabel σ (Op.map σ)) (σ x) = s.int? x := by
  rw [int?, int?, Scope.get?_relabel inj]
  cases s.get? x with
  | none => rfl
  | some o => cases o <;> rfl

theorem float?_relabel (s : Knowns) (x : Name) :
    float? (s.relabel σ (Op.map σ)) (σ x) = s.float? x := by
  rw [float?, float?, Scope.get?_relabel inj]
  cases s.get? x with
  | none => rfl
  | some o => cases o <;> rfl

theorem tuple?_relabel (s : Knowns) (x : Name) :
    tuple? (s.relabel σ (Op.map σ)) (σ x) = (s.tuple? x).map (List.map σ) := by
  rw [tuple?, tuple?, Scope.get?_relabel inj]
  cases s.get? x with
  | none => rfl
  | some o => cases o <;> rfl

theorem test?_relabel (s : Knowns) (test : Test) (x y : Name) :
    test? (s.relabel σ (Op.map σ)) test (σ x) (σ y) = s.test? test x y := by
  simp only [test?, int?_relabel inj, float?_relabel inj]

theorem foldOp_relabel (s : Knowns) (o : Op) :
    (s.foldOp o).map σ = foldOp (s.relabel σ (Op.map σ)) (o.map σ) := by
  cases o with
  | var x =>
      rw [Op.map, foldOp, foldOp, Scope.get?_relabel inj]
      cases s.get? x <;> rfl
  | negate op x =>
      cases op with
      | int =>
          rw [Op.map, foldOp, foldOp, int?_relabel inj]
          cases s.int? x <;> rfl
      | float =>
          rw [Op.map, foldOp, foldOp, float?_relabel inj]
          cases s.float? x <;> rfl
  | arith op x y =>
      cases op with
      | int k =>
          rw [Op.map, foldOp, foldOp, int?_relabel inj, int?_relabel inj]
          cases s.int? x <;> cases s.int? y <;> rfl
      | float k =>
          rw [Op.map, foldOp, foldOp, float?_relabel inj, float?_relabel inj]
          cases s.float? x <;> cases s.float? y <;> rfl
  | _ => rfl

omit inj in
theorem learn_relabel (s : Knowns) (x : Name) (e : Knf) :
    (s.learn x e).relabel σ (Op.map σ) = learn (s.relabel σ (Op.map σ)) (σ x) (e.relabel σ) := by
  cases e with
  | op o =>
      simp only [learn, relabel, Op.isKnown_map]
      split <;> rfl
  | _ => rfl

end Knowns

omit inj in
theorem relabel_letEach (bs : List ((Name × Mono) × Name)) (body : Knf) :
    (letEach bs body).relabel σ =
      letEach (bs.map (Prod.map (Prod.map σ id) σ)) (body.relabel σ) := by
  induction bs with
  | nil => rfl
  | cons b bs ih => simp only [letEach, relabel, ih, List.map_cons, Op.map, Prod.map, id]

theorem relabel_foldConstantsIn (s : Knowns) (e : Knf) :
    (e.foldConstantsIn s).relabel σ =
      (e.relabel σ).foldConstantsIn (s.relabel σ (Op.map σ)) := by
  induction e generalizing s with
  | op o => simp only [foldConstantsIn, relabel, Knowns.foldOp_relabel inj]
  | branch test x y e1 e2 ih1 ih2 =>
      simp only [foldConstantsIn, relabel, Knowns.test?_relabel inj, ← ih1, ← ih2]
      split <;> rfl
  | letIn x ty e1 e2 ih1 ih2 =>
      simp only [foldConstantsIn, relabel, ← ih1, ih2, Knowns.learn_relabel]
  | letRec f ty formals body rest ih1 ih2 => simp only [foldConstantsIn, relabel, ih1, ih2]
  | app | externApp => rfl
  | letTuple pattern y e ih =>
      simp only [foldConstantsIn, relabel, Knowns.tuple?_relabel inj, ← ih]
      cases s.tuple? y with
      | none => rfl
      | some zs =>
          simp only [Option.map_some, List.length_map]
          split
          · rw [relabel_letEach, List.zip_map]
          · rfl

theorem relabel_foldConstants (e : Knf) :
    e.foldConstants.relabel σ = (e.relabel σ).foldConstants :=
  relabel_foldConstantsIn inj .empty e

/-! ## Dead bindings -/

theorem isLive_relabel (x : Name) (bound body : Knf) :
    isLive (σ x) (bound.relabel σ) (body.relabel σ) = isLive x bound body := by
  simp only [isLive, isEffectful_relabel, freeVars_relabel inj, List.mem_map_of_injective inj]

theorem usesAny_relabel (pattern : List (Name × Mono)) (e : Knf) :
    usesAny (pattern.map (Prod.map σ id)) (e.relabel σ) = usesAny pattern e := by
  simp only [usesAny, List.any_map, Function.comp_def, Prod.map_fst, freeVars_relabel inj,
    List.mem_map_of_injective inj]

theorem relabel_dropDead (e : Knf) : e.dropDead.relabel σ = (e.relabel σ).dropDead := by
  induction e with
  | op | app | externApp => rfl
  | branch test x y e1 e2 ih1 ih2 => simp only [dropDead, relabel, ih1, ih2]
  | letIn x ty e1 e2 ih1 ih2 =>
      simp only [dropDead, relabel, ← ih1, ← ih2, isLive_relabel inj]
      split <;> rfl
  | letRec f ty formals body rest ih1 ih2 =>
      simp only [dropDead, relabel, ← ih1, ← ih2, freeVars_relabel inj,
        List.mem_map_of_injective inj]
      split <;> rfl
  | letTuple pattern y e ih =>
      simp only [dropDead, relabel, ← ih, usesAny_relabel inj]
      split <;> rfl

end

end Knf

end MiddleEnd
