import Mathlib
import MiddleEnd.Ty.Unify

/-! # Variables of types

What a substitution does to a type depends on the variables of the type only.
-/

namespace MiddleEnd.Ty

@[elab_as_elim]
theorem induct {P : Ty → Prop} (unit : P .unit) (bool : P .bool) (int : P .int)
    (float : P .float) (fn : ∀ ps r, (∀ p ∈ ps, P p) → P r → P (.fn ps r))
    (tuple : ∀ es, (∀ e ∈ es, P e) → P (.tuple es)) (array : ∀ e, P e → P (.array e))
    (var : ∀ n, P (.var n)) (t : Ty) : P t :=
  @Ty.rec P (fun ts => ∀ t ∈ ts, P t) unit bool int float fn tuple array var
    nofun (fun _ _ head tail => List.forall_mem_cons.mpr ⟨head, tail⟩) t

mutual
/-- The variables of a type, from left to right. -/
def vars : Ty → List Nat
  | .fn ps r => varsList ps ++ r.vars
  | .tuple es => varsList es
  | .array e => e.vars
  | .var n => [n]
  | .unit | .bool | .int | .float => []

def varsList : List Ty → List Nat
  | [] => []
  | t :: ts => t.vars ++ varsList ts
end

theorem varsList_eq_flatMap (ts : List Ty) : varsList ts = ts.flatMap vars := by
  induction ts with
  | nil => rfl
  | cons t ts ih => rw [varsList, ih, List.flatMap_cons]

theorem mem_varsList {v : Nat} {ts : List Ty} : v ∈ varsList ts ↔ ∃ t ∈ ts, v ∈ t.vars := by
  rw [varsList_eq_flatMap, List.mem_flatMap]

theorem substList_eq_map (σ : Nat → Ty) (ts : List Ty) : substList σ ts = ts.map (·.subst σ) := by
  induction ts with
  | nil => rfl
  | cons t ts ih => rw [substList, ih, List.map_cons]

theorem anyVarList_eq_any (p : Nat → Bool) (ts : List Ty) :
    anyVarList p ts = ts.any (·.anyVar p) := by
  induction ts with
  | nil => rfl
  | cons t ts ih => rw [anyVarList, ih, List.any_cons]

theorem anyVar_iff {p : Nat → Bool} {t : Ty} : t.anyVar p = true ↔ ∃ v ∈ t.vars, p v = true := by
  induction t using Ty.induct with
  | unit | bool | int | float => simp [anyVar, vars]
  | var n => simp [anyVar, vars]
  | array e ih => rw [anyVar, vars, ih]
  | tuple es ih =>
      simp only [anyVar, vars, anyVarList_eq_any, List.any_eq_true, mem_varsList]
      constructor
      · rintro ⟨t, ht, hp⟩
        obtain ⟨v, hv, hpv⟩ := (ih t ht).mp hp
        exact ⟨v, ⟨t, ht, hv⟩, hpv⟩
      · rintro ⟨v, ⟨t, ht, hv⟩, hpv⟩
        exact ⟨t, ht, (ih t ht).mpr ⟨v, hv, hpv⟩⟩
  | fn ps r ihps ihr =>
      simp only [anyVar, vars, anyVarList_eq_any, Bool.or_eq_true, List.any_eq_true,
        List.mem_append, mem_varsList, ihr]
      constructor
      · rintro (⟨t, ht, hp⟩ | ⟨v, hv, hpv⟩)
        · obtain ⟨v, hv, hpv⟩ := (ihps t ht).mp hp
          exact ⟨v, .inl ⟨t, ht, hv⟩, hpv⟩
        · exact ⟨v, .inr hv, hpv⟩
      · rintro ⟨v, ⟨t, ht, hv⟩ | hv, hpv⟩
        · exact .inl ⟨t, ht, (ihps t ht).mpr ⟨v, hv, hpv⟩⟩
        · exact .inr ⟨v, hv, hpv⟩

theorem subst_congr {σ τ : Nat → Ty} {t : Ty} (h : ∀ v ∈ t.vars, σ v = τ v) :
    t.subst σ = t.subst τ := by
  induction t using Ty.induct with
  | unit | bool | int | float => rfl
  | var n => exact h n (List.mem_singleton_self n)
  | array e ih =>
      rw [subst, subst, ih h]
  | tuple es ih =>
      rw [subst, subst, substList_eq_map, substList_eq_map]
      congr 1
      apply List.map_congr_left
      intro t ht
      exact ih t ht fun v hv => h v (mem_varsList.mpr ⟨t, ht, hv⟩)
  | fn ps r ihps ihr =>
      rw [subst, subst, substList_eq_map, substList_eq_map]
      congr 1
      · apply List.map_congr_left
        intro t ht
        apply ihps t ht
        intro v hv
        exact h v (List.mem_append_left _ (mem_varsList.mpr ⟨t, ht, hv⟩))
      · exact ihr fun v hv => h v (List.mem_append_right _ hv)

theorem subst_subst (σ τ : Nat → Ty) (t : Ty) :
    (t.subst σ).subst τ = t.subst fun v => (σ v).subst τ := by
  induction t using Ty.induct with
  | unit | bool | int | float | var => rfl
  | array e ih => rw [subst, subst, subst, ih]
  | tuple es ih =>
      simp only [subst, substList_eq_map, List.map_map, tuple.injEq]
      exact List.map_congr_left ih
  | fn ps r ihps ihr =>
      simp only [subst, substList_eq_map, List.map_map, fn.injEq, ihr, and_true]
      exact List.map_congr_left ihps

/-- The variables that a substitution leaves stand in the order of those that it replaces. -/
theorem vars_subst (σ : Nat → Ty) (t : Ty) :
    (t.subst σ).vars = t.vars.flatMap fun v => (σ v).vars := by
  induction t using Ty.induct with
  | unit | bool | int | float => rfl
  | var n => exact (List.append_nil _).symm
  | array e ih => exact ih
  | tuple es ih =>
      rw [subst, vars, vars, substList_eq_map, varsList_eq_flatMap, varsList_eq_flatMap,
        List.flatMap_map, List.flatMap_assoc]
      exact List.flatMap_congr ih
  | fn ps r ihps ihr =>
      rw [subst, vars, vars, substList_eq_map, varsList_eq_flatMap, varsList_eq_flatMap,
        List.flatMap_append, List.flatMap_map, List.flatMap_assoc, ihr, List.flatMap_congr ihps]

theorem mem_vars_subst {σ : Nat → Ty} {t : Ty} {v : Nat} :
    v ∈ (t.subst σ).vars ↔ ∃ w ∈ t.vars, v ∈ (σ w).vars := by
  rw [vars_subst, List.mem_flatMap]

theorem isGround_iff {t : Ty} : t.isGround = true ↔ ∀ v, v ∉ t.vars := by
  rw [isGround, Bool.not_eq_true', Bool.eq_false_iff, ne_eq, anyVar_iff]
  simp

theorem isGround_subst {σ : Nat → Ty} (h : ∀ v, (σ v).isGround = true) (t : Ty) :
    (t.subst σ).isGround = true := by
  rw [isGround_iff]
  intro v hv
  obtain ⟨w, -, hv⟩ := mem_vars_subst.mp hv
  exact isGround_iff.mp (h w) v hv

end MiddleEnd.Ty
