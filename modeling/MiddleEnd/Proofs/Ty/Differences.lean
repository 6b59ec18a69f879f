import Mathlib
import MiddleEnd.Proofs.Ty.Variables

/-! # Heads, components and differences

A type is a head with components; a variable is a head without any.  Types with
the same head can differ in their components only, and types with different heads
can be made equal only if one of them is a variable.  So the first difference
between two types is at a place where all heads before it agree.
-/

namespace MiddleEnd.Ty

/-- Whether two types agree in their heads: in the kind of type, in the number of
    components or in the variable. -/
def sameHead : Ty → Ty → Bool
  | .unit, .unit | .bool, .bool | .int, .int | .float, .float => true
  | .fn ps _, .fn qs _ => ps.length == qs.length
  | .tuple xs, .tuple ys => xs.length == ys.length
  | .array _, .array _ => true
  | .var v, .var w => v == w
  | _, _ => false

/-- What a type is put together from, from left to right. -/
def components : Ty → List Ty
  | .fn ps r => ps ++ [r]
  | .tuple es => es
  | .array e => [e]
  | .unit | .bool | .int | .float | .var _ => []

/-- A property of all types that follows from the same property of the components. -/
@[elab_as_elim]
theorem inductComponents {P : Ty → Prop} (type : ∀ t, (∀ c ∈ t.components, P c) → P t)
    (t : Ty) : P t := by
  induction t using Ty.induct with
  | unit | bool | int | float | var => exact type _ nofun
  | array e ih => exact type _ (by simpa [components] using ih)
  | tuple es ih => exact type _ ih
  | fn ps r ihps ihr =>
      refine type _ fun c hc => ?_
      rcases List.mem_append.mp hc with hc | hc
      · exact ihps c hc
      · exact List.mem_singleton.mp hc ▸ ihr

/-- The same for a property of which variables are a case of their own. -/
@[elab_as_elim]
theorem inductVars {P : Ty → Prop} (var : ∀ v, P (.var v))
    (type : ∀ t, (∀ v, t ≠ .var v) → (∀ c ∈ t.components, P c) → P t) (t : Ty) : P t := by
  induction t using inductComponents with
  | type t ih =>
      by_cases isVar : ∃ v, t = .var v
      · obtain ⟨v, rfl⟩ := isVar
        exact var v
      · exact type t (not_exists.mp isVar) ih

/-- The types `x` and `y` stand at the same place in `a` and in `b`, and their heads differ.
    All that comes before this place is the same. -/
inductive Place : Ty → Ty → Ty → Ty → Prop where
  | here {a b} : a.sameHead b = false → Place a b a b
  | inside {a b c d x y same as bs} : a.sameHead b = true →
      a.components = same ++ c :: as → b.components = same ++ d :: bs →
      Place c d x y → Place a b x y

section
variable {a b c d t x y : Ty} {as bs : List Ty} {σ : Nat → Ty} {v w : Nat}

theorem vars_eq_flatMap (type : ∀ v, t ≠ .var v) : t.vars = t.components.flatMap vars := by
  cases t with
  | var n => exact absurd rfl (type n)
  | unit | bool | int | float => rfl
  | array e => exact (List.append_nil _).symm
  | tuple es => exact varsList_eq_flatMap es
  | fn ps r => simp [vars, components, varsList_eq_flatMap]

theorem mem_vars_iff (type : ∀ v, t ≠ .var v) :
    w ∈ t.vars ↔ ∃ c ∈ t.components, w ∈ c.vars := by
  rw [vars_eq_flatMap type, List.mem_flatMap]

theorem mem_vars_of_component (hc : c ∈ t.components) (hw : w ∈ c.vars) : w ∈ t.vars := by
  refine (mem_vars_iff ?_).mpr ⟨c, hc, hw⟩
  rintro v rfl
  cases hc

theorem anyVar_components {p : Nat → Bool} (type : ∀ v, t ≠ .var v) :
    t.anyVar p = t.components.any (·.anyVar p) := by
  cases t with
  | var n => exact absurd rfl (type n)
  | unit | bool | int | float => rfl
  | array e => simp [anyVar, components]
  | tuple es => exact anyVarList_eq_any p es
  | fn ps r => simp [anyVar, components, anyVarList_eq_any]

theorem components_subst (type : ∀ v, t ≠ .var v) :
    (t.subst σ).components = t.components.map (·.subst σ) := by
  cases t with
  | var n => exact absurd rfl (type n)
  | unit | bool | int | float | array => rfl
  | tuple es => exact substList_eq_map σ es
  | fn ps r => simp [subst, components, substList_eq_map]

theorem subst_mem_components (type : ∀ v, t ≠ .var v) (h : c ∈ t.components) :
    c.subst σ ∈ (t.subst σ).components := by
  rw [components_subst type]
  exact List.mem_map_of_mem h

theorem sameHead_subst (type : ∀ v, t ≠ .var v) : t.sameHead (t.subst σ) = true := by
  cases t with
  | var n => exact absurd rfl (type n)
  | unit | bool | int | float | array => rfl
  | tuple es => simp [subst, sameHead, substList_eq_map]
  | fn ps r => simp [subst, sameHead, substList_eq_map]

@[simp] theorem sameHead_self (a : Ty) : a.sameHead a = true := by
  cases a <;> simp [sameHead]

theorem length_components (h : a.sameHead b = true) : a.components.length = b.components.length := by
  cases a <;> cases b <;> simp_all [sameHead, components]

theorem eq_of_sameHead (h : a.sameHead b = true) (same : a.components = b.components) : a = b := by
  cases a <;> cases b <;> simp_all [sameHead, components]

/-- A substitution that leaves the variables of a type leaves the type. -/
theorem subst_eq_self (h : ∀ v ∈ t.vars, σ v = .var v) : t.subst σ = t := by
  induction t using inductVars with
  | var v => exact h v (List.mem_singleton_self v)
  | type t type ih =>
      have each : ∀ c ∈ t.components, c.subst σ = c :=
        fun c hc => ih c hc fun v hv => h v (mem_vars_of_component hc hv)
      refine (eq_of_sameHead (sameHead_subst type) ?_).symm
      rw [components_subst type, List.map_congr_left each, List.map_id']

theorem subst_of_isGround (ground : t.isGround = true) : t.subst σ = t :=
  subst_eq_self fun v hv => absurd hv (isGround_iff.mp ground v)

theorem sameHead_subst_subst (ha : ∀ v, a ≠ .var v) (hb : ∀ v, b ≠ .var v) :
    (a.subst σ).sameHead (b.subst σ) = a.sameHead b := by
  cases a <;> cases b <;> simp_all [sameHead, subst, substList_eq_map]

/-- No substitution makes types with different heads equal, unless one is a variable. -/
theorem subst_ne (ha : ∀ v, a ≠ .var v) (hb : ∀ v, b ≠ .var v) (h : a.sameHead b = false) :
    a.subst σ ≠ b.subst σ := by
  intro eq
  have heads := sameHead_subst_subst (σ := σ) ha hb
  rw [← eq, sameHead_self, h] at heads
  cases heads

/-! ## Sizes -/

theorem sizeOf_lt_of_component (h : c ∈ t.components) : sizeOf c < sizeOf t := by
  cases t with
  | unit | bool | int | float | var => cases h
  | array e =>
      obtain rfl := List.mem_singleton.mp h
      simp
  | tuple es =>
      have : sizeOf c < sizeOf es := List.sizeOf_lt_of_mem h
      simp only [tuple.sizeOf_spec]
      omega
  | fn ps r =>
      simp only [fn.sizeOf_spec]
      rcases List.mem_append.mp h with h | h
      · have := List.sizeOf_lt_of_mem h
        omega
      · obtain rfl := List.mem_singleton.mp h
        omega

theorem sizeOf_le_subst (h : v ∈ t.vars) : sizeOf (σ v) ≤ sizeOf (t.subst σ) := by
  induction t using inductVars with
  | var w =>
      obtain rfl := List.mem_singleton.mp h
      exact le_rfl
  | type t type ih =>
      obtain ⟨c, hc, hv⟩ := (mem_vars_iff type).mp h
      have smaller := sizeOf_lt_of_component (subst_mem_components (σ := σ) type hc)
      exact (ih c hc hv).trans smaller.le

/-- A variable inside a type stands for a smaller type. -/
theorem subst_ne_of_mem (type : ∀ w, t ≠ .var w) (h : v ∈ t.vars) : σ v ≠ t.subst σ := by
  intro eq
  obtain ⟨c, hc, hv⟩ := (mem_vars_iff type).mp h
  have smaller := sizeOf_lt_of_component (subst_mem_components (σ := σ) type hc)
  have larger := sizeOf_le_subst (σ := σ) hv
  rw [eq] at larger
  omega

/-! ## First differences -/

theorem firstDifferenceList_cons (a b : Ty) (as bs : List Ty) :
    firstDifferenceList (a :: as) (b :: bs) =
      (a.firstDifference b).or (firstDifferenceList as bs) := by
  rw [firstDifferenceList, Option.orElse_eq_orElse, Option.orElse_eq_or]

theorem firstDifferenceList_append {as' bs' : List Ty} (full : as.length = bs.length) :
    firstDifferenceList (as ++ as') (bs ++ bs') =
      (firstDifferenceList as bs).or (firstDifferenceList as' bs') := by
  induction as generalizing bs with
  | nil =>
      obtain rfl := List.length_eq_zero_iff.mp full.symm
      simp [firstDifferenceList]
  | cons a as ih =>
      obtain ⟨b, bs, rfl⟩ := List.exists_cons_of_length_eq_add_one full.symm
      simp only [List.cons_append, firstDifferenceList_cons, ih (Nat.succ.inj full), Option.or_assoc]

/-- Types with the same head are compared by their components. -/
theorem firstDifference_of_sameHead (h : a.sameHead b = true) :
    a.firstDifference b = firstDifferenceList a.components b.components := by
  cases a <;> cases b <;> simp_all [sameHead, components, firstDifference, firstDifferenceList]
  rw [firstDifferenceList_append (by assumption)]
  simp [firstDifferenceList]

theorem firstDifference_of_not_sameHead (h : a.sameHead b = false) :
    a.firstDifference b = some (a, b) := by
  cases a <;> cases b <;> simp_all [sameHead, firstDifference]

theorem eq_of_firstDifferenceList (full : as.length = bs.length)
    (ih : ∀ a ∈ as, ∀ b, a.firstDifference b = none → a = b)
    (h : firstDifferenceList as bs = none) : as = bs := by
  induction as generalizing bs with
  | nil => rw [List.length_eq_zero_iff.mp full.symm]
  | cons a as ihas =>
      obtain ⟨b, bs, rfl⟩ := List.exists_cons_of_length_eq_add_one full.symm
      rw [firstDifferenceList_cons, Option.or_eq_none_iff] at h
      rw [List.forall_mem_cons] at ih
      rw [ih.1 b h.1, ihas (Nat.succ.inj full) ih.2 h.2]

theorem sameHead_of_firstDifference (h : a.firstDifference b = none) : a.sameHead b = true := by
  by_contra differ
  rw [firstDifference_of_not_sameHead (Bool.eq_false_iff.mpr differ)] at h
  cases h

theorem eq_of_firstDifference (h : a.firstDifference b = none) : a = b := by
  induction a using inductComponents generalizing b with
  | type a ih =>
      have same := sameHead_of_firstDifference h
      rw [firstDifference_of_sameHead same] at h
      refine eq_of_sameHead same (eq_of_firstDifferenceList (length_components same) ?_ h)
      exact fun c hc d => ih c hc

theorem exists_of_firstDifferenceList (full : as.length = bs.length)
    (h : firstDifferenceList as bs = some (x, y)) :
    ∃ same a b as' bs', as = same ++ a :: as' ∧ bs = same ++ b :: bs' ∧
      a.firstDifference b = some (x, y) := by
  induction as generalizing bs with
  | nil => cases h
  | cons a as ih =>
      obtain ⟨b, bs, rfl⟩ := List.exists_cons_of_length_eq_add_one full.symm
      rw [firstDifferenceList_cons, Option.or_eq_some_iff] at h
      rcases h with h | ⟨none, h⟩
      · exact ⟨[], a, b, as, bs, rfl, rfl, h⟩
      · obtain ⟨same, c, d, as', bs', rfl, rfl, difference⟩ := ih (Nat.succ.inj full) h
        obtain rfl := eq_of_firstDifference none
        exact ⟨a :: same, c, d, as', bs', rfl, rfl, difference⟩

theorem place_of_firstDifference (h : a.firstDifference b = some (x, y)) : Place a b x y := by
  induction a using inductComponents generalizing b with
  | type a ih =>
      cases same : a.sameHead b with
      | false =>
          rw [firstDifference_of_not_sameHead same] at h
          cases h
          exact .here same
      | true =>
          rw [firstDifference_of_sameHead same] at h
          obtain ⟨_, c, d, _, _, left, right, h⟩ :=
            exists_of_firstDifferenceList (length_components same) h
          exact .inside same left right (ih c (by simp [left]) h)

namespace Place

theorem sameHead_eq (h : Place a b x y) : x.sameHead y = false := by
  induction h with
  | here differ => exact differ
  | inside _ _ _ _ ih => exact ih

theorem vars_left (h : Place a b x y) : ∀ v ∈ x.vars, v ∈ a.vars := by
  induction h with
  | here => exact fun _ => id
  | inside _ left _ _ ih => exact fun v hv => mem_vars_of_component (by simp [left]) (ih v hv)

theorem vars_right (h : Place a b x y) : ∀ v ∈ y.vars, v ∈ b.vars := by
  induction h with
  | here => exact fun _ => id
  | inside _ _ right _ ih => exact fun v hv => mem_vars_of_component (by simp [right]) (ih v hv)

/-- What makes two types equal makes them equal at every place. -/
theorem subst_eq (h : Place a b x y) (eq : a.subst σ = b.subst σ) : x.subst σ = y.subst σ := by
  induction h with
  | here => exact eq
  | @inside a b _ _ _ _ _ _ _ _ left right _ ih =>
      have typeA : ∀ v, a ≠ .var v := by
        rintro v rfl
        simp [components] at left
      have typeB : ∀ v, b ≠ .var v := by
        rintro v rfl
        simp [components] at right
      have parts := congrArg components eq
      rw [components_subst typeA, components_subst typeB, left, right, List.map_append,
        List.map_append] at parts
      exact ih (List.cons.inj (List.append_cancel_left parts)).1

theorem ne (h : Place a b x y) : a ≠ b := by
  induction h with
  | here differ =>
      rintro rfl
      rw [sameHead_self] at differ
      cases differ
  | inside _ left right _ ih =>
      rintro rfl
      rw [left] at right
      exact ih (List.cons.inj (List.append_cancel_left right)).1

end Place

theorem firstDifference_self (a : Ty) : a.firstDifference a = none := by
  by_contra differ
  obtain ⟨⟨x, y⟩, h⟩ := Option.ne_none_iff_exists'.mp differ
  exact (place_of_firstDifference h).ne rfl

/-- Types with the same head differ as the tuples of their components do, also after a
    substitution. -/
theorem firstDifference_subst (h : a.sameHead b = true) :
    (a.subst σ).firstDifference (b.subst σ) =
      ((tuple a.components).subst σ).firstDifference ((tuple b.components).subst σ) := by
  by_cases var : ∃ v, a = .var v
  · obtain ⟨v, rfl⟩ := var
    cases b with
    | var w =>
        obtain rfl : v = w := by simpa [sameHead] using h
        simp [firstDifference_self]
    | _ => cases h
  · rw [not_exists] at var
    have type : ∀ v, b ≠ .var v := by
      rintro v rfl
      cases a <;> simp_all [sameHead]
    rw [firstDifference_of_sameHead ((sameHead_subst_subst var type).trans h),
      components_subst var, components_subst type]
    simp [subst, firstDifference, substList_eq_map, length_components h]

end

end MiddleEnd.Ty
