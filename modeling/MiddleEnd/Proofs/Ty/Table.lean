import Mathlib
import MiddleEnd.Proofs.Ty.Variables

/-! # What a type table says

A table says that some variables are equal and that some are equal to a type; an
assignment of types to variables `Models` the table if it makes all this true.
The tables that inference comes to have an order of their classes in which no
binding leads backwards.  So every chain of bindings ends within the size of the
table, and there is an assignment that models it.
-/

namespace MiddleEnd.Ty.Table

/-! ## Roots and bindings after a change -/

section
variable {t : Table} {v w : Nat}

def bound? (t : Table) (v : Nat) : Option Ty :=
  (t.cells[v]?).bind (·.bound)

theorem binding?_eq (t : Table) (v : Nat) : t.binding? v = t.bound? (t.root v) := by
  rw [binding?, bound?]
  cases t.cells[t.root v]? <;> rfl

theorem root_eq (t : Table) (v : Nat) : t.root v = (t.cells[v]?.map Cell.root).getD v := by
  rw [root]
  cases t.cells[v]? <;> rfl

theorem root_of_size_le (h : t.size ≤ v) : t.root v = v := by
  rw [root, Array.getElem?_eq_none h]

theorem lt_size_of_bound? {ty : Ty} (h : t.bound? v = some ty) : v < t.size := by
  by_contra outside
  rw [bound?, Array.getElem?_eq_none (Nat.le_of_not_lt outside)] at h
  cases h

@[simp] theorem size_fresh (t : Table) : t.fresh.2.size = t.size + 1 :=
  Array.size_push ..

@[simp] theorem root_fresh (t : Table) (v : Nat) : t.fresh.2.root v = t.root v := by
  simp only [root_eq, fresh, Array.getElem?_push]
  by_cases eq : v = t.cells.size
  · simp [eq, size]
  · rw [if_neg eq]

@[simp] theorem bound?_fresh (t : Table) (v : Nat) : t.fresh.2.bound? v = t.bound? v := by
  simp only [bound?, fresh, Array.getElem?_push]
  by_cases eq : v = t.cells.size
  · simp [eq]
  · rw [if_neg eq]

@[simp] theorem size_bind (t : Table) (v : Nat) (ty : Ty) : (t.bind v ty).size = t.size :=
  Array.size_modify ..

@[simp] theorem root_bind (t : Table) (v w : Nat) (ty : Ty) :
    (t.bind v ty).root w = t.root w := by
  rw [root_eq, root_eq, bind, Array.getElem?_modify]
  by_cases eq : t.root v = w
  · rw [if_pos eq, Option.map_map]
    rfl
  · rw [if_neg eq]

theorem bound?_bind (t : Table) (v w : Nat) (ty : Ty) :
    (t.bind v ty).bound? w = if w = t.root v ∧ w < t.size then some ty else t.bound? w := by
  rw [bound?, bound?, bind, Array.getElem?_modify]
  by_cases eq : t.root v = w
  · by_cases inside : w < t.size
    · rw [if_pos eq, if_pos ⟨eq.symm, inside⟩, Array.getElem?_eq_getElem inside]
      rfl
    · rw [if_neg (c := w = t.root v ∧ w < t.size) fun h => inside h.2,
        Array.getElem?_eq_none (Nat.le_of_not_lt inside)]
      simp
  · rw [if_neg eq, if_neg fun h => eq h.1.symm]

/-- The class of `loser` has been put under the one that `winner` stands for. -/
structure Merged (t : Table) (loser winner : Nat) (t' : Table) : Prop where
  size : t'.size = t.size
  root : ∀ v, t'.root v = if v < t.size ∧ t.root v = loser then winner else t.root v
  bound? : ∀ v, t'.bound? v = t.bound? v

theorem merged_redirect (t : Table) (loser winner : Nat) :
    Merged t loser winner (t.redirect loser winner) := by
  refine ⟨Array.size_map .., ?_, ?_⟩
  · intro v
    simp only [root_eq, redirect, Array.getElem?_map]
    by_cases inside : v < t.size
    · simp only [Array.getElem?_eq_getElem (show v < t.cells.size from inside), inside,
        Option.map_some, Option.getD_some, true_and]
      split <;> rfl
    · simp only [Array.getElem?_eq_none (Nat.le_of_not_lt inside), inside, false_and, if_false,
        Option.map_none]
  · intro v
    simp only [Table.bound?, redirect, Array.getElem?_map]
    cases t.cells[v]? with
    | none => rfl
    | some c =>
        simp only [Option.map_some, Option.bind_some]
        split <;> rfl

theorem Merged.modify_rank {loser winner : Nat} {t' : Table} (h : Merged t loser winner t')
    (v : Nat) (f : Nat → Nat) :
    Merged t loser winner ⟨t'.cells.modify v fun c => { c with rank := f c.rank }⟩ := by
  refine ⟨(Array.size_modify ..).trans h.size, ?_, ?_⟩
  · intro w
    rw [← h.root w, root_eq, root_eq, Array.getElem?_modify]
    by_cases eq : v = w
    · rw [if_pos eq, Option.map_map]
      rfl
    · rw [if_neg eq]
  · intro w
    rw [← h.bound? w, Table.bound?, Table.bound?, Array.getElem?_modify]
    by_cases eq : v = w
    · rw [if_pos eq]
      cases t'.cells[w]? <;> rfl
    · rw [if_neg eq]

theorem merged_union (h : t.root v ≠ t.root w) :
    Merged t (t.root v) (t.root w) (t.union v w) ∨
      Merged t (t.root w) (t.root v) (t.union v w) := by
  simp only [union, if_neg h]
  split
  · exact .inr (merged_redirect ..)
  · split
    · exact .inl (merged_redirect ..)
    · exact .inl ((merged_redirect ..).modify_rank _ (· + 1))

end

/-! ## Chains of bindings -/

/-- The assignment makes true what the table says. -/
structure Models (ρ : Nat → Ty) (t : Table) : Prop where
  root : ∀ v, ρ v = ρ (t.root v)
  binding : ∀ v ty, t.binding? v = some ty → ρ v = ty.subst ρ

/-- A variable that stands for a class of which nothing is known. -/
structure Unbound (t : Table) (v : Nat) : Prop where
  root : t.root v = v
  bound? : t.bound? v = none

theorem Unbound.binding? {t : Table} {v : Nat} (h : t.Unbound v) : t.binding? v = none := by
  rw [binding?_eq, h.root, h.bound?]

theorem Unbound.lookup {t : Table} {v : Nat} (unbound : t.Unbound v) (depth : Nat) :
    t.lookup depth v = .var v := by
  cases depth with
  | zero => rw [Table.lookup, unbound.root]
  | succ depth => rw [Table.lookup, unbound.binding?, unbound.root]

/-- Bindings go down along `height`, which is positive for all variables of the table. -/
structure Descends (t : Table) (height : Nat → Nat) : Prop where
  root_root : ∀ v, t.root (t.root v) = t.root v
  le_size : ∀ v, height v ≤ t.size
  pos : ∀ v, v < t.size → 0 < height (t.root v)
  lt : ∀ v ty, t.binding? v = some ty → ∀ w ∈ ty.vars, height (t.root w) < height (t.root v)

section
variable {t : Table} {height : Nat → Nat} {ρ : Nat → Ty}

theorem lookup_subst (models : Models ρ t) (depth v : Nat) :
    (t.lookup depth v).subst ρ = ρ v := by
  induction depth generalizing v with
  | zero => exact (models.root v).symm
  | succ depth ih =>
      rw [lookup]
      cases found : t.binding? v with
      | none => exact (models.root v).symm
      | some ty =>
          simp only [subst_subst, ih]
          exact (models.binding v ty found).symm

theorem resolve_subst (models : Models ρ t) (ty : Ty) : (t.resolve ty).subst ρ = ty.subst ρ := by
  rw [resolve, subst_subst]
  exact subst_congr fun v _ => lookup_subst models t.size v

namespace Descends

variable (h : Descends t height)
include h

theorem binding?_root (v : Nat) : t.binding? (t.root v) = t.binding? v := by
  rw [binding?_eq, binding?_eq, h.root_root]

theorem unbound_root {v : Nat} (none : t.binding? v = none) : t.Unbound (t.root v) :=
  ⟨h.root_root v, by rwa [← binding?_eq]⟩

/-- A variable of height zero is not in the table. -/
theorem unbound_of_height_zero {v : Nat} (zero : height (t.root v) = 0) : t.Unbound v := by
  have outside : t.size ≤ v := by
    by_contra inside
    have := h.pos v (Nat.lt_of_not_le inside)
    omega
  refine ⟨root_of_size_le outside, ?_⟩
  rw [bound?, Array.getElem?_eq_none outside]
  rfl

theorem unbound_of_mem_lookup {depth v w : Nat} (deep : height (t.root v) ≤ depth)
    (mem : w ∈ (t.lookup depth v).vars) : t.Unbound w := by
  induction depth generalizing v with
  | zero =>
      have unbound := h.unbound_of_height_zero (Nat.le_zero.mp deep)
      rw [lookup, unbound.root] at mem
      obtain rfl := List.mem_singleton.mp mem
      exact unbound
  | succ depth ih =>
      rw [lookup] at mem
      cases found : t.binding? v with
      | none =>
          rw [found] at mem
          obtain rfl := List.mem_singleton.mp mem
          exact h.unbound_root found
      | some ty =>
          rw [found] at mem
          obtain ⟨u, hu, mem⟩ := mem_vars_subst.mp mem
          have lower := h.lt v ty found u hu
          exact ih (by omega) mem

theorem unbound_of_mem_resolve {ty : Ty} {w : Nat} (mem : w ∈ (t.resolve ty).vars) :
    t.Unbound w := by
  obtain ⟨v, -, mem⟩ := mem_vars_subst.mp mem
  exact h.unbound_of_mem_lookup (h.le_size _) mem

theorem lookup_succ {depth v : Nat} (deep : height (t.root v) ≤ depth) :
    t.lookup (depth + 1) v = t.lookup depth v := by
  induction depth generalizing v with
  | zero =>
      have unbound := h.unbound_of_height_zero (Nat.le_zero.mp deep)
      simp only [lookup, unbound.binding?]
  | succ depth ih =>
      rw [lookup]
      cases found : t.binding? v with
      | none => rw [lookup, found]
      | some ty =>
          rw [lookup, found]
          apply subst_congr
          intro w hw
          have lower := h.lt v ty found w hw
          exact ih (by omega)

theorem lookup_root (depth v : Nat) : t.lookup depth (t.root v) = t.lookup depth v := by
  cases depth with
  | zero => rw [lookup, lookup, h.root_root]
  | succ depth => rw [lookup, lookup, h.root_root, h.binding?_root]

/-- More depth does not change whether a class is found. -/
theorem leadsTo_succ {v depth w : Nat} (deep : height (t.root w) ≤ depth) :
    t.leadsTo v (depth + 1) w = t.leadsTo v depth w := by
  induction depth generalizing w with
  | zero =>
      have unbound := h.unbound_of_height_zero (Nat.le_zero.mp deep)
      simp only [leadsTo, unbound.binding?, Bool.or_false]
  | succ depth ih =>
      rw [leadsTo]
      cases found : t.binding? w with
      | none => rw [leadsTo, found]
      | some ty =>
          rw [leadsTo, found]
          congr 1
          rw [Bool.eq_iff_iff, anyVar_iff, anyVar_iff]
          apply exists_congr
          intro u
          apply and_congr_right
          intro hu
          have lower := h.lt w ty found u hu
          rw [ih (by omega)]

end Descends

/-- The class of `w` is that of `v` or leads to it. -/
def Leads (t : Table) (v w : Nat) : Prop :=
  t.leadsTo v t.size w = true

instance (t : Table) (v w : Nat) : Decidable (t.Leads v w) :=
  inferInstanceAs (Decidable (_ = true))

theorem Leads.of_root {v w : Nat} (same : t.root w = t.root v) : t.Leads v w := by
  rw [Leads]
  cases t.size <;> simp [leadsTo, same]

theorem Leads.of_binding (h : Descends t height) {v w u : Nat} {ty : Ty}
    (found : t.binding? w = some ty) (mem : u ∈ ty.vars) (leads : t.Leads v u) :
    t.Leads v w := by
  rw [Leads, ← h.leadsTo_succ (h.le_size _), leadsTo, found]
  simp only [Bool.or_eq_true, anyVar_iff]
  exact .inr ⟨u, mem, leads⟩

theorem leadsTo_root (h : Descends t height) (v depth w : Nat) :
    t.leadsTo v depth (t.root w) = t.leadsTo v depth w := by
  cases depth with
  | zero => rw [leadsTo, leadsTo, h.root_root]
  | succ depth => rw [leadsTo, leadsTo, h.root_root, h.binding?_root]

theorem Leads.of_root_leads (h : Descends t height) {v w : Nat} (leads : t.Leads v (t.root w)) :
    t.Leads v w := by
  rwa [Leads, leadsTo_root h] at leads

theorem occurs_iff {v : Nat} {ty : Ty} : t.occurs v ty = true ↔ ∃ w ∈ ty.vars, t.Leads v w :=
  anyVar_iff

end

/-! ## Valid tables -/

/-- The binding of `a` has a variable of the class that `b` stands for. -/
def Mentions (t : Table) (a b : Nat) : Prop :=
  ∃ ty, t.bound? a = some ty ∧ ∃ w ∈ ty.vars, t.root w = b

/-- The variables that stand for classes are those in the list, and no binding mentions a
    class further ahead in it. -/
structure Ordered (t : Table) (order : List Nat) : Prop where
  root_root : ∀ v, t.root (t.root v) = t.root v
  root_lt : ∀ v, v < t.size → t.root v < t.size
  vars_lt : ∀ v ty, t.bound? v = some ty → ∀ w ∈ ty.vars, w < t.size
  nodup : order.Nodup
  mem : ∀ v, v ∈ order ↔ v < t.size ∧ t.root v = v
  forward : order.Pairwise fun a b => ¬ t.Mentions b a
  apart : ∀ a ∈ order, ¬ t.Mentions a a

/-- The table is as inference leaves it. -/
def Valid (t : Table) : Prop :=
  ∃ order, t.Ordered order

namespace Ordered

variable {t : Table} {order : List Nat} (h : Ordered t order)
include h

theorem length_le : order.length ≤ t.size := by
  have sub : order ⊆ List.range t.size := by
    intro v hv
    exact List.mem_range.mpr ((h.mem v).mp hv).1
  simpa using (h.nodup.subperm sub).length_le

theorem root_mem {v : Nat} (inside : v < t.size) : t.root v ∈ order :=
  (h.mem _).mpr ⟨h.root_lt v inside, h.root_root v⟩

theorem idxOf_lt {a b : Nat} (ha : a ∈ order) (hb : b ∈ order) (mentions : t.Mentions a b) :
    order.idxOf a < order.idxOf b := by
  have la := List.idxOf_lt_length_of_mem ha
  have lb := List.idxOf_lt_length_of_mem hb
  rcases Nat.lt_trichotomy (order.idxOf a) (order.idxOf b) with lt | eq | gt
  · exact lt
  · rw [List.idxOf_inj ha] at eq
    exact absurd (eq ▸ mentions) (h.apart b hb)
  · have back := List.pairwise_iff_getElem.mp h.forward _ _ lb la gt
    rw [List.getElem_idxOf, List.getElem_idxOf] at back
    exact absurd mentions back

/-- How far from the end of the order a class stands is a height. -/
theorem descends : t.Descends fun v => order.length - order.idxOf v := by
  refine ⟨h.root_root, ?_, ?_, ?_⟩
  · intro v
    exact (Nat.sub_le ..).trans h.length_le
  · intro v inside
    have := List.idxOf_lt_length_of_mem (h.root_mem inside)
    omega
  · intro v ty found w hw
    rw [binding?_eq] at found
    have hv : t.root v ∈ order := (h.mem _).mpr ⟨lt_size_of_bound? found, h.root_root v⟩
    have hw' : t.root w ∈ order := h.root_mem (h.vars_lt _ ty found w hw)
    have lt := h.idxOf_lt hv hw' ⟨ty, found, w, hw, rfl⟩
    have := List.idxOf_lt_length_of_mem hw'
    omega

end Ordered

section
variable {t : Table} {v : Nat}

theorem Valid.root_root (h : t.Valid) (v : Nat) : t.root (t.root v) = t.root v := by
  obtain ⟨order, h⟩ := h
  exact h.root_root v

theorem Valid.unbound_root (h : t.Valid) (free : t.binding? v = none) : t.Unbound (t.root v) := by
  obtain ⟨order, h⟩ := h
  exact h.descends.unbound_root free

theorem Valid.root_lt (h : t.Valid) (inside : v < t.size) : t.root v < t.size := by
  obtain ⟨order, h⟩ := h
  exact h.root_lt v inside

theorem Valid.vars_lt (h : t.Valid) {ty : Ty} (found : t.binding? v = some ty) :
    ∀ w ∈ ty.vars, w < t.size := by
  obtain ⟨order, h⟩ := h
  rw [binding?_eq] at found
  exact h.vars_lt _ ty found

theorem Valid.lookup_of_bound (h : t.Valid) {ty : Ty} (found : t.binding? v = some ty) :
    t.lookup t.size v = t.resolve ty := by
  obtain ⟨order, h⟩ := h
  rw [← h.descends.lookup_succ (h.descends.le_size _), lookup, found]
  rfl

theorem Valid.lookup_root (h : t.Valid) (v : Nat) :
    t.lookup t.size (t.root v) = t.lookup t.size v := by
  obtain ⟨order, h⟩ := h
  exact h.descends.lookup_root t.size v

/-- To read variables through the table is to assign types to them as the table says. -/
theorem Valid.models_lookup (h : t.Valid) : Models (t.lookup t.size) t :=
  ⟨fun v => (h.lookup_root v).symm, fun _ _ => h.lookup_of_bound⟩

/-- A table says nothing about variables that it does not have. -/
theorem Models.congr {ρ ρ' : Nat → Ty} (models : Models ρ t) (h : t.Valid)
    (agrees : ∀ v < t.size, ρ' v = ρ v) : Models ρ' t := by
  constructor
  · intro v
    by_cases inside : v < t.size
    · rw [agrees v inside, agrees _ (h.root_lt inside), models.root v]
    · rw [root_of_size_le (Nat.le_of_not_lt inside)]
  · intro v ty found
    have inside : v < t.size := by
      by_contra outside
      have bound := found
      rw [binding?_eq, root_of_size_le (Nat.le_of_not_lt outside)] at bound
      exact outside (lt_size_of_bound? bound)
    rw [agrees v inside, models.binding v ty found]
    exact subst_congr fun w hw => (agrees w (h.vars_lt found w hw)).symm

theorem Models.fresh {ρ : Nat → Ty} (models : Models ρ t) : Models ρ t.fresh.2 := by
  constructor
  · intro v
    rw [root_fresh]
    exact models.root v
  · intro v ty found
    rw [binding?_eq, root_fresh, bound?_fresh, ← binding?_eq] at found
    exact models.binding v ty found

end

theorem valid_empty : empty.Valid := by
  refine ⟨[], fun _ => rfl, nofun, ?_, List.nodup_nil, ?_, .nil, nofun⟩
  · intro v ty found
    cases lt_size_of_bound? found
  · intro v
    simp [empty, size]

theorem Valid.fresh {t : Table} (h : t.Valid) : t.fresh.2.Valid := by
  obtain ⟨order, h⟩ := h
  have same : ∀ a b, t.fresh.2.Mentions a b ↔ t.Mentions a b := by
    intro a b
    simp only [Mentions, bound?_fresh, root_fresh]
  refine ⟨order ++ [t.size], ?_, ?_, ?_, ?_, ?_, ?_, ?_⟩
  · intro v
    simp only [root_fresh, h.root_root]
  · intro v inside
    rw [size_fresh] at inside ⊢
    rw [root_fresh]
    by_cases new : v = t.size
    · rw [new, root_of_size_le le_rfl]
      omega
    · have := h.root_lt v (by omega)
      omega
  · intro v ty found w hw
    rw [bound?_fresh] at found
    have := h.vars_lt v ty found w hw
    rw [size_fresh]
    omega
  · rw [List.nodup_append]
    refine ⟨h.nodup, List.nodup_singleton _, ?_⟩
    intro a ha b hb
    obtain rfl := List.mem_singleton.mp hb
    exact Nat.ne_of_lt ((h.mem a).mp ha).1
  · intro v
    rw [List.mem_append, h.mem, List.mem_singleton, size_fresh, root_fresh]
    constructor
    · rintro (⟨inside, root⟩ | rfl)
      · exact ⟨by omega, root⟩
      · exact ⟨by omega, root_of_size_le le_rfl⟩
    · rintro ⟨inside, root⟩
      by_cases new : v = t.size
      · exact .inr new
      · exact .inl ⟨by omega, root⟩
  · rw [List.pairwise_append]
    refine ⟨h.forward.imp fun {a b} no => by rwa [same], List.pairwise_singleton .., ?_⟩
    intro a ha b hb
    obtain rfl := List.mem_singleton.mp hb
    rw [same]
    rintro ⟨ty, found, -⟩
    exact absurd (lt_size_of_bound? found) (lt_irrefl _)
  · intro a ha
    rw [same]
    rcases List.mem_append.mp ha with ha | ha
    · exact h.apart a ha
    · obtain rfl := List.mem_singleton.mp ha
      rintro ⟨ty, found, -⟩
      exact absurd (lt_size_of_bound? found) (lt_irrefl _)

section
variable {t t' : Table} {v : Nat} {ty : Ty} {ρ : Nat → Ty}

theorem Unbound.bound?_bind (unbound : t.Unbound v) (inside : v < t.size) (ty : Ty) (w : Nat) :
    (t.bind v ty).bound? w = if w = v then some ty else t.bound? w := by
  rw [Table.bound?_bind, unbound.root]
  by_cases eq : w = v
  · rw [if_pos ⟨eq, eq ▸ inside⟩, if_pos eq]
  · rw [if_neg fun h => eq h.1, if_neg eq]

theorem Unbound.binding?_bind (unbound : t.Unbound v) (inside : v < t.size) (ty : Ty) (w : Nat) :
    (t.bind v ty).binding? w = if t.root w = v then some ty else t.binding? w := by
  rw [binding?_eq, binding?_eq, root_bind, unbound.bound?_bind inside]

theorem Unbound.unbound_bind_iff (unbound : t.Unbound v) (inside : v < t.size) (ty : Ty) (w : Nat) :
    (t.bind v ty).Unbound w ↔ t.Unbound w ∧ w ≠ v := by
  have bound := unbound.bound?_bind inside ty w
  constructor
  · intro h
    have none := h.bound?
    rw [bound] at none
    split at none
    · cases none
    · exact ⟨⟨by rw [← root_bind t v w ty, h.root], none⟩, ‹_›⟩
  · rintro ⟨h, ne⟩
    exact ⟨by rw [root_bind, h.root], by rw [bound, if_neg ne, h.bound?]⟩

theorem Unbound.models_bind_iff (unbound : t.Unbound v) (inside : v < t.size) :
    Models ρ (t.bind v ty) ↔ Models ρ t ∧ ρ v = ty.subst ρ := by
  have binding := unbound.binding?_bind inside ty
  constructor
  · intro models
    refine ⟨⟨?_, ?_⟩, ?_⟩
    · intro w
      rw [← root_bind t v w ty]
      exact models.root w
    · intro w u found
      apply models.binding w u
      rw [binding, if_neg, found]
      intro eq
      rw [binding?_eq, eq, unbound.bound?] at found
      cases found
    · apply models.binding v ty
      rw [binding, if_pos unbound.root]
  · rintro ⟨models, equal⟩
    refine ⟨?_, ?_⟩
    · intro w
      rw [root_bind]
      exact models.root w
    · intro w u found
      rw [binding] at found
      split at found
      · rename_i root
        cases found
        rw [models.root w, root, equal]
      · exact models.binding w u found

/-- Those that lead to the class that is bound come first now. -/
theorem Valid.bind (h : t.Valid) (unbound : t.Unbound v) (inside : v < t.size)
    (free : t.occurs v ty = false) (below : ∀ w ∈ ty.vars, w < t.size) :
    (t.bind v ty).Valid := by
  obtain ⟨order, h⟩ := h
  have absent : ∀ w ∈ ty.vars, ¬ t.Leads v w := by
    intro w hw leads
    rw [occurs_iff.mpr ⟨w, hw, leads⟩] at free
    cases free
  have self : t.Leads v v := .of_root rfl
  have cases_mentions : ∀ {a b}, (t.bind v ty).Mentions a b →
      (a = v ∧ ∃ w ∈ ty.vars, t.root w = b) ∨ t.Mentions a b := by
    rintro a b ⟨u, found, w, hw, root⟩
    rw [unbound.bound?_bind inside] at found
    rw [root_bind] at root
    split at found
    · cases found
      exact .inl ⟨‹_›, w, hw, root⟩
    · exact .inr ⟨u, found, w, hw, root⟩
  have mem : ∀ {a}, a ∈ order.filter (t.Leads v ·) ++ order.filter (¬ t.Leads v ·) ↔
      a ∈ order := by
    intro a
    by_cases leads : t.Leads v a <;> simp [leads]
  refine ⟨order.filter (t.Leads v ·) ++ order.filter (¬ t.Leads v ·), ?_, ?_, ?_, ?_, ?_, ?_, ?_⟩
  · intro w
    simp only [root_bind, h.root_root]
  · intro w hw
    simp only [root_bind, size_bind] at hw ⊢
    exact h.root_lt w hw
  · intro w u found x hx
    rw [size_bind]
    rw [unbound.bound?_bind inside] at found
    split at found
    · cases found
      exact below x hx
    · exact h.vars_lt w u found x hx
  · rw [List.nodup_append]
    refine ⟨h.nodup.filter _, h.nodup.filter _, ?_⟩
    rintro a ha b hb rfl
    simp only [List.mem_filter, decide_eq_true_eq] at ha hb
    exact hb.2 ha.2
  · intro a
    rw [mem, h.mem, size_bind, root_bind]
  · rw [List.pairwise_append]
    refine ⟨?_, ?_, ?_⟩
    · refine (h.forward.filter _).imp_of_mem ?_
      intro a b ha hb no mentions
      simp only [List.mem_filter, decide_eq_true_eq] at ha
      rcases cases_mentions mentions with ⟨rfl, w, hw, rfl⟩ | old
      · exact absurd (ha.2.of_root_leads h.descends) (absent w hw)
      · exact no old
    · refine (h.forward.filter _).imp_of_mem ?_
      intro a b ha hb no mentions
      simp only [List.mem_filter, decide_eq_true_eq] at hb
      rcases cases_mentions mentions with ⟨rfl, -⟩ | old
      · exact hb.2 self
      · exact no old
    · intro a ha b hb mentions
      simp only [List.mem_filter, decide_eq_true_eq] at ha hb
      rcases cases_mentions mentions with ⟨rfl, -⟩ | ⟨u, found, w, hw, rfl⟩
      · exact hb.2 self
      · have binding : t.binding? b = some u := by
          rw [binding?_eq, ((h.mem b).mp hb.1).2, found]
        exact hb.2 (.of_binding h.descends binding hw (ha.2.of_root_leads h.descends))
  · intro a ha mentions
    rw [mem] at ha
    rcases cases_mentions mentions with ⟨rfl, w, hw, root⟩ | old
    · exact absurd (.of_root (root.trans unbound.root.symm)) (absent w hw)
    · exact h.apart a ha old

section
variable {loser winner : Nat} (merged : Merged t loser winner t')
include merged

theorem Merged.root_loser (hl : t.Unbound loser) (insideL : loser < t.size) :
    t'.root loser = winner := by
  rw [merged.root, if_pos ⟨insideL, hl.root⟩]

theorem Merged.binding? (hl : t.Unbound loser) (hw : t.Unbound winner) (v : Nat) :
    t'.binding? v = t.binding? v := by
  rw [binding?_eq, binding?_eq, merged.root, merged.bound?]
  split
  · rename_i under
    rw [under.2, hl.bound?, hw.bound?]
  · rfl

theorem Merged.unbound_iff (hl : t.Unbound loser) (hw : t.Unbound winner)
    (insideL : loser < t.size) (ne : loser ≠ winner) (v : Nat) :
    t'.Unbound v ↔ t.Unbound v ∧ v ≠ loser := by
  constructor
  · intro h
    have root := h.root
    have none := h.bound?
    rw [merged.root] at root
    rw [merged.bound?] at none
    split at root
    · rename_i under
      rw [← root, hw.root] at under
      exact absurd under.2.symm ne
    · rename_i other
      refine ⟨⟨root, none⟩, ?_⟩
      rintro rfl
      exact other ⟨insideL, root⟩
  · rintro ⟨h, other⟩
    refine ⟨?_, by rw [merged.bound?, h.bound?]⟩
    rw [merged.root, if_neg, h.root]
    rintro ⟨-, eq⟩
    exact other (h.root.symm.trans eq)

theorem Merged.models_iff (hl : t.Unbound loser) (hw : t.Unbound winner)
    (insideL : loser < t.size) : Models ρ t' ↔ Models ρ t ∧ ρ loser = ρ winner := by
  have binding := merged.binding? hl hw
  constructor
  · intro models
    have same : ρ loser = ρ winner := by
      rw [models.root loser, merged.root_loser hl insideL]
    refine ⟨⟨?_, ?_⟩, same⟩
    · intro v
      have root := models.root v
      rw [merged.root] at root
      split at root
      · rename_i under
        rw [root, under.2, same]
      · exact root
    · intro v ty found
      exact models.binding v ty (by rw [binding, found])
  · rintro ⟨models, same⟩
    refine ⟨?_, ?_⟩
    · intro v
      rw [merged.root]
      split
      · rename_i under
        rw [models.root v, under.2, same]
      · exact models.root v
    · intro v ty found
      exact models.binding v ty (by rw [← binding, found])

/-- The class that stands for both comes last now. -/
theorem Valid.of_merged (h : t.Valid) (hl : t.Unbound loser) (hw : t.Unbound winner)
    (insideL : loser < t.size) (insideW : winner < t.size) (ne : loser ≠ winner) : t'.Valid := by
  obtain ⟨order, h⟩ := h
  have rootW : t'.root winner = winner := by
    rw [merged.root, if_neg, hw.root]
    rintro ⟨-, eq⟩
    exact ne (hw.root.symm.trans eq).symm
  have rest : ∀ {a}, a ∈ order.filter (fun a => a ≠ loser ∧ a ≠ winner) ↔
      a ∈ order ∧ a ≠ loser ∧ a ≠ winner := by
    intro a
    simp
  have old : ∀ {a b}, b ≠ winner → t'.Mentions a b → t.Mentions a b := by
    rintro a b other ⟨u, found, w, hw, root⟩
    rw [merged.bound?] at found
    rw [merged.root] at root
    split at root
    · exact absurd root.symm other
    · exact ⟨u, found, w, hw, root⟩
  have silent : ∀ {b}, ¬ t'.Mentions winner b := by
    rintro b ⟨u, found, -⟩
    rw [merged.bound?, hw.bound?] at found
    cases found
  refine ⟨order.filter (fun a => a ≠ loser ∧ a ≠ winner) ++ [winner], ?_, ?_, ?_, ?_, ?_, ?_, ?_⟩
  · intro v
    rw [merged.root v]
    split
    · exact rootW
    · rename_i other
      rw [merged.root, if_neg, h.root_root]
      rintro ⟨inside, eq⟩
      rw [h.root_root] at eq
      by_cases insideV : v < t.size
      · exact other ⟨insideV, eq⟩
      · rw [root_of_size_le (Nat.le_of_not_lt insideV)] at inside
        exact insideV inside
  · intro v inside
    rw [merged.size] at inside ⊢
    rw [merged.root]
    split
    · exact insideW
    · exact h.root_lt v inside
  · intro v u found
    rw [merged.bound?] at found
    rw [merged.size]
    exact h.vars_lt v u found
  · rw [List.nodup_append]
    refine ⟨h.nodup.filter _, List.nodup_singleton _, ?_⟩
    intro a ha b hb
    obtain rfl := List.mem_singleton.mp hb
    exact (rest.mp ha).2.2
  · intro a
    rw [List.mem_append, rest, List.mem_singleton, h.mem, merged.size]
    constructor
    · rintro (⟨⟨inside, root⟩, notL, -⟩ | rfl)
      · refine ⟨inside, ?_⟩
        rw [merged.root, if_neg, root]
        rintro ⟨-, eq⟩
        exact notL (root.symm.trans eq)
      · exact ⟨insideW, rootW⟩
    · rintro ⟨inside, root⟩
      by_cases isW : a = winner
      · exact .inr isW
      · rw [merged.root] at root
        split at root
        · exact absurd root.symm isW
        · rename_i other
          refine .inl ⟨⟨inside, root⟩, ?_, isW⟩
          rintro rfl
          exact other ⟨inside, root⟩
  · rw [List.pairwise_append]
    refine ⟨?_, List.pairwise_singleton .., ?_⟩
    · refine (h.forward.filter _).imp_of_mem ?_
      intro a b ha hb no mentions
      exact no (old (rest.mp ha).2.2 mentions)
    · intro a _ b hb
      obtain rfl := List.mem_singleton.mp hb
      exact silent
  · intro a ha mentions
    rcases List.mem_append.mp ha with ha | ha
    · rw [rest] at ha
      exact h.apart a ha.1 (old ha.2.2 mentions)
    · obtain rfl := List.mem_singleton.mp ha
      exact silent mentions

end

end

end MiddleEnd.Ty.Table
