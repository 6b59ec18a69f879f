import Mathlib
import MiddleEnd.Proofs.Ty.Differences
import MiddleEnd.Proofs.Ty.Table

/-! # Unification

A solved difference gives a meaning to one variable of which nothing was known,
so unification solves at most as many differences as there are such variables.
What it takes away are the assignments that do not make the two sides equal, and
no others: if it succeeds, the table says what it said before and that the two
types are equal, and if it fails then no assignment that models the table makes
them equal.
-/

namespace MiddleEnd.Ty

/-- The variables of the type are among the first `n`. -/
def Below (n : Nat) (t : Ty) : Prop :=
  ∀ v ∈ t.vars, v < n

theorem Below.mono {m n : Nat} {t : Ty} (h : t.Below m) (le : m ≤ n) : t.Below n :=
  fun v hv => (h v hv).trans_le le

namespace Table

/-- The second table says what the first one says, and maybe more: equal variables stay
    equal, and a class that is bound keeps its binding. -/
structure Extends (t t' : Table) : Prop where
  valid : t'.Valid
  size_le : t.size ≤ t'.size
  root : ∀ v, t'.root (t.root v) = t'.root v
  binding? : ∀ v ty, t.binding? v = some ty → t'.binding? v = some ty

section
variable {t t' t'' : Table}

namespace Extends

theorem refl (valid : t.Valid) : Extends t t :=
  ⟨valid, le_rfl, valid.root_root, fun _ _ => id⟩

theorem trans (h : Extends t t') (h' : Extends t' t'') : Extends t t'' := by
  refine ⟨h'.valid, h.size_le.trans h'.size_le, ?_, ?_⟩
  · intro v
    rw [← h'.root, h.root, h'.root]
  · intro v ty found
    exact h'.binding? v ty (h.binding? v ty found)

theorem models (h : Extends t t') (ρ : Nat → Ty) (models : Models ρ t') : Models ρ t := by
  constructor
  · intro v
    rw [models.root v, ← h.root v, ← models.root]
  · intro v ty found
    exact models.binding v ty (h.binding? v ty found)

/-- Reading a type a second time, through a later table, is reading it through that table. -/
theorem resolve_resolve (h : Extends t t') (ty : Ty) : t'.resolve (t.resolve ty) = t'.resolve ty := by
  have again : ∀ depth v, t'.resolve (t.lookup depth v) = t'.lookup t'.size v := by
    have root : ∀ v, t'.lookup t'.size (t.root v) = t'.lookup t'.size v := by
      intro v
      rw [← h.valid.lookup_root, h.root, h.valid.lookup_root]
    intro depth
    induction depth with
    | zero => exact root
    | succ depth ih =>
        intro v
        rw [lookup]
        cases found : t.binding? v with
        | none => exact root v
        | some ty =>
            rw [h.valid.lookup_of_bound (h.binding? v ty found), resolve, resolve, subst_subst]
            exact subst_congr fun u _ => ih u
  rw [resolve, resolve, resolve, subst_subst]
  exact subst_congr fun v _ => again t.size v

end Extends

theorem extends_fresh (valid : t.Valid) : Extends t t.fresh.2 := by
  refine ⟨valid.fresh, by rw [size_fresh]; omega, ?_, ?_⟩
  · intro v
    simp only [root_fresh, valid.root_root]
  · intro v ty found
    rwa [binding?_eq, root_fresh, bound?_fresh, ← binding?_eq]

end

section
variable {t t' : Table} {a b x y : Ty} {v w : Nat}

/-! ## One difference -/

/-- What a table is read through to: unbound variables of the table. -/
theorem Valid.unbound_of_mem_resolve (valid : t.Valid) (below : a.Below t.size) {v : Nat}
    (mem : v ∈ (t.resolve a).vars) : t.Unbound v ∧ v < t.size := by
  obtain ⟨order, h⟩ := valid
  refine ⟨h.descends.unbound_of_mem_resolve mem, ?_⟩
  have inside : ∀ depth w, w < t.size → (t.lookup depth w).Below t.size := by
    intro depth
    induction depth with
    | zero =>
        intro w hw u hu
        obtain rfl := List.mem_singleton.mp hu
        exact h.root_lt w hw
    | succ depth ih =>
        intro w hw u hu
        rw [lookup] at hu
        cases found : t.binding? w with
        | none =>
            rw [found] at hu
            obtain rfl := List.mem_singleton.mp hu
            exact h.root_lt w hw
        | some ty =>
            rw [found] at hu
            obtain ⟨z, hz, hu⟩ := mem_vars_subst.mp hu
            rw [binding?_eq] at found
            exact ih z (h.vars_lt _ ty found z hz) u hu
  obtain ⟨w, hw, mem⟩ := mem_vars_subst.mp mem
  exact inside t.size w (below w hw) v mem

/-- A type in which nothing is bound is read as it is. -/
theorem resolve_eq_self (unbound : ∀ v ∈ a.vars, t.Unbound v) : t.resolve a = a :=
  subst_eq_self fun v hv => (unbound v hv).lookup t.size

/-- The difference between `x` and `y` has been solved: a variable has been given a meaning,
    and the assignments are left that make the two sides equal. -/
structure Solved (t : Table) (x y : Ty) (t' : Table) : Prop extends Extends t t' where
  size : t'.size = t.size
  unbound : ∃ v, t.Unbound v ∧ v < t.size ∧ ∀ w, t'.Unbound w ↔ t.Unbound w ∧ w ≠ v
  models_iff : ∀ ρ, Models ρ t' ↔ Models ρ t ∧ x.subst ρ = y.subst ρ

theorem Solved.symm (h : Solved t x y t') : Solved t y x t' := by
  refine ⟨h.toExtends, h.size, h.unbound, ?_⟩
  intro ρ
  rw [h.models_iff, eq_comm (a := x.subst ρ)]

theorem solved_of_merged (valid : t.Valid) (merged : Merged t v w t')
    (hv : t.Unbound v ∧ v < t.size) (hw : t.Unbound w ∧ w < t.size) (ne : v ≠ w) :
    Solved t (.var v) (.var w) t' := by
  have valid' := valid.of_merged merged hv.1 hw.1 hv.2 hw.2 ne
  refine ⟨⟨valid', merged.size.ge, ?_, ?_⟩, merged.size, ⟨v, hv.1, hv.2, ?_⟩, ?_⟩
  · intro u
    rw [merged.root, merged.root, valid.root_root]
    by_cases inside : u < t.size
    · simp only [inside, valid.root_lt inside, true_and]
    · rw [root_of_size_le (Nat.le_of_not_lt inside)]
  · intro u ty found
    rw [merged.binding? hv.1 hw.1, found]
  · exact merged.unbound_iff hv.1 hw.1 hv.2 ne
  · exact fun ρ => merged.models_iff hv.1 hw.1 hv.2

theorem solved_of_bind (valid : t.Valid) (hv : t.Unbound v ∧ v < t.size) (below : y.Below t.size)
    (free : t.occurs v y = false) : Solved t (.var v) y (t.bind v y) := by
  refine ⟨⟨valid.bind hv.1 hv.2 free below, (size_bind ..).ge, ?_, ?_⟩, size_bind ..,
    ⟨v, hv.1, hv.2, ?_⟩, ?_⟩
  · intro u
    simp only [root_bind, valid.root_root]
  · intro u ty found
    rw [hv.1.binding?_bind hv.2, if_neg, found]
    intro eq
    rw [binding?_eq, eq, hv.1.bound?] at found
    cases found
  · exact hv.1.unbound_bind_iff hv.2 y
  · exact fun ρ => hv.1.models_bind_iff hv.2

/-- In a type read through the table a variable occurs if it is one of its variables. -/
theorem occurs_iff_mem (hv : t.Unbound v) (hy : ∀ w ∈ y.vars, t.Unbound w) :
    t.occurs v y = true ↔ v ∈ y.vars := by
  have leads : ∀ w, t.Unbound w → (t.Leads v w ↔ w = v) := by
    intro w hw
    rw [Leads]
    cases t.size <;> simp [leadsTo, hv.root, hw.root, hw.binding?]
  rw [occurs_iff]
  constructor
  · rintro ⟨w, hw, h⟩
    exact (leads w (hy w hw)).mp h ▸ hw
  · intro h
    exact ⟨v, h, (leads v hv).mpr rfl⟩

section
variable (hx : ∀ v ∈ x.vars, t.Unbound v ∧ v < t.size) (hy : ∀ v ∈ y.vars, t.Unbound v ∧ v < t.size)
  (differ : x.sameHead y = false)
include hx hy differ

theorem solved_of_solve (valid : t.Valid) (h : t.solve x y = .ok t') : Solved t x y t' := by
  revert h
  fun_cases solve t x y with
  | case1 v w =>
      intro h
      cases h
      have left := hx v (List.mem_singleton_self v)
      have right := hy w (List.mem_singleton_self w)
      have ne : v ≠ w := by simpa [sameHead] using differ
      have roots : t.root v ≠ t.root w := by rwa [left.1.root, right.1.root]
      have cases := merged_union roots
      rw [left.1.root, right.1.root] at cases
      rcases cases with merged | merged
      · exact solved_of_merged valid merged left right ne
      · exact (solved_of_merged valid merged right left ne.symm).symm
  | case2 v y =>
      rw [bindVar]
      split
      · intro h
        cases h
      · rename_i free
        intro h
        cases h
        exact solved_of_bind valid (hx v (List.mem_singleton_self v)) (fun w hw => (hy w hw).2)
          (Bool.eq_false_iff.mpr free)
  | case3 x w =>
      rw [bindVar]
      split
      · intro h
        cases h
      · rename_i free
        intro h
        cases h
        exact (solved_of_bind valid (hy w (List.mem_singleton_self w)) (fun v hv => (hx v hv).2)
          (Bool.eq_false_iff.mpr free)).symm
  | case4 | case5 | case6 =>
      intro h
      cases h

omit hx hy differ in
theorem subst_ne_of_bindVar {e : TypeError} (hv : t.Unbound v) (hy : ∀ w ∈ y.vars, t.Unbound w)
    (type : ∀ w, y ≠ .var w) (h : t.bindVar v y = .error e) (ρ : Nat → Ty) : ρ v ≠ y.subst ρ := by
  rw [bindVar] at h
  split at h
  · rename_i occurs
    exact subst_ne_of_mem type ((occurs_iff_mem hv hy).mp occurs)
  · cases h

/-- A difference that cannot be solved has no solution at all. -/
theorem subst_ne_of_solve {e : TypeError} (h : t.solve x y = .error e) (ρ : Nat → Ty) :
    x.subst ρ ≠ y.subst ρ := by
  revert h
  fun_cases solve t x y with
  | case1 v w => exact nofun
  | case2 v y type =>
      intro h
      exact subst_ne_of_bindVar (hx v (List.mem_singleton_self v)).1 (fun w hw => (hy w hw).1)
        type h ρ
  | case3 x w type =>
      intro h
      exact (subst_ne_of_bindVar (hy w (List.mem_singleton_self w)).1 (fun v hv => (hx v hv).1)
        type h ρ).symm
  | case4 => exact fun _ => subst_ne nofun nofun differ
  | case5 => exact fun _ => subst_ne nofun nofun differ
  | case6 x y _ left right => exact fun _ => subst_ne left right differ

end

end

/-! ## All differences -/

instance (t : Table) (v : Nat) : Decidable (t.Unbound v) :=
  decidable_of_iff (t.root v = v ∧ t.bound? v = none) ⟨fun h => ⟨h.1, h.2⟩, fun h => ⟨h.1, h.2⟩⟩

def unboundVars (t : Table) : Finset Nat :=
  (Finset.range t.size).filter t.Unbound

theorem card_unboundVars_le (t : Table) : t.unboundVars.card ≤ t.size :=
  (Finset.card_filter_le _ _).trans (Finset.card_range _).le

/-- Differences between two types are solved one after the other, until none is left or one
    cannot be solved. -/
inductive Solving (a b : Ty) : Table → Except TypeError Unit → Table → Prop where
  | done {t} : (t.resolve a).firstDifference (t.resolve b) = none → Solving a b t (.ok ()) t
  | failed {t x y e} : (t.resolve a).firstDifference (t.resolve b) = some (x, y) →
      t.solve x y = .error e → (∀ ρ, x.subst ρ ≠ y.subst ρ) → Solving a b t (.error e) t
  | solved {t t' t'' x y r} : (t.resolve a).firstDifference (t.resolve b) = some (x, y) →
      t.solve x y = .ok t' → Solved t x y t' → Solving a b t' r t'' → Solving a b t r t''

section
variable {t t' : Table} {a b x y : Ty} {ρ : Nat → Ty}

theorem Solved.card_lt (h : Solved t x y t') : t'.unboundVars.card < t.unboundVars.card := by
  obtain ⟨v, hv, inside, unbound⟩ := h.unbound
  apply Finset.card_lt_card
  rw [Finset.ssubset_iff_of_subset]
  · exact ⟨v, by simp [unboundVars, hv, inside], by simp [unboundVars, unbound]⟩
  · intro w
    simp only [unboundVars, Finset.mem_filter, Finset.mem_range, unbound, h.size]
    exact fun hw => ⟨hw.1, hw.2.1⟩

theorem unifyWithin_solving {rounds : Nat} (valid : t.Valid) (ha : a.Below t.size)
    (hb : b.Below t.size) (enough : t.unboundVars.card < rounds) :
    Solving a b t (unifyWithin rounds t a b).1 (unifyWithin rounds t a b).2 := by
  induction rounds generalizing t with
  | zero => omega
  | succ rounds ih =>
      rw [unifyWithin]
      split
      · exact .done ‹_›
      · rename_i x y difference
        have place := place_of_firstDifference difference
        have hx : ∀ v ∈ x.vars, t.Unbound v ∧ v < t.size :=
          fun v hv => valid.unbound_of_mem_resolve ha (place.vars_left v hv)
        have hy : ∀ v ∈ y.vars, t.Unbound v ∧ v < t.size :=
          fun v hv => valid.unbound_of_mem_resolve hb (place.vars_right v hv)
        split
        · rename_i t₁ ok
          have solved := solved_of_solve hx hy place.sameHead_eq valid ok
          have := solved.card_lt
          rw [← solved.size] at ha hb
          exact .solved difference ok solved (ih solved.valid ha hb (by omega))
        · rename_i e error
          exact .failed difference error (subst_ne_of_solve hx hy place.sameHead_eq error)

theorem unify_solving (valid : t.Valid) (ha : a.Below t.size) (hb : b.Below t.size) :
    Solving a b t (t.unify a b).1 (t.unify a b).2 :=
  unifyWithin_solving valid ha hb (Nat.lt_succ_of_le t.card_unboundVars_le)

/-- What makes two types equal makes them equal at their first difference. -/
theorem Models.subst_eq (models : Models ρ t)
    (difference : (t.resolve a).firstDifference (t.resolve b) = some (x, y))
    (equal : a.subst ρ = b.subst ρ) : x.subst ρ = y.subst ρ := by
  apply (place_of_firstDifference difference).subst_eq
  rw [resolve_subst models, resolve_subst models, equal]

namespace Solving

variable {r : Except TypeError Unit} (h : Solving a b t r t')
include h

theorem toExtends (valid : t.Valid) : Extends t t' := by
  induction h with
  | done | failed => exact .refl valid
  | solved _ _ solved _ ih => exact solved.toExtends.trans (ih solved.valid)

theorem resolve_eq (ok : r = .ok ()) : t'.resolve a = t'.resolve b := by
  induction h with
  | done same => exact eq_of_firstDifference same
  | failed => cases ok
  | solved _ _ _ _ ih => exact ih ok

/-- Success leaves the assignments that make the two types equal. -/
theorem models_iff (ok : r = .ok ()) : Models ρ t' ↔ Models ρ t ∧ a.subst ρ = b.subst ρ := by
  induction h with
  | done same =>
      refine ⟨fun models => ⟨models, ?_⟩, And.left⟩
      rw [← resolve_subst models a, ← resolve_subst models b, eq_of_firstDifference same]
  | failed => cases ok
  | solved difference _ solved _ ih =>
      rw [ih ok, solved.models_iff]
      constructor
      · exact fun h => ⟨h.1.1, h.2⟩
      · exact fun h => ⟨⟨h.1, h.1.subst_eq difference h.2⟩, h.2⟩

/-- Failure means that no assignment makes the two types equal. -/
theorem subst_ne {e : TypeError} (error : r = .error e) (models : Models ρ t) :
    a.subst ρ ≠ b.subst ρ := by
  intro equal
  induction h with
  | done => cases error
  | failed difference _ clash => exact clash ρ (models.subst_eq difference equal)
  | solved difference _ solved _ ih =>
      exact ih error ((solved.models_iff ρ).mpr ⟨models, models.subst_eq difference equal⟩)

end Solving

theorem unify_sound (valid : t.Valid) (ha : a.Below t.size) (hb : b.Below t.size)
    (h : t.unify a b = (.ok (), t')) :
    Extends t t' ∧ ∀ ρ, Models ρ t' → a.subst ρ = b.subst ρ := by
  have run := unify_solving valid ha hb
  rw [h] at run
  exact ⟨run.toExtends valid, fun ρ models => ((run.models_iff rfl).mp models).2⟩

/-- Unification succeeds if some assignment makes the two types equal, and keeps it. -/
theorem unify_complete (valid : t.Valid) (ha : a.Below t.size) (hb : b.Below t.size)
    (models : Models ρ t) (equal : a.subst ρ = b.subst ρ) :
    ∃ t', t.unify a b = (.ok (), t') ∧ Models ρ t' := by
  have run := unify_solving valid ha hb
  cases result : t.unify a b with
  | mk r t' =>
      rw [result] at run
      cases r with
      | error e => exact absurd equal (run.subst_ne rfl models)
      | ok u => exact ⟨t', rfl, (run.models_iff rfl).mpr ⟨models, equal⟩⟩

end

/-! ## Sizes -/

theorem size_union (t : Table) (v w : Nat) : (t.union v w).size = t.size := by
  by_cases same : t.root v = t.root w
  · rw [union, if_pos same]
  · rcases merged_union same with merged | merged
    · exact merged.size
    · exact merged.size

theorem size_bindVar {t t' : Table} {v : Nat} {ty : Ty} (h : t.bindVar v ty = .ok t') :
    t'.size = t.size := by
  rw [bindVar] at h
  split at h
  · cases h
  · cases h
    exact size_bind ..

theorem size_solve {t t' : Table} {a b : Ty} (h : t.solve a b = .ok t') : t'.size = t.size := by
  rw [solve.eq_def] at h
  split at h
  · cases h
    exact size_union ..
  · exact size_bindVar h
  · exact size_bindVar h
  all_goals cases h

/-- Unification makes no variables, also where it fails. -/
theorem size_unify (t : Table) (a b : Ty) : (t.unify a b).2.size = t.size := by
  rw [unify]
  generalize t.size + 1 = rounds
  induction rounds generalizing t with
  | zero => rfl
  | succ rounds ih =>
      rw [unifyWithin]
      split
      · rfl
      · split
        · rename_i solved
          exact (ih _).trans (size_solve solved)
        · rfl

end Table

end MiddleEnd.Ty
