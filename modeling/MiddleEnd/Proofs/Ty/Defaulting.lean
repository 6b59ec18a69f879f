import Mathlib
import MiddleEnd.Proofs.Steps
import MiddleEnd.Proofs.Ty.Table

/-! # Defaulting

Defaulting reads off one assignment that models the table, the one that gives the
type of integers to every class of which nothing is known.  A class gets that type
for good, so it gets it once.
-/

namespace MiddleEnd.Ty

theorem returns_substListM {S : Type} {I : S → Prop} {f : Nat → StateM S Ty} {ρ : Nat → Ty}
    {ts : List Ty} (h : ∀ t ∈ ts, Returns I (t.substM f) (t.subst ρ)) :
    Returns I (substListM f ts) (substList ρ ts) := by
  induction ts with
  | nil => exact .pure _
  | cons t ts ih =>
      rw [List.forall_mem_cons] at h
      exact h.1.bind ((ih h.2).bind (.pure _))

theorem returns_substM {S : Type} {I : S → Prop} {f : Nat → StateM S Ty} {ρ : Nat → Ty} {t : Ty}
    (h : ∀ v ∈ t.vars, Returns I (f v) (ρ v)) : Returns I (t.substM f) (t.subst ρ) := by
  induction t using Ty.induct with
  | unit | bool | int | float => exact .pure _
  | var n => exact h n (List.mem_singleton_self n)
  | array e ih => exact (ih h).bind (.pure _)
  | tuple es ih =>
      have elems : ∀ t ∈ es, Returns I (t.substM f) (t.subst ρ) := by
        intro t ht
        exact ih t ht fun v hv => h v (mem_varsList.mpr ⟨t, ht, hv⟩)
      exact (returns_substListM elems).bind (.pure _)
  | fn ps r ihps ihr =>
      have params : ∀ t ∈ ps, Returns I (t.substM f) (t.subst ρ) := by
        intro t ht
        apply ihps t ht
        intro v hv
        exact h v (List.mem_append_left _ (mem_varsList.mpr ⟨t, ht, hv⟩))
      have result := ihr fun v hv => h v (List.mem_append_right _ hv)
      exact (returns_substListM params).bind (result.bind (.pure _))

theorem preserves_substListM {S : Type} {I : S → Prop} {f : Nat → StateM S Ty} {ts : List Ty}
    (h : ∀ t ∈ ts, Preserves I (t.substM f)) : Preserves I (substListM f ts) := by
  induction ts with
  | nil => exact .pure _
  | cons t ts ih =>
      rw [List.forall_mem_cons] at h
      exact h.1.bind fun _ => (ih h.2).bind fun _ => .pure _

theorem preserves_substM {S : Type} {I : S → Prop} {f : Nat → StateM S Ty} {t : Ty}
    (h : ∀ v ∈ t.vars, Preserves I (f v)) : Preserves I (t.substM f) := by
  induction t using Ty.induct with
  | unit | bool | int | float => exact .pure _
  | var n => exact h n (List.mem_singleton_self n)
  | array e ih => exact (ih h).bind fun _ => .pure _
  | tuple es ih =>
      have elems : ∀ t ∈ es, Preserves I (t.substM f) := by
        intro t ht
        exact ih t ht fun v hv => h v (mem_varsList.mpr ⟨t, ht, hv⟩)
      exact (preserves_substListM elems).bind fun _ => .pure _
  | fn ps r ihps ihr =>
      have params : ∀ t ∈ ps, Preserves I (t.substM f) := by
        intro t ht
        apply ihps t ht
        intro v hv
        exact h v (List.mem_append_left _ (mem_varsList.mpr ⟨t, ht, hv⟩))
      have result := ihr fun v hv => h v (List.mem_append_right _ hv)
      exact (preserves_substListM params).bind fun _ => result.bind fun _ => .pure _

namespace Table

/-- The assignment models the table and gives the type of integers to all variables of
    which nothing is known. -/
structure Settles (ρ : Nat → Ty) (t : Table) : Prop where
  models : Models ρ t
  unbound : ∀ v, t.Unbound v → ρ v = .int

/-- The types that variables have become in the end. -/
def settled (t : Table) (v : Nat) : Ty :=
  (t.lookup t.size v).subst fun _ => .int

theorem isGround_settled (t : Table) (v : Nat) : (t.settled v).isGround = true :=
  isGround_subst (fun _ => rfl) _

section
variable {t : Table} {height : Nat → Nat} {ρ : Nat → Ty}

theorem Descends.settles (h : Descends t height) : Settles t.settled t := by
  refine ⟨⟨?_, ?_⟩, ?_⟩
  · intro v
    rw [settled, settled, h.lookup_root]
  · intro v ty found
    rw [settled, ← h.lookup_succ (h.le_size _), lookup, found, subst_subst]
    rfl
  · intro v unbound
    rw [settled, ← h.lookup_succ (h.le_size _), lookup, unbound.binding?]
    rfl

/-- Binding a class to the type of integers is what the assignment has done already. -/
theorem Settles.bind_int (h : Settles ρ t) (descends : Descends t height) {v : Nat}
    (none : t.binding? v = none) :
    Settles ρ (t.bind (t.root v) .int) ∧ Descends (t.bind (t.root v) .int) height := by
  have unbound := descends.unbound_root none
  have bound : ∀ w ty, (t.bind (t.root v) .int).binding? w = some ty →
      (ty = .int ∧ t.root w = t.root v) ∨ t.binding? w = some ty := by
    intro w ty found
    rw [binding?_eq, root_bind, bound?_bind, unbound.root] at found
    split at found
    · rename_i eq
      cases found
      exact .inl ⟨rfl, eq.1⟩
    · exact .inr (by rwa [binding?_eq])
  refine ⟨⟨⟨?_, ?_⟩, ?_⟩, ?_, ?_, ?_, ?_⟩
  · intro w
    rw [root_bind]
    exact h.models.root w
  · intro w ty found
    rcases bound w ty found with ⟨rfl, root⟩ | old
    · rw [h.models.root w, root, h.unbound _ unbound]
      rfl
    · exact h.models.binding w ty old
  · intro w free
    apply h.unbound
    have root := free.root
    have none := free.bound?
    rw [root_bind] at root
    rw [bound?_bind] at none
    split at none
    · cases none
    · exact ⟨root, none⟩
  · intro w
    simp only [root_bind, descends.root_root]
  · intro w
    rw [size_bind]
    exact descends.le_size w
  · intro w inside
    rw [size_bind] at inside
    rw [root_bind]
    exact descends.pos w inside
  · intro w ty found u hu
    rw [root_bind, root_bind]
    rcases bound w ty found with ⟨rfl, -⟩ | old
    · cases hu
    · exact descends.lt w ty old u hu

/-- What holds of a table all the time while types are read through it. -/
structure Settling.Keeps (ρ : Nat → Ty) (roots height : Nat → Nat) (s : Settling) : Prop where
  settles : Settles ρ s.table
  descends : Descends s.table height
  root : ∀ v, s.table.root v = roots v

theorem Settling.Keeps.default {roots : Nat → Nat} {s : Settling} {v : Nat}
    (hs : Settling.Keeps ρ roots height s) (none : s.table.binding? v = none) (rs : List Nat) :
    Settling.Keeps ρ roots height ⟨s.table.bind (s.table.root v) .int, rs⟩ := by
  obtain ⟨settles, descends⟩ := hs.settles.bind_int hs.descends none
  refine ⟨settles, descends, ?_⟩
  intro w
  rw [root_bind, hs.root]

theorem settleVar_bound {s : Settling} {v depth : Nat} {ty : Ty}
    (found : s.table.binding? v = some ty) :
    (settleVar (depth + 1) v).run s = (ty.substM (settleVar depth)).run s := by
  rw [settleVar, Step.run_bind]
  simp only [Step.run_get, found]

theorem settleVar_unbound {s : Settling} {v depth : Nat} (none : s.table.binding? v = none) :
    (settleVar (depth + 1) v).run s =
      (.int, ⟨s.table.bind (s.table.root v) .int, s.defaulted ++ [s.table.root v]⟩) := by
  rw [settleVar, Step.run_bind]
  simp only [Step.run_get, none]
  rfl

theorem returns_settleVar {roots : Nat → Nat} {depth v : Nat} (deep : height (roots v) ≤ depth) :
    Returns (Settling.Keeps ρ roots height) (settleVar depth v) (ρ v) := by
  induction depth generalizing v with
  | zero =>
      intro s hs
      have unbound : s.table.Unbound v := by
        apply hs.descends.unbound_of_height_zero
        rw [hs.root]
        exact Nat.le_zero.mp deep
      exact ⟨(hs.settles.unbound v unbound).symm, hs⟩
  | succ depth ih =>
      intro s hs
      cases found : s.table.binding? v with
      | some ty =>
          rw [settleVar_bound found, hs.settles.models.binding v ty found]
          refine returns_substM ?_ s hs
          intro w hw
          have lower := hs.descends.lt v ty found w hw
          rw [hs.root, hs.root] at lower
          exact ih (by omega)
      | none =>
          have unbound := hs.descends.unbound_root found
          rw [settleVar_unbound found, hs.settles.models.root, hs.settles.unbound _ unbound]
          exact ⟨rfl, hs.default found _⟩

end

/-! ## No default is given twice -/

/-- The classes that got the default, before or now, are different classes of a table of this
    size, and all of them are bound. -/
structure Settling.Once (size : Nat) (before : List Nat) (s : Settling) : Prop where
  valid : s.table.Valid
  size : s.table.size = size
  nodup : (before ++ s.defaulted).Nodup
  bound : ∀ r ∈ before ++ s.defaulted, s.table.binding? r ≠ none

section
variable {size : Nat} {before : List Nat} {s : Settling} {v : Nat}

/-- The class that gets the default was not bound, so it is none of those before. -/
theorem Settling.Once.default (hs : Settling.Once size before s) (inside : v < size)
    (none : s.table.binding? v = none) :
    Settling.Once size before
      ⟨s.table.bind (s.table.root v) .int, s.defaulted ++ [s.table.root v]⟩ := by
  have unbound := hs.valid.unbound_root none
  have inside : s.table.root v < s.table.size := hs.valid.root_lt (hs.size ▸ inside)
  have binding := unbound.binding?_bind inside .int
  refine ⟨hs.valid.bind unbound inside rfl nofun, (size_bind ..).trans hs.size, ?_, ?_⟩
  · rw [← List.append_assoc, List.nodup_append]
    refine ⟨hs.nodup, List.nodup_singleton _, ?_⟩
    intro r old w new eq
    apply hs.bound r old
    rw [eq, List.mem_singleton.mp new]
    exact unbound.binding?
  · intro r mem
    rw [binding]
    split
    · exact Option.some_ne_none _
    · rename_i other
      rw [← List.append_assoc, List.mem_append, List.mem_singleton] at mem
      rcases mem with old | rfl
      · exact hs.bound r old
      · exact absurd unbound.root other

theorem preserves_settleVar {depth : Nat} (inside : v < size) :
    Preserves (Settling.Once size before) (settleVar depth v) := by
  induction depth generalizing v with
  | zero => exact .pure _
  | succ depth ih =>
      intro s hs
      cases found : s.table.binding? v with
      | some ty =>
          rw [settleVar_bound found]
          refine preserves_substM ?_ s hs
          intro w hw
          exact ih (hs.size ▸ hs.valid.vars_lt found w hw)
      | none =>
          rw [settleVar_unbound found]
          exact hs.default inside found

/-- After some types have been settled, the defaults that they got come before all others. -/
theorem Settling.Once.later (hs : Settling.Once size before s) :
    Settling.Once size (before ++ s.defaulted) ⟨s.table, []⟩ := by
  refine ⟨hs.valid, hs.size, ?_, ?_⟩
  · rw [List.append_nil]
    exact hs.nodup
  · intro r mem
    rw [List.append_nil] at mem
    exact hs.bound r mem

end

end Table

end MiddleEnd.Ty
