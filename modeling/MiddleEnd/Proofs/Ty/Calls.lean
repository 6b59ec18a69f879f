import Mathlib
import MiddleEnd.Proofs.Ty.Recursion

/-! # The life of a table

A table starts empty, and then variables are made, types are unified, searched, read
and defaulted, in any order.  No such call makes a valid table invalid, and none takes
back what the table says, not even a unification that fails on the way.  So at every
time following bindings comes to an end, unification finds the most general solution,
and what a type was read as before is only made more precise.
-/

namespace MiddleEnd.Ty.Table

instance (n : Nat) (ty : Ty) : Decidable (ty.Below n) :=
  inferInstanceAs (Decidable (∀ v ∈ ty.vars, v < n))

/-- What a table can be asked for. -/
inductive Call where
  | fresh
  | unify (a b : Ty)
  | occurs (v : Nat) (ty : Ty)
  | resolve (ty : Ty)
  | settle (ty : Ty)

/-- The call is about variables that the table has. -/
def Call.Allowed (t : Table) : Call → Prop
  | .fresh => True
  | .unify a b => a.Below t.size ∧ b.Below t.size
  | .occurs v ty => v < t.size ∧ ty.Below t.size
  | .resolve ty | .settle ty => ty.Below t.size

instance (t : Table) : (call : Call) → Decidable (call.Allowed t)
  | .fresh => inferInstanceAs (Decidable True)
  | .unify _ _ | .occurs _ _ => inferInstanceAs (Decidable (_ ∧ _))
  | .resolve ty | .settle ty => inferInstanceAs (Decidable (ty.Below t.size))

/-- The table after the call.  A unification that fails leaves what it has solved before. -/
def Call.after (t : Table) : Call → Table
  | .fresh => t.fresh.2
  | .unify a b => (t.unify a b).2
  | .occurs .. | .resolve .. => t
  | .settle ty => (t.settle ty).2.table

def afterAll (t : Table) (calls : List Call) : Table :=
  calls.foldl Call.after t

/-- Every call is about variables that the table has by then. -/
def AllowsAll (t : Table) : List Call → Prop
  | [] => True
  | call :: calls => call.Allowed t ∧ (call.after t).AllowsAll calls

instance decidableAllowsAll : (t : Table) → (calls : List Call) → Decidable (t.AllowsAll calls)
  | _, [] => inferInstanceAs (Decidable True)
  | t, call :: calls =>
      have := decidableAllowsAll (call.after t) calls
      inferInstanceAs (Decidable (_ ∧ _))

/-- Calls lead from the first table to the second. -/
def Reaches (t t' : Table) : Prop :=
  ∃ calls, t.AllowsAll calls ∧ t.afterAll calls = t'

section
variable {t t' : Table} {a b : Ty}

/-! ## Calls only add -/

theorem extends_after {call : Call} (valid : t.Valid) (allowed : call.Allowed t) :
    Extends t (call.after t) := by
  cases call with
  | fresh => exact extends_fresh valid
  | unify a b => exact (unify_solving valid allowed.1 allowed.2).toExtends valid
  | occurs | resolve => exact .refl valid
  | settle ty => exact (valid.defaults allowed).2

theorem Reaches.toExtends (h : Reaches t t') (valid : t.Valid) : Extends t t' := by
  obtain ⟨calls, allowed, rfl⟩ := h
  induction calls generalizing t with
  | nil => exact .refl valid
  | cons call calls ih =>
      have step := extends_after valid allowed.1
      exact step.trans (ih step.valid allowed.2)

theorem Reaches.valid (h : Reaches empty t) : t.Valid :=
  (h.toExtends valid_empty).valid

/-! ## Unification finds the most general solution -/

theorem Valid.models_settled (valid : t.Valid) : Models t.settled t := by
  obtain ⟨order, h⟩ := valid
  exact h.descends.settles.models

/-- Unification succeeds if and only if the types have a common instance. -/
theorem Valid.unify_ok_iff (valid : t.Valid) (ha : a.Below t.size) (hb : b.Below t.size) :
    (t.unify a b).1 = .ok () ↔
      ∃ ρ : Nat → Ty, (∀ v, (ρ v).isGround = true) ∧ Models ρ t ∧ a.subst ρ = b.subst ρ := by
  have run := unify_solving valid ha hb
  constructor
  · intro ok
    have later := run.toExtends valid
    have models := (run.models_iff ok).mp later.valid.models_settled
    exact ⟨_, isGround_settled _, models⟩
  · rintro ⟨ρ, -, models, equal⟩
    obtain ⟨t', ok, -⟩ := unify_complete valid ha hb models equal
    rw [ok]

/-- In every table that calls lead to, unification succeeds exactly if some assignment of
    ground types satisfies the table and makes the types equal, in whatever order they
    are given.  What it leaves are all assignments that do. -/
theorem unify_most_general (reached : Reaches empty t) (ha : a.Below t.size)
    (hb : b.Below t.size) :
    ((t.unify a b).1 = .ok () ↔
        ∃ ρ : Nat → Ty, (∀ v, (ρ v).isGround = true) ∧ Models ρ t ∧ a.subst ρ = b.subst ρ) ∧
      ((t.unify b a).1 = .ok () ↔ (t.unify a b).1 = .ok ()) ∧
      ((t.unify a b).1 = .ok () →
        (∀ ρ, Models ρ (t.unify a b).2 ↔ Models ρ t ∧ a.subst ρ = b.subst ρ) ∧
          (t.unify a b).2.resolve a = (t.unify a b).2.resolve b) := by
  have valid := reached.valid
  have run := unify_solving valid ha hb
  refine ⟨valid.unify_ok_iff ha hb, ?_, fun ok => ⟨fun ρ => run.models_iff ok, run.resolve_eq ok⟩⟩
  rw [valid.unify_ok_iff ha hb, valid.unify_ok_iff hb ha]
  simp only [eq_comm]

/-- Two variables are united, and a unification fails after it has bound the third one. -/
def failingMidway : List Call :=
  [.fresh, .fresh, .fresh, .unify (.var 0) (.var 1),
    .unify (.tuple [.var 2, .int]) (.tuple [.array (.var 0), .bool])]

def partlyUnified : Table :=
  empty.afterAll failingMidway

theorem reaches_partlyUnified : Reaches empty partlyUnified :=
  ⟨failingMidway, by decide +kernel, rfl⟩

theorem unify_partlyUnified :
    Reaches empty partlyUnified ∧ (partlyUnified.unify (.var 2) (.array .unit)).1 = .ok () ∧
      (∃ ρ : Nat → Ty, (∀ v, (ρ v).isGround = true) ∧ Models ρ partlyUnified ∧
        ρ 2 = .array .unit) ∧
      (partlyUnified.unify (.var 2) (.array .unit)).2.resolve (.var 2) = .array .unit := by
  have ok : (partlyUnified.unify (.var 2) (.array .unit)).1 = .ok () := by cbv
  obtain ⟨exactly, -, most⟩ := unify_most_general (a := .var 2) (b := .array .unit)
    reaches_partlyUnified (by decide +kernel) (by decide +kernel)
  exact ⟨reaches_partlyUnified, ok, exactly.mp ok, (most ok).2⟩

/-! ## Bindings lead to no cycle -/

theorem Descends.lt_of_transGen {height : Nat → Nat} {c d : Nat} (h : Descends t height)
    (root : t.root c = c) (chain : Relation.TransGen t.Mentions c d) :
    t.root d = d ∧ height d < height c := by
  have lower : ∀ c d, t.root c = c → t.Mentions c d → t.root d = d ∧ height d < height c := by
    rintro c _ root ⟨ty, bound, w, hw, rfl⟩
    have found : t.binding? c = some ty := by rw [binding?_eq, root, bound]
    have lt := h.lt c ty found w hw
    rw [root] at lt
    exact ⟨h.root_root w, lt⟩
  induction chain with
  | single first => exact lower _ _ root first
  | tail _ last ih =>
      obtain ⟨root', lt⟩ := lower _ _ ih.1 last
      exact ⟨root', lt.trans ih.2⟩

theorem Valid.acyclic (valid : t.Valid) (v : Nat) :
    ¬ Relation.TransGen t.Mentions (t.root v) (t.root v) := by
  obtain ⟨order, h⟩ := valid
  exact fun cycle => (h.descends.lt_of_transGen (h.root_root v) cycle).2.false

/-- In every table that calls lead to, no class leads back to itself, and reading,
    searching, defaulting and unifying come to an end on all types over its variables.
    In every table that calls lead to from there, equal variables are still equal and
    bound classes have the same binding; a type read through the later table is what
    it was read as before, read through the later table. -/
theorem table_only_refined (reached : Reaches empty t) (later : Reaches t t') :
    (∀ v, ¬ Relation.TransGen t.Mentions (t.root v) (t.root v)) ∧
      (∀ ty, ty.Below t.size →
        t.Resolves ty (t.resolve ty) ∧
        (∀ v < t.size, t.Searches v ty (t.occurs v ty)) ∧
        Defaults ⟨t, []⟩ ty (t.settle ty).1 (t.settle ty).2 ∧
        ∀ other, other.Below t.size →
          Unifies t ty other (t.unify ty other).1 (t.unify ty other).2) ∧
      (∀ v w, t.root v = t.root w → t'.root v = t'.root w) ∧
      (∀ v ty, t.binding? v = some ty → t'.binding? v = some ty) ∧
      ∀ ty, t'.resolve ty = t'.resolve (t.resolve ty) := by
  have valid := reached.valid
  have more := later.toExtends valid
  refine ⟨valid.acyclic, ?_, ?_, more.binding?, fun ty => (more.resolve_resolve ty).symm⟩
  · intro ty below
    refine ⟨valid.resolves ty, fun v _ => valid.searches v ty, (valid.defaults below).1, ?_⟩
    exact fun other hother => valid.unifies below hother
  · intro v w same
    rw [← more.root v, same, more.root w]

/-- The variable is read, what it is bound to is defaulted, and another unification fails. -/
def defaulted : Table :=
  partlyUnified.afterAll [.resolve (.var 2), .settle (.var 0), .unify (.var 2) (.var 0)]

theorem partlyUnified_only_refined :
    Reaches empty partlyUnified ∧ Reaches partlyUnified defaulted ∧
      (∀ v, ¬ Relation.TransGen partlyUnified.Mentions (partlyUnified.root v)
        (partlyUnified.root v)) ∧
      defaulted.binding? 2 = some (.array (.var 1)) ∧
      defaulted.resolve (.var 2) = defaulted.resolve (.array (.var 1)) := by
  have later : Reaches partlyUnified defaulted := ⟨_, by decide +kernel, rfl⟩
  have bound : partlyUnified.binding? 2 = some (.array (.var 1)) := by cbv
  have read : partlyUnified.resolve (.var 2) = .array (.var 1) := by cbv
  obtain ⟨acyclic, -, -, kept, refined⟩ := table_only_refined reaches_partlyUnified later
  exact ⟨reaches_partlyUnified, later, acyclic, kept 2 _ bound, read ▸ refined (.var 2)⟩

end

end MiddleEnd.Ty.Table
