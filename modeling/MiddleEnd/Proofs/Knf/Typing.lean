import Mathlib
import MiddleEnd.Knf.Lowering

/-! # Types of K-normal code

The typing rules of K-normal code with the ground types that are written on its
binders.  Truth values are the integers 0 and 1, so these two may have either type.
External names have the types of a signature; arrays are made by two external
functions that need not be in it.
-/

namespace MiddleEnd

namespace Scope

variable {α : Type} {Γ Δ : Scope α} {xs ys : List Name}

/-- What `Γ` says about these names, `Δ` says as well. -/
def Agrees (Γ Δ : Scope α) (xs : List Name) : Prop :=
  ∀ x ∈ xs, ∀ a, Γ.get? x = some a → Δ.get? x = some a

theorem lookup_reverse_eq_none {bindings : List (Name × α)} {x : Name} :
    bindings.reverse.lookup x = none ↔ x ∉ bindings.map (·.1) := by
  simp only [List.lookup_eq_none_iff, List.mem_reverse, List.mem_map]
  grind

theorem get?_bindAll_of_notMem {bindings : List (Name × α)} {x : Name}
    (h : x ∉ bindings.map (·.1)) : (Γ.bindAll bindings).get? x = Γ.get? x := by
  rw [get?_bindAll, lookup_reverse_eq_none.mpr h, Option.none_or]

namespace Agrees

theorem mono (h : Γ.Agrees Δ xs) (sub : ys ⊆ xs) : Γ.Agrees Δ ys :=
  fun y hy => h y (sub hy)

theorem bind {x : Name} (h : Γ.Agrees Δ (xs.filter (· ≠ x))) (a : α) :
    (Γ.bind x a).Agrees (Δ.bind x a) xs := by
  intro y hy b hb
  by_cases eq : y = x
  · rw [get?_bind, if_pos eq] at hb ⊢
    exact hb
  · rw [get?_bind, if_neg eq] at hb ⊢
    exact h y (List.mem_filter.mpr ⟨hy, by simpa using eq⟩) b hb

theorem bindAll {bindings : List (Name × α)}
    (h : Γ.Agrees Δ (xs.filter (· ∉ bindings.map (·.1)))) :
    (Γ.bindAll bindings).Agrees (Δ.bindAll bindings) xs := by
  intro y hy b hb
  by_cases mem : y ∈ bindings.map (·.1)
  · obtain ⟨c, hc⟩ := Option.ne_none_iff_exists'.mp fun none => lookup_reverse_eq_none.mp none mem
    rw [get?_bindAll, hc, Option.some_or] at hb ⊢
    exact hb
  · rw [get?_bindAll_of_notMem mem] at hb ⊢
    exact h y (List.mem_filter.mpr ⟨hy, by simpa using mem⟩) b hb

end Agrees

abbrev HasTypes (Γ : Scope Mono) : List Name → List Mono → Prop :=
  List.Forall₂ fun x τ => Γ.get? x = some τ

theorem HasTypes.map {Γ Δ : Scope Mono} {τs : List Mono} {ρ : Name → Name}
    (h : Γ.HasTypes xs τs)
    (types : ∀ x ∈ xs, ∀ υ, Γ.get? x = some υ → Δ.get? (ρ x) = some υ) :
    Δ.HasTypes (xs.map ρ) τs := by
  induction h with
  | nil => exact .nil
  | cons head _ ih =>
      rw [List.forall_mem_cons] at types
      exact .cons (types.1 _ head) (ih types.2)

theorem HasTypes.of_agrees {Γ Δ : Scope Mono} {τs : List Mono} (h : Γ.HasTypes xs τs)
    (agrees : Γ.Agrees Δ xs) : Δ.HasTypes xs τs :=
  xs.map_id ▸ h.map agrees

theorem HasTypes.bound {Γ : Scope Mono} {τs : List Mono} (h : Γ.HasTypes xs τs) :
    ∀ x ∈ xs, (Γ.get? x).isSome := by
  induction h with
  | nil => exact nofun
  | cons head _ ih => exact List.forall_mem_cons.mpr ⟨Option.isSome_of_eq_some head, ih⟩

end Scope

/-- The external function takes arguments of these types and returns this type. -/
inductive Signature.Calls (externals : Signature) : Name → List Mono → Mono → Prop where
  | listed {f ps r} :
      externals.find? f = some (.fn ps r) → Calls externals f (ps.map Ty.mono) r.mono
  /-- An array is made from its length and an element. -/
  | createArray (ty : Ty) :
      Calls externals (Lowering.createArray ty) [.int, ty.mono] (.array ty.mono)

/-- The operation yields a value of this type where the scope has the types of names. -/
inductive Op.HasType (externals : Signature) (Γ : Scope Mono) : Op → Mono → Prop where
  | unit : HasType externals Γ .unit .unit
  | int {n} : HasType externals Γ (.int n) .int
  | bool (b : Bool) : HasType externals Γ (.int (if b then 1 else 0)) .bool
  | float {d} : HasType externals Γ (.float d) .float
  | negate {op x} :
      Γ.get? x = some op.ty.mono → HasType externals Γ (.negate op x) op.ty.mono
  | arith {op x y} :
      Γ.get? x = some op.ty.mono → Γ.get? y = some op.ty.mono →
      HasType externals Γ (.arith op x y) op.ty.mono
  | var {x τ} : Γ.get? x = some τ → HasType externals Γ (.var x) τ
  | tuple {xs τs} : Γ.HasTypes xs τs → HasType externals Γ (.tuple xs) (.tuple τs)
  | get {a i τ} :
      Γ.get? a = some (.array τ) → Γ.get? i = some .int → HasType externals Γ (.get a i) τ
  | put {a i v τ} :
      Γ.get? a = some (.array τ) → Γ.get? i = some .int → Γ.get? v = some τ →
      HasType externals Γ (.put a i v) .unit
  | externArray {x ty} :
      externals.find? x = some (.array ty) →
      HasType externals Γ (.externArray x) (.array ty.mono)

namespace Op.HasType

variable {externals : Signature} {Γ Δ : Scope Mono} {o : Op} {τ : Mono}

/-- An operation keeps its type with other names of the same types. -/
theorem map (h : o.HasType externals Γ τ) {ρ : Name → Name}
    (types : ∀ x ∈ o.names, ∀ υ, Γ.get? x = some υ → Δ.get? (ρ x) = some υ) :
    (o.map ρ).HasType externals Δ τ := by
  cases h with
  | unit => exact .unit
  | int => exact .int
  | bool b => exact .bool b
  | float => exact .float
  | negate hx => exact .negate (types _ (by simp [names]) _ hx)
  | arith hx hy => exact .arith (types _ (by simp [names]) _ hx) (types _ (by simp [names]) _ hy)
  | var hx => exact .var (types _ (by simp [names]) _ hx)
  | tuple hxs => exact .tuple (hxs.map types)
  | get ha hi => exact .get (types _ (by simp [names]) _ ha) (types _ (by simp [names]) _ hi)
  | put ha hi hv =>
      exact .put (types _ (by simp [names]) _ ha) (types _ (by simp [names]) _ hi)
        (types _ (by simp [names]) _ hv)
  | externArray hx => exact .externArray hx

theorem of_agrees (h : o.HasType externals Γ τ) (agrees : Γ.Agrees Δ o.names) :
    o.HasType externals Δ τ :=
  o.map_id ▸ h.map agrees

/-- The names of an operation with a type have types. -/
theorem bound (h : o.HasType externals Γ τ) : ∀ x ∈ o.names, (Γ.get? x).isSome := by
  cases h with
  | tuple hxs => exact hxs.bound
  | _ => simp [names, *]

end Op.HasType

namespace Knf

/-- The code has this type where the scope has the types of bound names and the signature
    those of external ones. -/
inductive HasType (externals : Signature) : Scope Mono → Knf → Mono → Prop where
  | op {Γ o τ} : o.HasType externals Γ τ → HasType externals Γ (.op o) τ
  | branch {Γ test x y e1 e2 υ τ} :
      Γ.get? x = some υ → Γ.get? y = some υ →
      HasType externals Γ e1 τ → HasType externals Γ e2 τ →
      HasType externals Γ (.branch test x y e1 e2) τ
  | letIn {Γ x υ e1 e2 τ} :
      HasType externals Γ e1 υ → HasType externals (Γ.bind x υ) e2 τ →
      HasType externals Γ (.letIn x υ e1 e2) τ
  /-- A function may call itself. -/
  | letRec {Γ f formals body rest υ τ} :
      HasType externals ((Γ.bind f (.fn (formals.map (·.2)) υ)).bindAll formals) body υ →
      HasType externals (Γ.bind f (.fn (formals.map (·.2)) υ)) rest τ →
      HasType externals Γ (.letRec f (.fn (formals.map (·.2)) υ) formals body rest) τ
  | app {Γ f xs τs τ} :
      Γ.get? f = some (.fn τs τ) → Γ.HasTypes xs τs → HasType externals Γ (.app f xs) τ
  | letTuple {Γ pattern y e τ} :
      Γ.get? y = some (.tuple (pattern.map (·.2))) →
      HasType externals (Γ.bindAll pattern) e τ →
      HasType externals Γ (.letTuple pattern y e) τ
  | externApp {Γ f xs τs τ} :
      externals.Calls f τs τ → Γ.HasTypes xs τs → HasType externals Γ (.externApp f xs) τ

namespace HasType

variable {externals : Signature} {Γ Δ : Scope Mono} {e : Knf} {τ : Mono}

/-- Only the types of free names matter. -/
theorem of_agrees (h : HasType externals Γ e τ) (agrees : Γ.Agrees Δ e.freeVars) :
    HasType externals Δ e τ := by
  induction h generalizing Δ with
  | op h => exact .op (h.of_agrees agrees)
  | branch hx hy _ _ ih1 ih2 =>
      rw [freeVars] at agrees
      refine .branch (agrees _ (by simp) _ hx) (agrees _ (by simp) _ hy) (ih1 ?_) (ih2 ?_)
      · exact agrees.mono fun z hz => by simp [hz]
      · exact agrees.mono fun z hz => by simp [hz]
  | letIn _ _ ih1 ih2 =>
      rw [freeVars] at agrees
      refine .letIn (ih1 ?_) (ih2 (.bind ?_ _))
      · exact agrees.mono (List.subset_append_left _ _)
      · exact agrees.mono (List.subset_append_right _ _)
  | letRec _ _ ih1 ih2 =>
      rw [freeVars, List.filter_append] at agrees
      refine .letRec (ih1 (.bindAll (.bind ?_ _))) (ih2 (.bind ?_ _))
      · exact agrees.mono (List.subset_append_left _ _)
      · exact agrees.mono (List.subset_append_right _ _)
  | app hf hxs =>
      refine .app (agrees _ (List.mem_cons_self ..) _ hf) (hxs.of_agrees (agrees.mono ?_))
      exact List.subset_cons_self ..
  | letTuple hy _ ih =>
      refine .letTuple (agrees _ (List.mem_cons_self ..) _ hy) (ih (.bindAll (agrees.mono ?_)))
      exact List.subset_cons_self ..
  | externApp call hxs => exact .externApp call (hxs.of_agrees agrees)

/-- The free names of code with a type have types. -/
theorem bound (h : HasType externals Γ e τ) : ∀ x ∈ e.freeVars, (Γ.get? x).isSome := by
  induction h with
  | op h => exact h.bound
  | branch hx hy _ _ ih1 ih2 =>
      simp only [freeVars, List.forall_mem_cons, List.forall_mem_append, hx, hy,
        Option.isSome_some, true_and]
      exact ⟨ih1, ih2⟩
  | letIn _ _ ih1 ih2 =>
      rw [freeVars, List.forall_mem_append]
      refine ⟨ih1, fun x hx => ?_⟩
      simp only [List.mem_filter, decide_eq_true_eq] at hx
      have inner := ih2 x hx.1
      rwa [Scope.get?_bind, if_neg hx.2] at inner
  | letRec _ _ ih1 ih2 =>
      intro x hx
      simp only [freeVars, List.mem_filter, List.mem_append, decide_eq_true_eq] at hx
      obtain ⟨⟨inBody, outer⟩ | inRest, ne⟩ := hx
      · have inner := ih1 x inBody
        rwa [Scope.get?_bindAll_of_notMem outer, Scope.get?_bind, if_neg ne] at inner
      · have inner := ih2 x inRest
        rwa [Scope.get?_bind, if_neg ne] at inner
  | app hf hxs =>
      exact List.forall_mem_cons.mpr ⟨Option.isSome_of_eq_some hf, hxs.bound⟩
  | letTuple hy _ ih =>
      refine List.forall_mem_cons.mpr ⟨Option.isSome_of_eq_some hy, fun x hx => ?_⟩
      simp only [List.mem_filter, decide_eq_true_eq] at hx
      have inner := ih x hx.1
      rwa [Scope.get?_bindAll_of_notMem hx.2] at inner
  | externApp _ hxs => exact hxs.bound

/-- Code that has a type where no name is bound is closed. -/
theorem closed (h : HasType externals .empty e τ) : e.freeVars = [] := by
  refine List.eq_nil_iff_forall_not_mem.mpr fun x hx => ?_
  cases h.bound x hx

end HasType

end Knf

end MiddleEnd
