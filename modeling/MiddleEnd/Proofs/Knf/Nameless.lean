import Mathlib
import MiddleEnd.Proofs.Knf.AlphaEquality

/-! # Nameless code

In the nameless form of code a bound name is the distance to its binder, and a binder has
a type and no name.  Equality up to bound names, which compares names with names and never
counts binders, holds exactly of code with one nameless form.  So it is an equivalence
relation, and what can be read off the nameless form is the same for equal code.
-/

namespace MiddleEnd

/-- What an occurrence of a name refers to. -/
inductive Ref where
  /-- A binder, by the number of binders between it and the occurrence. -/
  | bound (distance : Nat)
  /-- No binder: the name stands for itself. -/
  | free (x : Name)
deriving Repr, DecidableEq, Inhabited

namespace Ref

/-- The same reference from below one more binder. -/
def next : Ref → Ref
  | .bound i => .bound (i + 1)
  | .free x => .free x

/-- What a name refers to below binders with the given names, the innermost first. -/
def resolve : List Name → Name → Ref
  | [], x => .free x
  | y :: ys, x => if x = y then .bound 0 else (resolve ys x).next

def map (σ : Name → Name) : Ref → Ref
  | .bound i => .bound i
  | .free x => .free (σ x)

def name? : Ref → Option Name
  | .bound _ => none
  | .free x => some x

theorem next_injective : next.Injective := by
  intro r r' h
  cases r <;> cases r' <;> simp_all [next]

theorem bound_ne_next (r : Ref) : .bound 0 ≠ r.next := by
  cases r <;> simp [next]

@[simp] theorem map_next (σ : Name → Name) (r : Ref) : r.next.map σ = (r.map σ).next := by
  cases r <;> rfl

@[simp] theorem name?_next (r : Ref) : r.next.name? = r.name? := by
  cases r <;> rfl

@[simp] theorem name?_map (σ : Name → Name) (r : Ref) : (r.map σ).name? = r.name?.map σ := by
  cases r <;> rfl

theorem name?_resolve (scope : List Name) (x : Name) :
    (resolve scope x).name? = if x ∈ scope then none else some x := by
  induction scope with
  | nil => rfl
  | cons y ys ih =>
      rw [resolve]
      by_cases eq : x = y
      · simp [eq, name?]
      · simp [eq, ih]

theorem filterMap_name?_resolve (scope xs : List Name) :
    (xs.map (resolve scope)).filterMap name? = xs.filter (· ∉ scope) := by
  rw [List.filterMap_map, ← List.filterMap_eq_filter]
  congr 1
  funext x
  rw [Function.comp_apply, name?_resolve]
  by_cases h : x ∈ scope <;> simp [h, Option.guard]

end Ref

/-- Code without bound names.  An operation is its form and what its names refer to, in
    order. -/
inductive Nameless where
  | op (form : Op) (operands : List Ref)
  | branch (test : Test) (x y : Ref) (yes no : Nameless)
  | letIn (ty : Mono) (bound body : Nameless)
  | letRec (ty : Mono) (formals : List Mono) (body rest : Nameless)
  | app (f : Ref) (args : List Ref)
  | letTuple (pattern : List Mono) (y : Ref) (body : Nameless)
  | externApp (label : Name) (args : List Ref)
deriving Repr, DecidableEq, Inhabited

namespace Nameless

/-- The names that stand for themselves, in order and possibly more than once each. -/
def freeNames : Nameless → List Name
  | .op _ rs => rs.filterMap Ref.name?
  | .branch _ x y e1 e2 => [x, y].filterMap Ref.name? ++ (e1.freeNames ++ e2.freeNames)
  | .letIn _ e1 e2 => e1.freeNames ++ e2.freeNames
  | .letRec _ _ body rest => body.freeNames ++ rest.freeNames
  | .app f rs => (f :: rs).filterMap Ref.name?
  | .letTuple _ y e => [y].filterMap Ref.name? ++ e.freeNames
  | .externApp _ rs => rs.filterMap Ref.name?

end Nameless

namespace Knf

/-- The nameless form of code below binders with the given names, the innermost first.  In
    a group of binders the last one is the innermost. -/
def namelessIn (scope : List Name) : Knf → Nameless
  | .op o => .op (o.map fun _ => "") (o.names.map (Ref.resolve scope))
  | .branch test x y e1 e2 =>
      .branch test (Ref.resolve scope x) (Ref.resolve scope y) (e1.namelessIn scope)
        (e2.namelessIn scope)
  | .letIn x ty e1 e2 => .letIn ty (e1.namelessIn scope) (e2.namelessIn (x :: scope))
  | .letRec f ty formals body rest =>
      .letRec ty (formals.map (·.2))
        (body.namelessIn ((formals.map (·.1)).reverse ++ f :: scope))
        (rest.namelessIn (f :: scope))
  | .app f xs => .app (Ref.resolve scope f) (xs.map (Ref.resolve scope))
  | .letTuple pattern y e =>
      .letTuple (pattern.map (·.2)) (Ref.resolve scope y)
        (e.namelessIn ((pattern.map (·.1)).reverse ++ scope))
  | .externApp f xs => .externApp f (xs.map (Ref.resolve scope))

def nameless (e : Knf) : Nameless :=
  e.namelessIn []

/-! ## Equality up to bound names -/

namespace Pairing

variable {p : Pairing} {xs ys : List Name}

/-- Names go together exactly if they refer to the same below the binders `xs` on the left
    and `ys` on the right. -/
def Resolves (p : Pairing) (xs ys : List Name) : Prop :=
  ∀ u v, p.same u v = true ↔ Ref.resolve xs u = Ref.resolve ys v

theorem Resolves.empty : Pairing.empty.Resolves [] [] := by
  intro u v
  rw [same_empty, beq_iff_eq, Ref.resolve, Ref.resolve, Ref.free.injEq]

theorem Resolves.bind (h : p.Resolves xs ys) (x y : Name) :
    (p.bind x y).Resolves (x :: xs) (y :: ys) := by
  intro u v
  rw [same_bind, Ref.resolve, Ref.resolve]
  by_cases left : u = x <;> by_cases right : v = y
  · simp [left, right]
  · simp [left, right, Ref.bound_ne_next]
  · simp [left, right, (Ref.bound_ne_next _).symm]
  · simp [left, right, Ref.next_injective.eq_iff, h u v]

/-- A group is entered from its first binder to its last. -/
theorem Resolves.bindAll (h : p.Resolves xs ys) {us vs : List Name}
    (full : us.length = vs.length) :
    (p.bindAll us vs).Resolves (us.reverse ++ xs) (vs.reverse ++ ys) := by
  rw [Resolves, same_bindAll, ← Resolves]
  induction us generalizing p xs ys vs with
  | nil =>
      obtain rfl := List.length_eq_zero_iff.mp full.symm
      exact h
  | cons u us ih =>
      obtain ⟨v, vs, rfl⟩ := List.exists_cons_of_length_eq_add_one full.symm
      simp only [List.reverse_cons, List.append_assoc, List.singleton_append]
      exact ih (h.bind u v) (Nat.succ.inj full)

theorem Resolves.sameAll_iff (h : p.Resolves xs ys) {us vs : List Name} :
    p.sameAll us vs = true ↔ us.map (Ref.resolve xs) = vs.map (Ref.resolve ys) := by
  induction us generalizing vs with
  | nil => cases vs <;> simp [sameAll]
  | cons u us ih =>
      cases vs with
      | nil => simp [sameAll]
      | cons v vs => simp [sameAll, h u v, ih]

theorem Resolves.sameOp_iff (h : p.Resolves xs ys) {o o' : Op} :
    p.sameOp o o' = true ↔
      (o.map fun _ => "") = (o'.map fun _ => "") ∧
        o.names.map (Ref.resolve xs) = o'.names.map (Ref.resolve ys) := by
  cases o <;> cases o'
  case tuple.tuple us vs =>
    rw [sameOp, h.sameAll_iff]
    refine ⟨fun same => ⟨?_, same⟩, And.right⟩
    have full : us.length = vs.length := by simpa using congrArg List.length same
    simp [Op.map, full]
  case float.float c d =>
    obtain ⟨c⟩ := c
    obtain ⟨d⟩ := d
    simp [sameOp, Op.map, Op.names]
  all_goals simp [sameOp, Op.map, Op.names, h _ _, and_assoc]

end Pairing

theorem alphaEqIn_iff {a b : Knf} {p : Pairing} {xs ys : List Name} (h : p.Resolves xs ys) :
    a.alphaEqIn p b = true ↔ a.namelessIn xs = b.namelessIn ys := by
  induction a generalizing b p xs ys with
  | op o =>
      cases b with
      | op o' => rw [alphaEqIn, namelessIn, namelessIn, Nameless.op.injEq, h.sameOp_iff]
      | _ => simp [alphaEqIn, namelessIn]
  | branch test x1 x2 a1 a2 ih1 ih2 =>
      cases b with
      | branch test' y1 y2 b1 b2 =>
          simp only [alphaEqIn, namelessIn, Nameless.branch.injEq, Bool.and_eq_true, beq_iff_eq,
            h x1 y1, h x2 y2, ih1 h, ih2 h, and_assoc]
      | _ => simp [alphaEqIn, namelessIn]
  | letIn x ty a1 a2 ih1 ih2 =>
      cases b with
      | letIn y ty' b1 b2 =>
          simp only [alphaEqIn, namelessIn, Nameless.letIn.injEq, Bool.and_eq_true, beq_iff_eq,
            ih1 h, ih2 (h.bind x y), and_assoc]
      | _ => simp [alphaEqIn, namelessIn]
  | letRec f ty us a1 a2 ih1 ih2 =>
      cases b with
      | letRec g ty' vs b1 b2 =>
          simp only [alphaEqIn, namelessIn, Nameless.letRec.injEq, Bool.and_eq_true, beq_iff_eq,
            ih2 (h.bind f g), and_assoc]
          refine and_congr_right fun _ => and_congr_right fun types => and_congr_left fun _ => ?_
          exact ih1 ((h.bind f g).bindAll (length_map_fst_eq types))
      | _ => simp [alphaEqIn, namelessIn]
  | app f us =>
      cases b with
      | app g vs =>
          rw [alphaEqIn, namelessIn, namelessIn, Nameless.app.injEq, Bool.and_eq_true, h f g,
            h.sameAll_iff]
      | _ => simp [alphaEqIn, namelessIn]
  | letTuple us x a ih =>
      cases b with
      | letTuple vs y b =>
          simp only [alphaEqIn, namelessIn, Nameless.letTuple.injEq, Bool.and_eq_true, beq_iff_eq,
            h x y, and_assoc]
          refine and_congr_right fun types => and_congr_right fun _ => ?_
          exact ih (h.bindAll (length_map_fst_eq types))
      | _ => simp [alphaEqIn, namelessIn]
  | externApp f us =>
      cases b with
      | externApp g vs =>
          rw [alphaEqIn, namelessIn, namelessIn, Nameless.externApp.injEq, Bool.and_eq_true,
            beq_iff_eq, h.sameAll_iff]
      | _ => simp [alphaEqIn, namelessIn]

theorem alphaEq_iff {a b : Knf} : a.alphaEq b = true ↔ a.nameless = b.nameless :=
  alphaEqIn_iff .empty

/-- Equality up to bound names decides whether two pieces of code, with any names bound in
    any way, have the same nameless form; hence it is an equivalence relation. -/
theorem alphaEq_decides_nameless :
    (∀ a b : Knf, a.alphaEq b = true ↔ a.nameless = b.nameless) ∧
      Equivalence fun a b : Knf => a.alphaEq b = true := by
  refine ⟨fun _ _ => alphaEq_iff, ⟨?_, ?_, ?_⟩⟩
  · exact fun a => alphaEq_iff.mpr rfl
  · exact fun h => alphaEq_iff.mpr (alphaEq_iff.mp h).symm
  · exact fun h h' => alphaEq_iff.mpr ((alphaEq_iff.mp h).trans (alphaEq_iff.mp h'))

/-- In a group that binds a name twice, the name means the last of the two. -/
example :
    nameless (.letTuple [("x", .int), ("y", .int), ("x", .int)] "t" (.op (.tuple ["x", "y", "t"]))) =
      .letTuple [.int, .int, .int] (.free "t")
        (.op (.tuple ["", "", ""]) [.bound 0, .bound 1, .free "t"]) := by
  decide

/-! ## Free names -/

theorem filter_notMem_append (xs us scope : List Name) :
    xs.filter (· ∉ us.reverse ++ scope) = (xs.filter (· ∉ us)).filter (· ∉ scope) := by
  rw [List.filter_filter]
  congr 1
  funext x
  simp [Bool.and_comm]

theorem filter_notMem_cons (xs : List Name) (x : Name) (scope : List Name) :
    xs.filter (· ∉ x :: scope) = (xs.filter (· ≠ x)).filter (· ∉ scope) := by
  rw [List.filter_filter]
  congr 1
  funext y
  simp [Bool.and_comm]

theorem freeNames_namelessIn (scope : List Name) (e : Knf) :
    (e.namelessIn scope).freeNames = e.freeVars.filter (· ∉ scope) := by
  induction e generalizing scope with
  | op o => exact Ref.filterMap_name?_resolve scope o.names
  | branch test x y e1 e2 ih1 ih2 =>
      have both := Ref.filterMap_name?_resolve scope [x, y]
      rw [namelessIn, Nameless.freeNames, ih1, ih2, ← List.filter_append]
      exact (congrArg (· ++ _) both).trans (List.filter_append ..).symm
  | letIn x ty e1 e2 ih1 ih2 =>
      rw [namelessIn, Nameless.freeNames, ih1, ih2, filter_notMem_cons, ← List.filter_append]
      rfl
  | letRec f ty formals body rest ih1 ih2 =>
      rw [namelessIn, Nameless.freeNames, ih1, ih2, filter_notMem_append, filter_notMem_cons,
        filter_notMem_cons, ← List.filter_append, ← List.filter_append]
      rfl
  | app f xs => exact Ref.filterMap_name?_resolve scope (f :: xs)
  | letTuple pattern y e ih =>
      have one := Ref.filterMap_name?_resolve scope [y]
      rw [namelessIn, Nameless.freeNames, ih, filter_notMem_append]
      exact (congrArg (· ++ _) one).trans (List.filter_append ..).symm
  | externApp f xs => exact Ref.filterMap_name?_resolve scope xs

/-- The free names of code can be read off its nameless form. -/
theorem freeNames_nameless (e : Knf) : e.nameless.freeNames = e.freeVars := by
  rw [nameless, freeNames_namelessIn]
  simp

/-! ## Measures -/

/-- What the rewrites decide by does not depend on the choice of bound names.  Code that is
    equal up to bound names has the same free names, in the same order and each as often, the
    same number of nodes, and is effectful or not alike. -/
theorem alphaEq_keeps_measures {a b : Knf} (same : a.alphaEq b = true) :
    a.freeVars = b.freeVars ∧ a.size = b.size ∧ a.isEffectful = b.isEffectful := by
  have shapes : a.shape = b.shape := shape_eq same
  refine ⟨?_, ?_, ?_⟩
  · rw [← freeNames_nameless a, alphaEq_iff.mp same, freeNames_nameless b]
  · have sizes := congrArg size shapes
    rwa [shape, shape, size_relabel, size_relabel] at sizes
  · have effects := congrArg isEffectful shapes
    rwa [shape, shape, isEffectful_relabel, isEffectful_relabel] at effects

/-- Code in which binders hide each other and names that are free. -/
def overlapping : Knf :=
  .letIn "x" (.tuple [.int, .int]) (.op (.var "x"))
    (.letRec "f" (.fn [.int, .int] .int) [("x", .int), ("x", .int)] (.app "f" ["x", "y"])
      (.letTuple [("y", .int), ("z", .int)] "x" (.externApp "print_int" ["y"])))

/-- The same code with other names, some of which are free names or names of other binders. -/
def overlappingRenamed : Knf :=
  .letIn "a" (.tuple [.int, .int]) (.op (.var "x"))
    (.letRec "x" (.fn [.int, .int] .int) [("u", .int), ("v", .int)] (.app "x" ["v", "y"])
      (.letTuple [("f", .int), ("x", .int)] "a" (.externApp "print_int" ["f"])))

theorem overlapping_measures :
    overlapping.alphaEq overlappingRenamed = true ∧ overlapping.freeVars = ["x", "y"] ∧
      overlappingRenamed.freeVars = ["x", "y"] ∧ overlapping.size = overlappingRenamed.size ∧
      overlapping.isEffectful = overlappingRenamed.isEffectful := by
  have same : overlapping.alphaEq overlappingRenamed = true := by decide
  have free : overlapping.freeVars = ["x", "y"] := by decide
  obtain ⟨names, size, effects⟩ := alphaEq_keeps_measures same
  exact ⟨same, free, names ▸ free, size, effects⟩

end Knf

end MiddleEnd
