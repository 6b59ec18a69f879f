import Mathlib
import MiddleEnd.Knf
import MiddleEnd.Proofs.Semantics.Behaviour
import MiddleEnd.Scope

/-! # Evaluation of K-normal code

Call by value, with a bound on the depth of calls.  What a call does is a
parameter of `evalWith`, so that evaluation follows the code; `call` closes the
knot and counts the depth.
-/

namespace MiddleEnd

/-- Bind names one after the other; a later binding of a name hides an earlier one. -/
def Scope.bindEach {α : Type} (s : Scope α) (bindings : List (Name × α)) : Scope α :=
  bindings.foldl (fun s b => s.bind b.1 b.2) s

theorem Scope.get?_bindEach {α : Type} (s : Scope α) (bindings : List (Name × α)) :
    (s.bindEach bindings).get? = (s.bindAll bindings).get? := by
  funext x
  rw [Scope.get?_bindAll]
  induction bindings generalizing s with
  | nil => simp [Scope.bindEach]
  | cons b bs ih =>
      rw [Scope.bindEach, List.foldl_cons, ← Scope.bindEach, ih, Scope.get?_bind,
        List.reverse_cons, List.lookup_append]
      cases bs.reverse.lookup x with
      | some a => rfl
      | none =>
          by_cases h : x = b.1
          · simp [h, List.lookup]
          · have miss : (x == b.1) = false := by simpa using h
            simp [h, List.lookup, miss]

theorem Scope.get?_bindEach_of_notMem {α : Type} {s : Scope α} {xs : List Name} {x : Name}
    (h : x ∉ xs) (vs : List α) : (s.bindEach (xs.zip vs)).get? x = s.get? x := by
  induction xs generalizing s vs with
  | nil => rfl
  | cons y ys ih =>
      cases vs with
      | nil => rfl
      | cons v vs =>
          obtain ⟨ne, notin⟩ := List.ne_and_not_mem_of_not_mem_cons h
          rw [List.zip_cons_cons, Scope.bindEach, List.foldl_cons, ← Scope.bindEach, ih notin,
            Scope.get?_bind, if_neg ne]

theorem Scope.get?_bindEach_of_mem {α : Type} {s : Scope α} {xs : List Name} {vs : List α}
    {x : Name} (full : vs.length = xs.length) (h : x ∈ xs) :
    ∃ v, (x, v) ∈ xs.zip vs ∧ (s.bindEach (xs.zip vs)).get? x = some v := by
  induction xs generalizing s vs with
  | nil => cases h
  | cons y ys ih =>
      obtain ⟨v, vs, rfl⟩ := List.exists_cons_of_length_eq_add_one full
      by_cases later : x ∈ ys
      · obtain ⟨w, hw, eq⟩ := ih (Nat.succ.inj full) later
        exact ⟨w, List.mem_cons_of_mem _ hw, eq⟩
      · obtain rfl := (List.mem_cons.mp h).resolve_right later
        refine ⟨v, List.mem_cons_self .., ?_⟩
        have unchanged := Scope.get?_bindEach_of_notMem (s := s.bind x v) later vs
        rw [Scope.get?_bind, if_pos rfl] at unchanged
        exact unchanged

/-- Binding related values to the same names gives each of these names related values. -/
theorem Scope.get?_bindEach_rel {α β : Type} {R : α → β → Prop} (s : Scope α) (s' : Scope β)
    {xs : List Name} {vs : List α} {ws : List β} {x : Name} (rel : List.Forall₂ R vs ws)
    (full : vs.length = xs.length) (h : x ∈ xs) :
    ∃ v w, (s.bindEach (xs.zip vs)).get? x = some v ∧
      (s'.bindEach (xs.zip ws)).get? x = some w ∧ R v w := by
  induction rel generalizing s s' xs with
  | nil =>
      obtain rfl := List.length_eq_zero_iff.mp full.symm
      cases h
  | @cons v w vs ws head _ ih =>
      obtain ⟨y, ys, rfl⟩ := List.exists_cons_of_length_eq_add_one full.symm
      by_cases later : x ∈ ys
      · exact ih _ _ (Nat.succ.inj full) later
      · obtain rfl := (List.mem_cons.mp h).resolve_right later
        refine ⟨v, w, ?_, ?_, head⟩
        · have unchanged := Scope.get?_bindEach_of_notMem (s := s.bind x v) later vs
          rw [Scope.get?_bind, if_pos rfl] at unchanged
          exact unchanged
        · have unchanged := Scope.get?_bindEach_of_notMem (s := s'.bind x w) later ws
          rw [Scope.get?_bind, if_pos rfl] at unchanged
          exact unchanged

namespace Knf

/-- A function value: its code and the values of the names in force where it was
    defined. -/
inductive Closure where
  | mk (env : Scope (Value Closure)) (self : Name) (formals : List Name) (body : Knf)

abbrev Env := Scope (Value Closure)

/-- The names in force in the body of a function. -/
def Closure.enter : Closure → List (Value Closure) → Env
  | .mk env self formals body, args =>
      (env.bind self (.fn (.mk env self formals body))).bindEach (formals.zip args)

variable {W : Outside}

/-- Evaluate code, where `call` tells what calls do. -/
def evalWith (call : Closure → List (Value Closure) → Run W Closure (Value Closure))
    (env : Env) : Knf → Run W Closure (Value Closure)
  | .op o => o.eval env.get?
  | .branch test x y e1 e2 => do
      let v ← Run.ofOption (env.get? x)
      let w ← Run.ofOption (env.get? y)
      match ← Run.ofOption (v.test test w) with
      | true => e1.evalWith call env
      | false => e2.evalWith call env
  | .letIn x _ e1 e2 => do
      let v ← e1.evalWith call env
      e2.evalWith call (env.bind x v)
  | .letRec f _ formals body rest =>
      rest.evalWith call (env.bind f (.fn (.mk env f (formals.map (·.1)) body)))
  | .app f xs => do
      let v ← Run.ofOption (env.get? f)
      let args ← Run.ofOption (lookAll env.get? xs)
      let c ← Run.ofOption v.function?
      call c args
  | .letTuple pattern y e => do
      let v ← Run.ofOption (env.get? y)
      let vs ← Run.ofOption v.components?
      if vs.length = pattern.length then
        e.evalWith call (env.bindEach ((pattern.map (·.1)).zip vs))
      else Run.stuck
  | .externApp f xs => do
      let args ← Run.ofOption (lookAll env.get? xs)
      Run.external f args

/-- A call, with calls up to the given depth. -/
def call (W : Outside) : Nat → Closure → List (Value Closure) → Run W Closure (Value Closure)
  | 0, _, _ => Run.unfinished
  | depth + 1, .mk env self formals body, args =>
      if args.length = formals.length then
        body.evalWith (call W depth) (Closure.enter (.mk env self formals body) args)
      else Run.stuck

def runs (W : Outside) (e : Knf) : Runs W Closure :=
  fun depth => e.evalWith (call W depth) .empty (Memory.start W Closure)

/-- The runs of code whose free names have values, from any memory. -/
def runsIn (W : Outside) (e : Knf) (env : Env) (m : Memory W Closure) : Runs W Closure :=
  fun depth => e.evalWith (call W depth) env m

end Knf

end MiddleEnd
