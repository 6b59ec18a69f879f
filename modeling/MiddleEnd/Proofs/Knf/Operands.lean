import Mathlib
import MiddleEnd.Proofs.Knf.Drawing
import MiddleEnd.Proofs.Term.Evaluation

/-! # Steps of lowering and their operands

A step of lowering implements an evaluation: the code that it gives, if it gives
any, does the same.  Most steps name some operands, computed from left to right,
and finish with code that uses these names.  In the environment of code there are
names of intermediate results besides the names of the program; these are
different from each other as long as the supply has not counted once around.
-/

namespace MiddleEnd

theorem Gives.of_temporary {ty : Mono} {x : Name} {c c' : Supply}
    (h : Gives (liftM (Supply.temporary ty.tag) : Lowering.Lower Name) c x c') :
    x = c.temp ty ∧ c' = c.skip 1 :=
  h.of_lift

namespace Lowering

/-! ## Operands -/

def pendingNames (p : Pending) : List Name :=
  p.map (·.1.1)

/-- All names that are bound where operands are computed. -/
def pendingBinders (p : Pending) : List Name :=
  p.flatMap fun q => q.1.1 :: q.2.binders

theorem pendingNames_append (p q : Pending) :
    pendingNames (p ++ q) = pendingNames p ++ pendingNames q :=
  List.map_append

theorem pendingBinders_append (p q : Pending) :
    pendingBinders (p ++ q) = pendingBinders p ++ pendingBinders q :=
  List.flatMap_append

theorem binders_wrap (p : Pending) (body : Knf) :
    (wrap p body).binders = pendingBinders p ++ body.binders := by
  induction p with
  | nil => rfl
  | cons q p ih =>
      have step : wrap (q :: p) body = .letIn q.1.1 q.1.2 q.2 (wrap p body) := rfl
      rw [step, Knf.binders, ih]
      simp [pendingBinders]

section
variable {W : Outside}
  (call : Knf.Closure → List (Value Knf.Closure) → Run W Knf.Closure (Value Knf.Closure))

/-- Compute operands and enter their names. -/
def evalPending (env : Knf.Env) : Pending → Run W Knf.Closure Knf.Env
  | [] => return env
  | ((x, _), e) :: p => do
      let v ← e.evalWith call env
      evalPending (env.bind x v) p

theorem evalWith_wrap (p : Pending) (body : Knf) (env : Knf.Env) :
    (wrap p body).evalWith call env = evalPending call env p >>= body.evalWith call := by
  induction p generalizing env with
  | nil => rw [evalPending, Run.pure_bind]; rfl
  | cons q p ih =>
      obtain ⟨⟨x, ty⟩, e⟩ := q
      rw [evalPending, Run.bind_assoc]
      have step : wrap (((x, ty), e) :: p) body = .letIn x ty e (wrap p body) := rfl
      rw [step, Knf.evalWith]
      simp only [ih]

theorem evalPending_append (p q : Pending) (env : Knf.Env) :
    evalPending call env (p ++ q) =
      evalPending call env p >>= fun env => evalPending call env q := by
  induction p generalizing env with
  | nil => rw [evalPending, Run.pure_bind]; rfl
  | cons r p ih =>
      obtain ⟨⟨x, ty⟩, e⟩ := r
      rw [List.cons_append, evalPending, evalPending, Run.bind_assoc]
      simp only [ih]

end

theorem binders_names (xs : List (Name × Ty)) : (binders xs).map (·.1) = xs.map (·.1) := by
  simp [binders]

theorem binders_types (xs : List (Name × Ty)) :
    (binders xs).map (·.2) = (xs.map (·.2)).map Ty.mono := by
  simp [binders]

/-- Names for the results of several steps, from left to right. -/
def operands : List (Lower Lowered) → Lower (List Name × Pending)
  | [] => return ([], [])
  | step :: steps => do
      let (x, p) ← operand step
      let (xs, q) ← operands steps
      return (x :: xs, p ++ q)

theorem lowerList_eq (externals : Signature) (scope : Scope Mono) (es : List Typed) :
    lowerList externals scope es = operands (es.map (lower externals scope)) := by
  induction es with
  | nil => rfl
  | cons e es ih => rw [lowerList, List.map_cons, operands, ih]

end Lowering

namespace Gives

open Lowering

theorem operands_cons {step : Lower Lowered} {steps : List (Lower Lowered)} {x : Name}
    {xs : List Name} {p q : Pending} {c c₁ c' : Supply} (h : Gives (operand step) c (x, p) c₁)
    (hs : Gives (operands steps) c₁ (xs, q) c') :
    Gives (operands (step :: steps)) c (x :: xs, p ++ q) c' :=
  h.bind (hs.bind (.pure _ _))

theorem operands_one {step : Lower Lowered} {x : Name} {p : Pending} {c c' : Supply}
    (h : Gives (operand step) c (x, p) c') : Gives (operands [step]) c ([x], p) c' := by
  have none : Gives (operands []) c' ([], []) c' := .pure _ _
  have whole := h.operands_cons none
  rwa [List.append_nil] at whole

/-- How the code of an operand is kept: a name that the code consists of is used as it is,
    other code gets a name. -/
theorem of_operand {step : Lower Lowered} {x : Name} {p : Pending} {c c' : Supply}
    (h : Gives (operand step) c (x, p) c') :
    (p = [] ∧ ∃ ty, Gives step c (.op (.var x), ty) c') ∨
      ∃ k ty c₁, Gives step c (k, ty) c₁ ∧ x = c₁.temp ty ∧ c' = c₁.skip 1 ∧
        p = [((x, ty), k)] := by
  obtain ⟨⟨k, ty⟩, c₁, first, rest⟩ := of_bind h
  split at rest
  · rename_i y ty' eq
    cases eq
    obtain ⟨eq, rfl⟩ := of_pure rest
    cases eq
    exact .inl ⟨rfl, ty, first⟩
  · rename_i k' ty' _ eq
    cases eq
    obtain ⟨y, c₂, drawn, last⟩ := of_bind rest
    obtain ⟨rfl, rfl⟩ := of_temporary drawn
    obtain ⟨eq, rfl⟩ := of_pure last
    cases eq
    exact .inr ⟨k, ty, c₁, first, rfl, rfl, rfl⟩

/-! ### What composed steps give -/

section
variable {externals : Signature} {scope : Scope Mono} {step left right yes no : Lower Lowered}
  {steps : List (Lower Lowered)} {k : Knf} {ty ty' : Mono} {c c' : Supply}

theorem of_operands_cons {xs : List Name} {p : Pending}
    (h : Gives (operands (step :: steps)) c (xs, p) c') :
    ∃ y q c₁ ys r, Gives (operand step) c (y, q) c₁ ∧ Gives (operands steps) c₁ (ys, r) c' ∧
      xs = y :: ys ∧ p = q ++ r := by
  obtain ⟨⟨y, q⟩, c₁, first, rest⟩ := of_bind h
  obtain ⟨⟨ys, r⟩, c₂, second, last⟩ := of_bind rest
  obtain ⟨eq, rfl⟩ := of_pure last
  cases eq
  exact ⟨y, q, c₁, ys, r, first, second, rfl, rfl⟩

theorem of_unary {build : Name → Op} (h : Gives (unary left build ty) c (k, ty') c') :
    ∃ x p, Gives (operands [left]) c ([x], p) c' ∧ k = wrap p (.op (build x)) ∧ ty' = ty := by
  obtain ⟨⟨x, p⟩, c₁, first, last⟩ := of_bind h
  obtain ⟨eq, rfl⟩ := of_pure last
  cases eq
  exact ⟨x, p, first.operands_one, rfl, rfl⟩

theorem of_binary {build : Name → Name → Op}
    (h : Gives (binary left right build ty) c (k, ty') c') :
    ∃ x y p, Gives (operands [left, right]) c ([x, y], p) c' ∧
      k = wrap p (.op (build x y)) ∧ ty' = ty := by
  obtain ⟨⟨x, p⟩, c₁, first, rest⟩ := of_bind h
  obtain ⟨⟨y, q⟩, c₂, second, last⟩ := of_bind rest
  obtain ⟨eq, rfl⟩ := of_pure last
  cases eq
  exact ⟨x, y, p ++ q, first.operands_cons second.operands_one, rfl, rfl⟩

theorem of_compareThen {op : Comparison}
    (h : Gives (compareThen op left right yes no) c (k, ty) c') :
    ∃ x y p c₁ k₁ c₂ k₂ ty₂, Gives (operands [left, right]) c ([x, y], p) c₁ ∧
      Gives yes c₁ (k₁, ty) c₂ ∧ Gives no c₂ (k₂, ty₂) c' ∧
      k = wrap p (comparison op x y k₁ k₂) := by
  obtain ⟨⟨x, p⟩, c₁, first, rest⟩ := of_bind h
  obtain ⟨⟨y, q⟩, c₂, second, rest⟩ := of_bind rest
  obtain ⟨⟨k₁, ty₁⟩, c₃, third, rest⟩ := of_bind rest
  obtain ⟨⟨k₂, ty₂⟩, c₄, fourth, last⟩ := of_bind rest
  obtain ⟨eq, rfl⟩ := of_pure last
  cases eq
  exact ⟨x, y, p ++ q, c₂, k₁, c₃, k₂, ty₂, first.operands_cons second.operands_one, third, fourth,
    rfl⟩

theorem of_testThen (h : Gives (testThen left yes no) c (k, ty) c') :
    ∃ x p c₁ k₁ c₂ k₂ ty₂ c₃, Gives (operands [left]) c ([x], p) c₁ ∧
      Gives yes c₁ (k₁, ty) c₂ ∧ Gives no c₂ (k₂, ty₂) c₃ ∧ c' = c₃.skip 1 ∧
      k = wrap p (.letIn (c₃.temp .bool) .bool (.op (.int 0))
        (.branch .eq x (c₃.temp .bool) k₂ k₁)) := by
  obtain ⟨⟨x, p⟩, c₁, first, rest⟩ := of_bind h
  obtain ⟨⟨k₁, ty₁⟩, c₂, second, rest⟩ := of_bind rest
  obtain ⟨⟨k₂, ty₂⟩, c₃, third, rest⟩ := of_bind rest
  obtain ⟨z, c₄, drawn, last⟩ := of_bind rest
  obtain ⟨rfl, rfl⟩ := of_temporary drawn
  obtain ⟨eq, rfl⟩ := of_pure last
  cases eq
  exact ⟨x, p, c₁, k₁, c₂, k₂, ty₂, c₃, first.operands_one, second, third, rfl, rfl⟩

variable {note : Ty} {e1 e2 : Typed}

theorem of_letIn {x : Name × Ty}
    (h : Gives (lower externals scope (.letIn note x e1 e2)) c (k, ty) c') :
    ∃ k₁ ty₁ c₁ k₂, Gives (lower externals scope e1) c (k₁, ty₁) c₁ ∧
      Gives (lower externals (scope.bind x.1 x.2.mono) e2) c₁ (k₂, ty) c' ∧
      k = .letIn x.1 x.2.mono k₁ k₂ := by
  obtain ⟨⟨k₁, ty₁⟩, c₁, first, rest⟩ := of_bind h
  obtain ⟨⟨k₂, ty₂⟩, c₂, second, last⟩ := of_bind rest
  obtain ⟨eq, rfl⟩ := of_pure last
  cases eq
  exact ⟨k₁, ty₁, c₁, k₂, first, second, rfl⟩

theorem of_seq (h : Gives (lower externals scope (.seq note e1 e2)) c (k, ty) c') :
    ∃ k₁ ty₁ c₁ k₂, Gives (lower externals scope e1) c (k₁, ty₁) c₁ ∧
      Gives (lower externals scope e2) (c₁.skip 1) (k₂, ty) c' ∧
      k = .letIn (c₁.temp .unit) .unit k₁ k₂ := by
  obtain ⟨⟨k₁, ty₁⟩, c₁, first, rest⟩ := of_bind h
  obtain ⟨x, c₂, drawn, rest⟩ := of_bind rest
  obtain ⟨⟨k₂, ty₂⟩, c₃, second, last⟩ := of_bind rest
  obtain ⟨rfl, rfl⟩ := of_temporary drawn
  obtain ⟨eq, rfl⟩ := of_pure last
  cases eq
  exact ⟨k₁, ty₁, c₁, k₂, first, second, rfl⟩

theorem of_letRec {f : Name × Ty} {formals : List (Name × Ty)} {body rest : Typed}
    (h : Gives (lower externals scope (.letRec note f formals body rest)) c (k, ty) c') :
    ∃ k₁ ty₁ c₁ k₂,
      Gives (lower externals ((scope.bind f.1 f.2.mono).bindAll (Lowering.binders formals)) body) c
        (k₁, ty₁) c₁ ∧
      Gives (lower externals (scope.bind f.1 f.2.mono) rest) c₁ (k₂, ty) c' ∧
      k = .letRec f.1 f.2.mono (Lowering.binders formals) k₁ k₂ := by
  obtain ⟨⟨k₁, ty₁⟩, c₁, first, rest⟩ := of_bind h
  obtain ⟨⟨k₂, ty₂⟩, c₂, second, last⟩ := of_bind rest
  obtain ⟨eq, rfl⟩ := of_pure last
  cases eq
  exact ⟨k₁, ty₁, c₁, k₂, first, second, rfl⟩

theorem of_letTuple {pattern : List (Name × Ty)}
    (h : Gives (lower externals scope (.letTuple note pattern e1 e2)) c (k, ty) c') :
    ∃ y p c₁ k₂, Gives (operands [lower externals scope e1]) c ([y], p) c₁ ∧
      Gives (lower externals (scope.bindAll (Lowering.binders pattern)) e2) c₁ (k₂, ty) c' ∧
      k = wrap p (.letTuple (Lowering.binders pattern) y k₂) := by
  obtain ⟨⟨y, p⟩, c₁, first, rest⟩ := of_bind h
  obtain ⟨⟨k₂, ty₂⟩, c₂, second, last⟩ := of_bind rest
  obtain ⟨eq, rfl⟩ := of_pure last
  cases eq
  exact ⟨y, p, c₁, k₂, first.operands_one, second, rfl⟩

theorem of_tuple {es : List Typed}
    (h : Gives (lower externals scope (.tuple note es)) c (k, ty) c') :
    ∃ xs p, Gives (operands (es.map (lower externals scope))) c (xs, p) c' ∧
      k = wrap p (.op (.tuple xs)) ∧ ty = note.mono := by
  obtain ⟨⟨xs, p⟩, c₁, first, last⟩ := of_bind h
  obtain ⟨eq, rfl⟩ := of_pure last
  cases eq
  rw [lowerList_eq] at first
  exact ⟨xs, p, first, rfl, rfl⟩

theorem of_array (h : Gives (lower externals scope (.array note e1 e2)) c (k, ty) c') :
    ∃ x y p, Gives (operands [lower externals scope e1, lower externals scope e2]) c
        ([x, y], p) c' ∧
      k = wrap p (.externApp (createArray e2.note) [x, y]) ∧ ty = note.mono := by
  obtain ⟨⟨x, p⟩, c₁, first, rest⟩ := of_bind h
  obtain ⟨⟨y, q⟩, c₂, second, last⟩ := of_bind rest
  obtain ⟨eq, rfl⟩ := of_pure last
  cases eq
  exact ⟨x, y, p ++ q, first.operands_cons second.operands_one, rfl, rfl⟩

theorem of_put {e3 : Typed} (h : Gives (lower externals scope (.put note e1 e2 e3)) c (k, ty) c') :
    ∃ x y z p, Gives (operands [lower externals scope e1, lower externals scope e2,
        lower externals scope e3]) c ([x, y, z], p) c' ∧
      k = wrap p (.op (.put x y z)) ∧ ty = .unit := by
  obtain ⟨⟨x, p⟩, c₁, first, rest⟩ := of_bind h
  obtain ⟨⟨y, q⟩, c₂, second, rest⟩ := of_bind rest
  obtain ⟨⟨z, r⟩, c₃, third, last⟩ := of_bind rest
  obtain ⟨eq, rfl⟩ := of_pure last
  cases eq
  have named := first.operands_cons (second.operands_cons third.operands_one)
  exact ⟨x, y, z, p ++ (q ++ r), named, by rw [List.append_assoc], rfl⟩

section
variable {callee : Typed} {args : List Typed}

/-- A call has code only if its callee is right for the signature. -/
theorem externalCallee_of_app
    (h : Gives (lower externals scope (.app note callee args)) c (k, ty) c') :
    ∃ f, externalCallee externals scope callee = .ok f := by
  cases found : externalCallee externals scope callee with
  | ok f => exact ⟨f, rfl⟩
  | error err =>
      obtain ⟨f, c₁, first, -⟩ := of_bind h
      rw [found] at first
      cases first

theorem of_app_external {f : Name}
    (found : externalCallee externals scope callee = .ok (some f))
    (h : Gives (lower externals scope (.app note callee args)) c (k, ty) c') :
    ∃ xs p, Gives (operands (args.map (lower externals scope))) c (xs, p) c' ∧
      k = wrap p (.externApp f xs) ∧ ty = note.mono := by
  obtain ⟨g, c₁, first, rest⟩ := of_bind h
  rw [found] at first
  cases first
  obtain ⟨⟨xs, p⟩, c₂, second, last⟩ := of_bind rest
  obtain ⟨eq, rfl⟩ := of_pure last
  cases eq
  rw [lowerList_eq] at second
  exact ⟨xs, p, second, rfl, rfl⟩

theorem of_app_function (found : externalCallee externals scope callee = .ok none)
    (h : Gives (lower externals scope (.app note callee args)) c (k, ty) c') :
    ∃ x xs p, Gives (operands (lower externals scope callee :: args.map (lower externals scope))) c
        (x :: xs, p) c' ∧
      k = wrap p (.app x xs) ∧ ty = note.mono := by
  obtain ⟨g, c₁, none, rest⟩ := of_bind h
  rw [found] at none
  cases none
  obtain ⟨⟨x, p⟩, c₂, first, rest⟩ := of_bind rest
  obtain ⟨⟨xs, q⟩, c₃, second, last⟩ := of_bind rest
  obtain ⟨eq, rfl⟩ := of_pure last
  cases eq
  rw [lowerList_eq] at second
  exact ⟨x, xs, p ++ q, first.operands_cons second, rfl, rfl⟩

end

end

/-- The code of a name is the name, or else an external array. -/
theorem of_var {externals : Signature} {scope : Scope Mono} {ty : Ty} {x : Name} {k : Knf}
    {ty' : Mono} {c c' : Supply}
    (h : Gives (lower externals scope (.var ty x)) c (k, ty') c') :
    c' = c ∧ ((scope.contains x = true ∧ k = .op (.var x)) ∨
      (scope.contains x = false ∧ k = .op (.externArray x))) := by
  rw [lower] at h
  split at h
  · rename_i bound
    obtain ⟨eq, rfl⟩ := of_pure h
    cases eq
    exact ⟨rfl, .inl ⟨by rw [Scope.contains, bound]; rfl, rfl⟩⟩
  · rename_i unbound
    split at h
    · obtain ⟨eq, rfl⟩ := of_pure h
      cases eq
      exact ⟨rfl, .inr ⟨by rw [Scope.contains, unbound]; rfl, rfl⟩⟩
    · cases h

end Gives

namespace Lowering

/-! ## Function values and environments -/

variable (externals : Signature)

mutual
/-- The function value becomes the function value of the code. -/
inductive Lowers : Typed.Closure → Knf.Closure → Prop where
  | mk {scope : Scope Mono} {env : Typed.Env} {env' : Knf.Env} {f : Name} {ty bodyTy : Mono}
      {formals : List (Name × Ty)} {body : Typed} {body' : Knf} {c c' : Supply}
      (holds : Holds scope env env')
      (gives : Gives (lower externals ((scope.bind f ty).bindAll (binders formals)) body) c
        (body', bodyTy) c')
      (few : body'.binders.length ≤ 2 ^ 32)
      (plain : ∀ x ∈ f :: (formals.map (·.1) ++ Typed.boundNames body), x.isTemporary = false) :
      Lowers (.mk env f (formals.map (·.1)) body) (.mk env' f (formals.map (·.1)) body')

/-- The names in scope are those with values, and have related values in the code; the
    code may have values of intermediate results besides. -/
inductive Holds : Scope Mono → Typed.Env → Knf.Env → Prop where
  | mk {scope : Scope Mono} {env : Typed.Env} {env' : Knf.Env}
      (covers : ∀ x, scope.contains x = (env.get? x).isSome)
      (plain : ∀ x, scope.contains x = true → x.isTemporary = false)
      (present : ∀ x, x.isTemporary = false → (env'.get? x).isSome = (env.get? x).isSome)
      (related : ∀ x v w, env.get? x = some v → env'.get? x = some w →
        Value.Rel Lowers v w) :
      Holds scope env env'
end

namespace Holds

variable {externals : Signature} {scope : Scope Mono} {env : Typed.Env} {env' : Knf.Env}

theorem covers (h : Holds externals scope env env') (x : Name) :
    scope.contains x = (env.get? x).isSome := by
  cases h with
  | mk covers _ _ _ => exact covers x

theorem plain (h : Holds externals scope env env') {x : Name} (hx : scope.contains x = true) :
    x.isTemporary = false := by
  cases h with
  | mk _ plain _ _ => exact plain x hx

theorem get? (h : Holds externals scope env env') {x : Name} (hx : x.isTemporary = false) :
    Option.Rel (Value.Rel (Lowers externals)) (env.get? x) (env'.get? x) := by
  cases h with
  | mk _ _ present related =>
      have same := present x hx
      cases hv : env.get? x with
      | none =>
          cases hw : env'.get? x with
          | none => exact .none
          | some w => simp [hv, hw] at same
      | some v =>
          cases hw : env'.get? x with
          | none => simp [hv, hw] at same
          | some w => exact .some (related x v w hv hw)

theorem of_get? (covers : ∀ x, scope.contains x = (env.get? x).isSome)
    (plain : ∀ x, scope.contains x = true → x.isTemporary = false)
    (values : ∀ x, x.isTemporary = false →
      Option.Rel (Value.Rel (Lowers externals)) (env.get? x) (env'.get? x)) :
    Holds externals scope env env' := by
  refine .mk covers plain ?_ ?_
  · intro x hx
    have rel := values x hx
    generalize env.get? x = v at rel ⊢
    generalize env'.get? x = w at rel ⊢
    cases rel <;> rfl
  · intro x v w hv hw
    have bound : scope.contains x = true := by rw [covers, hv]; rfl
    have rel := values x (plain x bound)
    rw [hv, hw] at rel
    cases rel with
    | some rel => exact rel

theorem empty : Holds externals .empty .empty .empty :=
  of_get? (fun _ => rfl) (fun _ h => by cases h) (fun _ _ => .none)

/-- A name in scope has related values on both sides. -/
theorem values (h : Holds externals scope env env') {x : Name} (hx : scope.contains x = true) :
    ∃ v w, env.get? x = some v ∧ env'.get? x = some w ∧ Value.Rel (Lowers externals) v w := by
  have rel := h.get? (h.plain hx)
  rw [h.covers] at hx
  obtain ⟨v, hv⟩ := Option.isSome_iff_exists.mp hx
  rw [hv] at rel
  cases hw : env'.get? x with
  | none => rw [hw] at rel; cases rel
  | some w =>
      rw [hw] at rel
      cases rel with
      | some rel => exact ⟨v, w, hv, rfl, rel⟩

theorem bind (h : Holds externals scope env env') {x : Name} (hx : x.isTemporary = false)
    (ty : Mono) {v : Value Typed.Closure} {w : Value Knf.Closure}
    (rel : Value.Rel (Lowers externals) v w) :
    Holds externals (scope.bind x ty) (env.bind x v) (env'.bind x w) := by
  refine of_get? ?_ ?_ ?_
  · intro y
    simp only [Scope.contains, Scope.get?_bind]
    split
    · rfl
    · exact h.covers y
  · intro y hy
    by_cases eq : y = x
    · exact eq ▸ hx
    · rw [Scope.contains, Scope.get?_bind, if_neg eq] at hy
      exact h.plain hy
  · intro y hy
    simp only [Scope.get?_bind]
    split
    · exact .some rel
    · exact h.get? hy

theorem bindEach (h : Holds externals scope env env') {formals : List (Name × Ty)}
    (plain : ∀ x ∈ formals.map (·.1), x.isTemporary = false) {vs : List (Value Typed.Closure)}
    {ws : List (Value Knf.Closure)} (rel : List.Forall₂ (Value.Rel (Lowers externals)) vs ws)
    (full : vs.length = formals.length) :
    Holds externals (scope.bindAll (binders formals))
      (env.bindEach ((formals.map (·.1)).zip vs))
      (env'.bindEach ((formals.map (·.1)).zip ws)) := by
  have full : vs.length = (formals.map (·.1)).length := by simpa using full
  have names := binders_names formals
  refine of_get? ?_ ?_ ?_
  · intro y
    rw [Scope.contains_bindAll, names]
    by_cases mem : y ∈ formals.map (·.1)
    · obtain ⟨v, -, found⟩ := Scope.get?_bindEach_of_mem (s := env) full mem
      simp only [mem, decide_true, Bool.true_or, found, Option.isSome_some]
    · simp only [mem, decide_false, Bool.false_or, Scope.get?_bindEach_of_notMem mem]
      exact h.covers y
  · intro y hy
    rw [Scope.contains_bindAll, names, Bool.or_eq_true, decide_eq_true_eq] at hy
    rcases hy with mem | bound
    · exact plain y mem
    · exact h.plain bound
  · intro y hy
    by_cases mem : y ∈ formals.map (·.1)
    · obtain ⟨v, w, hv, hw, rel⟩ := Scope.get?_bindEach_rel env env' rel full mem
      rw [hv, hw]
      exact .some rel
    · rw [Scope.get?_bindEach_of_notMem mem, Scope.get?_bindEach_of_notMem mem]
      exact h.get? hy

/-- An intermediate result is entered. -/
theorem bindTemp (h : Holds externals scope env env') {x : Name} (hx : x.isTemporary = true)
    (w : Value Knf.Closure) : Holds externals scope env (env'.bind x w) := by
  refine of_get? h.covers (fun _ => h.plain) ?_
  intro y hy
  have ne : y ≠ x := by
    rintro rfl
    rw [hx] at hy
    cases hy
  rw [Scope.get?_bind, if_neg ne]
  exact h.get? hy

end Holds

/-! ## The names that steps draw -/

/-- If the step gives code, then the code has a binder for every name that was drawn, and
    it is a mere name only if that name is in scope. -/
structure Orderly (scope : Scope Mono) (step : Lower Lowered) : Prop where
  supply : ∀ {c k ty c'}, Gives step c (k, ty) c' → ∃ n ≤ k.binders.length, c' = c.skip n
  bound : ∀ {c x ty c'}, Gives step c (.op (.var x), ty) c' → scope.contains x = true

section
variable {scope : Scope Mono} {step : Lower Lowered} {steps : List (Lower Lowered)}
  {c c₁ c' : Supply} {x : Name} {xs ys : List Name} {p q : Pending}

theorem operand_supply (h : Orderly scope step) (gives : Gives (operand step) c (x, p) c') :
    ∃ n ≤ (pendingBinders p).length, c' = c.skip n ∧ (∀ y ∈ pendingNames p, c.Draws n y) ∧
      (scope.contains x = true ∨ c.Draws n x) := by
  rcases gives.of_operand with ⟨rfl, ty, given⟩ | ⟨k, ty, c₁, given, rfl, rfl, rfl⟩
  · obtain ⟨n, few, rfl⟩ := h.supply given
    exact ⟨n, few, rfl, by simp [pendingNames], .inl (h.bound given)⟩
  · obtain ⟨n, few, rfl⟩ := h.supply given
    have last : c.Draws (n + 1) ((c.skip n).temp ty) := ⟨n, ty, by omega, rfl⟩
    refine ⟨n + 1, by simpa [pendingBinders] using few, Supply.skip_skip .., ?_, .inr last⟩
    intro y hy
    obtain rfl : y = (c.skip n).temp ty := by simpa [pendingNames] using hy
    exact last

theorem operands_supply (h : ∀ step ∈ steps, Orderly scope step)
    (gives : Gives (operands steps) c (xs, p) c') :
    ∃ n ≤ (pendingBinders p).length, c' = c.skip n ∧ (∀ y ∈ pendingNames p, c.Draws n y) ∧
      ∀ x ∈ xs, scope.contains x = true ∨ c.Draws n x := by
  induction steps generalizing c xs p with
  | nil =>
      obtain ⟨eq, rfl⟩ := Gives.of_pure gives
      cases eq
      exact ⟨0, Nat.zero_le _, (Supply.skip_zero _).symm, by simp [pendingNames], by simp⟩
  | cons step steps ih =>
      rw [List.forall_mem_cons] at h
      obtain ⟨x, q, c₁, ys, r, first, second, rfl, rfl⟩ := gives.of_operands_cons
      obtain ⟨m, fewFirst, rfl, drawnFirst, nameFirst⟩ := operand_supply h.1 first
      obtain ⟨n, fewRest, rfl, drawnRest, namesRest⟩ := ih h.2 second
      rw [pendingBinders_append, List.length_append, pendingNames_append]
      refine ⟨m + n, by omega, Supply.skip_skip .., ?_, ?_⟩
      · intro y hy
        rcases List.mem_append.mp hy with hy | hy
        · exact (drawnFirst y hy).mono (by omega)
        · exact (drawnRest y hy).of_skip
      · intro y hy
        rcases List.mem_cons.mp hy with rfl | hy
        · exact nameFirst.imp_right fun drawn => drawn.mono (by omega)
        · exact (namesRest y hy).imp_right fun drawn => drawn.of_skip

/-- A name in scope or drawn already is not drawn in what follows. -/
theorem not_drawn_again (plain : ∀ y, scope.contains y = true → y.isTemporary = false) {m n : Nat}
    (name : scope.contains x = true ∨ c.Draws m x) (few : m + n ≤ 2 ^ 32) :
    ¬ (c.skip m).Draws n x := by
  intro again
  rcases name with bound | drawn
  · have plain := plain x bound
    rw [again.isTemporary] at plain
    cases plain
  · exact drawn.not_again few again

/-- The operands that follow do not take the name of the first one. -/
theorem operand_not_again (h : Orderly scope step) (hs : ∀ step ∈ steps, Orderly scope step)
    (plain : ∀ y, scope.contains y = true → y.isTemporary = false)
    (first : Gives (operand step) c (x, p) c₁) (second : Gives (operands steps) c₁ (ys, q) c')
    (few : (pendingBinders p).length + (pendingBinders q).length ≤ 2 ^ 32) :
    x ∉ pendingNames q := by
  obtain ⟨m, fewFirst, rfl, -, name⟩ := operand_supply h first
  obtain ⟨n, fewRest, -, drawn, -⟩ := operands_supply hs second
  intro mem
  exact not_drawn_again plain name (by omega) (drawn x mem)

/-- What follows operands does not take their names. -/
theorem operands_not_again (hs : ∀ step ∈ steps, Orderly scope step)
    (plain : ∀ y, scope.contains y = true → y.isTemporary = false)
    (gives : Gives (operands steps) c (xs, p) c') {n : Nat}
    (few : (pendingBinders p).length + n ≤ 2 ^ 32) : ∀ x ∈ xs, ¬ c'.Draws n x := by
  obtain ⟨m, fewFirst, rfl, -, names⟩ := operands_supply hs gives
  intro x hx
  exact not_drawn_again plain (names x hx) (by omega)

end

/-! ## Steps and what they implement -/

section
variable {externals : Signature} {W : Outside}
  {call : Knf.Closure → List (Value Knf.Closure) → Run W Knf.Closure (Value Knf.Closure)}

/-- What a term does in an environment. -/
abbrev Meaning (W : Outside) := Typed.Env → Run W Typed.Closure (Value Typed.Closure)

abbrev RunsAs (externals : Signature) (x : Run W Typed.Closure (Value Typed.Closure))
    (y : Run W Knf.Closure (Value Knf.Closure)) : Prop :=
  Run.Sim .same (Lowers externals) (Value.Rel (Lowers externals)) x y

variable (externals call) in
/-- If the step gives code, then the code has a binder for every name that was drawn, it
    is a mere name only if that name is in scope, and it does what the term does. -/
structure Implements (scope : Scope Mono) (step : Lower Lowered) (term : Meaning W) : Prop where
  supply : ∀ {c k ty c'}, Gives step c (k, ty) c' → ∃ n ≤ k.binders.length, c' = c.skip n
  bound : ∀ {c x ty c'}, Gives step c (.op (.var x), ty) c' → scope.contains x = true
  runsAs : ∀ {c k ty c'}, Gives step c (k, ty) c' → k.binders.length ≤ 2 ^ 32 →
    ∀ {env env'}, Holds externals scope env env' →
      RunsAs externals (term env) (k.evalWith call env')

theorem Implements.orderly {scope : Scope Mono} {step : Lower Lowered} {term : Meaning W}
    (h : Implements externals call scope step term) : Orderly scope step :=
  ⟨h.supply, h.bound⟩

theorem orderly_of_implements {scope : Scope Mono} {steps : List (Lower Lowered)}
    {terms : List (Meaning W)} (h : List.Forall₂ (Implements externals call scope) steps terms) :
    ∀ step ∈ steps, Orderly scope step := by
  induction h with
  | nil => exact nofun
  | cons head _ ih => exact List.forall_mem_cons.mpr ⟨head.orderly, ih⟩

def sequence {F : Type} : List (Run W F (Value F)) → Run W F (List (Value F))
  | [] => return []
  | x :: xs => do
      let v ← x
      let vs ← sequence xs
      return v :: vs

variable (externals) in
/-- What is left after the computation of operands: their values are found under their
    names, and other names have the values they had. -/
structure Found (scope : Scope Mono) (env : Typed.Env) (env' : Knf.Env) (xs : List Name)
    (p : Pending) (vs : List (Value Typed.Closure)) (after : Knf.Env) : Prop where
  values : ∃ ws, lookAll after.get? xs = some ws ∧
    List.Forall₂ (Value.Rel (Lowers externals)) vs ws
  holds : Holds externals scope env after
  others : ∀ a, a ∉ pendingNames p → after.get? a = env'.get? a

theorem operand_runsAs {scope : Scope Mono} {step : Lower Lowered} {term : Meaning W}
    (h : Implements externals call scope step term) {c c' : Supply} {x : Name} {p : Pending}
    (gives : Gives (operand step) c (x, p) c') (few : (pendingBinders p).length ≤ 2 ^ 32)
    {env : Typed.Env} {env' : Knf.Env} (holds : Holds externals scope env env') :
    Run.Sim .same (Lowers externals)
      (fun v after => (∃ w, after.get? x = some w ∧ Value.Rel (Lowers externals) v w) ∧
        Holds externals scope env after ∧
        ∀ a, a ∉ pendingNames p → after.get? a = env'.get? a)
      (term env) (evalPending call env' p) := by
  rcases gives.of_operand with ⟨rfl, ty, given⟩ | ⟨k, ty, c₁, given, rfl, rfl, rfl⟩
  · -- a name in scope has a value, so nothing is computed now and nothing is missing later
    obtain ⟨v, w, hv, hw, -⟩ := holds.values (h.bound given)
    have found : RunsAs externals (term env) (Run.ofOption (env'.get? x)) :=
      h.runsAs given (Nat.zero_le _) holds
    rw [hw, Run.ofOption_some] at found
    rw [← Run.bind_pure (term env), evalPending, ← Run.pure_bind w fun _ => pure env']
    refine .bind found.eq_pure ?_
    rintro u _ ⟨rel, rfl⟩
    exact .pure ⟨⟨_, hw, rel⟩, holds, fun _ _ => rfl⟩
  · have short : k.binders.length ≤ 2 ^ 32 := by
      simp only [pendingBinders, List.flatMap_cons, List.flatMap_nil, List.append_nil,
        List.length_cons] at few
      omega
    rw [← Run.bind_pure (term env)]
    refine .bind (h.runsAs given short holds) ?_
    intro v w rel
    refine .pure ⟨⟨w, by rw [Scope.get?_bind, if_pos rfl], rel⟩, ?_, ?_⟩
    · exact holds.bindTemp (Supply.isTemporary_temp _ _) w
    · intro a ha
      have ne : a ≠ c₁.temp ty := by simpa [pendingNames] using ha
      rw [Scope.get?_bind, if_neg ne]

/-- Operands are computed from left to right and found under their names. -/
theorem operands_runsAs {scope : Scope Mono} {steps : List (Lower Lowered)}
    {terms : List (Meaning W)}
    (h : List.Forall₂ (Implements externals call scope) steps terms) {c c' : Supply}
    {xs : List Name} {p : Pending} (gives : Gives (operands steps) c (xs, p) c')
    (few : (pendingBinders p).length ≤ 2 ^ 32) {env : Typed.Env} {env' : Knf.Env}
    (holds : Holds externals scope env env') :
    Run.Sim .same (Lowers externals) (Found externals scope env env' xs p)
      (sequence (terms.map (· env))) (evalPending call env' p) := by
  induction h generalizing c xs p env' with
  | nil =>
      obtain ⟨eq, rfl⟩ := Gives.of_pure gives
      cases eq
      exact .pure ⟨⟨[], rfl, .nil⟩, holds, fun _ _ => rfl⟩
  | @cons step term steps terms head tail ih =>
      obtain ⟨x, q, c₁, ys, r, first, second, rfl, rfl⟩ := gives.of_operands_cons
      rw [pendingBinders_append, List.length_append] at few
      rw [evalPending_append]
      refine .bind (operand_runsAs head first (by omega) holds) ?_
      rintro v middle ⟨⟨w, hw, rel⟩, holds', others⟩
      rw [← Run.bind_pure (evalPending call middle r)]
      refine .bind (ih second (by omega) holds') ?_
      rintro vs after ⟨⟨ws, hws, rels⟩, holds'', others'⟩
      have kept : after.get? x = some w := by
        rw [others' x, hw]
        exact operand_not_again head.orderly (orderly_of_implements tail) (fun _ => holds.plain)
          first second few
      refine .pure ⟨⟨w :: ws, by simp only [lookAll, kept, hws], .cons rel rels⟩, holds'', ?_⟩
      intro a ha
      rw [pendingNames_append, List.mem_append, not_or] at ha
      rw [others' a ha.2, others a ha.1]

variable (externals call) in
/-- The code finishes a step, once operands have been computed under the names `xs`.  What
    it draws itself are other names, as long as the supply has not counted once around. -/
structure Finishes (scope : Scope Mono) (c c' : Supply) (xs : List Name) (body : Knf)
    (rest : Typed.Env → List (Value Typed.Closure) → Run W Typed.Closure (Value Typed.Closure)) :
    Prop where
  supply : ∃ n ≤ body.binders.length, c' = c.skip n
  notName : ∀ x, body ≠ .op (.var x)
  runsAs : body.binders.length ≤ 2 ^ 32 → (∀ x ∈ xs, ¬ c.Draws body.binders.length x) →
    ∀ {env after vs ws}, Holds externals scope env after → lookAll after.get? xs = some ws →
      List.Forall₂ (Value.Rel (Lowers externals)) vs ws →
        RunsAs externals (rest env vs) (body.evalWith call after)

theorem wrap_eq_name {p : Pending} {body : Knf} {x : Name} (h : wrap p body = .op (.var x)) :
    p = [] ∧ body = .op (.var x) := by
  cases p with
  | nil => exact ⟨rfl, h⟩
  | cons q p => cases h

/-- A step that names operands and goes on with their values. -/
theorem Implements.of_operands {scope : Scope Mono} {steps : List (Lower Lowered)}
    {terms : List (Meaning W)} {step : Lower Lowered} {term : Meaning W}
    (rest : Typed.Env → List (Value Typed.Closure) → Run W Typed.Closure (Value Typed.Closure))
    (h : List.Forall₂ (Implements externals call scope) steps terms)
    (parts : ∀ {env env'}, Holds externals scope env env' →
      term env = sequence (terms.map (· env)) >>= rest env)
    (gives : ∀ {c k ty c'}, Gives step c (k, ty) c' → ∃ xs p c₁ body,
      Gives (operands steps) c (xs, p) c₁ ∧ k = wrap p body ∧
        Finishes externals call scope c₁ c' xs body rest) :
    Implements externals call scope step term := by
  constructor
  · intro c k ty c' given
    obtain ⟨xs, p, c₁, body, first, rfl, last⟩ := gives given
    obtain ⟨m, fewFirst, rfl, -, -⟩ := operands_supply (orderly_of_implements h) first
    obtain ⟨n, fewLast, rfl⟩ := last.supply
    refine ⟨m + n, ?_, Supply.skip_skip ..⟩
    rw [binders_wrap, List.length_append]
    omega
  · intro c x ty c' given
    obtain ⟨xs, p, c₁, body, -, eq, last⟩ := gives given
    exact absurd (wrap_eq_name eq.symm).2 (last.notName x)
  · intro c k ty c' given few env env' holds
    obtain ⟨xs, p, c₁, body, first, rfl, last⟩ := gives given
    rw [binders_wrap, List.length_append] at few
    rw [evalWith_wrap, parts holds]
    refine .bind (operands_runsAs h first (by omega) holds) ?_
    rintro vs after ⟨⟨ws, found, rels⟩, holds', -⟩
    refine last.runsAs (by omega) ?_ holds' found rels
    exact operands_not_again (orderly_of_implements h) (fun _ => holds.plain) first few

end

end Lowering

end MiddleEnd
