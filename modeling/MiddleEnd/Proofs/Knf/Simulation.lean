import Mathlib
import MiddleEnd.Proofs.Knf.Improvement
import MiddleEnd.Proofs.Knf.Reading

/-! # Improved code behaves the same

Improved code is run beside the code that it improves.  A context that holds of
the two environments still holds after each way of binding names; from this and
from what calls do, evaluation follows the rules of `Improves`.  Expanding a call
saves one level of the depth of calls, so the runs that are compared have
different bounds (`Direction.Allows`).
-/

namespace MiddleEnd

theorem Op.isSome_of_value? {F : Type} {look : Name → Option (Value F)} {o : Op} {v : Value F}
    (h : o.value? look = some v) {x : Name} (hx : x ∈ o.names) : (look x).isSome := by
  cases o with
  | var y =>
      obtain rfl : x = y := by simpa [names] using hx
      exact Option.isSome_of_eq_some h
  | tuple xs =>
      obtain ⟨vs, hvs, -⟩ := Option.map_eq_some_iff.mp h
      clear h
      simp only [names] at hx
      induction xs generalizing vs with
      | nil => cases hx
      | cons y ys ih =>
          simp only [lookAll] at hvs
          split at hvs
          · rename_i w ws hw hws
            rcases List.mem_cons.mp hx with rfl | hx
            · exact Option.isSome_of_eq_some hw
            · exact ih hx ws hws
          · cases hvs
  | _ => simp [value?, names] at h hx

/-- An operation with a known value yields it, unless a name in it has none. -/
theorem Op.eval_of_isKnown {W : Outside} {F : Type} (look : Name → Option (Value F)) {o : Op}
    (h : o.isKnown = true) :
    (o.eval look : Run W F (Value F)) = Run.stuck ∨
      ∃ v, o.value? look = some v ∧ (o.eval look : Run W F (Value F)) = pure v := by
  cases hv : o.value? look with
  | some v => exact .inr ⟨v, rfl, eval_of_value? hv⟩
  | none =>
      cases o <;> simp only [isKnown, value?, reduceCtorEq, Bool.false_eq_true] at h hv
      case tuple xs =>
          have missing : lookAll look xs = none := by simpa using hv
          simp only [eval, missing, Run.ofOption_none, Run.stuck_bind, true_or]

namespace Knf

namespace Context.Holds

variable {Φ : Context} {env env' : Env}

theorem before (h : Φ.Holds env env') {x : Name} {v : Value Closure} (hx : env.get? x = some v) :
    Φ.before x := by
  cases h with
  | mk before _ _ _ _ => exact before x v hx

theorem after (h : Φ.Holds env env') {x : Name} {v : Value Closure} (hx : env'.get? x = some v) :
    Φ.after x := by
  cases h with
  | mk _ after _ _ _ => exact after x v hx

theorem fact (h : Φ.Holds env env') {x : Name} {o : Op} {v : Value Closure} (hf : Φ.fact x o)
    (hx : env.get? x = some v) :
    ∃ v', o.value? env'.get? = some v' ∧ Value.Rel Closure.Rel v v' := by
  cases h with
  | mk _ _ present related _ =>
      obtain ⟨v', hv'⟩ := Option.isSome_iff_exists.mp (present x o hf v hx)
      exact ⟨v', hv', related x o hf v hx v' hv'⟩

theorem function (h : Φ.Holds env env') {f : Name} {formals : List Name} {body : Knf}
    {bound : Name → Prop} {v : Value Closure} (hf : Φ.function f formals body bound)
    (hv : env.get? f = some v) :
    ∃ outer, v = .fn (.mk outer f formals body) ∧ bound f ∧
      ∀ a w, outer.get? a = some w → bound a ∧ (a ≠ f → env.get? a = some w) := by
  cases h with
  | mk _ _ _ _ function => exact function f formals body bound hf v hv

/-- A context holds if each of its parts does. -/
theorem of_parts (before : ∀ x v, env.get? x = some v → Φ.before x)
    (after : ∀ x v, env'.get? x = some v → Φ.after x)
    (fact : ∀ x o v, Φ.fact x o → env.get? x = some v →
      ∃ v', o.value? env'.get? = some v' ∧ Value.Rel Closure.Rel v v')
    (function : ∀ f formals body bound, Φ.function f formals body bound →
      ∀ v, env.get? f = some v → ∃ outer, v = .fn (.mk outer f formals body) ∧ bound f ∧
        ∀ a w, outer.get? a = some w → bound a ∧ (a ≠ f → env.get? a = some w)) :
    Φ.Holds env env' := by
  refine .mk before after ?_ ?_ function
  · intro x o hf v hx
    obtain ⟨v', hv', -⟩ := fact x o v hf hx
    exact Option.isSome_of_eq_some hv'
  · intro x o hf v hx w hw
    obtain ⟨v', hv', hvv'⟩ := fact x o v hf hx
    rw [hv'] at hw
    exact Option.some.inj hw ▸ hvv'

theorem start : Context.start.Holds .empty .empty :=
  of_parts (by simp) (by simp) (by simp) (by simp)

/-- A name may be replaced by what it means. -/
theorem means (h : Φ.Holds env env') {x : Name} {o : Op} {v : Value Closure} (hm : Φ.Means x o)
    (hx : env.get? x = some v) :
    ∃ v', o.value? env'.get? = some v' ∧ Value.Rel Closure.Rel v v' :=
  h.fact (hm (h.before hx)) hx

theorem carries {d : Direction} (hd : d ≠ .same) (h : Φ.Holds env env') {x x' : Name}
    (hm : Φ.Means x (.var x')) :
    d.Carries (Value.Rel Closure.Rel) (env.get? x) (env'.get? x') :=
  .of_forall hd fun _ hx => h.means hm hx

theorem carriesAll {d : Direction} (hd : d ≠ .same) (h : Φ.Holds env env') {xs xs' : List Name}
    (hm : List.Forall₂ (fun x x' => Φ.Means x (.var x')) xs xs') :
    d.Carries (List.Forall₂ (Value.Rel Closure.Rel)) (lookAll env.get? xs)
      (lookAll env'.get? xs') :=
  .lookAll (hm.imp fun _ _ => h.carries hd)

/-- The values of names are found again at the names that replace them. -/
theorem values (h : Φ.Holds env env') {xs xs' : List Name} {vs : List (Value Closure)}
    (hm : List.Forall₂ (fun x x' => Φ.Means x (.var x')) xs xs')
    (hvs : lookAll env.get? xs = some vs) :
    List.Forall₂ (fun v x' => ∃ v', env'.get? x' = some v' ∧ Value.Rel Closure.Rel v v')
      vs xs' := by
  induction hm generalizing vs with
  | nil =>
      obtain rfl := Option.some.inj hvs
      exact .nil
  | cons head _ ih =>
      simp only [lookAll] at hvs
      split at hvs
      case h_1 v vs hv hvs' =>
          obtain rfl := Option.some.inj hvs
          exact .cons (h.means head hv) (ih hvs')
      case h_2 => cases hvs

theorem bindBefore (h : Φ.Holds env env') (x : Name) (v : Value Closure) :
    (Φ.bindBefore x).Holds (env.bind x v) env' := by
  refine of_parts ?_ (fun _ _ => h.after) ?_ ?_
  · intro a w ha
    rw [Scope.get?_bind] at ha
    split at ha
    case isTrue eq => exact .inl eq
    case isFalse => exact .inr (h.before ha)
  · rintro a o w ⟨ne, hf⟩ ha
    rw [Scope.get?_bind, if_neg ne] at ha
    exact h.fact hf ha
  · rintro f formals body bound ⟨hf, ne, free⟩ w hw
    rw [Scope.get?_bind, if_neg ne] at hw
    obtain ⟨outer, rfl, hbound, inner⟩ := h.function hf hw
    refine ⟨outer, rfl, hbound, fun a u ha => ?_⟩
    obtain ⟨ha', same⟩ := inner a u ha
    refine ⟨ha', fun hne => ?_⟩
    have other : a ≠ x := fun eq => free (eq ▸ ha')
    rw [Scope.get?_bind, if_neg other]
    exact same hne

theorem bindAfter (h : Φ.Holds env env') (x : Name) (v : Value Closure) :
    (Φ.bindAfter x).Holds env (env'.bind x v) := by
  refine of_parts (fun _ _ => h.before) ?_ ?_ (fun _ _ _ _ hf _ hv => h.function hf hv)
  · intro a w ha
    rw [Scope.get?_bind] at ha
    split at ha
    case isTrue eq => exact .inl eq
    case isFalse => exact .inr (h.after ha)
  · rintro a o w ⟨hf, free⟩ ha
    obtain ⟨w', hw', rel⟩ := h.fact hf ha
    refine ⟨w', ?_, rel⟩
    rw [← hw']
    refine Op.value?_congr fun y hy => ?_
    -- a name that the operation uses has a value, so it is not the new one
    obtain ⟨u, hu⟩ := Option.isSome_iff_exists.mp (Op.isSome_of_value? hw' hy)
    rw [Scope.get?_bind, if_neg]
    rintro rfl
    exact free hy (h.after hu)

theorem learn (h : Φ.Holds env env') {x : Name} {o : Op}
    (hx : ∀ v, env.get? x = some v →
      ∃ v', o.value? env'.get? = some v' ∧ Value.Rel Closure.Rel v v') :
    (Φ.learn x o).Holds env env' := by
  refine of_parts (fun _ _ => h.before) (fun _ _ => h.after) ?_
    (fun _ _ _ _ hf _ hv => h.function hf hv)
  rintro a p v (hf | ⟨rfl, rfl⟩) ha
  · exact h.fact hf ha
  · exact hx v ha

theorem bind (h : Φ.Holds env env') (x y : Name) {v v' : Value Closure}
    (hv : Value.Rel Closure.Rel v v') : (Φ.bind x y).Holds (env.bind x v) (env'.bind y v') := by
  refine ((h.bindBefore x v).bindAfter y v').learn fun w hw => ?_
  obtain rfl : v = w := by simpa using hw
  exact ⟨v', by simp [Op.value?], hv⟩

theorem bindTo (h : Φ.Holds env env') (x y : Name) {e : Knf} {v v' : Value Closure}
    (hv : Value.Rel Closure.Rel v v')
    (he : ∀ o, e = .op o → o.isKnown = true → o.value? env'.get? = some v') :
    (Φ.bindTo x y e).Holds (env.bind x v) (env'.bind y v') := by
  have known : ((Φ.bindBefore x).learnCode x e).Holds (env.bind x v) env' := by
    unfold learnCode
    split
    case h_1 o =>
        split
        case isTrue ho =>
            refine (h.bindBefore x v).learn fun w hw => ⟨v', he o rfl ho, ?_⟩
            obtain rfl : v = w := by simpa using hw
            exact hv
        case isFalse => exact h.bindBefore x v
    case h_2 => exact h.bindBefore x v
  refine (known.bindAfter y v').learn fun w hw => ?_
  obtain rfl : v = w := by simpa using hw
  exact ⟨v', by simp [Op.value?], hv⟩

theorem replace (h : Φ.Holds env env') (x y : Name) {v v' : Value Closure}
    (hv : Value.Rel Closure.Rel v v') (hy : env'.get? y = some v') :
    (Φ.replace x y).Holds (env.bind x v) env' := by
  refine (h.bindBefore x v).learn fun w hw => ⟨v', hy, ?_⟩
  obtain rfl : v = w := by simpa using hw
  exact hv

theorem bindEach {xs xs' : List Name} {vs vs' : List (Value Closure)} (h : Φ.Holds env env')
    (length : xs.length = xs'.length) (hvs : List.Forall₂ (Value.Rel Closure.Rel) vs vs')
    (full : vs.length = xs.length) :
    (Φ.bindEach (xs.zip xs')).Holds (env.bindEach (xs.zip vs)) (env'.bindEach (xs'.zip vs')) := by
  induction hvs generalizing Φ env env' xs xs' with
  | nil =>
      obtain rfl := List.length_eq_zero_iff.mp full.symm
      obtain rfl := List.length_eq_zero_iff.mp length.symm
      exact h
  | @cons v v' vs vs' head _ ih =>
      obtain ⟨x, xs, rfl⟩ := List.exists_cons_of_length_eq_add_one full.symm
      obtain ⟨x', xs', rfl⟩ := List.exists_cons_of_length_eq_add_one length.symm
      exact ih (h.bind x x' head) (Nat.succ.inj length) (Nat.succ.inj full)

theorem replaceEach (formals : List Name) {xs' : List Name} {vs : List (Value Closure)}
    (h : Φ.Holds env env')
    (hvs : List.Forall₂ (fun v x' => ∃ v', env'.get? x' = some v' ∧ Value.Rel Closure.Rel v v')
      vs xs') :
    (Φ.replaceEach (formals.zip xs')).Holds (env.bindEach (formals.zip vs)) env' := by
  induction hvs generalizing Φ env formals with
  | nil => simpa [Context.replaceEach, Scope.bindEach] using h
  | cons head _ ih =>
      obtain ⟨v', hy, hv⟩ := head
      cases formals with
      | nil => exact h
      | cons x formals => exact ih formals (h.replace x _ hv hy)

theorem bindBeforeEach {xs : List Name} {vs : List (Value Closure)} (h : Φ.Holds env env')
    (full : vs.length = xs.length) :
    (xs.foldl Context.bindBefore Φ).Holds (env.bindEach (xs.zip vs)) env' := by
  induction xs generalizing Φ env vs with
  | nil => exact h
  | cons x xs ih =>
      obtain ⟨v, vs, rfl⟩ := List.exists_cons_of_length_eq_add_one full
      exact ih (h.bindBefore x v) (Nat.succ.inj full)

theorem bindAfterEach {xs : List Name} {vs : List (Value Closure)} (h : Φ.Holds env env')
    (full : vs.length = xs.length) :
    (Φ.bindAfterEach xs).Holds env (env'.bindEach (xs.zip vs)) := by
  induction xs generalizing Φ env' vs with
  | nil => exact h
  | cons x xs ih =>
      obtain ⟨v, vs, rfl⟩ := List.exists_cons_of_length_eq_add_one full
      exact ih (h.bindAfter x v) (Nat.succ.inj full)

theorem define (h : Φ.Holds env env') {f f' : Name} {formals formals' : List Name}
    {body body' : Knf}
    (hc : Closure.Rel (.mk env f formals body) (.mk env' f' formals' body')) :
    (Φ.define f f' formals body).Holds (env.bind f (.fn (.mk env f formals body)))
      (env'.bind f' (.fn (.mk env' f' formals' body'))) := by
  have bound := h.bind f f' (.fn hc)
  refine of_parts (fun _ _ => bound.before) (fun _ _ => bound.after)
    (fun _ _ _ hf hx => bound.fact hf hx) ?_
  rintro g fs e names (hf | ⟨rfl, rfl, rfl, rfl⟩) v hv
  · exact bound.function hf hv
  · obtain rfl : Value.fn (.mk env g fs e) = v := by simpa using hv
    refine ⟨env, rfl, .inl rfl, fun a w ha => ⟨.inr (h.before ha), fun ne => ?_⟩⟩
    rw [Scope.get?_bind, if_neg ne]
    exact ha

/-- In the body of a known function, the names in force where it was defined still
    have their values. -/
theorem only (h : Φ.Holds env env') {f : Name}
    {bound : Name → Prop} {outer : Env} {v : Value Closure} (hf : env.get? f = some v)
    (hbound : bound f)
    (inner : ∀ a w, outer.get? a = some w → bound a ∧ (a ≠ f → env.get? a = some w)) :
    (Φ.only bound).Holds (outer.bind f v) env' := by
  have same : ∀ a w, (outer.bind f v).get? a = some w → bound a ∧ env.get? a = some w := by
    intro a w ha
    rw [Scope.get?_bind] at ha
    split at ha
    case isTrue eq =>
        subst eq
        exact ⟨hbound, hf.trans ha⟩
    case isFalse ne => exact ⟨(inner a w ha).1, (inner a w ha).2 ne⟩
  exact of_parts (fun a w ha => (same a w ha).1) (fun _ _ => h.after)
    (fun a o w hf ha => h.fact hf (same a w ha).2) (fun _ _ _ _ hf => hf.elim)

end Context.Holds

section
variable {W : Outside} {call : Closure → List (Value Closure) → Run W Closure (Value Closure)}

/-- Evaluate code and keep the names that its leading binders bind. -/
def evalTail (call : Closure → List (Value Closure) → Run W Closure (Value Closure))
    (env : Env) : Knf → Run W Closure (Value Closure × Env)
  | .letIn x _ e1 e2 => do
      let v ← e1.evalWith call env
      e2.evalTail call (env.bind x v)
  | .letRec f _ formals body rest =>
      rest.evalTail call (env.bind f (.fn (.mk env f (formals.map (·.1)) body)))
  | .letTuple pattern y e => do
      let v ← Run.ofOption (env.get? y)
      let vs ← Run.ofOption v.components?
      if vs.length = pattern.length then
        e.evalTail call (env.bindEach ((pattern.map (·.1)).zip vs))
      else Run.stuck
  | .op o => do return (← (Knf.op o).evalWith call env, env)
  | .branch test x y e1 e2 => do return (← (Knf.branch test x y e1 e2).evalWith call env, env)
  | .app f xs => do return (← (Knf.app f xs).evalWith call env, env)
  | .externApp f xs => do return (← (Knf.externApp f xs).evalWith call env, env)

theorem evalWith_eq_evalTail (e : Knf) (env : Env) :
    e.evalWith call env = e.evalTail call env >>= fun r => pure r.1 := by
  induction e generalizing env with
  | letIn x ty e1 e2 _ ih =>
      simp only [evalWith, evalTail, Run.bind_assoc, ih]
  | letRec f ty formals body rest _ ih => exact ih _
  | letTuple pattern y e ih =>
      simp only [evalWith, evalTail, Run.bind_assoc]
      congr 1
      funext v
      congr 1
      funext vs
      split
      · exact ih _
      · rfl
  | op | branch | app | externApp =>
      simp only [evalTail, Run.bind_assoc, Run.pure_bind, Run.bind_pure]

theorem evalWith_hoist (x : Name) (ty : Mono) (body e : Knf) (env : Env) :
    (hoist x ty body e).evalWith call env =
      e.evalTail call env >>= fun r => body.evalWith call (r.2.bind x r.1) := by
  induction e generalizing env with
  | letIn y u e1 e2 _ ih => simp only [hoist, evalWith, evalTail, Run.bind_assoc, ih]
  | letRec f u formals e1 e2 _ ih => exact ih _
  | letTuple pattern z e ih =>
      simp only [hoist, evalWith, evalTail, Run.bind_assoc]
      congr 1
      funext v
      congr 1
      funext vs
      split
      · exact ih _
      · rfl
  | op | branch | app | externApp =>
      simp only [hoist, evalTail, Run.bind_assoc, Run.pure_bind]
      rfl

/-- Code that ends has given values to the names of its leading binders. -/
theorem evalTail_env {e : Knf} {env : Env} {m m' : Memory W Closure} {t : List Effect}
    {r : Value Closure × Env} (h : e.evalTail call env m = ⟨t, .done (r, m')⟩) :
    ∃ vs : List (Value Closure), vs.length = e.leading.length ∧
      r.2 = env.bindEach (e.leading.zip vs) := by
  induction e generalizing env m t with
  | letIn x ty e1 e2 _ ih =>
      obtain ⟨t₁, v, m₁, t₂, -, h⟩ := Run.bind_eq_done h
      obtain ⟨vs, length, eq⟩ := ih h
      exact ⟨v :: vs, congrArg Nat.succ length, eq⟩
  | letRec f ty formals body rest _ ih =>
      obtain ⟨vs, length, eq⟩ := ih h
      exact ⟨_ :: vs, congrArg Nat.succ length, eq⟩
  | letTuple pattern y e ih =>
      obtain ⟨t₁, v, m₁, t₂, -, h⟩ := Run.bind_eq_done h
      obtain ⟨t₃, ws, m₂, t₄, -, h⟩ := Run.bind_eq_done h
      split at h
      case isTrue full =>
          obtain ⟨vs, length, eq⟩ := ih h
          have names : (pattern.map (·.1)).length = ws.length := by simp [full]
          refine ⟨ws ++ vs, by simp [leading, full, length], ?_⟩
          rw [leading, List.zip_append names, Scope.bindEach, List.foldl_append]
          exact eq
      case isFalse => cases h
  | op | branch | app | externApp =>
      obtain ⟨t₁, v, m₁, t₂, -, h⟩ := Run.bind_eq_done h
      rw [Run.pure_apply] at h
      cases h
      exact ⟨[], rfl, rfl⟩

/-- Binding names one by one to the components of a tuple binds them all, if none of
    the components has a name that is bound on the way. -/
theorem evalWith_letEach {pattern : List (Name × Mono)} {zs : List Name}
    {vs : List (Value Closure)} {env : Env} (hvs : lookAll env.get? zs = some vs)
    (apart : ∀ b ∈ pattern, ∀ z ∈ zs, b.1 ≠ z) (e : Knf) :
    (letEach (pattern.zip zs) e).evalWith call env =
      e.evalWith call (env.bindEach ((pattern.map (·.1)).zip vs)) := by
  induction pattern generalizing zs vs env with
  | nil => rfl
  | cons b pattern ih =>
      cases zs with
      | nil =>
          obtain rfl := Option.some.inj hvs
          rfl
      | cons z zs =>
          simp only [lookAll] at hvs
          split at hvs
          case h_2 => cases hvs
          case h_1 v vs hz hzs =>
              obtain rfl := Option.some.inj hvs
              have rest : lookAll (env.bind b.1 v).get? zs = some vs := by
                rw [← hzs]
                refine lookAll_congr fun y hy => ?_
                have ne := apart b (List.mem_cons_self ..) y (List.mem_cons_of_mem _ hy)
                rw [Scope.get?_bind, if_neg ne.symm]
              have step := ih rest fun c hc y hy =>
                apart c (List.mem_cons_of_mem _ hc) y (List.mem_cons_of_mem _ hy)
              simp only [List.zip_cons_cons, letEach, evalWith, Op.eval, hz, Run.ofOption_some,
                Run.pure_bind, step]
              rfl

end

/-! ## What each rule does -/

section
variable {W : Outside} {d : Direction} {Φ : Context} {env env' : Env}

abbrev Follows (d : Direction) (x y : Run W Closure (Value Closure)) : Prop :=
  Run.Sim d Closure.Rel (Value.Rel Closure.Rel) x y

theorem Context.Holds.int (h : Φ.Holds env env') {x : Name} {n : Int64}
    (hm : Φ.Means x (.int n)) {v : Value Closure} (hx : env.get? x = some v) : v = .int n := by
  obtain ⟨v', hv', rel⟩ := h.means hm hx
  cases hv'
  cases rel
  rfl

theorem Context.Holds.float (h : Φ.Holds env env') {x : Name} {c : Double}
    (hm : Φ.Means x (.float c)) {v : Value Closure} (hx : env.get? x = some v) :
    v = .float c := by
  obtain ⟨v', hv', rel⟩ := h.means hm hx
  cases hv'
  cases rel
  rfl

theorem OpImproves.follows (hd : d ≠ .same) {o o' : Op} (h : OpImproves Φ o o')
    (holds : Φ.Holds env env') :
    Follows (W := W) d (o.eval env.get?) (o'.eval env'.get?) := by
  cases h with
  | @renamed _ ρ h =>
      rw [Op.eval_map]
      exact Op.eval_sim o fun x hx => holds.carries hd (h x hx)
  | @known x _ h =>
      change Follows d (Run.ofOption (env.get? x)) _
      cases hx : env.get? x with
      | none => exact .free hd _
      | some v =>
          obtain ⟨v', hv', rel⟩ := holds.means h hx
          rw [Op.eval_of_value? hv']
          exact .pure rel
  | @negateInt x n h =>
      refine .ofOption_bind hd fun v hx => ?_
      obtain rfl := holds.int h hx
      exact .pure (.int (-n))
  | @negateFloat x c h =>
      refine .ofOption_bind hd fun v hx => ?_
      obtain rfl := holds.float h hx
      exact .pure (.float c.neg)
  | @arithInt op x y m n hm hn =>
      refine .ofOption_bind hd fun v hx => .ofOption_bind hd fun w hy => ?_
      obtain rfl := holds.int hm hx
      obtain rfl := holds.int hn hy
      exact .pure (.int (op.apply m n))
  | @arithFloat op x y a b ha hb =>
      refine .ofOption_bind hd fun v hx => .ofOption_bind hd fun w hy => ?_
      obtain rfl := holds.float ha hx
      obtain rfl := holds.float hb hy
      exact .pure (.float (op.apply a b))

/-- A decided test has the outcome that is known, if it has one. -/
theorem Context.Holds.decides (h : Φ.Holds env env') {test : Test} {x y : Name} {b : Bool}
    (hb : Φ.Decides test x y b) {v w : Value Closure} (hx : env.get? x = some v)
    (hy : env.get? y = some w) : v.test test w = some b := by
  rcases hb with ⟨m, n, hm, hn, eq⟩ | ⟨a, c, ha, hc, eq⟩
  · obtain rfl := h.int hm hx
    obtain rfl := h.int hn hy
    exact congrArg some eq
  · obtain rfl := h.float ha hx
    obtain rfl := h.float hc hy
    exact congrArg some eq

/-- What is known about calls, when runs with calls up to the depths `n` and `m` are
    compared: calls of related functions go together, and, if calls are expanded, so
    do a call and the body that takes its place. -/
structure CallsFollow (W : Outside) (d : Direction) (expands : Bool) (n m : Nat) : Prop where
  called : ∀ {c c' : Closure} {args args' : List (Value Closure)}, Closure.Rel c c' →
    List.Forall₂ (Value.Rel Closure.Rel) args args' →
      Follows d (call W n c args) (call W m c' args')
  expanded : expands = true → ∀ {Φ : Context} {env env' : Env} {self : Name} {formals : List Name}
    {body body' : Knf} {args : List (Value Closure)}, Improves false Φ body body' →
    Φ.Holds (Closure.enter (.mk env self formals body) args) env' →
    Follows d (call W n (.mk env self formals body) args) (body'.evalWith (call W m) env')

/-- Improved code does what the code does. -/
theorem Improves.follows (hd : d ≠ .same) {n m : Nat} {i : Bool} {e e' : Knf}
    (h : Improves i Φ e e') (calls : CallsFollow W d i n m) (holds : Φ.Holds env env') :
    Follows d (e.evalWith (call W n) env) (e'.evalWith (call W m) env') := by
  induction h generalizing env env' with
  | op h => exact h.follows hd holds
  | branch hx hy _ _ ih1 ih2 =>
      refine .bind (.ofOption (holds.carries hd hx)) fun v v' hv => ?_
      refine .bind (.ofOption (holds.carries hd hy)) fun w w' hw => ?_
      rw [hv.test _ hw]
      refine .bind (.ofOption (.refl d _)) ?_
      rintro b _ rfl
      cases b with
      | true => exact ih1 calls holds
      | false => exact ih2 calls holds
  | @decided i Φ test x y e1 e2 e' b hb _ ih =>
      refine .ofOption_bind hd fun v hx => .ofOption_bind hd fun w hy => ?_
      rw [holds.decides hb hx hy, Run.ofOption_some, Run.pure_bind]
      cases b with
      | true => exact ih calls holds
      | false => exact ih calls holds
  | @letIn i Φ x x' ty e1 e1' e2 e2' _ _ ih1 ih2 =>
      simp only [evalWith]
      by_cases known : ∃ o, e1' = .op o ∧ o.isKnown = true
      · obtain ⟨o, rfl, ho⟩ := known
        have first : Follows d _ (o.eval env'.get?) := ih1 calls holds
        change Follows d _ (o.eval env'.get? >>= fun v' => _)
        rcases Op.eval_of_isKnown (W := W) env'.get? ho with stuck | ⟨v', hv', eq⟩
        · rw [stuck] at first
          exact .bind_of_stuck hd first
        · rw [eq] at first ⊢
          refine .bind first.eq_pure ?_
          rintro v _ ⟨hv, rfl⟩
          refine ih2 calls (holds.bindTo x x' hv ?_)
          intro p hp _
          cases hp
          exact hv'
      · refine .bind (ih1 calls holds) fun v v' hv => ih2 calls (holds.bindTo x x' hv ?_)
        exact fun o ho hk => absurd ⟨o, ho, hk⟩ known
  | @copy i Φ x y ty e1 e2 e2' _ _ ih1 ih2 =>
      have first : Follows d _ (Run.ofOption (env'.get? y)) := ih1 calls holds
      cases hy : env'.get? y with
      | none =>
          rw [hy] at first
          exact .bind_of_stuck hd first
      | some w =>
          rw [hy] at first
          rw [← Run.pure_bind w fun _ => e2'.evalWith (call W m) env']
          refine .bind first.eq_pure ?_
          rintro v _ ⟨hv, rfl⟩
          exact ih2 calls (holds.replace x y hv hy)
  | @dropLet i Φ x ty e1 e2 e2' pure _ ih =>
      intro mem mem' hmem
      simp only [evalWith, Run.bind_apply]
      rcases traceless pure env mem with stuck | ⟨v, done⟩
      · rw [stuck]
        exact .free hd
      · rw [done]
        exact ih calls (holds.bindBefore x v) mem mem' hmem
  | @hoist i Φ x x' ty e1 e1' e2 e2' _ _ ih1 ih2 =>
      have first := ih1 calls holds
      rw [evalWith_eq_evalTail e1'] at first
      rw [evalWith_hoist]
      refine .bind (first.refine fun _ _ _ _ => evalTail_env) ?_
      rintro v ⟨v', tail⟩ ⟨hv, vs, length, rfl⟩
      exact ih2 calls ((holds.bindAfterEach length).bind x x' hv)
  | @letRec i Φ f f' ty formals formals' body body' rest rest' types hbody _ _ ih =>
      have length : formals.length = formals'.length := by
        simpa using congrArg List.length types
      exact ih calls (holds.define (.mk (by simpa using length) holds hbody))
  | dropRec _ ih => exact ih calls (holds.bindBefore _ _)
  | app hf hxs =>
      refine .bind (.ofOption (holds.carries hd hf)) fun v v' hv => ?_
      refine .bind (.ofOption (holds.carriesAll hd hxs)) fun args args' hargs => ?_
      refine .bind (.ofOption (.of_rel d hv.function?)) fun c c' hc => ?_
      exact calls.called hc hargs
  | @expand Φ f formals body bound xs xs' e' hf hxs hbody _ =>
      refine .ofOption_bind hd fun v hv => .ofOption_bind hd fun args hargs => ?_
      obtain ⟨outer, rfl, hbound, inner⟩ := holds.function hf hv
      have entered := (holds.only hv hbound inner).replaceEach formals (holds.values hxs hargs)
      rw [Value.function?, Run.ofOption_some, Run.pure_bind]
      exact calls.expanded rfl hbody entered
  | @letTuple i Φ pattern pattern' y y' e e' types hy _ ih =>
      have length : pattern.length = pattern'.length := by
        simpa using congrArg List.length types
      refine .bind (.ofOption (holds.carries hd hy)) fun v v' hv => ?_
      refine .bind (.ofOption (.of_rel d hv.components?)) fun vs vs' hvs => ?_
      rw [← hvs.length_eq, ← length]
      split
      case isTrue full =>
          exact ih calls (holds.bindEach (by simpa using length) hvs (by simpa using full))
      case isFalse => exact .stuck
  | @split i Φ pattern y zs e e' length hy free _ ih =>
      refine .ofOption_bind hd fun v hv => ?_
      obtain ⟨v', hv', rel⟩ := holds.means hy hv
      obtain ⟨vs', hvs', rfl⟩ := Option.map_eq_some_iff.mp hv'
      obtain ⟨vs, rfl, hvs⟩ := rel.of_tuple
      have full : vs.length = pattern.length := by
        rw [hvs.length_eq, lookAll_length hvs', length]
      have apart : ∀ b ∈ pattern, ∀ z ∈ zs, b.1 ≠ z := by
        rintro b hb z hz rfl
        obtain ⟨u, hu⟩ := Option.isSome_iff_exists.mp
          (Op.isSome_of_value? (o := .tuple zs) hv' hz)
        exact free b hb (holds.after hu)
      rw [evalWith_letEach hvs' apart, Value.components?, Run.ofOption_some, Run.pure_bind,
        if_pos full]
      exact ih calls (holds.bindEach rfl hvs (by simpa using full))
  | @dropTuple i Φ pattern y e e' _ ih =>
      refine .ofOption_bind hd fun v _ => .ofOption_bind hd fun vs _ => ?_
      split
      case isTrue full => exact ih calls (holds.bindBeforeEach (by simpa using full))
      case isFalse => exact .free hd _
  | externApp hxs =>
      refine .bind (.ofOption (holds.carriesAll hd hxs)) fun args args' hargs => ?_
      exact .external _ hargs

/-- The bounds on the depth of calls under which a run of code and one of improved code
    are compared.  A call that is not there any more needs no depth, and between two
    expanded calls that are in progress there is one that is not expanded: a body that
    takes the place of a call has no expanded call of its own. -/
def Allows : Direction → Bool → Nat → Nat → Prop
  | .forth, _, n, m => n ≤ m
  | .back, expands, n, m => 2 * m + expands.toNat ≤ n
  | .same, _, _, _ => False

/-- Calls go together when the code in the bodies does, with bounds that are one
    smaller. -/
theorem callsFollow (hd : d ≠ .same) {i : Bool} {n m : Nat} (allows : Allows d i n m)
    (inner : ∀ n', n = n' + 1 → ∀ {i m'}, Allows d i n' m' → ∀ {Φ e e' env env'},
      Improves i Φ e e' → Φ.Holds env env' →
      Follows (W := W) d (e.evalWith (call W n') env) (e'.evalWith (call W m') env')) :
    CallsFollow W d i n m := by
  refine ⟨?_, ?_⟩
  · rintro ⟨env, f, formals, body⟩ ⟨env', f', formals', body'⟩ args args' hc hargs
    cases hc with
    | mk length holds improves =>
        cases n with
        | zero =>
            cases d with
            | forth => exact .ahead _
            | back =>
                obtain rfl : m = 0 := by simp only [Allows] at allows; omega
                exact .behind _
            | same => exact absurd rfl hd
        | succ n =>
            cases m with
            | zero =>
                cases d with
                | forth => simp only [Allows] at allows; omega
                | back => exact .behind _
                | same => exact absurd rfl hd
            | succ m =>
                have less : Allows d true n m := by
                  cases d with
                  | forth => exact Nat.le_of_succ_le_succ allows
                  | back => simp only [Allows, Bool.toNat_true] at allows ⊢; omega
                  | same => exact allows
                simp only [call, ← hargs.length_eq, ← length]
                split
                case isTrue full =>
                    refine inner n rfl less improves ?_
                    exact (holds.define (.mk length holds improves)).bindEach length hargs full
                case isFalse => exact .stuck
  · rintro rfl Φ env env' self formals body body' args improves holds
    cases n with
    | zero =>
        cases d with
        | forth => exact .ahead _
        | back => simp only [Allows, Bool.toNat_true] at allows; omega
        | same => exact absurd rfl hd
    | succ n =>
        have less : Allows d false n m := by
          cases d with
          | forth => exact Nat.le_of_succ_le allows
          | back => simp only [Allows, Bool.toNat_true, Bool.toNat_false] at allows ⊢; omega
          | same => exact allows
        simp only [call]
        split
        case isTrue => exact inner n rfl less improves holds
        case isFalse => exact .free hd _

theorem Improves.follows_of_allows (hd : d ≠ .same) {n m : Nat} {i : Bool} {e e' : Knf}
    (allows : Allows d i n m) (h : Improves i Φ e e') (holds : Φ.Holds env env') :
    Follows (W := W) d (e.evalWith (call W n) env) (e'.evalWith (call W m) env') := by
  induction n generalizing m i Φ e e' env env' with
  | zero => exact h.follows hd (callsFollow hd allows nofun) holds
  | succ n ih =>
      refine h.follows hd (callsFollow hd allows ?_) holds
      intro n' eq i m' less Φ e e' env env' improves inside
      obtain rfl := Nat.succ.inj eq
      exact ih less improves inside

/-- Improved code refines the code it comes from, where the context holds. -/
theorem Improves.refinesIn {e e' : Knf} (h : Improves true Φ e e') (holds : Φ.Holds env env')
    {m m' : Memory W Closure} (memory : Memory.Rel Closure.Rel m m') :
    (e.runsIn W env m).Refines (e'.runsIn W env' m') := by
  refine .of_sim (R := Closure.Rel) ?_ ?_
  · intro n
    refine ⟨n, ?_⟩
    have allows : Allows .forth true n n := Nat.le_refl n
    have follows : Follows (W := W) .forth _ _ := h.follows_of_allows (by decide) allows holds
    exact follows _ _ memory
  · intro n
    refine ⟨2 * n + 1, ?_⟩
    have allows : Allows .back true (2 * n + 1) n := Nat.le_refl _
    have follows : Follows (W := W) .back _ _ := h.follows_of_allows (by decide) allows holds
    exact follows _ _ memory

/-- Improved programs refine the programs they come from. -/
theorem Improves.refines {e e' : Knf} (h : Improves true .start e e') (W : Outside) :
    (e.runs W).Refines (e'.runs W) :=
  h.refinesIn .start (Memory.rel_start W _)

end

end Knf

end MiddleEnd
