import Mathlib
import MiddleEnd.Proofs.Knf.Operands
import MiddleEnd.Proofs.Term.Induction

/-! # Lowering preserves behaviour

Each way to put steps of lowering together, for operations, tests and binders,
implements the evaluation that is put together likewise.  So the code of a term
does what the term does, as far as calls of the functions in it do; and these do,
by induction on the depth of calls.
-/

namespace MiddleEnd

/-- Go on by a truth value, which has to exist. -/
def Run.choose {W : Outside} {F α : Type} (b : Option Bool) (yes no : Run W F α) : Run W F α :=
  match b with
  | some true => yes
  | some false => no
  | none => Run.stuck

namespace Run

variable {W : Outside} {F G α β : Type} {b : Option Bool} {d : Direction} {R : F → G → Prop}
  {S : α → β → Prop}

theorem ofOption_bind_eq_choose (b : Option Bool) (f : Bool → Run W F α) :
    (ofOption b >>= f) = choose b (f true) (f false) := by
  cases b with
  | none => rfl
  | some b => cases b <;> rfl

theorem choose_not (b : Option Bool) (yes no : Run W F α) :
    choose (b.map not) yes no = choose b no yes := by
  cases b with
  | none => rfl
  | some b => cases b <;> rfl

theorem Sim.choose {yes no : Run W F α} {yes' no' : Run W G β} (b : Option Bool)
    (hyes : Sim d R S yes yes') (hno : Sim d R S no no') :
    Sim d R S (Run.choose b yes no) (Run.choose b yes' no') := by
  cases b with
  | none => exact .stuck
  | some b =>
      cases b with
      | true => exact hyes
      | false => exact hno

end Run

namespace Value

theorem truth?_ofBool {F : Type} (b : Bool) : (ofBool b : Value F).truth? = some b := by
  cases b <;> rfl

/-- A truth value is false if it is equal to zero. -/
theorem test_zero {F : Type} (v : Value F) : v.test .eq (.int 0) = v.truth?.map not := by
  cases v with
  | int n => simp [test, truth?, Test.ints, bne]
  | _ => rfl

theorem Rel.truth? {F G : Type} {R : F → G → Prop} {v : Value F} {w : Value G} (h : Rel R v w) :
    v.truth? = w.truth? := by
  cases h <;> rfl

theorem Rel.compare {F G : Type} {R : F → G → Prop} {v u : Value F} {w x : Value G}
    (op : Comparison) (h : Rel R v w) (h' : Rel R u x) : v.compare op u = w.compare op x := by
  cases op <;> simp only [Value.compare, h.test _ h', h'.test _ h]

end Value

namespace Lowering

section
variable {externals : Signature} {W : Outside} {scope : Scope Mono}
  {call : Knf.Closure → List (Value Knf.Closure) → Run W Knf.Closure (Value Knf.Closure)}

/-! ## Operations -/

theorem Implements.constant {o : Op} {ty : Mono} {v : Value Typed.Closure}
    {w : Value Knf.Closure} (rel : Value.Rel (Lowers externals) v w) (notName : ∀ x, o ≠ .var x)
    (eval : ∀ look, (o.eval look : Run W Knf.Closure (Value Knf.Closure)) = pure w) :
    Implements externals call scope (return (.op o, ty)) (fun _ => return v) := by
  constructor
  · intro c k ty c' given
    obtain ⟨-, rfl⟩ := Gives.of_pure given
    exact ⟨0, Nat.zero_le _, (Supply.skip_zero _).symm⟩
  · intro c x ty c' given
    obtain ⟨eq, -⟩ := Gives.of_pure given
    cases eq
    exact absurd rfl (notName x)
  · intro c k ty c' given _ env env' _
    obtain ⟨eq, -⟩ := Gives.of_pure given
    cases eq
    rw [Knf.evalWith, eval]
    exact .pure rel

theorem Implements.truth (b : Bool) :
    Implements externals call scope (truth b) (fun _ => return .ofBool b) :=
  .constant (.int _) nofun fun _ => rfl

/-- Code that was made without names of its own finishes a step. -/
theorem Finishes.of_leaf {c : Supply} {xs : List Name} {body : Knf}
    {rest : List (Value Typed.Closure) → Run W Typed.Closure (Value Typed.Closure)}
    (notName : ∀ x, body ≠ .op (.var x))
    (runsAs : ∀ {after vs ws}, List.Forall₂ (fun x w => after.get? x = some w) xs ws →
      List.Forall₂ (Value.Rel (Lowers externals)) vs ws →
        RunsAs externals (rest vs) (body.evalWith call after)) :
    Finishes externals call scope c c xs body (fun _ => rest) := by
  refine ⟨⟨0, Nat.zero_le _, (Supply.skip_zero c).symm⟩, notName, ?_⟩
  intro _ _ env after vs ws _ found rels
  exact runsAs (forall₂_of_lookAll found) rels

theorem Finishes.externApp {c : Supply} {xs : List Name} {f : Name} :
    Finishes externals call scope c c xs (.externApp f xs) (fun _ => Run.external f) := by
  refine ⟨⟨0, Nat.zero_le _, (Supply.skip_zero c).symm⟩, nofun, ?_⟩
  intro _ _ env after vs ws _ found rels
  rw [Knf.evalWith, found, Run.ofOption_some, Run.pure_bind]
  exact .external f rels

/-- Go on with the first of several values. -/
def withFirst {F : Type} (go : Value F → List (Value F) → Run W F (Value F)) :
    List (Value F) → Run W F (Value F)
  | v :: vs => go v vs
  | [] => Run.stuck

variable {left right : Lower Lowered} {l r : Meaning W}

theorem Implements.negate (h : Implements externals call scope left l) (op : Negation)
    (ty : Mono) :
    Implements externals call scope (unary left (.negate op) ty)
      (fun env => do
        let v ← l env
        Run.ofOption (v.negate op)) := by
  refine .of_operands (fun _ => withFirst fun v _ => Run.ofOption (v.negate op))
    (.cons h .nil) ?_ ?_
  · intro env _ _
    simp only [List.map, sequence, withFirst, Run.bind_assoc, Run.pure_bind]
  · intro c k ty c' given
    obtain ⟨x, p, first, rfl, -⟩ := given.of_unary
    refine ⟨[x], p, _, _, first, rfl, .of_leaf (by simp) ?_⟩
    rintro after vs ws (_ | ⟨hx, _ | _⟩) (_ | ⟨rel, _ | _⟩)
    rw [Knf.evalWith, Op.eval, hx, Run.ofOption_some, Run.pure_bind]
    exact .ofOption (.of_rel _ (rel.negate op))

theorem Implements.arith (hl : Implements externals call scope left l)
    (hr : Implements externals call scope right r) (op : Arith) (ty : Mono) :
    Implements externals call scope (binary left right (.arith op) ty)
      (fun env => do
        let v ← l env
        let w ← r env
        Run.ofOption (v.arith op w)) := by
  refine .of_operands (fun _ => withFirst fun v => withFirst fun w _ =>
    Run.ofOption (v.arith op w)) (.cons hl (.cons hr .nil)) ?_ ?_
  · intro env _ _
    simp only [List.map, sequence, withFirst, Run.bind_assoc, Run.pure_bind]
  · intro c k ty c' given
    obtain ⟨x, y, p, first, rfl, -⟩ := given.of_binary
    refine ⟨[x, y], p, _, _, first, rfl, .of_leaf (by simp) ?_⟩
    rintro after vs ws (_ | ⟨hx, _ | ⟨hy, _ | _⟩⟩) (_ | ⟨rel, _ | ⟨rel', _ | _⟩⟩)
    simp only [Knf.evalWith, Op.eval, hx, hy, Run.ofOption_some, Run.pure_bind]
    exact .ofOption (.of_rel _ (rel.arith op rel'))

theorem Implements.get (hl : Implements externals call scope left l)
    (hr : Implements externals call scope right r) (ty : Mono) :
    Implements externals call scope (binary left right .get ty)
      (fun env => do
        let v ← l env
        let w ← r env
        let place ← Run.ofOption (v.place? w)
        Run.load place) := by
  refine .of_operands (fun _ => withFirst fun v => withFirst fun w _ =>
    Run.ofOption (v.place? w) >>= Run.load) (.cons hl (.cons hr .nil)) ?_ ?_
  · intro env _ _
    simp only [List.map, sequence, withFirst, Run.bind_assoc, Run.pure_bind]
  · intro c k ty c' given
    obtain ⟨x, y, p, first, rfl, -⟩ := given.of_binary
    refine ⟨[x, y], p, _, _, first, rfl, .of_leaf (by simp) ?_⟩
    rintro after vs ws (_ | ⟨hx, _ | ⟨hy, _ | _⟩⟩) (_ | ⟨rel, _ | ⟨rel', _ | _⟩⟩)
    simp only [withFirst, Knf.evalWith, Op.eval, hx, hy, Run.ofOption_some, Run.pure_bind,
      rel.place? rel']
    exact .bind (.ofOption (.refl _ _)) fun a b eq => eq ▸ .load a

/-! ## Tests -/

theorem evalWith_branch {test : Test} {x y : Name} {e1 e2 : Knf} {env : Knf.Env}
    {v w : Value Knf.Closure} (hx : env.get? x = some v) (hy : env.get? y = some w) :
    (Knf.branch test x y e1 e2).evalWith call env =
      Run.choose (v.test test w) (e1.evalWith call env) (e2.evalWith call env) := by
  simp only [Knf.evalWith, hx, hy, Run.ofOption_some, Run.pure_bind]
  cases v.test test w with
  | none => rfl
  | some b => cases b <;> rfl

theorem evalWith_comparison {op : Comparison} {x y : Name} {yes no : Knf} {env : Knf.Env}
    {v w : Value Knf.Closure} (hx : env.get? x = some v) (hy : env.get? y = some w) :
    (comparison op x y yes no).evalWith call env =
      Run.choose (v.compare op w) (yes.evalWith call env) (no.evalWith call env) := by
  cases op <;>
    simp only [comparison, evalWith_branch hx hy, evalWith_branch hy hx, Value.compare,
      Run.choose_not]

theorem length_binders_comparison (op : Comparison) (x y : Name) (yes no : Knf) :
    (comparison op x y yes no).binders.length = yes.binders.length + no.binders.length := by
  cases op <;> simp [comparison, Knf.binders, Nat.add_comm]

theorem comparison_ne_op (op : Comparison) (x y : Name) (yes no : Knf) (o : Op) :
    comparison op x y yes no ≠ .op o := by
  cases op <;> nofun

section
variable {yes no : Lower Lowered} {y n : Meaning W}

theorem Implements.compareThen (hl : Implements externals call scope left l)
    (hr : Implements externals call scope right r) (hy : Implements externals call scope yes y)
    (hn : Implements externals call scope no n) (op : Comparison) :
    Implements externals call scope (compareThen op left right yes no)
      (fun env => do
        let v ← l env
        let w ← r env
        Run.choose (v.compare op w) (y env) (n env)) := by
  refine .of_operands (fun env => withFirst fun v => withFirst fun w _ =>
    Run.choose (v.compare op w) (y env) (n env)) (.cons hl (.cons hr .nil)) ?_ ?_
  · intro env _ _
    simp only [List.map, sequence, withFirst, Run.bind_assoc, Run.pure_bind]
  · intro c k ty c' given
    obtain ⟨x, z, p, c₁, yes', c₂, no', ty₂, first, second, third, rfl⟩ := given.of_compareThen
    refine ⟨[x, z], p, _, _, first, rfl, ?_, ?_, ?_⟩
    · obtain ⟨i, fewYes, rfl⟩ := hy.supply second
      obtain ⟨j, fewNo, rfl⟩ := hn.supply third
      refine ⟨i + j, ?_, Supply.skip_skip ..⟩
      rw [length_binders_comparison]
      omega
    · intro a
      exact comparison_ne_op op x z yes' no' (.var a)
    · intro few _ env after vs ws holds found rels
      rw [length_binders_comparison] at few
      rcases forall₂_of_lookAll found with _ | ⟨hx, _ | ⟨hz, _ | _⟩⟩
      rcases rels with _ | ⟨rel, _ | ⟨rel', _ | _⟩⟩
      rw [evalWith_comparison hx hz]
      simp only [withFirst, rel.compare op rel']
      exact .choose _ (hy.runsAs second (by omega) holds) (hn.runsAs third (by omega) holds)

theorem Implements.testThen (hl : Implements externals call scope left l)
    (hy : Implements externals call scope yes y) (hn : Implements externals call scope no n) :
    Implements externals call scope (testThen left yes no)
      (fun env => do
        let v ← l env
        Run.choose v.truth? (y env) (n env)) := by
  refine .of_operands (fun env => withFirst fun v _ => Run.choose v.truth? (y env) (n env))
    (.cons hl .nil) ?_ ?_
  · intro env _ _
    simp only [List.map, sequence, withFirst, Run.bind_assoc, Run.pure_bind]
  · intro c k ty c' given
    obtain ⟨x, p, c₁, yes', c₂, no', ty₂, c₃, first, second, third, rfl, rfl⟩ := given.of_testThen
    obtain ⟨i, fewYes, rfl⟩ := hy.supply second
    obtain ⟨j, fewNo, rfl⟩ := hn.supply third
    rw [Supply.skip_skip, Supply.skip_skip] at *
    generalize hz : (c₁.skip (i + j)).temp .bool = z
    have size : (Knf.letIn z .bool (.op (.int 0)) (.branch .eq x z no' yes')).binders.length =
        1 + no'.binders.length + yes'.binders.length := by
      simp [Knf.binders]
      omega
    refine ⟨[x], p, _, _, first, rfl, ?_, by simp, ?_⟩
    · exact ⟨i + j + 1, by omega, rfl⟩
    · intro few others env after vs ws holds found rels
      rcases forall₂_of_lookAll found with _ | ⟨hx, _ | _⟩
      rcases rels with _ | ⟨rel, _ | _⟩
      have ne : x ≠ z := by
        rintro rfl
        exact others x (List.mem_cons_self ..) ⟨i + j, .bool, by omega, hz.symm⟩
      have holds' := holds.bindTemp (hz ▸ Supply.isTemporary_temp _ _) (.int 0)
      have zero : (after.bind z (Value.int 0)).get? z = some (.int 0) := by
        rw [Scope.get?_bind, if_pos rfl]
      have kept : (after.bind z (Value.int 0)).get? x = after.get? x := by
        rw [Scope.get?_bind, if_neg ne]
      rw [← kept] at hx
      rw [Knf.evalWith, Knf.evalWith, Op.eval, Run.pure_bind, evalWith_branch hx zero,
        Value.test_zero, Run.choose_not, ← rel.truth?]
      exact .choose _ (hy.runsAs second (by omega) holds') (hn.runsAs third (by omega) holds')

end

/-! ## Terms -/

variable {callee : Typed.Closure → List (Value Typed.Closure) →
  Run W Typed.Closure (Value Typed.Closure)}

theorem evalList_eq (env : Typed.Env) (es : List Typed) :
    Typed.evalList callee env es = sequence (es.map fun e => Typed.evalWith callee env e) := by
  induction es with
  | nil => rfl
  | cons e es ih => rw [Typed.evalList, List.map_cons, sequence, ih]

theorem Implements.var (ty : Ty) (x : Name) :
    Implements externals call scope (lower externals scope (.var ty x))
      (fun env => Typed.evalWith callee env (.var ty x)) := by
  constructor
  · intro c k ty c' given
    exact ⟨0, Nat.zero_le _, by rw [given.of_var.1, Supply.skip_zero]⟩
  · intro c y ty c' given
    rcases given.of_var.2 with ⟨bound, eq⟩ | ⟨-, eq⟩
    · cases eq
      exact bound
    · cases eq
  · intro c k ty c' given _ env env' holds
    rcases given.of_var.2 with ⟨bound, rfl⟩ | ⟨unbound, rfl⟩
    · obtain ⟨v, w, hv, hw, rel⟩ := holds.values bound
      rw [Typed.evalWith_var_of_bound callee hv, Knf.evalWith, Op.eval, hw]
      exact .pure rel
    · rw [holds.covers, Option.isSome_eq_false_iff, Option.isNone_iff_eq_none] at unbound
      rw [Typed.evalWith_var_of_unbound callee unbound, Knf.evalWith, Op.eval]
      exact .bind (.ofOption (.refl _ _)) fun a b eq => .pure (eq ▸ .array a)

/-- Calls of functions in the code do what calls of them in the term do. -/
def CallsRunAs (externals : Signature)
    (callee : Typed.Closure → List (Value Typed.Closure) →
      Run W Typed.Closure (Value Typed.Closure))
    (call : Knf.Closure → List (Value Knf.Closure) → Run W Knf.Closure (Value Knf.Closure)) :
    Prop :=
  ∀ f g vs ws, Lowers externals f g → List.Forall₂ (Value.Rel (Lowers externals)) vs ws →
    RunsAs externals (callee f vs) (call g ws)

/-- The code of the term does what the term does, in every scope. -/
abbrev Faithful (externals : Signature)
    (callee : Typed.Closure → List (Value Typed.Closure) →
      Run W Typed.Closure (Value Typed.Closure))
    (call : Knf.Closure → List (Value Knf.Closure) → Run W Knf.Closure (Value Knf.Closure))
    (e : Typed) : Prop :=
  ∀ scope, Implements externals call scope (lower externals scope e)
    (fun env => Typed.evalWith callee env e)

variable {e e1 e2 : Typed}

/-- A step made of two others, with a number of draws between them. -/
theorem Implements.of_two {scope scope₁ scope₂ : Scope Mono} {first second step : Lower Lowered}
    {l r term : Meaning W} (h1 : Implements externals call scope₁ first l)
    (h2 : Implements externals call scope₂ second r)
    (gives : ∀ {c k ty c'}, Gives step c (k, ty) c' → ∃ k1 ty1 c₁ d k2,
      Gives first c (k1, ty1) c₁ ∧ Gives second (c₁.skip d) (k2, ty) c' ∧
      k1.binders.length + d + k2.binders.length ≤ k.binders.length ∧
      (∀ x, k ≠ .op (.var x)) ∧
      (k1.binders.length ≤ 2 ^ 32 → k2.binders.length ≤ 2 ^ 32 → ∀ {env env'},
        Holds externals scope env env' → RunsAs externals (term env) (k.evalWith call env'))) :
    Implements externals call scope step term := by
  constructor
  · intro c k ty c' given
    obtain ⟨k1, ty1, c₁, d, k2, one, two, size, -, -⟩ := gives given
    obtain ⟨m, few, rfl⟩ := h1.supply one
    obtain ⟨n, few', rfl⟩ := h2.supply two
    exact ⟨m + (d + n), by omega, by rw [Supply.skip_skip, Supply.skip_skip]⟩
  · intro c x ty c' given
    obtain ⟨k1, ty1, c₁, d, k2, -, -, -, notName, -⟩ := gives given
    exact absurd rfl (notName x)
  · intro c k ty c' given few env env' holds
    obtain ⟨k1, ty1, c₁, d, k2, one, two, size, -, runs⟩ := gives given
    exact runs (by omega) (by omega) holds

theorem Faithful.letIn {x : Name} (h1 : Faithful externals callee call e1)
    (h2 : Faithful externals callee call e2) (plain : x.isTemporary = false) (note ty : Ty) :
    Faithful externals callee call (.letIn note (x, ty) e1 e2) := by
  intro scope
  refine .of_two (h1 scope) (h2 (scope.bind x ty.mono)) ?_
  intro c k ty' c' given
  obtain ⟨k1, ty1, c₁, k2, first, second, rfl⟩ := given.of_letIn
  refine ⟨k1, ty1, c₁, 0, k2, first, by rwa [Supply.skip_zero], ?_, by simp, ?_⟩
  · simp [Knf.binders]
  · intro few1 few2 env env' holds
    rw [Typed.evalWith, Knf.evalWith]
    refine .bind ((h1 scope).runsAs first few1 holds) ?_
    intro v w rel
    exact (h2 _).runsAs second few2 (holds.bind plain _ rel)

theorem Faithful.seq (h1 : Faithful externals callee call e1)
    (h2 : Faithful externals callee call e2) (note : Ty) :
    Faithful externals callee call (.seq note e1 e2) := by
  intro scope
  refine .of_two (h1 scope) (h2 scope) ?_
  intro c k ty' c' given
  obtain ⟨k1, ty1, c₁, k2, first, second, rfl⟩ := given.of_seq
  refine ⟨k1, ty1, c₁, 1, k2, first, second, ?_, by simp, ?_⟩
  · simp only [Knf.binders, List.length_cons, List.length_append]
    omega
  · intro few1 few2 env env' holds
    rw [Typed.evalWith, Knf.evalWith]
    refine .bind ((h1 scope).runsAs first few1 holds) ?_
    intro v w rel
    exact (h2 _).runsAs second few2 (holds.bindTemp (Supply.isTemporary_temp _ _) w)

theorem Faithful.letRec {f : Name} {formals : List (Name × Ty)} {body rest : Typed}
    (hbody : Faithful externals callee call body) (hrest : Faithful externals callee call rest)
    (plain : ∀ x ∈ f :: (formals.map (·.1) ++ Typed.boundNames body), x.isTemporary = false)
    (note ty : Ty) : Faithful externals callee call (.letRec note (f, ty) formals body rest) := by
  intro scope
  refine .of_two (hbody ((scope.bind f ty.mono).bindAll (binders formals)))
    (hrest (scope.bind f ty.mono)) ?_
  intro c k ty' c' given
  obtain ⟨k1, ty1, c₁, k2, first, second, rfl⟩ := given.of_letRec
  refine ⟨k1, ty1, c₁, 0, k2, first, by rwa [Supply.skip_zero], ?_, by simp, ?_⟩
  · simp only [Knf.binders, List.length_cons, List.length_append]
    omega
  · intro few1 few2 env env' holds
    have names := binders_names formals
    rw [Typed.evalWith, Knf.evalWith, names]
    have related := Lowers.mk holds first few1 plain
    exact (hrest _).runsAs second few2
      (holds.bind (plain f (List.mem_cons_self ..)) _ (.fn related))

theorem Faithful.letTuple {pattern : List (Name × Ty)} (h1 : Faithful externals callee call e1)
    (h2 : Faithful externals callee call e2)
    (plain : ∀ x ∈ pattern.map (·.1), x.isTemporary = false) (note : Ty) :
    Faithful externals callee call (.letTuple note pattern e1 e2) := by
  intro scope
  have names := binders_names pattern
  refine .of_operands (fun env => withFirst fun v _ => do
    let us ← Run.ofOption v.components?
    if us.length = pattern.length then
      Typed.evalWith callee (env.bindEach ((pattern.map (·.1)).zip us)) e2
    else Run.stuck) (.cons (h1 scope) .nil) ?_ ?_
  · intro env _ _
    simp only [Typed.evalWith, List.map, sequence, withFirst, Run.bind_assoc, Run.pure_bind]
  · intro c k ty c' given
    obtain ⟨y, p, c₁, k2, first, second, rfl⟩ := given.of_letTuple
    have size : k2.binders.length ≤ (Knf.letTuple (binders pattern) y k2).binders.length := by
      simp [Knf.binders]
    refine ⟨[y], p, _, _, first, rfl, ?_, by simp, ?_⟩
    · obtain ⟨n, few, rfl⟩ := (h2 _).supply second
      exact ⟨n, by omega, rfl⟩
    · intro few _ env after vs ws holds found rels
      rcases forall₂_of_lookAll found with _ | ⟨hy, _ | _⟩
      rcases rels with _ | ⟨rel, _ | _⟩
      rw [Knf.evalWith, hy, Run.ofOption_some, Run.pure_bind, names]
      refine .bind (.ofOption rel.components?) ?_
      intro us us' rels
      rw [← rels.length_eq, show (binders pattern).length = pattern.length from List.length_map ..]
      split
      · rename_i full
        exact (h2 _).runsAs second (by omega) (holds.bindEach plain rels full)
      · exact .stuck

theorem Faithful.list {es : List Typed} (h : ∀ e ∈ es, Faithful externals callee call e)
    (scope : Scope Mono) :
    List.Forall₂ (Implements externals call scope) (es.map (lower externals scope))
      (es.map fun e env => Typed.evalWith callee env e) := by
  rw [List.forall₂_map_left_iff, List.forall₂_map_right_iff]
  exact List.forall₂_same.mpr fun e he => h e he scope

theorem Faithful.tuple {es : List Typed} (h : ∀ e ∈ es, Faithful externals callee call e)
    (ty : Ty) : Faithful externals callee call (.tuple ty es) := by
  intro scope
  refine .of_operands (fun _ vs => pure (.tuple vs)) (Faithful.list h scope) ?_ ?_
  · intro env _ _
    rw [Typed.evalWith, evalList_eq, List.map_map]
    rfl
  · intro c k ty' c' given
    obtain ⟨xs, p, first, rfl, -⟩ := given.of_tuple
    refine ⟨xs, p, _, _, first, rfl, ⟨0, Nat.zero_le _, (Supply.skip_zero _).symm⟩, by simp, ?_⟩
    intro _ _ env after vs ws _ found rels
    rw [Knf.evalWith, Op.eval, found, Run.ofOption_some, Run.pure_bind]
    exact .pure (.tuple rels)

theorem Faithful.array (h1 : Faithful externals callee call e1)
    (h2 : Faithful externals callee call e2) (ty : Ty) :
    Faithful externals callee call (.array ty e1 e2) := by
  intro scope
  refine .of_operands (fun _ => Run.external (createArray e2.note))
    (.cons (h1 scope) (.cons (h2 scope) .nil)) ?_ ?_
  · intro env _ _
    simp only [Typed.evalWith, List.map, sequence, Run.bind_assoc, Run.pure_bind]
  · intro c k ty' c' given
    obtain ⟨x, y, p, first, rfl, -⟩ := given.of_array
    exact ⟨[x, y], p, _, _, first, rfl, .externApp⟩

theorem Faithful.put {e3 : Typed} (h1 : Faithful externals callee call e1)
    (h2 : Faithful externals callee call e2) (h3 : Faithful externals callee call e3) (ty : Ty) :
    Faithful externals callee call (.put ty e1 e2 e3) := by
  intro scope
  refine .of_operands (fun _ => withFirst fun v => withFirst fun w => withFirst fun u _ =>
    Run.ofOption (v.place? w) >>= fun place => Run.store place u)
    (.cons (h1 scope) (.cons (h2 scope) (.cons (h3 scope) .nil))) ?_ ?_
  · intro env _ _
    simp only [Typed.evalWith, List.map, sequence, withFirst, Run.bind_assoc, Run.pure_bind]
  · intro c k ty' c' given
    obtain ⟨x, y, z, p, first, rfl, -⟩ := given.of_put
    refine ⟨[x, y, z], p, _, _, first, rfl, .of_leaf (by simp) ?_⟩
    rintro after vs ws (_ | ⟨hx, _ | ⟨hy, _ | ⟨hz, _ | _⟩⟩⟩)
      (_ | ⟨rel, _ | ⟨rel', _ | ⟨rel'', _ | _⟩⟩⟩)
    simp only [withFirst, Knf.evalWith, Op.eval, hx, hy, hz, Run.ofOption_some, Run.pure_bind,
      rel.place? rel']
    exact .bind (.ofOption (.refl _ _)) fun a b eq => eq ▸ .store a rel''

/-- A callee is taken for an external function on both sides or on none. -/
theorem externalCallee_eq {e : Typed} {f : Option Name}
    (h : externalCallee externals scope e = .ok f) {env : Typed.Env} {env' : Knf.Env}
    (holds : Holds externals scope env env') : Typed.externalCallee? env e = f := by
  cases e
  case var ty x =>
    rw [Typed.externalCallee?, ← holds.covers]
    rw [externalCallee] at h
    split at h
    · rename_i bound
      cases h
      rw [if_pos bound]
    · rename_i unbound
      split at h
      · cases h
        rw [if_neg unbound]
      · cases h
  all_goals
    cases h
    rfl

theorem Faithful.app {es : List Typed} (he : Faithful externals callee call e)
    (h : ∀ e ∈ es, Faithful externals callee call e)
    (calls : CallsRunAs externals callee call) (ty : Ty) :
    Faithful externals callee call (.app ty e es) := by
  intro scope
  cases found : externalCallee externals scope e with
  | error err =>
      have fails {c k ty' c'} : ¬ Gives (lower externals scope (.app ty e es)) c (k, ty') c' := by
        intro given
        obtain ⟨f, right⟩ := given.externalCallee_of_app
        cases found.symm.trans right
      exact ⟨fun given => absurd given fails, fun given => absurd given fails,
        fun given => absurd given fails⟩
  | ok f =>
      cases f with
      | some f =>
          refine .of_operands (fun _ => Run.external f) (Faithful.list h scope) ?_ ?_
          · intro env env' holds
            simp only [Typed.evalWith, externalCallee_eq found holds, evalList_eq, List.map_map]
            rfl
          · intro c k ty' c' given
            obtain ⟨xs, p, first, rfl, -⟩ := given.of_app_external found
            exact ⟨xs, p, _, _, first, rfl, .externApp⟩
      | none =>
          refine .of_operands (fun _ => withFirst fun v vs =>
            Run.ofOption v.function? >>= fun f => callee f vs)
            (.cons (he scope) (Faithful.list h scope)) ?_ ?_
          · intro env env' holds
            simp only [Typed.evalWith, externalCallee_eq found holds, evalList_eq, List.map_cons,
              List.map_map, sequence, withFirst, Run.bind_assoc, Run.pure_bind]
            rfl
          · intro c k ty' c' given
            obtain ⟨x, xs, p, first, rfl, -⟩ := given.of_app_function found
            refine ⟨x :: xs, p, _, _, first, rfl, ⟨0, Nat.zero_le _, (Supply.skip_zero _).symm⟩,
              by simp, ?_⟩
            intro _ _ env after vs ws _ looked rels
            rw [lookAll] at looked
            split at looked
            · rename_i w ws' hw hws
              cases looked
              rcases rels with _ | ⟨rel, rels⟩
              simp only [Knf.evalWith, hw, hws, Run.ofOption_some, Run.pure_bind]
              exact .bind (.ofOption rel.function?) fun f g related => calls f g _ _ related rels
            · cases looked

/-- A choice by the term implements a choice by its value. -/
abbrev Chosen (externals : Signature)
    (callee : Typed.Closure → List (Value Typed.Closure) →
      Run W Typed.Closure (Value Typed.Closure))
    (call : Knf.Closure → List (Value Knf.Closure) → Run W Knf.Closure (Value Knf.Closure))
    (e : Typed) : Prop :=
  ∀ ⦃scope yes no y n⦄, Implements externals call scope yes y →
    Implements externals call scope no n →
      Implements externals call scope (branch externals scope e (lower externals scope e) yes no)
        (fun env => do
          let v ← Typed.evalWith callee env e
          Run.choose v.truth? (y env) (n env))

/-- A term whose value is tested where it is a condition. -/
def isTested : Typed → Bool
  | .not .. | .compare .. => false
  | _ => true

theorem branch_eq_testThen (h : isTested e = true) (value yes no : Lower Lowered) :
    branch externals scope e value yes no = testThen value yes no := by
  cases e
  case not | compare => cases h
  all_goals simp only [branch]

theorem Faithful.and_chosen (h : Faithful externals callee call e) (tested : isTested e = true) :
    Faithful externals callee call e ∧ Chosen externals callee call e := by
  refine ⟨h, ?_⟩
  intro scope yes no y n hy hn
  rw [branch_eq_testThen tested]
  exact (h scope).testThen hy hn

theorem Chosen.not (h : Chosen externals callee call e) (ty : Ty) :
    Chosen externals callee call (.not ty e) := by
  intro scope yes no y n hy hn
  simp only [Typed.evalWith, Run.bind_assoc, Run.pure_bind, Value.truth?_ofBool]
  simp only [branch, Run.ofOption_bind_eq_choose]
  exact h hn hy

theorem Chosen.compare (h1 : Faithful externals callee call e1)
    (h2 : Faithful externals callee call e2) (ty : Ty) (op : Comparison) :
    Chosen externals callee call (.compare ty op e1 e2) := by
  intro scope yes no y n hy hn
  simp only [Typed.evalWith, Run.bind_assoc, Run.pure_bind, Value.truth?_ofBool]
  simp only [branch, Run.ofOption_bind_eq_choose]
  exact (h1 scope).compareThen (h2 scope) hy hn op

theorem Faithful.not (h : Chosen externals callee call e) (ty : Ty) :
    Faithful externals callee call (.not ty e) := by
  intro scope
  simp only [lower, Typed.evalWith, Run.ofOption_bind_eq_choose]
  exact h (.truth false) (.truth true)

theorem Faithful.compare (h1 : Faithful externals callee call e1)
    (h2 : Faithful externals callee call e2) (ty : Ty) (op : Comparison) :
    Faithful externals callee call (.compare ty op e1 e2) := by
  intro scope
  simp only [lower, Typed.evalWith, Run.ofOption_bind_eq_choose]
  exact (h1 scope).compareThen (h2 scope) (.truth true) (.truth false) op

theorem Faithful.ifThenElse {t : Typed} (h : Chosen externals callee call t)
    (h1 : Faithful externals callee call e1) (h2 : Faithful externals callee call e2) (ty : Ty) :
    Faithful externals callee call (.ifThenElse ty t e1 e2) := by
  intro scope
  simp only [lower, Typed.evalWith, Run.ofOption_bind_eq_choose]
  exact h (h1 scope) (h2 scope)

/-- The code of a term does what the term does, as a value and as a condition, as far as
    calls do. -/
theorem faithful_and_chosen (calls : CallsRunAs externals callee call) (e : Typed)
    (plain : ∀ x ∈ Typed.boundNames e, x.isTemporary = false) :
    Faithful externals callee call e ∧ Chosen externals callee call e := by
  induction e using Term.induct with
  | unit n =>
      refine Faithful.and_chosen ?_ rfl
      intro scope
      simp only [lower, Typed.evalWith]
      exact .constant .unit (by simp) fun _ => rfl
  | bool n b =>
      refine Faithful.and_chosen ?_ rfl
      intro scope
      simp only [lower, Typed.evalWith]
      exact .truth b
  | int n i =>
      refine Faithful.and_chosen ?_ rfl
      intro scope
      simp only [lower, Typed.evalWith]
      exact .constant (.int i) (by simp) fun _ => rfl
  | float n d =>
      refine Faithful.and_chosen ?_ rfl
      intro scope
      simp only [lower, Typed.evalWith]
      exact .constant (.float d) (by simp) fun _ => rfl
  | var ty x => exact Faithful.and_chosen (fun _ => .var ty x) rfl
  | not ty e ih =>
      rw [Typed.boundNames] at plain
      exact ⟨Faithful.not (ih plain).2 ty, Chosen.not (ih plain).2 ty⟩
  | negate n op e ih =>
      rw [Typed.boundNames] at plain
      refine Faithful.and_chosen ?_ rfl
      intro scope
      simp only [lower, Typed.evalWith]
      exact ((ih plain).1 scope).negate op op.ty.mono
  | arith n op l r ihl ihr =>
      rw [Typed.boundNames, List.forall_mem_append] at plain
      refine Faithful.and_chosen ?_ rfl
      intro scope
      simp only [lower, Typed.evalWith]
      exact ((ihl plain.1).1 scope).arith ((ihr plain.2).1 scope) op op.ty.mono
  | compare ty op l r ihl ihr =>
      rw [Typed.boundNames, List.forall_mem_append] at plain
      have hl := (ihl plain.1).1
      have hr := (ihr plain.2).1
      exact ⟨Faithful.compare hl hr ty op, Chosen.compare hl hr ty op⟩
  | ifThenElse ty c t e ihc iht ihe =>
      rw [Typed.boundNames, List.forall_mem_append, List.forall_mem_append] at plain
      obtain ⟨hc, ht, he⟩ := plain
      exact Faithful.and_chosen (Faithful.ifThenElse (ihc hc).2 (iht ht).1 (ihe he).1 ty) rfl
  | letIn ty x e1 e2 ih1 ih2 =>
      obtain ⟨x, xty⟩ := x
      rw [Typed.boundNames, List.forall_mem_cons, List.forall_mem_append] at plain
      obtain ⟨hx, h1, h2⟩ := plain
      exact Faithful.and_chosen (Faithful.letIn (ih1 h1).1 (ih2 h2).1 hx ty xty) rfl
  | letRec ty f formals body rest ihbody ihrest =>
      obtain ⟨f, fty⟩ := f
      rw [Typed.boundNames, ← List.append_assoc, ← List.cons_append,
        List.forall_mem_append] at plain
      have inner := List.forall_mem_append.mp (List.forall_mem_cons.mp plain.1).2
      have hbody := (ihbody inner.2).1
      have hrest := (ihrest plain.2).1
      exact Faithful.and_chosen (Faithful.letRec hbody hrest plain.1 ty fty) rfl
  | app ty e es ih ihs =>
      rw [Typed.forall_boundNames_app] at plain
      have args : ∀ a ∈ es, Faithful externals callee call a :=
        fun a ha => (ihs a ha (plain.2 a ha)).1
      exact Faithful.and_chosen (Faithful.app (ih plain.1).1 args calls ty) rfl
  | tuple ty es ihs =>
      rw [Typed.boundNames, Typed.forall_boundNamesList] at plain
      have elems : ∀ a ∈ es, Faithful externals callee call a :=
        fun a ha => (ihs a ha (plain a ha)).1
      exact Faithful.and_chosen (Faithful.tuple elems ty) rfl
  | letTuple ty pattern e1 e2 ih1 ih2 =>
      rw [Typed.boundNames, List.forall_mem_append, List.forall_mem_append] at plain
      obtain ⟨hxs, h1, h2⟩ := plain
      exact Faithful.and_chosen (Faithful.letTuple (ih1 h1).1 (ih2 h2).1 hxs ty) rfl
  | array ty len init ihl ihi =>
      rw [Typed.boundNames, List.forall_mem_append] at plain
      exact Faithful.and_chosen (Faithful.array (ihl plain.1).1 (ihi plain.2).1 ty) rfl
  | get ty a i iha ihi =>
      rw [Typed.boundNames, List.forall_mem_append] at plain
      refine Faithful.and_chosen ?_ rfl
      intro scope
      simp only [lower, Typed.evalWith]
      exact ((iha plain.1).1 scope).get ((ihi plain.2).1 scope) ty.mono
  | put n a i v iha ihi ihv =>
      rw [Typed.boundNames, List.forall_mem_append, List.forall_mem_append] at plain
      obtain ⟨ha, hi, hv⟩ := plain
      exact Faithful.and_chosen (Faithful.put (iha ha).1 (ihi hi).1 (ihv hv).1 n) rfl
  | seq ty e1 e2 ih1 ih2 =>
      rw [Typed.boundNames, List.forall_mem_append] at plain
      exact Faithful.and_chosen (Faithful.seq (ih1 plain.1).1 (ih2 plain.2).1 ty) rfl

/-! ## Programs -/

theorem callsRunAs (externals : Signature) (W : Outside) (depth : Nat) :
    CallsRunAs externals (Typed.call W depth) (Knf.call W depth) := by
  induction depth with
  | zero =>
      intro f g vs ws _ _
      exact .unfinished
  | succ depth ih =>
      intro f g vs ws lowers rels
      have related := lowers
      cases lowers with
      | @mk scope env env' f ty bodyTy formals body body' c c' holds gives few plain =>
          rw [Typed.call, Knf.call, ← rels.length_eq]
          split
          · rename_i full
            rw [List.forall_mem_cons, List.forall_mem_append] at plain
            refine ((faithful_and_chosen ih body plain.2.2).1 _).runsAs gives few ?_
            refine (holds.bind plain.1 ty (.fn related)).bindEach plain.2.1 rels ?_
            simpa using full
          · exact .stuck

theorem runs_matches {externals : Signature} {e : Typed} {c c' : Supply} {k : Knf} {ty : Mono}
    (lowered : Gives (program externals e) c (k, ty) c')
    (plain : ∀ x ∈ Typed.boundNames e, x.isTemporary = false) (few : k.binders.length ≤ 2 ^ 32)
    (W : Outside) : (Typed.runs W e).Matches (k.runs W) := by
  refine .of_sim (R := Lowers externals) fun depth => ?_
  have faithful := (faithful_and_chosen (callsRunAs externals W depth) e plain).1
  exact (faithful .empty).runsAs lowered few .empty _ _ (Memory.rel_start W _)

/-- The code of a program behaves like the program, whatever the world outside does: it
    ends if the program does, with the same effects, the same result and the same memory,
    and it gets stuck if the program does. -/
theorem program_preserves_behaviour (W : Outside) (externals : Signature) (e : Typed)
    (c c' : Supply) (k : Knf) (ty : Mono)
    (lowered : (program externals e).run.run c = (.ok (k, ty), c'))
    (plain : ∀ x ∈ Typed.boundNames e, x.isTemporary = false)
    (few : k.binders.length ≤ 2 ^ 32) :
    ((Typed.runs W e).Safe ↔ (k.runs W).Safe) ∧ (Typed.runs W e).SameBehaviour (k.runs W) :=
  have same := runs_matches lowered plain few W
  ⟨same.safe_iff, same.sameBehaviour⟩

/-- A program that prints a sum, with operands of every kind. -/
def printingSum : Typed :=
  .letRec .unit ("sum", .fn [.int] .int) [("n", .int)]
    (.ifThenElse .int (.not .bool (.compare .bool .lt (.var .int "n") (.int .int 1)))
      (.arith .int (.int .add) (.var .int "n")
        (.app .int (.var (.fn [.int] .int) "sum")
          [.arith .int (.int .sub) (.var .int "n") (.int .int 1)]))
      (.int .int 0))
    (.seq .unit
      (.app .unit (.var (.fn [.int] .unit) "print_int")
        [.app .int (.var (.fn [.int] .int) "sum") [.int .int 3]])
      (.unit .unit))

/-- Its code; the supply starts again from zero on the way. -/
def printingSumCode : Knf :=
  .letRec "sum" (.fn [.int] .int) [("n", .int)]
    (.letIn "Ti4294967295" .int (.op (.int 1))
      (.branch .le "Ti4294967295" "n"
        (.letIn "Ti2" .int
          (.letIn "Ti1" .int
            (.letIn "Ti0" .int (.op (.int 1)) (.op (.arith (.int .sub) "n" "Ti0")))
            (.app "sum" ["Ti1"]))
          (.op (.arith (.int .add) "n" "Ti2")))
        (.op (.int 0))))
    (.letIn "Tu5" .unit
      (.letIn "Ti4" .int (.letIn "Ti3" .int (.op (.int 3)) (.app "sum" ["Ti3"]))
        (.externApp "print_int" ["Ti4"]))
      (.op .unit))

theorem program_printingSum :
    (program [("print_int", .fn [.int] .unit)] printingSum).run.run ⟨4294967294⟩ =
      (.ok (printingSumCode, .unit), ⟨5⟩) ∧
    (∀ x ∈ Typed.boundNames printingSum, x.isTemporary = false) ∧
    printingSumCode.binders.length ≤ 2 ^ 32 ∧
    (((Typed.runs .accepting printingSum).Safe ↔ (printingSumCode.runs .accepting).Safe) ∧
      (Typed.runs .accepting printingSum).SameBehaviour (printingSumCode.runs .accepting)) :=
  ⟨rfl, by decide, by decide,
    program_preserves_behaviour .accepting [("print_int", .fn [.int] .unit)] printingSum
      ⟨4294967294⟩ ⟨5⟩ printingSumCode .unit rfl (by decide) (by decide)⟩

end

end Lowering

end MiddleEnd
