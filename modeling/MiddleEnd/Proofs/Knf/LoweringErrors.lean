import Mathlib
import MiddleEnd.Proofs.Knf.Lowering
import MiddleEnd.Proofs.Term.Occurrences
import MiddleEnd.Proofs.Typing.Soundness

/-! # When a term has no code

Lowering looks at every part of a term once, whatever order the branches of a test
come in, and only an external name can stop it.  So it fails exactly if there is an
external name whose type does not suit its use.  In a program that has types every
external name that is called is a function, which leaves the names that are used as
values.
-/

namespace MiddleEnd

/-- What is wrong with the use of an external name. -/
def Occurrence.error? (externals : Signature) (o : Occurrence) : Option LowerError :=
  match o.role, externals.find? o.name with
  | .value, some (.array _) => none
  | .value, _ => some (.notAnArray o.name)
  | .callee, some (.fn _ _) => none
  | .callee, _ => some (.notAFunction o.name)

namespace Lowering

variable {α β : Type} {externals : Signature} {os os' : List Occurrence}

/-- The step fails because of one of these occurrences, and only then. -/
structure FailsAt (externals : Signature) (os : List Occurrence) (step : Lower α) : Prop where
  error : ∀ {c err c'}, step.run.run c = (.error err, c') → ∃ o ∈ os, o.error? externals = some err
  fine : ∀ {c a c'}, Gives step c a c' → ∀ o ∈ os, o.error? externals = none

namespace FailsAt

theorem congr {step : Lower α} (h : FailsAt externals os step) (same : ∀ o, o ∈ os ↔ o ∈ os') :
    FailsAt externals os' step := by
  constructor
  · intro c err c' failed
    obtain ⟨o, mem, wrong⟩ := h.error failed
    exact ⟨o, (same o).mp mem, wrong⟩
  · intro c a c' given o mem
    exact h.fine given o ((same o).mpr mem)

theorem lift (x : StateM Supply α) : FailsAt externals [] (liftM x : Lower α) := by
  constructor
  · intro c err c' failed
    cases failed
  · exact fun _ => nofun

theorem pure (a : α) : FailsAt externals [] (Pure.pure a : Lower α) :=
  lift (Pure.pure a)

theorem throw {o : Occurrence} {err : LowerError} (mem : o ∈ os)
    (wrong : o.error? externals = some err) : FailsAt externals os (throw err : Lower α) := by
  constructor
  · intro c err' c' failed
    cases failed
    exact ⟨o, mem, wrong⟩
  · intro c a c' given
    cases given

/-- Occurrences that are right may be left out. -/
theorem skip {step : Lower α} (right : ∀ o ∈ os, o.error? externals = none)
    (h : FailsAt externals os' step) : FailsAt externals (os ++ os') step := by
  constructor
  · intro c err c' failed
    obtain ⟨o, mem, wrong⟩ := h.error failed
    exact ⟨o, List.mem_append_right _ mem, wrong⟩
  · intro c a c' given
    exact List.forall_mem_append.mpr ⟨right, h.fine given⟩

theorem bind {x : Lower α} {f : α → Lower β} (hx : FailsAt externals os x)
    (hf : ∀ a, FailsAt externals os' (f a)) : FailsAt externals (os ++ os') (x >>= f) := by
  constructor
  · intro c err c' failed
    rw [Step.run_bind_except] at failed
    split at failed
    · obtain ⟨o, mem, wrong⟩ := (hf _).error failed
      exact ⟨o, List.mem_append_right _ mem, wrong⟩
    · rename_i first
      cases failed
      obtain ⟨o, mem, wrong⟩ := hx.error first
      exact ⟨o, List.mem_append_left _ mem, wrong⟩
  · intro c b c' given
    obtain ⟨a, c₁, first, second⟩ := given.of_bind
    exact List.forall_mem_append.mpr ⟨hx.fine first, (hf a).fine second⟩

/-- What follows cannot fail. -/
theorem bind_fine {x : Lower α} {f : α → Lower β} (hx : FailsAt externals os x)
    (hf : ∀ a, FailsAt externals [] (f a)) : FailsAt externals os (x >>= f) := by
  have whole := hx.bind hf
  rwa [List.append_nil] at whole

theorem operand {step : Lower Lowered} (h : FailsAt externals os step) :
    FailsAt externals os (operand step) := by
  refine h.bind_fine ?_
  intro r
  split
  · exact .pure _
  · exact (lift _).bind_fine fun _ => .pure _

theorem operands {steps : List (Lower Lowered)} {oss : List (List Occurrence)}
    (h : List.Forall₂ (FailsAt externals) oss steps) :
    FailsAt externals oss.flatten (operands steps) := by
  induction h with
  | nil => exact .pure _
  | cons head _ ih => exact head.operand.bind fun _ => ih.bind_fine fun _ => .pure _

theorem truth (b : Bool) : FailsAt externals [] (truth b) :=
  .pure _

variable {left right yes no : Lower Lowered} {osL osR osY osN : List Occurrence}

theorem unary (h : FailsAt externals os left) (build : Name → Op) (ty : Mono) :
    FailsAt externals os (unary left build ty) :=
  h.operand.bind_fine fun _ => .pure _

theorem binary (hl : FailsAt externals osL left) (hr : FailsAt externals osR right)
    (build : Name → Name → Op) (ty : Mono) :
    FailsAt externals (osL ++ osR) (binary left right build ty) :=
  hl.operand.bind fun _ => hr.operand.bind_fine fun _ => .pure _

theorem compareThen (hl : FailsAt externals osL left) (hr : FailsAt externals osR right)
    (hy : FailsAt externals osY yes) (hn : FailsAt externals osN no) (op : Comparison) :
    FailsAt externals (osL ++ (osR ++ (osY ++ osN))) (compareThen op left right yes no) :=
  hl.operand.bind fun _ => hr.operand.bind fun _ => hy.bind fun _ => hn.bind_fine fun _ => .pure _

theorem testThen (h : FailsAt externals os left) (hy : FailsAt externals osY yes)
    (hn : FailsAt externals osN no) :
    FailsAt externals (os ++ (osY ++ osN)) (testThen left yes no) :=
  h.operand.bind fun _ => hy.bind fun _ => hn.bind_fine fun _ =>
    (lift _).bind_fine fun _ => .pure _

end FailsAt

/-! ## Terms -/

variable {scope : Scope Mono}

/-- Lowering of the term fails because of an external name in it, and only then. -/
abbrev Fails (externals : Signature) (e : Typed) : Prop :=
  ∀ scope, FailsAt externals (e.looseIn scope) (lower externals scope e)

/-- So does a choice by the term, where the choices may fail as well. -/
abbrev FailsChoosing (externals : Signature) (e : Typed) : Prop :=
  ∀ ⦃scope yes no osY osN⦄, FailsAt externals osY yes → FailsAt externals osN no →
    FailsAt externals (e.looseIn scope ++ (osY ++ osN))
      (branch externals scope e (lower externals scope e) yes no)

section
variable {e e1 e2 : Typed} {es : List Typed}

theorem Fails.list (h : ∀ a ∈ es, Fails externals a) (scope : Scope Mono) :
    FailsAt externals (es.flatMap (Term.looseIn scope)) (lowerList externals scope es) := by
  rw [lowerList_eq, List.flatMap_def]
  refine .operands (List.forall₂_map_left_iff.mpr (List.forall₂_map_right_iff.mpr ?_))
  exact List.forall₂_same.mpr fun a ha => h a ha scope

theorem Fails.var (ty : Ty) (x : Name) : Fails externals (.var ty x) := by
  intro scope
  rw [lower]
  cases found : scope.get? x with
  | some τ =>
      have bound : (Term.var ty x : Typed).looseIn scope = [] := by
        simp [Term.looseIn, Term.loose, Scope.unbound, Scope.contains, found]
      rw [bound]
      exact .pure _
  | none =>
      rw [Term.looseIn, Term.loose, scope.unbound_singleton found]
      dsimp only
      split
      · rename_i isArray
        refine .skip (List.forall_mem_singleton.mpr ?_) (.pure _)
        simp [Occurrence.error?, isArray]
      · refine .throw (List.mem_singleton_self _) ?_
        simp only [Occurrence.error?]

theorem calleeIn_of_bound (found : externalCallee externals scope e = .ok none) :
    e.calleeIn scope = e.looseIn scope := by
  cases e with
  | var ty f =>
      rw [externalCallee] at found
      split at found
      · rename_i bound
        simp [Term.calleeIn, Term.looseIn, Term.asCallee, Term.loose, Scope.unbound, bound]
      · split at found <;> cases found
  | _ => rfl

theorem calleeIn_of_external {f : Name} (found : externalCallee externals scope e = .ok (some f)) :
    ∀ o ∈ e.calleeIn scope, o.error? externals = none := by
  cases e with
  | var ty g =>
      rw [externalCallee] at found
      split at found
      · cases found
      · split at found
        · rename_i isFn
          intro o mem
          obtain rfl := List.mem_singleton.mp (List.mem_filter.mp mem).1
          simp [Occurrence.error?, isFn]
        · cases found
  | _ => cases found

theorem calleeIn_of_error {err : LowerError}
    (found : externalCallee externals scope e = .error err) :
    ∃ o ∈ e.calleeIn scope, o.error? externals = some err := by
  cases e with
  | var ty g =>
      rw [externalCallee] at found
      split at found
      · cases found
      · rename_i free
        split at found
        · cases found
        · rename_i notFn
          cases found
          refine ⟨⟨.callee, g⟩, List.mem_filter.mpr ⟨List.mem_singleton_self _, ?_⟩, ?_⟩
          · simpa using free
          · simp only [Occurrence.error?]
  | _ => cases found

theorem Fails.app (he : Fails externals e) (hes : ∀ a ∈ es, Fails externals a) (ty : Ty) :
    Fails externals (.app ty e es) := by
  intro scope
  rw [lower, Term.looseIn_app]
  cases found : externalCallee externals scope e with
  | error err =>
      obtain ⟨o, mem, wrong⟩ := calleeIn_of_error found
      exact .throw (List.mem_append_left _ mem) wrong
  | ok callee =>
      cases callee with
      | some f =>
          refine .skip (calleeIn_of_external found) ?_
          exact (Fails.list hes scope).bind_fine fun _ => .pure _
      | none =>
          rw [calleeIn_of_bound found]
          exact (he scope).operand.bind fun _ => (Fails.list hes scope).bind_fine fun _ => .pure _

theorem Fails.and_chooses (h : Fails externals e) (tested : isTested e = true) :
    Fails externals e ∧ FailsChoosing externals e := by
  refine ⟨h, ?_⟩
  intro scope yes no osY osN hy hn
  rw [branch_eq_testThen tested]
  exact (h scope).testThen hy hn

theorem FailsChoosing.not (h : FailsChoosing externals e) (ty : Ty) :
    FailsChoosing externals (.not ty e) := by
  intro scope yes no osY osN hy hn
  simp only [branch]
  refine (h hn hy).congr ?_
  simp only [Term.looseIn, Term.loose, List.mem_append]
  grind

theorem FailsChoosing.compare (h1 : Fails externals e1) (h2 : Fails externals e2) (ty : Ty)
    (op : Comparison) : FailsChoosing externals (.compare ty op e1 e2) := by
  intro scope yes no osY osN hy hn
  simp only [branch]
  rw [Term.looseIn, Term.loose, Scope.unbound_append, List.append_assoc]
  exact (h1 scope).compareThen (h2 scope) hy hn op

theorem Fails.of_chooses {yes no : Lower Lowered} (h : FailsChoosing externals e)
    (hy : FailsAt externals [] yes) (hn : FailsAt externals [] no) (scope : Scope Mono) :
    FailsAt externals (e.looseIn scope)
      (branch externals scope e (lower externals scope e) yes no) := by
  have whole := @h scope yes no [] [] hy hn
  rwa [List.append_nil, List.append_nil] at whole

/-- Lowering fails because of an external name of the term, and only then, whether the
    term is a value or a condition. -/
theorem fails_and_chooses (e : Typed) : Fails externals e ∧ FailsChoosing externals e := by
  induction e using Term.induct with
  | unit | int | float =>
      refine Fails.and_chooses ?_ rfl
      intro scope
      rw [lower]
      exact .pure _
  | bool n b =>
      refine Fails.and_chooses ?_ rfl
      intro scope
      rw [lower]
      exact .truth b
  | var ty x => exact Fails.and_chooses (Fails.var ty x) rfl
  | not ty e ih =>
      refine ⟨?_, FailsChoosing.not ih.2 ty⟩
      intro scope
      rw [lower]
      exact Fails.of_chooses ih.2 (.truth false) (.truth true) scope
  | negate n op e ih =>
      refine Fails.and_chooses ?_ rfl
      intro scope
      rw [lower]
      exact (ih.1 scope).unary (.negate op) op.ty.mono
  | arith n op l r ihl ihr =>
      refine Fails.and_chooses ?_ rfl
      intro scope
      rw [lower, Term.looseIn, Term.loose, Scope.unbound_append]
      exact (ihl.1 scope).binary (ihr.1 scope) (.arith op) op.ty.mono
  | compare ty op l r ihl ihr =>
      refine ⟨?_, FailsChoosing.compare ihl.1 ihr.1 ty op⟩
      intro scope
      have whole := (ihl.1 scope).compareThen (ihr.1 scope) (.truth true) (.truth false) op
      rw [List.append_nil, List.append_nil] at whole
      rw [lower, Term.looseIn, Term.loose, Scope.unbound_append]
      exact whole
  | ifThenElse ty c t e ihc iht ihe =>
      refine Fails.and_chooses ?_ rfl
      intro scope
      rw [lower, Term.looseIn, Term.loose, Scope.unbound_append, Scope.unbound_append]
      exact ihc.2 (iht.1 scope) (ihe.1 scope)
  | letIn ty x e1 e2 ih1 ih2 =>
      refine Fails.and_chooses ?_ rfl
      intro scope
      rw [lower, Term.looseIn_letIn scope ty x e1 e2 x.2.mono]
      exact (ih1.1 scope).bind fun _ => (ih2.1 _).bind_fine fun _ => .pure _
  | letRec ty f formals body rest ihbody ihrest =>
      refine Fails.and_chooses ?_ rfl
      intro scope
      rw [lower, Term.looseIn_letRec scope ty f formals body rest f.2.mono (binders_names formals)]
      exact (ihbody.1 _).bind fun _ => (ihrest.1 _).bind_fine fun _ => .pure _
  | app ty e es ih ihs =>
      exact Fails.and_chooses (Fails.app ih.1 (fun a ha => (ihs a ha).1) ty) rfl
  | tuple ty es ihs =>
      refine Fails.and_chooses ?_ rfl
      intro scope
      rw [lower, Term.looseIn_tuple]
      exact (Fails.list (fun a ha => (ihs a ha).1) scope).bind_fine fun _ => .pure _
  | letTuple ty pattern e1 e2 ih1 ih2 =>
      refine Fails.and_chooses ?_ rfl
      intro scope
      rw [lower, Term.looseIn_letTuple scope ty pattern e1 e2 (binders_names pattern)]
      exact (ih1.1 scope).operand.bind fun _ => (ih2.1 _).bind_fine fun _ => .pure _
  | array ty len init ihl ihi =>
      refine Fails.and_chooses ?_ rfl
      intro scope
      rw [lower, Term.looseIn, Term.loose, Scope.unbound_append]
      exact (ihl.1 scope).operand.bind fun _ => (ihi.1 scope).operand.bind_fine fun _ => .pure _
  | get ty a i iha ihi =>
      refine Fails.and_chooses ?_ rfl
      intro scope
      rw [lower, Term.looseIn, Term.loose, Scope.unbound_append]
      exact (iha.1 scope).binary (ihi.1 scope) .get ty.mono
  | put n a i v iha ihi ihv =>
      refine Fails.and_chooses ?_ rfl
      intro scope
      rw [lower, Term.looseIn, Term.loose, Scope.unbound_append, Scope.unbound_append]
      exact (iha.1 scope).operand.bind fun _ => (ihi.1 scope).operand.bind fun _ =>
        (ihv.1 scope).operand.bind_fine fun _ => .pure _
  | seq ty e1 e2 ih1 ih2 =>
      refine Fails.and_chooses ?_ rfl
      intro scope
      rw [lower, Term.looseIn, Term.loose, Scope.unbound_append]
      exact (ih1.1 scope).bind fun _ => (FailsAt.lift _).bind fun _ =>
        (ih2.1 scope).bind_fine fun _ => .pure _

end

end Lowering

/-! ## Programs with types -/

/-- The signature has a type for the name, and that of a function if it is called. -/
def Occurrence.Known (known : Signature) (o : Occurrence) : Prop :=
  ∃ ty, known.find? o.name = some ty ∧ (o.role = .callee → ∃ params result, ty = .fn params result)

/-- The name is used as a value where nothing binds it, and its type is not that of an
    array. -/
def Term.Misuses {Note Ann : Type} (externals : Signature) (e : Term Note Ann) (x : Name) : Prop :=
  ⟨.value, x⟩ ∈ e.loose ∧ ∃ ty, externals.find? x = some ty ∧ ∀ elem, ty ≠ .array elem

namespace Typing

variable {known : Signature} {Γ : Scope Ty}

theorem HasType.forall_known_callee {e : Typed} {params : List Ty} {result : Ty}
    (h : HasType known Γ e (.fn params result)) (parts : ∀ o ∈ e.looseIn Γ, o.Known known) :
    ∀ o ∈ e.calleeIn Γ, o.Known known := by
  cases e with
  | var n f =>
      intro o mem
      obtain ⟨mem, free⟩ := List.mem_filter.mp mem
      obtain rfl := List.mem_singleton.mp mem
      cases h with
      | var bound => simp [Scope.contains, bound] at free
      | external _ found => exact ⟨_, found, fun _ => ⟨params, result, rfl⟩⟩
  | _ => exact parts

/-- In a term with a type every name that is not bound has a type, and one that is called
    that of a function. -/
theorem HasType.forall_known {t : Typed} {τ : Ty} (h : HasType known Γ t τ) :
    ∀ o ∈ t.looseIn Γ, o.Known known := by
  induction h with
  | unit | bool | int | float => exact List.forall_mem_nil _
  | var bound => simp [Term.looseIn, Term.loose, Scope.unbound, Scope.contains, bound]
  | @external Γ x τ free found =>
      rw [Term.looseIn, Term.loose, Γ.unbound_singleton free, List.forall_mem_singleton]
      refine ⟨τ, found, fun called => ?_⟩
      cases called
  | not _ he | negate _ he => exact he
  | letIn _ _ h1 h2 =>
      rw [Term.looseIn_letIn, List.forall_mem_append]
      exact ⟨h1, h2⟩
  | letRec _ _ hbody hrest =>
      rw [Term.looseIn_letRec _ _ _ _ _ _ _ rfl, List.forall_mem_append]
      exact ⟨hbody, hrest⟩
  | letTuple _ _ h1 h2 =>
      rw [Term.looseIn_letTuple _ _ _ _ _ rfl, List.forall_mem_append]
      exact ⟨h1, h2⟩
  | app callee _ he hes =>
      rw [Term.looseIn_app, List.forall_mem_append, List.forall_mem_flatMap]
      exact ⟨callee.forall_known_callee he, hes⟩
  | tuple _ hes =>
      rw [Term.looseIn_tuple, List.forall_mem_flatMap]
      exact hes
  | ifThenElse _ _ _ h1 h2 h3 | put _ _ _ h1 h2 h3 =>
      rw [Term.looseIn, Term.loose, Scope.unbound_append, Scope.unbound_append,
        List.forall_mem_append, List.forall_mem_append]
      exact ⟨h1, h2, h3⟩
  | arith _ _ h1 h2 | compare _ _ h1 h2 | array _ _ h1 h2 | get _ _ h1 h2 | seq _ _ h1 h2 =>
      rw [Term.looseIn, Term.loose, Scope.unbound_append, List.forall_mem_append]
      exact ⟨h1, h2⟩

end Typing

namespace Lowering

variable {externals : Signature}

/-- The only thing that can be wrong with a known name. -/
theorem error?_of_known {o : Occurrence} (known : o.Known externals) {err : LowerError}
    (wrong : o.error? externals = some err) :
    o.role = .value ∧ err = .notAnArray o.name ∧
      ∃ ty, externals.find? o.name = some ty ∧ ∀ elem, ty ≠ .array elem := by
  obtain ⟨ty, found, called⟩ := known
  obtain ⟨role, x⟩ := o
  cases role with
  | value =>
      simp only [Occurrence.error?, found] at wrong
      split at wrong
      · cases wrong
      · rename_i notArray
        cases wrong
        exact ⟨rfl, rfl, ty, found, fun elem eq => notArray elem (congrArg some eq)⟩
      all_goals contradiction
  | callee =>
      obtain ⟨params, result, rfl⟩ := called rfl
      simp [Occurrence.error?, found] at wrong

theorem error?_of_misused {x : Name} {ty : Ty} (found : externals.find? x = some ty)
    (notArray : ∀ elem, ty ≠ .array elem) :
    Occurrence.error? externals ⟨.value, x⟩ = some (.notAnArray x) := by
  simp only [Occurrence.error?, found]
  split
  · rename_i eq
    cases eq
    exact absurd rfl (notArray _)
  all_goals first | rfl | contradiction

section
variable {t : Typed} {c c' : Supply}

theorem misuses_of_error {err : LowerError} (typed : Typing.HasType externals .empty t .unit)
    (failed : (program externals t).run.run c = (.error err, c')) :
    ∃ x, err = .notAnArray x ∧ t.Misuses externals x := by
  obtain ⟨o, mem, wrong⟩ := ((fails_and_chooses t).1 .empty).error failed
  obtain ⟨isValue, rfl, unsuited⟩ := error?_of_known (typed.forall_known o mem) wrong
  rw [Term.looseIn, Scope.unbound_empty] at mem
  refine ⟨o.name, rfl, ?_, unsuited⟩
  rw [← isValue]
  exact mem

theorem fails_of_misuses {x : Name} (h : t.Misuses externals x) :
    ∃ err c', (program externals t).run.run c = (.error err, c') := by
  obtain ⟨mem, ty, found, notArray⟩ := h
  rw [← Scope.unbound_empty (α := Mono) t.loose] at mem
  cases run : (program externals t).run.run c with
  | mk r c' =>
      cases r with
      | error err => exact ⟨err, c', rfl⟩
      | ok a =>
          have right := ((fails_and_chooses t).1 .empty).fine run _ mem
          rw [error?_of_misused found notArray] at right
          cases right

end

/-- When an accepted program has no code.  Lowering never finds that a name that is called
    is not a function.  It fails if and only if there is a place where nothing binds a name
    that is used as a value and whose type in the new signature is not that of an array;
    and the name that it reports is used in this way. -/
theorem program_fails_iff (e : Source) (externals : Signature) (t : Typed)
    (accepted : (Typing.outcome e externals).result = .ok t) (c : Supply) :
    let known := (Typing.outcome e externals).externals
    let result := ((program known t).run.run c).1
    (∀ x, result ≠ .error (.notAFunction x)) ∧
      ((∃ x, result = .error (.notAnArray x)) ↔ ∃ x, e.Misuses known x) ∧
      ∀ x, result = .error (.notAnArray x) → e.Misuses known x := by
  intro known result
  obtain ⟨bare, typed⟩ := Typing.accepted_typed accepted
  have same : ∀ x, t.Misuses known x ↔ e.Misuses known x := by
    intro x
    rw [Term.Misuses, Term.Misuses, Term.loose_eq_of_erase_eq bare]
  have reported : ∀ err, result = .error err → ∃ x, err = .notAnArray x ∧ e.Misuses known x := by
    intro err failed
    obtain ⟨x, rfl, misused⟩ := misuses_of_error typed (c := c) (Prod.ext failed rfl)
    exact ⟨x, rfl, (same x).mp misused⟩
  refine ⟨?_, ⟨?_, ?_⟩, ?_⟩
  · intro x failed
    obtain ⟨y, eq, -⟩ := reported _ failed
    cases eq
  · rintro ⟨x, failed⟩
    obtain ⟨y, -, misused⟩ := reported _ failed
    exact ⟨y, misused⟩
  · rintro ⟨x, misused⟩
    obtain ⟨err, c', failed⟩ := fails_of_misuses ((same x).mpr misused) (c := c)
    have failed : result = .error err := congrArg Prod.fst failed
    obtain ⟨y, rfl, -⟩ := reported err failed
    exact ⟨y, failed⟩
  · intro x failed
    obtain ⟨y, eq, misused⟩ := reported _ failed
    cases eq
    exact misused

/-- A program with an array, a function and a number that its caller does not know.  The
    number is used in a condition, under a binder of the name of the array. -/
def countingDown : Source :=
  .letIn () ("first", none) (.get () (.var () "cells") (.int () 0))
    (.letIn () ("cells", none) (.var () "first")
      (.ifThenElse () (.not () (.compare () .lt (.var () "limit") (.var () "cells")))
        (.app () (.var () "report") [.var () "first"]) (.unit ())))

def countingDownTyped : Typed :=
  .letIn .unit ("first", .int) (.get .int (.var (.array .int) "cells") (.int .int 0))
    (.letIn .unit ("cells", .int) (.var .int "first")
      (.ifThenElse .unit
        (.not .bool (.compare .bool .lt (.var .int "limit") (.var .int "cells")))
        (.app .unit (.var (.fn [.int] .unit) "report") [.var .int "first"]) (.unit .unit)))

theorem countingDown_accepted :
    (Typing.outcome countingDown []).result = .ok countingDownTyped := by
  cbv

theorem program_countingDown :
    let known := (Typing.outcome countingDown []).externals
    let result := ((program known countingDownTyped).run.run ⟨0⟩).1
    (Typing.outcome countingDown []).result = .ok countingDownTyped ∧
      result = .error (.notAnArray "limit") ∧
      (∀ x, result ≠ .error (.notAFunction x)) ∧
      ((∃ x, result = .error (.notAnArray x)) ↔ ∃ x, countingDown.Misuses known x) ∧
      ∀ x, result = .error (.notAnArray x) → countingDown.Misuses known x :=
  ⟨countingDown_accepted, by cbv,
    program_fails_iff countingDown [] countingDownTyped countingDown_accepted ⟨0⟩⟩

end Lowering

end MiddleEnd
