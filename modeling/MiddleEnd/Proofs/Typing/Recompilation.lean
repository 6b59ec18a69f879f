import Mathlib
import MiddleEnd.Compile
import MiddleEnd.Proofs.Typing.Principality

/-! # Compiling again

A program can be compiled again with the signature that its compilation leaves, and
nothing changes.  The new signature says more about external names than the old one, so the
principal typing may be less general; but it lies between the old principal typing and the
instance of it with integers for all variables, and so its own instance with integers is
the same.
-/

namespace MiddleEnd

namespace Ty

variable {ty : Ty} {σ τ : Nat → Ty}

theorem eq_of_subst_eq (h : ty.subst σ = ty.subst τ) {v : Nat} (hv : v ∈ ty.vars) : σ v = τ v := by
  induction ty using inductVars with
  | var w =>
      obtain rfl := List.mem_singleton.mp hv
      exact h
  | type ty type ih =>
      obtain ⟨c, hc, hv⟩ := (mem_vars_iff type).mp hv
      have each := congrArg components h
      rw [components_subst type, components_subst type] at each
      exact ih c hc (List.map_inj_left.mp each c hc) hv

/-- A type between a type and its instance with integers has the same instance with
    integers: a variable can become an integer only by way of variables. -/
theorem subst_int_of_between (h : (ty.subst σ).subst τ = ty.subst fun _ => .int) :
    ((ty.subst σ).subst fun _ => .int) = ty.subst fun _ => .int := by
  rw [subst_subst] at h ⊢
  refine subst_congr fun v hv => ?_
  have int := eq_of_subst_eq h hv
  generalize σ v = between at int ⊢
  cases between with
  | int | var => rfl
  | _ => cases int

end Ty

namespace Typing

variable {e : Source} {externals externals' known known' : Signature} {callers callers' : Nat → Ty}
  {p t : Typed} {σ τ : Nat → Ty}

theorem instantiate_int_of_between
    (h : instantiate τ (instantiate σ p) = instantiate (fun _ => .int) p) :
    instantiate (fun _ => .int) (instantiate σ p) = instantiate (fun _ => .int) p := by
  rw [instantiate, instantiate, Term.map_map, instantiate] at h ⊢
  refine Term.map_congr ?_ ?_
  · intro ty mem
    have notes := congrArg Term.notes h
    rw [Term.notes_map, Term.notes_map, List.map_inj_left] at notes
    exact Ty.subst_int_of_between (notes ty mem)
  · intro x mem
    have binders := congrArg Term.binders h
    rw [Term.binders_map, Term.binders_map, List.map_inj_left] at binders
    exact Ty.subst_int_of_between (congrArg Prod.snd (binders x mem))

/-- A program has the same types with another signature if all typings for the other one are
    typings for this one and the types found for this one are a typing for the other.  The
    principal typing for the other signature then lies between the one for this signature and
    its instance. -/
theorem outcome_of_between (accepted : (outcome e externals).result = .ok t)
    (back : ∀ {callers known p}, IsTyping e externals' callers known p →
      ∃ callers, IsTyping e externals callers known p)
    (again : IsTyping e externals' callers known t) :
    (outcome e externals').result = .ok t ∧
      ∀ x ty, (outcome e externals).externals.find? x = some ty → known.find? x = some ty →
        (outcome e externals').externals.find? x = some ty := by
  obtain ⟨p, general, principal, rfl, final⟩ := outcome_principal accepted
  obtain ⟨t', accepted'⟩ :=
    accepted_of_typable ⟨_, _, _, again.source, again.entries, again.typed⟩
  obtain ⟨p', general', principal', rfl, final'⟩ := outcome_principal accepted'
  obtain ⟨callers', typing'⟩ := principal'.isTyping
  obtain ⟨callers'', typing⟩ := back typing'
  obtain ⟨σ, rfl, entries⟩ := principal.instances typing
  obtain ⟨τ, between, entries'⟩ := principal'.instances again
  refine ⟨accepted'.trans (congrArg _ (instantiate_int_of_between between)), ?_⟩
  intro x ty found found'
  rw [final, Option.map_eq_some_iff] at found
  obtain ⟨own, found, rfl⟩ := found
  have between := entries' x _ (entries x own found)
  rw [found', Option.some.injEq] at between
  rw [final', entries x own found, Option.map_some, Ty.subst_int_of_between between.symm]

/-! ## Signatures without variables -/

/-- No entry of the signature has a variable. -/
def Ground (sig : Signature) : Prop :=
  ∀ b ∈ sig, b.2.isGround = true

theorem Ground.find? {sig : Signature} (ground : Ground sig) {x : Name} {ty : Ty}
    (found : sig.find? x = some ty) : ty.isGround = true := by
  obtain ⟨before, after, rfl, -⟩ := List.lookup_eq_some_iff.mp found
  exact ground (x, ty) (by simp)

theorem ground_solution (s : State) : Ground s.solution.externals := by
  intro b mem
  obtain ⟨b, -, rfl⟩ := List.mem_map.mp mem
  exact Ty.isGround_subst s.table.isGround_settled b.2

theorem Ground.map_imported {A : Solution} {s : State} {sig sig' : Signature} (ground : Ground sig)
    (fits : A.Fits s)
    (entries : List.Forall₂ (fun b c => c.1 = b.1 ∧ Imported s b.2 c.2) sig sig') :
    sig'.map (Term.mapBinder A.apply) = sig := by
  induction entries with
  | nil => rfl
  | @cons b c _ _ head _ ih =>
      rw [Ground, List.forall_mem_cons] at ground
      have entry : A.apply c.2 = b.2 :=
        (head.2.equal A fits).trans (Ty.subst_of_isGround ground.1)
      rw [List.map_cons, ih ground.2, Term.mapBinder, head.1, entry]

/-- A signature without variables that has all external names of a typing is not changed. -/
theorem outcome_externals_eq (ground : Ground externals)
    (typing : IsTyping e externals callers externals p)
    (accepted : (outcome e externals).result = .ok t) :
    (outcome e externals).externals = externals := by
  obtain ⟨u, s, walked, -, final⟩ := accepted_walked accepted
  obtain ⟨ρ, -, -, keeps⟩ := walked.of_isTyping typing
  obtain ⟨-, entries⟩ := imports_signature externals (sound_start externals)
  have covers : Covers ⟨ρ, callers, externals⟩ (importExternals.run (.start externals)).2 := by
    intro x τ found missing
    have same := lookup_rel entries x
    rw [Signature.find?] at found
    rw [found] at same
    generalize imported : List.lookup x _ = o at same
    cases same with
    | some => cases imported.symm.trans missing
  have start := walked.more.solves _ walked.more.ready.solution_solves
  have fits : s.solution.Fits ((Signature.mapM importTy externals).run (.start externals)).2 :=
    ⟨start.models, start.imported⟩
  rw [final, State.solution, keeps covers]
  exact ground.map_imported fits entries

/-- Annotations without variables do not depend on what the caller's variables stand for. -/
theorem respects_of_ground {xs : List (Name × Option Ty)} {bs : List (Name × Ty)}
    (plain : ∀ x ∈ xs, ∀ ty, x.2 = some ty → ty.isGround = true)
    (h : List.Forall₂ (Respects callers) xs bs) : List.Forall₂ (Respects callers') xs bs := by
  induction h with
  | nil => exact .nil
  | cons head _ ih =>
      rw [List.forall_mem_cons] at plain
      refine .cons ⟨head.1, fun ty annotated => ?_⟩ (ih plain.2)
      have ground := plain.1 ty annotated
      rw [head.2 ty annotated, Ty.subst_of_isGround ground, Ty.subst_of_isGround ground]

/-- A typing for an instance of a signature that has no variables is a typing for the
    signature: its variables stand for what they have become in the instance. -/
theorem IsTyping.of_instance {σ : Nat → Ty}
    (plain : ∀ x ∈ e.binders, ∀ ty, x.2 = some ty → ty.isGround = true)
    (ground : Ground externals')
    (entries : ∀ x ty, externals.find? x = some ty → externals'.find? x = some (ty.subst σ))
    (typing : IsTyping e externals' callers known t) : IsTyping e externals σ known t := by
  refine ⟨⟨typing.source.erase, respects_of_ground plain typing.source.binders⟩, ?_, typing.typed⟩
  intro x ty found
  have entry := entries x ty found
  rw [typing.entries x _ entry, Ty.subst_of_isGround (ground.find? entry)]

/-- Typing a program again with the signature that it leaves changes nothing. -/
theorem outcome_again (plain : ∀ x ∈ e.binders, ∀ ty, x.2 = some ty → ty.isGround = true)
    (accepted : (outcome e externals).result = .ok t) :
    (outcome e (outcome e externals).externals).result = .ok t ∧
      (outcome e (outcome e externals).externals).externals = (outcome e externals).externals := by
  obtain ⟨u, s, walked, rfl, final⟩ := accepted_walked accepted
  have first := walked.isTyping walked.more.ready.solution_solves
  have ground := ground_solution s
  rw [final]
  have again : IsTyping e s.solution.externals s.solution.callers s.solution.externals
      (instantiate s.table.settled u) := by
    refine ⟨first.source, fun x ty found => ?_, first.typed⟩
    rw [found, Ty.subst_of_isGround (ground.find? found)]
  obtain ⟨accepted', -⟩ := outcome_of_between accepted
    (fun typing => ⟨_, typing.of_instance plain ground first.entries⟩) again
  exact ⟨accepted', outcome_externals_eq ground again accepted'⟩

end Typing

/-! ## Compilation -/

section
variable {options : Options} {externals externals' : Signature} {e : Source} {p : Program}

theorem externals_compile :
    (compile options externals e).externals = (Typing.outcome e externals).externals := by
  rw [compile]
  split
  · rfl
  · split <;> rfl

/-- A program that is compiled, or has no code, has types. -/
theorem accepted_of_ne_type_error
    (other : ∀ err, (compile options externals e).result ≠ .error (.type err)) :
    ∃ t, (Typing.outcome e externals).result = .ok t := by
  rw [compile] at other
  split at other
  · exact absurd rfl (other _)
  · exact ⟨_, by assumption⟩

theorem accepted_of_compiled (compiled : (compile options externals e).result = .ok p) :
    ∃ t, (Typing.outcome e externals).result = .ok t := by
  apply accepted_of_ne_type_error
  rw [compiled]
  nofun

/-- The code depends on the signature only by the types that are found. -/
theorem compile_congr
    (result : (Typing.outcome e externals').result = (Typing.outcome e externals).result)
    (left : (Typing.outcome e externals').externals = (Typing.outcome e externals).externals) :
    compile options externals' e = compile options externals e := by
  rw [compile, compile, result, left]

end

/-- A program whose annotations have no variables can be compiled again with the signature
    that its compilation leaves.  This gives the same code and leaves the signature as it
    is. -/
theorem compile_again (options : Options) (externals : Signature) (e : Source)
    (plain : ∀ x ∈ e.binders, ∀ ty, x.2 = some ty → ty.isGround = true) (p : Program)
    (compiled : (compile options externals e).result = .ok p) :
    (compile options (compile options externals e).externals e).result = .ok p ∧
      (compile options (compile options externals e).externals e).externals =
        (compile options externals e).externals := by
  obtain ⟨t, accepted⟩ := accepted_of_compiled compiled
  obtain ⟨result, left⟩ := Typing.outcome_again plain accepted
  rw [externals_compile, compile_congr (result.trans accepted.symm) left]
  exact ⟨compiled, externals_compile⟩

/-- A program with an external array that its caller does not know and whose elements may
    have any type, with a caller that has one variable in two entries. -/
def reporting : Source :=
  .letRec () ("report", none) [("x", some .float)]
    (.app () (.var () "out") [.var () "x", .get () (.var () "table") (.int () 0)])
    (.seq () (.app () (.var () "report") [.float () ⟨0⟩])
      (.app () (.var () "report") [.float () ⟨1⟩]))

def reportingExternals : Signature :=
  [("out", .fn [.var 7, .var 8] .unit), ("spare", .array (.var 7))]

def reportingProgram : Program where
  functions := [{
    name := "report.23"
    ty := .fn [.float] .unit
    formals := [("x.24", .float)]
    captured := []
    body :=
      .letIn "Ta1.25" (.array .int) (.op (.externArray "table"))
        (.letIn "Ti2.26" .int (.op (.int 0))
          (.letIn "Ti3.27" .int (.op (.get "Ta1.25" "Ti2.26"))
            (.callDirect "min_caml_out" ["x.24", "Ti3.27"]))) }]
  main :=
    .letIn "Td4.28" .float (.op (.float ⟨0⟩))
      (.letIn "Tu5.29" .unit (.callDirect "report.23" ["Td4.28"])
        (.letIn "Td6.30" .float (.op (.float ⟨1⟩)) (.callDirect "report.23" ["Td6.30"])))

theorem compile_reporting :
    (compile ⟨2, 3⟩ reportingExternals reporting).result = .ok reportingProgram := by
  decide +kernel

theorem compile_reporting_again :
    (compile ⟨2, 3⟩ reportingExternals reporting).result = .ok reportingProgram ∧
      (compile ⟨2, 3⟩ reportingExternals reporting).externals =
        [("out", .fn [.float, .int] .unit), ("spare", .array .float), ("table", .array .int)] ∧
      (compile ⟨2, 3⟩ (compile ⟨2, 3⟩ reportingExternals reporting).externals reporting).result =
        .ok reportingProgram ∧
      (compile ⟨2, 3⟩ (compile ⟨2, 3⟩ reportingExternals reporting).externals reporting).externals =
        (compile ⟨2, 3⟩ reportingExternals reporting).externals := by
  have plain : ∀ x ∈ reporting.binders, ∀ ty, x.2 = some ty → ty.isGround = true := by
    intro x mem ty annotated
    fin_cases mem <;> cases annotated
    rfl
  exact ⟨compile_reporting, by decide +kernel,
    compile_again ⟨2, 3⟩ reportingExternals reporting plain reportingProgram compile_reporting⟩

end MiddleEnd
