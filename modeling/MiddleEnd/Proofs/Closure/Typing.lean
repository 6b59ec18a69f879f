import Mathlib
import MiddleEnd.Proofs.Closure.References
import MiddleEnd.Proofs.Knf.Typing

/-! # Making closures preserves types

The typing rules of code with closures.  A closure has the type of its function, and
what it captures has the types that the function was recorded with; a function that
is called by its label captures nothing.  The scope in which K-normal code is
converted is the one in which it is typed, so the type of a captured name is found
there, however many functions the name is passed through.
-/

namespace MiddleEnd

theorem Scope.get?_bindAll_map {α : Type} (s : Scope α) (g : Name → α) (xs : List Name)
    (x : Name) :
    (s.bindAll (xs.map fun z => (z, g z))).get? x = if x ∈ xs then some (g x) else s.get? x := by
  rw [← Scope.get?_bindEach]
  induction xs generalizing s with
  | nil => simp [Scope.bindEach]
  | cons z zs ih =>
      rw [List.map_cons, Scope.bindEach, List.foldl_cons, ← Scope.bindEach, ih, Scope.get?_bind]
      by_cases eq : x = z
      · simp [eq]
      · simp [eq]

/-! ## The type system -/

/-- The code has this type in the program, where the scope has the types of bound names and
    the signature those of external ones. -/
inductive Code.HasType (externals : Signature) (P : Program) :
    Scope Mono → Code → Mono → Prop where
  | op {Γ o τ} : o.HasType externals Γ τ → HasType externals P Γ (.op o) τ
  | branch {Γ test x y e1 e2 υ τ} :
      Γ.get? x = some υ → Γ.get? y = some υ →
      HasType externals P Γ e1 τ → HasType externals P Γ e2 τ →
      HasType externals P Γ (.branch test x y e1 e2) τ
  | letIn {Γ x υ e1 e2 τ} :
      HasType externals P Γ e1 υ → HasType externals P (Γ.bind x υ) e2 τ →
      HasType externals P Γ (.letIn x υ e1 e2) τ
  /-- What is captured has the types that are recorded in the function. -/
  | makeClosure {Γ x entry F e τ} :
      P.function? entry = some F → (∀ b ∈ F.captured, Γ.get? b.1 = some b.2) →
      HasType externals P (Γ.bind x F.ty) e τ →
      HasType externals P Γ (.makeClosure x F.ty entry (F.captured.map (·.1)) e) τ
  | callClosure {Γ f xs τs τ} :
      Γ.get? f = some (.fn τs τ) → Γ.HasTypes xs τs → HasType externals P Γ (.callClosure f xs) τ
  /-- A function that is called by its label has no closure to take anything from. -/
  | callDirect {Γ label F xs τs τ} :
      P.function? label = some F → F.captured = [] → F.ty = .fn τs τ → Γ.HasTypes xs τs →
      HasType externals P Γ (.callDirect label xs) τ
  | callExternal {Γ g xs τs τ} :
      externals.Calls g τs τ → Γ.HasTypes xs τs →
      HasType externals P Γ (.callDirect (Knf.externLabel g) xs) τ
  | letTuple {Γ pattern y e τ} :
      Γ.get? y = some (.tuple (pattern.map (·.2))) →
      HasType externals P (Γ.bindAll pattern) e τ →
      HasType externals P Γ (.letTuple pattern y e) τ

/-- The types of the names in force in the body of a function: the function itself, what it
    takes from its closure, and its formals. -/
def Function.scope (F : Function) : Scope Mono :=
  ((Scope.empty.bind F.name F.ty).bindAll F.captured).bindAll F.formals

/-- The body of the function has the type that the function is declared to return. -/
def Function.HasType (externals : Signature) (P : Program) (F : Function) : Prop :=
  ∃ υ, F.ty = .fn (F.formals.map (·.2)) υ ∧ F.body.HasType externals P F.scope υ

/-- All functions have their types, and the program starts with code of this type. -/
structure Program.HasType (externals : Signature) (P : Program) (τ : Mono) : Prop where
  functions : ∀ F ∈ P.functions, F.HasType externals P
  main : P.main.HasType externals P .empty τ

/-- Only the types of free names matter. -/
theorem Code.HasType.of_agrees {externals : Signature} {P : Program} {Γ Δ : Scope Mono}
    {e : Code} {τ : Mono} (h : e.HasType externals P Γ τ) (agrees : Γ.Agrees Δ e.freeVars) :
    e.HasType externals P Δ τ := by
  induction h generalizing Δ with
  | op h => exact .op (h.of_agrees agrees)
  | branch hx hy _ _ ih1 ih2 =>
      rw [freeVars] at agrees
      refine .branch (agrees _ (by simp) _ hx) (agrees _ (by simp) _ hy) (ih1 ?_) (ih2 ?_)
      · exact agrees.mono fun z hz => by simp [hz]
      · exact agrees.mono fun z hz => by simp [hz]
  | letIn _ _ ih1 ih2 =>
      rw [freeVars] at agrees
      refine .letIn (ih1 ?_) (ih2 (.bind ?_ _))
      · exact agrees.mono (List.subset_append_left _ _)
      · exact agrees.mono (List.subset_append_right _ _)
  | makeClosure function captured _ ih =>
      rw [freeVars] at agrees
      refine .makeClosure function (fun b hb => ?_) (ih (.bind ?_ _))
      · exact agrees b.1 (List.mem_append_right _ (List.mem_map_of_mem hb)) _ (captured b hb)
      · exact agrees.mono (List.subset_append_left _ _)
  | callClosure hf hxs =>
      refine .callClosure (agrees _ (List.mem_cons_self ..) _ hf)
        (Scope.HasTypes.of_agrees hxs (agrees.mono ?_))
      exact List.subset_cons_self ..
  | callDirect function captured ty hxs =>
      exact .callDirect function captured ty (Scope.HasTypes.of_agrees hxs agrees)
  | callExternal call hxs => exact .callExternal call (Scope.HasTypes.of_agrees hxs agrees)
  | letTuple hy _ ih =>
      refine .letTuple (agrees _ (List.mem_cons_self ..) _ hy) (ih (.bindAll (agrees.mono ?_)))
      exact List.subset_cons_self ..

namespace Knf

/-! ## Captured names -/

section
variable {externals : Signature} {Γ scope : Scope Mono} {f : Name} {ty υ : Mono}
  {formals : List (Name × Mono)} {body : Knf} {known : List Name}

/-- A captured name has a type where the function is defined. -/
theorem HasType.captured (h : body.HasType externals ((Γ.bind f ty).bindAll formals) υ)
    {z : Name} (hz : z ∈ capturedNames f formals (body.closeIn scope known).code) :
    ∃ σ, Γ.get? z = some σ ∧ (Γ.bind f ty).get? z = some σ := by
  obtain ⟨⟨free, outer⟩, ne⟩ := mem_capturedNames.mp hz
  have bound := h.bound z (freeVars_closeIn body _ _ free)
  rw [Scope.get?_bindAll_of_notMem outer, Scope.get?_bind, if_neg ne] at bound
  obtain ⟨σ, hσ⟩ := Option.isSome_iff_exists.mp bound
  exact ⟨σ, hσ, by rw [Scope.get?_bind, if_neg ne, hσ]⟩

/-- What is recorded for a captured name is its type. -/
theorem HasType.recorded (h : body.HasType externals ((Γ.bind f ty).bindAll formals) υ)
    {code : Code} {b : Name × Mono}
    (hb : b ∈ (lifted (Γ.bind f ty) f ty formals
      (capturedNames f formals (body.closeIn scope known).code) code).captured) :
    Γ.get? b.1 = some b.2 := by
  obtain ⟨z, hz, rfl⟩ := List.mem_map.mp hb
  obtain ⟨σ, outer, inner⟩ := h.captured hz
  simp only [outer, inner, Option.getD_some]

end

/-- Convert code, but give up where a captured name has no type, also in an attempt that
    would be discarded. -/
def closeIn? (scope : Scope Mono) (known : List Name) : Knf → Option Converted
  | .op o => return ⟨[], .op o⟩
  | .branch test x y e1 e2 => do
      let c1 ← e1.closeIn? scope known
      let c2 ← e2.closeIn? scope known
      return ⟨c1.functions ++ c2.functions, .branch test x y c1.code c2.code⟩
  | .letIn x ty e1 e2 => do
      let c1 ← e1.closeIn? scope known
      let c2 ← e2.closeIn? (scope.bind x ty) known
      return ⟨c1.functions ++ c2.functions, .letIn x ty c1.code c2.code⟩
  | .letRec f ty formals body rest => do
      let inner := scope.bind f ty
      let guess ← body.closeIn? (inner.bindAll formals) (f :: known)
      if outerNames formals guess.code = [] then
        return define inner f ty formals [] guess (← rest.closeIn? inner (f :: known))
      else
        let again ← body.closeIn? (inner.bindAll formals) known
        let captured := capturedNames f formals again.code
        guard (∀ z ∈ captured, inner.contains z)
        return define inner f ty formals captured again (← rest.closeIn? inner known)
  | .app f xs => return ⟨[], if f ∈ known then .callDirect f xs else .callClosure f xs⟩
  | .letTuple pattern y e => do
      let c ← e.closeIn? (scope.bindAll pattern) known
      return ⟨c.functions, .letTuple pattern y c.code⟩
  | .externApp f xs => return ⟨[], .callDirect (externLabel f) xs⟩

/-- Convert a program, but give up where a captured name has no type. -/
def toProgram? (e : Knf) : Option Program := do
  let c ← e.closeIn? .empty []
  return ⟨c.functions, c.code⟩

/-- The captured names of code with a type all have types. -/
theorem HasType.closeIn?_eq {externals : Signature} {Γ : Scope Mono} {e : Knf} {τ : Mono}
    (h : e.HasType externals Γ τ) (known : List Name) :
    e.closeIn? Γ known = some (e.closeIn Γ known) := by
  induction h generalizing known with
  | op | app | externApp => rfl
  | branch _ _ _ _ ih1 ih2 => simp [closeIn?, Knf.closeIn, ih1, ih2]
  | letIn _ _ ih1 ih2 => simp [closeIn?, Knf.closeIn, ih1, ih2]
  | @letRec Γ f formals body rest υ τ typed _ ih1 ih2 =>
      simp only [closeIn?, Knf.closeIn, ih1, ih2, Option.bind_eq_bind, Option.bind_some]
      split
      · rfl
      · have types : ∀ z ∈ capturedNames f formals (body.closeIn
            ((Γ.bind f (.fn (formals.map (·.2)) υ)).bindAll formals) known).code,
            (Γ.bind f (.fn (formals.map (·.2)) υ)).contains z := by
          intro z hz
          obtain ⟨σ, -, inner⟩ := typed.captured hz
          simp [Scope.contains, inner]
        simp only [guard, if_pos types]
        rfl
  | letTuple _ _ ih => simp [closeIn?, Knf.closeIn, ih]

-- a name that is bound nowhere cannot be captured
example : (letRec "f" (.fn [] .int) [] (.op (.var "z")) (.op (.var "f"))).toProgram? = none := by
  decide +kernel

/-! ## Conversion -/

/-- The functions that are called by their labels take nothing from closures, and their types
    are in scope. -/
def Labelled (P : Program) (Γ : Scope Mono) (known : List Name) : Prop :=
  ∀ g ∈ known, ∃ F, P.function? g = some F ∧ F.captured = [] ∧ Γ.get? g = some F.ty

namespace Labelled

variable {P : Program} {Γ : Scope Mono} {known : List Name}

theorem bind (h : Labelled P Γ known) {x : Name} (hx : x ∉ known) (τ : Mono) :
    Labelled P (Γ.bind x τ) known := by
  intro g hg
  have ne : g ≠ x := fun eq => hx (eq ▸ hg)
  rw [Scope.get?_bind, if_neg ne]
  exact h g hg

theorem bindAll (h : Labelled P Γ known) {xs : List (Name × Mono)}
    (hxs : ∀ x ∈ xs.map (·.1), x ∉ known) : Labelled P (Γ.bindAll xs) known := by
  intro g hg
  rw [Scope.get?_bindAll_of_notMem fun mem => hxs g mem hg]
  exact h g hg

theorem define (h : Labelled P Γ known) {f : Name} {F : Function} (hf : f ∉ known)
    (function : P.function? f = some F) (captured : F.captured = []) :
    Labelled P (Γ.bind f F.ty) (f :: known) := by
  refine List.forall_mem_cons.mpr ⟨⟨F, function, captured, ?_⟩, h.bind hf F.ty⟩
  rw [Scope.get?_bind, if_pos rfl]

end Labelled

section
variable {externals : Signature} {P : Program}

/-- The function that a definition becomes has its type, if the converted body has its type
    where the definition stands. -/
theorem hasType_lifted {Γ : Scope Mono} {f : Name} {ty υ : Mono} {formals : List (Name × Mono)}
    {code : Code} (returns : ty = .fn (formals.map (·.2)) υ)
    (typed : code.HasType externals P ((Γ.bind f ty).bindAll formals) υ) :
    (lifted (Γ.bind f ty) f ty formals (capturedNames f formals code) code).HasType
      externals P := by
  refine ⟨υ, returns, typed.of_agrees (.bindAll ?_)⟩
  intro x hx σ hσ
  simp only [List.mem_filter, decide_eq_true_eq] at hx
  simp only [lifted, Scope.get?_bindAll_map]
  by_cases self : x = f
  · have notCaptured : x ∉ capturedNames f formals code :=
      fun mem => (mem_capturedNames.mp mem).2 self
    rw [if_neg notCaptured, Scope.get?_bind, if_pos self]
    rwa [Scope.get?_bind, if_pos self] at hσ
  · have captured : x ∈ capturedNames f formals code := mem_capturedNames.mpr ⟨hx, self⟩
    rw [if_pos captured, hσ, Option.getD_some]

/-- The code after a definition has its type, with a closure or without. -/
theorem hasType_define {Γ inner : Scope Mono} {F : Function} {captured : List Name}
    {body rest : Converted} {τ : Mono} (function : P.function? F.name = some F)
    (names : F.captured.map (·.1) = captured)
    (types : ∀ b ∈ F.captured, Γ.get? b.1 = some b.2)
    (code : rest.code.HasType externals P (Γ.bind F.name F.ty) τ) :
    (define inner F.name F.ty F.formals captured body rest).code.HasType externals P Γ τ := by
  simp only [define]
  split
  · rw [← names]
    exact .makeClosure function types code
  · rename_i unused
    refine code.of_agrees fun x hx σ hσ => ?_
    have ne : x ≠ F.name := fun eq => unused (eq ▸ hx)
    rwa [Scope.get?_bind, if_neg ne] at hσ

/-- Converted code has the type of the code, and so have the functions that come with it. -/
theorem HasType.closeIn {Γ : Scope Mono} {e : Knf} {τ : Mono} (h : e.HasType externals Γ τ)
    {known : List Name} (placed : Placed P Γ known e) (labelled : Labelled P Γ known) :
    (e.closeIn Γ known).code.HasType externals P Γ τ ∧
      ∀ F ∈ (e.closeIn Γ known).functions, F.HasType externals P := by
  induction h generalizing known with
  | op h => exact ⟨.op h, List.forall_mem_nil _⟩
  | branch hx hy _ _ ih1 ih2 =>
      obtain ⟨first, second⟩ := placed.branch
      obtain ⟨code1, functions1⟩ := ih1 first labelled
      obtain ⟨code2, functions2⟩ := ih2 second labelled
      exact ⟨.branch hx hy code1 code2, List.forall_mem_append.mpr ⟨functions1, functions2⟩⟩
  | letIn _ _ ih1 ih2 =>
      obtain ⟨first, second, apart⟩ := placed.letIn
      obtain ⟨code1, functions1⟩ := ih1 first labelled
      obtain ⟨code2, functions2⟩ := ih2 second (labelled.bind apart _)
      exact ⟨.letIn code1 code2, List.forall_mem_append.mpr ⟨functions1, functions2⟩⟩
  | @letRec Γ f formals body rest υ τ typed _ ih1 ih2 =>
      obtain ⟨known', attempt, eq⟩ := closeIn_letRec f (.fn (formals.map (·.2)) υ) formals body
        rest Γ known
      obtain ⟨fresh, self, apart, -, -⟩ := placed.letRec_names
      have sub : ∀ x ∈ known', x ∈ f :: known := by
        rcases attempt with rfl | ⟨rfl, -⟩
        · exact fun x hx => List.mem_cons_of_mem _ hx
        · exact fun x hx => hx
      obtain ⟨function, inBody, inRest⟩ := placed.define_parts sub eq
      -- the function may be called by its label only if its body has shown that it can
      have outer : Labelled P (Γ.bind f (.fn (formals.map (·.2)) υ)) known' := by
        rcases attempt with rfl | ⟨rfl, closed⟩
        · exact labelled.bind fresh _
        · exact labelled.define fresh function (alone_lifted closed).captured
      have inner : Labelled P ((Γ.bind f (.fn (formals.map (·.2)) υ)).bindAll formals) known' := by
        refine outer.bindAll fun x hx mem => ?_
        rcases List.mem_cons.mp (sub x mem) with rfl | mem
        · exact self hx
        · exact apart x hx mem
      obtain ⟨code1, functions1⟩ := ih1 inBody inner
      obtain ⟨code2, functions2⟩ := ih2 inRest outer
      rw [eq]
      constructor
      · exact hasType_define function (captured_lifted ..) (fun b hb => typed.recorded hb) code2
      · intro F hF
        rcases mem_functions_define.mp hF with inside | rfl | after
        · exact functions1 F inside
        · exact hasType_lifted rfl code1
        · exact functions2 F after
  | @app Γ f xs τs τ hf hxs =>
      simp only [Knf.closeIn]
      refine ⟨?_, List.forall_mem_nil _⟩
      split
      · rename_i isKnown
        obtain ⟨F, function, captured, ty⟩ := labelled f isKnown
        rw [hf] at ty
        exact .callDirect function captured (Option.some.inj ty).symm hxs
      · exact .callClosure hf hxs
  | letTuple hy _ ih =>
      obtain ⟨inside, apart⟩ := placed.letTuple
      obtain ⟨code, functions⟩ := ih inside (labelled.bindAll apart)
      exact ⟨.letTuple hy code, functions⟩
  | externApp call hxs => exact ⟨.callExternal call hxs, List.forall_mem_nil _⟩

end

theorem HasType.toProgram {externals : Signature} {e : Knf} {τ : Mono}
    (typed : e.HasType externals .empty τ) (distinct : e.binders.Nodup) :
    e.toProgram.HasType externals τ := by
  obtain ⟨main, functions⟩ := typed.closeIn (placed_toProgram distinct) nofun
  exact ⟨functions, main⟩

/-- A number that is captured through three functions, of which the second calls itself and
    is returned. -/
def passingOn : Knf :=
  .letIn "a" .float (.op (.float ⟨0⟩))
    (.letRec "f" (.fn [.int] (.fn [.int] .float)) [("x", .int)]
      (.letRec "g" (.fn [.int] .float) [("y", .int)]
        (.letRec "h" (.fn [] .float) [] (.op (.var "a"))
          (.branch .le "x" "y" (.app "h" []) (.app "g" ["x"])))
        (.op (.var "g")))
      (.letIn "n" .int (.op (.int 1))
        (.letIn "k" (.fn [.int] .float) (.app "f" ["n"])
          (.letIn "r" .float (.app "k" ["n"]) (.externApp "print_float" ["r"])))))

theorem passingOn_hasType :
    passingOn.HasType [("print_float", .fn [.float] .unit)] .empty .unit := by
  have print : Signature.Calls [("print_float", .fn [.float] .unit)] "print_float" [.float] .unit :=
    @Signature.Calls.listed _ _ [.float] .unit rfl
  refine .letIn (.op .float) (@HasType.letRec _ _ _ [("x", .int)] _ _ _ _ ?_ ?_)
  · refine @HasType.letRec _ _ _ [("y", .int)] _ _ _ _ ?_ (.op (.var rfl))
    refine @HasType.letRec _ _ _ [] _ _ _ _ (.op (.var rfl)) ?_
    exact .branch rfl rfl (.app rfl .nil) (.app rfl (.cons rfl .nil))
  · refine .letIn (.op .int) (.letIn (.app rfl (.cons rfl .nil)) ?_)
    exact .letIn (.app rfl (.cons rfl .nil)) (.externApp print (.cons rfl .nil))

end Knf

end MiddleEnd
