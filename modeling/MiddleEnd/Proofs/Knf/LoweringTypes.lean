import Mathlib
import MiddleEnd.Proofs.Knf.Lowering
import MiddleEnd.Proofs.Knf.Typing
import MiddleEnd.Proofs.Typing.Soundness

/-! # Lowering preserves types

The code of a term has the type of the term, with the types that lowering writes on
its binders.  Where operands are named, the type of each name is that of its
operand: later operands and the code that uses them draw other names.
-/

namespace MiddleEnd

theorem Ty.monoList_eq_map (ts : List Ty) : Ty.monoList ts = ts.map Ty.mono := by
  induction ts with
  | nil => rfl
  | cons t ts ih => rw [Ty.monoList, ih, List.map_cons]

namespace Lowering

/-- The code knows the types of the names of the program that are in scope; it may know
    those of intermediate results besides. -/
structure Fits (scope Γ : Scope Mono) : Prop where
  types : ∀ {x τ}, scope.get? x = some τ → Γ.get? x = some τ
  plain : ∀ x, scope.contains x = true → x.isTemporary = false

namespace Fits

variable {scope Γ : Scope Mono}

theorem empty : Fits .empty .empty :=
  ⟨id, fun _ h => by cases h⟩

theorem bind (h : Fits scope Γ) {x : Name} (hx : x.isTemporary = false) (τ : Mono) :
    Fits (scope.bind x τ) (Γ.bind x τ) := by
  constructor
  · intro y υ hy
    rw [Scope.get?_bind] at hy ⊢
    by_cases eq : y = x
    · rwa [if_pos eq] at hy ⊢
    · rw [if_neg eq] at hy ⊢
      exact h.types hy
  · intro y hy
    by_cases eq : y = x
    · exact eq ▸ hx
    · rw [Scope.contains, Scope.get?_bind, if_neg eq] at hy
      exact h.plain y hy

theorem bindAll (h : Fits scope Γ) {xs : List (Name × Mono)}
    (plain : ∀ x ∈ xs.map (·.1), x.isTemporary = false) :
    Fits (scope.bindAll xs) (Γ.bindAll xs) := by
  constructor
  · intro y υ hy
    have agrees : scope.Agrees Γ [y] := fun z _ _ => h.types
    have inner : (scope.bindAll xs).Agrees (Γ.bindAll xs) [y] :=
      .bindAll (agrees.mono (List.filter_subset_self _))
    exact inner y (List.mem_singleton_self y) υ hy
  · intro y hy
    rw [Scope.contains_bindAll, Bool.or_eq_true, decide_eq_true_eq] at hy
    rcases hy with mem | bound
    · exact plain y mem
    · exact h.plain y bound

/-- An intermediate result is entered. -/
theorem bindTemp (h : Fits scope Γ) {x : Name} (hx : x.isTemporary = true) (τ : Mono) :
    Fits scope (Γ.bind x τ) := by
  refine ⟨fun {y υ} hy => ?_, h.plain⟩
  have ne : y ≠ x := by
    rintro rfl
    have plain := h.plain y (by rw [Scope.contains, hy]; rfl)
    rw [hx] at plain
    cases plain
  rw [Scope.get?_bind, if_neg ne]
  exact h.types hy

end Fits

/-! ## Steps and the types of their code -/

variable {externals : Signature} {scope : Scope Mono} {τ : Mono}

/-- If the step gives code, then it gives this type with it, and the code has the type. -/
structure Checks (externals : Signature) (scope : Scope Mono) (step : Lower Lowered) (τ : Mono) :
    Prop where
  ty_eq : ∀ {c k ty c'}, Gives step c (k, ty) c' → ty = τ
  hasType : ∀ {c k ty c'}, Gives step c (k, ty) c' → k.binders.length ≤ 2 ^ 32 →
    ∀ {Γ}, Fits scope Γ → k.HasType externals Γ τ

/-- The code of the step has the type, and a binder for every name that was drawn. -/
structure Yields (externals : Signature) (scope : Scope Mono) (step : Lower Lowered) (τ : Mono) :
    Prop extends Orderly scope step, Checks externals scope step τ

theorem orderly_of_yields {steps : List (Lower Lowered)} {τs : List Mono}
    (h : List.Forall₂ (Yields externals scope) steps τs) : ∀ step ∈ steps, Orderly scope step := by
  induction h with
  | nil => exact nofun
  | cons head _ ih => exact List.forall_mem_cons.mpr ⟨head.toOrderly, ih⟩

/-- What is known after operands: their names have their types, and other names have the
    types they had. -/
structure Entered (externals : Signature) (scope Γ : Scope Mono) (xs : List Name)
    (τs : List Mono) (p : Pending) (Δ : Scope Mono) : Prop where
  wrap : ∀ {body υ}, body.HasType externals Δ υ → (wrap p body).HasType externals Γ υ
  fits : Fits scope Δ
  types : Δ.HasTypes xs τs
  others : ∀ x, x ∉ pendingNames p → Δ.get? x = Γ.get? x

theorem operand_entered {step : Lower Lowered} (h : Yields externals scope step τ) {c c' : Supply}
    {x : Name} {p : Pending} (gives : Gives (operand step) c (x, p) c')
    (few : (pendingBinders p).length ≤ 2 ^ 32) {Γ : Scope Mono} (fits : Fits scope Γ) :
    ∃ Δ, Entered externals scope Γ [x] [τ] p Δ := by
  rcases gives.of_operand with ⟨rfl, ty, given⟩ | ⟨k, ty, c₁, given, rfl, rfl, rfl⟩
  · cases h.hasType given (Nat.zero_le _) fits with
    | op hx =>
        cases hx with
        | var hx => exact ⟨Γ, id, fits, .cons hx .nil, fun _ _ => rfl⟩
  · obtain rfl := h.ty_eq given
    have short : k.binders.length ≤ 2 ^ 32 := by
      simp only [pendingBinders, List.flatMap_cons, List.flatMap_nil, List.append_nil,
        List.length_cons] at few
      omega
    have typed := h.hasType given short fits
    refine ⟨Γ.bind (c₁.temp ty) ty, fun body => .letIn typed body, ?_, ?_, ?_⟩
    · exact fits.bindTemp (Supply.isTemporary_temp _ _) ty
    · exact .cons (by rw [Scope.get?_bind, if_pos rfl]) .nil
    · intro a ha
      have ne : a ≠ c₁.temp ty := by simpa [pendingNames] using ha
      rw [Scope.get?_bind, if_neg ne]

/-- The names of operands get the types of the operands. -/
theorem operands_entered {steps : List (Lower Lowered)} {τs : List Mono}
    (h : List.Forall₂ (Yields externals scope) steps τs) {c c' : Supply} {xs : List Name}
    {p : Pending} (gives : Gives (operands steps) c (xs, p) c')
    (few : (pendingBinders p).length ≤ 2 ^ 32) {Γ : Scope Mono} (fits : Fits scope Γ) :
    ∃ Δ, Entered externals scope Γ xs τs p Δ := by
  induction h generalizing c xs p Γ with
  | nil =>
      obtain ⟨eq, rfl⟩ := Gives.of_pure gives
      cases eq
      exact ⟨Γ, id, fits, .nil, fun _ _ => rfl⟩
  | @cons step τ steps τs head tail ih =>
      obtain ⟨x, q, c₁, ys, r, first, second, rfl, rfl⟩ := gives.of_operands_cons
      rw [pendingBinders_append, List.length_append] at few
      obtain ⟨Δ₁, one⟩ := operand_entered head first (by omega) fits
      obtain ⟨Δ₂, more⟩ := ih second (by omega) one.fits
      have kept : Δ₂.get? x = some τ := by
        rw [more.others x, (List.forall₂_cons.mp one.types).1]
        exact operand_not_again head.toOrderly (orderly_of_yields tail) fits.plain first second few
      refine ⟨Δ₂, ?_, more.fits, .cons kept more.types, ?_⟩
      · intro body υ typed
        have whole : wrap (q ++ r) body = wrap q (wrap r body) := List.foldr_append
        rw [whole]
        exact one.wrap (more.wrap typed)
      · intro a ha
        rw [pendingNames_append, List.mem_append, not_or] at ha
        rw [more.others a ha.2, one.others a ha.1]

namespace Checks

theorem of_gives {step : Lower Lowered}
    (h : ∀ {c k ty c'}, Gives step c (k, ty) c' →
      ty = τ ∧ (k.binders.length ≤ 2 ^ 32 → ∀ {Γ}, Fits scope Γ → k.HasType externals Γ τ)) :
    Checks externals scope step τ :=
  ⟨fun given => (h given).1, fun given => (h given).2⟩

/-- A step that names operands and goes on with code that uses these names.  What this
    code draws are other names. -/
theorem of_operands {steps : List (Lower Lowered)} {τs : List Mono} {step : Lower Lowered}
    (h : List.Forall₂ (Yields externals scope) steps τs)
    (gives : ∀ {c k ty c'}, Gives step c (k, ty) c' → ∃ xs p c₁ body,
      Gives (operands steps) c (xs, p) c₁ ∧ k = wrap p body ∧ ty = τ ∧
        (body.binders.length ≤ 2 ^ 32 → (∀ x ∈ xs, ¬ c₁.Draws body.binders.length x) →
          ∀ {Δ}, Fits scope Δ → Δ.HasTypes xs τs → body.HasType externals Δ τ)) :
    Checks externals scope step τ := by
  refine of_gives fun given => ?_
  obtain ⟨xs, p, c₁, body, first, rfl, eq, typed⟩ := gives given
  refine ⟨eq, fun few Γ fits => ?_⟩
  rw [binders_wrap, List.length_append] at few
  obtain ⟨Δ, entered⟩ := operands_entered h first (by omega) fits
  refine entered.wrap (typed (by omega) ?_ entered.fits entered.types)
  exact operands_not_again (orderly_of_yields h) fits.plain first few

theorem of_op {o : Op} (h : ∀ {Γ}, Fits scope Γ → o.HasType externals Γ τ) :
    Checks externals scope (return (.op o, τ)) τ := by
  refine of_gives fun given => ?_
  obtain ⟨eq, -⟩ := Gives.of_pure given
  cases eq
  exact ⟨rfl, fun _ _ fits => .op (h fits)⟩

/-- A step that fails gives no code. -/
theorem of_error {step : Lower Lowered} (h : ∀ {c k ty c'}, ¬ Gives step c (k, ty) c') :
    Checks externals scope step τ :=
  ⟨fun given => absurd given h, fun given => absurd given h⟩

theorem truth (b : Bool) : Checks externals scope (truth b) .bool :=
  of_op fun _ => .bool b

variable {left right : Lower Lowered} {υ ω : Mono}

theorem unary {build : Name → Op} (h : Yields externals scope left υ)
    (op : ∀ {Γ x}, Γ.get? x = some υ → (build x).HasType externals Γ τ) :
    Checks externals scope (unary left build τ) τ := by
  refine of_operands (.cons h .nil) ?_
  intro c k ty c' given
  obtain ⟨x, p, first, rfl, rfl⟩ := given.of_unary
  refine ⟨[x], p, _, _, first, rfl, rfl, ?_⟩
  rintro - - Δ - (_ | ⟨hx, _ | _⟩)
  exact .op (op hx)

theorem binary {build : Name → Name → Op} (hl : Yields externals scope left υ)
    (hr : Yields externals scope right ω)
    (op : ∀ {Γ x y}, Γ.get? x = some υ → Γ.get? y = some ω →
      (build x y).HasType externals Γ τ) :
    Checks externals scope (binary left right build τ) τ := by
  refine of_operands (.cons hl (.cons hr .nil)) ?_
  intro c k ty c' given
  obtain ⟨x, y, p, first, rfl, rfl⟩ := given.of_binary
  refine ⟨[x, y], p, _, _, first, rfl, rfl, ?_⟩
  rintro - - Δ - (_ | ⟨hx, _ | ⟨hy, _ | _⟩⟩)
  exact .op (op hx hy)

/-! ## Tests -/

section
variable {yes no : Lower Lowered}

theorem hasType_comparison {Γ : Scope Mono} {x y : Name} {k1 k2 : Knf}
    (hx : Γ.get? x = some υ) (hy : Γ.get? y = some υ) (h1 : k1.HasType externals Γ τ)
    (h2 : k2.HasType externals Γ τ) (op : Comparison) :
    (comparison op x y k1 k2).HasType externals Γ τ := by
  cases op with
  | eq | le => exact .branch hx hy h1 h2
  | ne | gt => exact .branch hx hy h2 h1
  | ge => exact .branch hy hx h1 h2
  | lt => exact .branch hy hx h2 h1

theorem compareThen (hl : Yields externals scope left υ) (hr : Yields externals scope right υ)
    (hy : Checks externals scope yes τ) (hn : Checks externals scope no τ) (op : Comparison) :
    Checks externals scope (compareThen op left right yes no) τ := by
  refine of_operands (.cons hl (.cons hr .nil)) ?_
  intro c k ty c' given
  obtain ⟨x, z, p, c₁, yes', c₂, no', ty₂, first, second, third, rfl⟩ := given.of_compareThen
  refine ⟨[x, z], p, _, _, first, rfl, hy.ty_eq second, ?_⟩
  rintro few - Δ fits (_ | ⟨hx, _ | ⟨hz, _ | _⟩⟩)
  rw [length_binders_comparison] at few
  exact hasType_comparison hx hz (hy.hasType second (by omega) fits)
    (hn.hasType third (by omega) fits) op

theorem testThen (hl : Yields externals scope left .bool) (hy : Yields externals scope yes τ)
    (hn : Yields externals scope no τ) : Checks externals scope (testThen left yes no) τ := by
  refine of_operands (.cons hl .nil) ?_
  intro c k ty c' given
  obtain ⟨x, p, c₁, yes', c₂, no', ty₂, c₃, first, second, third, rfl, rfl⟩ := given.of_testThen
  obtain ⟨i, fewYes, rfl⟩ := hy.supply second
  obtain ⟨j, fewNo, rfl⟩ := hn.supply third
  rw [Supply.skip_skip] at *
  generalize hz : (c₁.skip (i + j)).temp .bool = z
  refine ⟨[x], p, _, _, first, rfl, hy.ty_eq second, ?_⟩
  rintro few others Δ fits (_ | ⟨hx, _ | _⟩)
  have size : (Knf.letIn z .bool (.op (.int 0)) (.branch .eq x z no' yes')).binders.length =
      1 + no'.binders.length + yes'.binders.length := by
    simp [Knf.binders]
    omega
  -- the name of the constant is not that of the condition
  have ne : x ≠ z := by
    rintro rfl
    exact others x (List.mem_cons_self ..) ⟨i + j, .bool, by omega, hz.symm⟩
  have fits' := fits.bindTemp (hz ▸ Supply.isTemporary_temp _ _) Mono.bool
  have kept : (Δ.bind z .bool).get? x = some .bool := by rw [Scope.get?_bind, if_neg ne, hx]
  have zero : (Δ.bind z .bool).get? z = some .bool := by rw [Scope.get?_bind, if_pos rfl]
  exact .letIn (.op (.bool false)) (.branch kept zero
    (hn.hasType third (by omega) fits') (hy.hasType second (by omega) fits'))

end

end Checks

/-! ## Terms -/

/-- The names that the term binds are not those of intermediate results. -/
abbrev Plain (e : Typed) : Prop :=
  ∀ x ∈ Typed.boundNames e, x.isTemporary = false

theorem orderly_lower {e : Typed} (plain : Plain e) (scope : Scope Mono) :
    Orderly scope (lower externals scope e) :=
  ((faithful_and_chosen (callsRunAs externals .accepting 0) e plain).1 scope).orderly

/-- The code of the term has this type, in a scope with the types of bound names. -/
abbrev Checked (externals : Signature) (Γ : Scope Ty) (e : Typed) (τ : Ty) : Prop :=
  Checks externals (Γ.map Ty.mono) (lower externals (Γ.map Ty.mono) e) τ.mono

/-- A choice by the term between code of one type has this type. -/
abbrev Chooses (externals : Signature) (Γ : Scope Ty) (e : Typed) : Prop :=
  ∀ ⦃yes no υ⦄, Yields externals (Γ.map Ty.mono) yes υ → Yields externals (Γ.map Ty.mono) no υ →
    Checks externals (Γ.map Ty.mono)
      (branch externals (Γ.map Ty.mono) e (lower externals (Γ.map Ty.mono) e) yes no) υ

section
variable {Γ : Scope Ty} {e e1 e2 : Typed} {σ υ : Ty}

theorem Checked.yields (h : Checked externals Γ e σ) (plain : Plain e) :
    Yields externals (Γ.map Ty.mono) (lower externals (Γ.map Ty.mono) e) σ.mono :=
  ⟨orderly_lower plain _, h⟩

theorem Yields.truth (b : Bool) : Yields externals scope (truth b) .bool := by
  have implements : Implements externals (Knf.call .accepting 0) scope (Lowering.truth b) _ :=
    .truth b
  exact ⟨implements.orderly, .truth b⟩

theorem Checked.var {x : Name} (bound : Γ.get? x = some σ) :
    Checked externals Γ (.var σ x) σ := by
  have found : (Γ.map Ty.mono).get? x = some σ.mono := by rw [Scope.get?_map, bound]; rfl
  simp only [Checked, lower, found]
  exact .of_op fun fits => .var (fits.types found)

/-- An external name is an array where it is a value. -/
theorem Checked.external {x : Name} (unbound : Γ.get? x = none)
    (known : externals.find? x = some σ) : Checked externals Γ (.var σ x) σ := by
  have missing : (Γ.map Ty.mono).get? x = none := by rw [Scope.get?_map, unbound]; rfl
  simp only [Checked, lower, missing, known]
  cases σ with
  | array ty => exact .of_op fun _ => .externArray known
  | _ =>
      refine .of_error ?_
      intro c k ty c' given
      cases given

theorem Checked.letIn {x : Name} (h1 : Checked externals Γ e1 σ)
    (h2 : Checked externals (Γ.bind x σ) e2 υ) (plain : x.isTemporary = false) :
    Checked externals Γ (.letIn υ (x, σ) e1 e2) υ := by
  refine .of_gives fun given => ?_
  obtain ⟨k1, ty1, c₁, k2, first, second, rfl⟩ := given.of_letIn
  refine ⟨h2.ty_eq second, fun few Δ fits => ?_⟩
  simp only [Knf.binders, List.length_cons, List.length_append] at few
  exact .letIn (h1.hasType first (by omega) fits)
    (h2.hasType second (by omega) (fits.bind plain _))

theorem Checked.seq (h1 : Checked externals Γ e1 .unit) (h2 : Checked externals Γ e2 υ) :
    Checked externals Γ (.seq υ e1 e2) υ := by
  refine .of_gives fun given => ?_
  obtain ⟨k1, ty1, c₁, k2, first, second, rfl⟩ := given.of_seq
  refine ⟨h2.ty_eq second, fun few Δ fits => ?_⟩
  simp only [Knf.binders, List.length_cons, List.length_append] at few
  exact .letIn (h1.hasType first (by omega) fits)
    (h2.hasType second (by omega) (fits.bindTemp (Supply.isTemporary_temp _ _) _))

theorem map_bindAll_mono (Γ : Scope Ty) (xs : List (Name × Ty)) :
    (Γ.bindAll xs).map Ty.mono = (Γ.map Ty.mono).bindAll (binders xs) :=
  Scope.map_bindAll Ty.mono Γ xs

theorem mono_fn (xs : List (Name × Ty)) (σ : Ty) :
    (Ty.fn (xs.map (·.2)) σ).mono = .fn ((binders xs).map (·.2)) σ.mono := by
  rw [Ty.mono, Ty.monoList_eq_map, binders_types]

theorem Checked.letRec {f : Name} {formals : List (Name × Ty)} {body rest : Typed}
    (h1 : Checked externals ((Γ.bind f (.fn (formals.map (·.2)) σ)).bindAll formals) body σ)
    (h2 : Checked externals (Γ.bind f (.fn (formals.map (·.2)) σ)) rest υ)
    (plain : ∀ x ∈ f :: formals.map (·.1), x.isTemporary = false) :
    Checked externals Γ (.letRec υ (f, .fn (formals.map (·.2)) σ) formals body rest) υ := by
  rw [Checked, map_bindAll_mono, Scope.map_bind] at h1
  rw [Checked, Scope.map_bind] at h2
  rw [List.forall_mem_cons] at plain
  have names := binders_names formals
  refine .of_gives fun given => ?_
  obtain ⟨k1, ty1, c₁, k2, first, second, rfl⟩ := given.of_letRec
  refine ⟨h2.ty_eq second, fun few Δ fits => ?_⟩
  simp only [Knf.binders, List.length_cons, List.length_append] at few
  have outer := fits.bind plain.1 (Ty.fn (formals.map (·.2)) σ).mono
  have typed1 := h1.hasType first (by omega) (outer.bindAll (names ▸ plain.2))
  have typed2 := h2.hasType second (by omega) outer
  rw [mono_fn] at typed1 typed2 ⊢
  exact .letRec typed1 typed2

theorem Checked.letTuple {pattern : List (Name × Ty)}
    (h1 : Checked externals Γ e1 (.tuple (pattern.map (·.2))))
    (h2 : Checked externals (Γ.bindAll pattern) e2 υ) (plain1 : Plain e1)
    (plain : ∀ x ∈ pattern.map (·.1), x.isTemporary = false) :
    Checked externals Γ (.letTuple υ pattern e1 e2) υ := by
  rw [Checked, map_bindAll_mono] at h2
  have names := binders_names pattern
  have tuple : (Ty.tuple (pattern.map (·.2))).mono = .tuple ((binders pattern).map (·.2)) := by
    rw [Ty.mono, Ty.monoList_eq_map, binders_types]
  refine .of_operands (.cons (h1.yields plain1) .nil) ?_
  intro c k ty c' given
  obtain ⟨y, p, c₁, k2, first, second, rfl⟩ := given.of_letTuple
  refine ⟨[y], p, _, _, first, rfl, h2.ty_eq second, ?_⟩
  rintro few - Δ fits (_ | ⟨hy, _ | _⟩)
  simp only [Knf.binders, List.length_append] at few
  rw [tuple] at hy
  exact .letTuple hy (h2.hasType second (by omega) (fits.bindAll (names ▸ plain)))

theorem Checked.list {es : List Typed} (h : ∀ a ∈ es, Checked externals Γ a (Typed.ty a))
    (plain : ∀ a ∈ es, Plain a) :
    List.Forall₂ (Yields externals (Γ.map Ty.mono)) (es.map (lower externals (Γ.map Ty.mono)))
      ((es.map Typed.ty).map Ty.mono) := by
  rw [List.map_map, List.forall₂_map_left_iff, List.forall₂_map_right_iff]
  exact List.forall₂_same.mpr fun a ha => (h a ha).yields (plain a ha)

theorem Checked.tuple {es : List Typed} (h : ∀ a ∈ es, Checked externals Γ a (Typed.ty a))
    (plain : ∀ a ∈ es, Plain a) :
    Checked externals Γ (.tuple (.tuple (es.map Typed.ty)) es) (.tuple (es.map Typed.ty)) := by
  refine .of_operands (Checked.list h plain) ?_
  intro c k ty c' given
  obtain ⟨xs, p, first, rfl, rfl⟩ := given.of_tuple
  refine ⟨xs, p, _, _, first, rfl, rfl, ?_⟩
  intro _ _ Δ _ types
  rw [Ty.mono, Ty.monoList_eq_map]
  exact .op (.tuple types)

theorem Checked.array (h1 : Checked externals Γ e1 .int) (h2 : Checked externals Γ e2 σ)
    (note : e2.note = σ) (plain1 : Plain e1) (plain2 : Plain e2) :
    Checked externals Γ (.array (.array σ) e1 e2) (.array σ) := by
  refine .of_operands (.cons (h1.yields plain1) (.cons (h2.yields plain2) .nil)) ?_
  intro c k ty c' given
  obtain ⟨x, y, p, first, rfl, rfl⟩ := given.of_array
  rw [note]
  exact ⟨[x, y], p, _, _, first, rfl, rfl, fun _ _ _ _ types => .externApp (.createArray σ) types⟩

theorem Checked.put {e3 : Typed} (h1 : Checked externals Γ e1 (.array σ))
    (h2 : Checked externals Γ e2 .int) (h3 : Checked externals Γ e3 σ) (plain1 : Plain e1)
    (plain2 : Plain e2) (plain3 : Plain e3) : Checked externals Γ (.put .unit e1 e2 e3) .unit := by
  refine .of_operands
    (.cons (h1.yields plain1) (.cons (h2.yields plain2) (.cons (h3.yields plain3) .nil))) ?_
  intro c k ty c' given
  obtain ⟨x, y, z, p, first, rfl, rfl⟩ := given.of_put
  refine ⟨[x, y, z], p, _, _, first, rfl, rfl, ?_⟩
  rintro - - Δ - (_ | ⟨hx, _ | ⟨hy, _ | ⟨hz, _ | _⟩⟩⟩)
  exact .op (.put hx hy hz)

/-- The callee is external only if no name in scope hides it, and then the signature has
    its type. -/
theorem calls_of_externalCallee {f : Name} {τs : List Ty}
    (found : externalCallee externals (Γ.map Ty.mono) e = .ok (some f))
    (h : Typing.HasType externals Γ e (.fn τs σ)) :
    externals.Calls f (τs.map Ty.mono) σ.mono := by
  cases e
  case var ty x =>
    rw [externalCallee] at found
    split at found
    · cases found
    · rename_i unbound
      split at found
      · rename_i ps r known
        cases found
        cases h with
        | var bound =>
            rw [Scope.contains, Scope.get?_map, bound] at unbound
            exact absurd rfl unbound
        | external _ known' =>
            rw [known] at known'
            cases known'
            exact .listed known
      · cases found
  all_goals cases found

theorem Checked.app {es : List Typed}
    (typed : Typing.HasType externals Γ e (.fn (es.map Typed.ty) σ))
    (he : Checked externals Γ e (.fn (es.map Typed.ty) σ)) (plainCallee : Plain e)
    (h : ∀ a ∈ es, Checked externals Γ a (Typed.ty a)) (plain : ∀ a ∈ es, Plain a) :
    Checked externals Γ (.app σ e es) σ := by
  cases found : externalCallee externals (Γ.map Ty.mono) e with
  | error err =>
      refine .of_error ?_
      intro c k ty c' given
      obtain ⟨f, right⟩ := given.externalCallee_of_app
      cases found.symm.trans right
  | ok f =>
      cases f with
      | some f =>
          refine .of_operands (Checked.list h plain) ?_
          intro c k ty c' given
          obtain ⟨xs, p, first, rfl, rfl⟩ := given.of_app_external found
          exact ⟨xs, p, _, _, first, rfl, rfl,
            fun _ _ _ _ types => .externApp (calls_of_externalCallee found typed) types⟩
      | none =>
          refine .of_operands (.cons (he.yields plainCallee) (Checked.list h plain)) ?_
          intro c k ty c' given
          obtain ⟨x, xs, p, first, rfl, rfl⟩ := given.of_app_function found
          refine ⟨x :: xs, p, _, _, first, rfl, rfl, ?_⟩
          rintro - - Δ - (_ | ⟨hx, hxs⟩)
          rw [Ty.mono, Ty.monoList_eq_map] at hx
          exact .app hx hxs

theorem Checked.chooses (h : Checked externals Γ e .bool) (plain : Plain e)
    (tested : isTested e = true) : Chooses externals Γ e := by
  intro yes no υ hy hn
  rw [branch_eq_testThen tested]
  exact .testThen (h.yields plain) hy hn

/-- The code of a term has the type of the term, as a value and as a condition. -/
theorem checked_and_chooses (h : Typing.HasType externals Γ e σ) (plain : Plain e) :
    Checked externals Γ e σ ∧ (σ = .bool → Chooses externals Γ e) := by
  -- all terms but negations and comparisons are computed first where they are conditions
  have tested : ∀ {Γ e σ}, Plain e → isTested e = true → Checked externals Γ e σ →
      Checked externals Γ e σ ∧ (σ = .bool → Chooses externals Γ e) := by
    intro Γ e σ plain tested h
    refine ⟨h, ?_⟩
    rintro rfl
    exact h.chooses plain tested
  induction h with
  | unit =>
      refine tested plain rfl ?_
      rw [Checked, lower]
      exact .of_op fun _ => .unit
  | @bool Γ b =>
      refine tested plain rfl ?_
      rw [Checked, lower]
      exact .truth b
  | int =>
      refine tested plain rfl ?_
      rw [Checked, lower]
      exact .of_op fun _ => .int
  | float =>
      refine tested plain rfl ?_
      rw [Checked, lower]
      exact .of_op fun _ => .float
  | var bound => exact tested plain rfl (.var bound)
  | external unbound known => exact tested plain rfl (.external unbound known)
  | not _ ih =>
      rw [Plain, Typed.boundNames] at plain
      have choose := (ih plain).2 rfl
      refine ⟨?_, fun _ yes no υ hy hn => ?_⟩
      · rw [Checked, lower]
        exact choose (.truth false) (.truth true)
      · rw [branch]
        exact choose hn hy
  | @negate Γ op e _ ih =>
      refine tested plain rfl ?_
      rw [Plain, Typed.boundNames] at plain
      rw [Checked, lower]
      exact .unary ((ih plain).1.yields plain) .negate
  | @arith Γ op l r _ _ ihl ihr =>
      refine tested plain rfl ?_
      rw [Plain, Typed.boundNames, List.forall_mem_append] at plain
      rw [Checked, lower]
      exact .binary ((ihl plain.1).1.yields plain.1) ((ihr plain.2).1.yields plain.2) .arith
  | @compare Γ op l r υ _ _ ihl ihr =>
      rw [Plain, Typed.boundNames, List.forall_mem_append] at plain
      have left := (ihl plain.1).1.yields plain.1
      have right := (ihr plain.2).1.yields plain.2
      refine ⟨?_, fun _ yes no υ hy hn => ?_⟩
      · rw [Checked, lower]
        exact .compareThen left right (.truth true) (.truth false) op
      · rw [branch]
        exact .compareThen left right hy.toChecks hn.toChecks op
  | @ifThenElse Γ c t e τ _ _ _ ihc iht ihe =>
      refine tested plain rfl ?_
      rw [Plain, Typed.boundNames, List.forall_mem_append, List.forall_mem_append] at plain
      obtain ⟨hc, ht, he⟩ := plain
      rw [Checked, lower]
      exact (ihc hc).2 rfl ((iht ht).1.yields ht) ((ihe he).1.yields he)
  | letIn _ _ ih1 ih2 =>
      refine tested plain rfl ?_
      rw [Plain, Typed.boundNames, List.forall_mem_cons, List.forall_mem_append] at plain
      exact .letIn (ih1 plain.2.1).1 (ih2 plain.2.2).1 plain.1
  | letRec _ _ ih1 ih2 =>
      refine tested plain rfl ?_
      rw [Plain, Typed.boundNames, ← List.cons_append, List.forall_mem_append,
        List.forall_mem_append] at plain
      exact .letRec (ih1 plain.2.1).1 (ih2 plain.2.2).1 plain.1
  | app typed _ ih ihs =>
      refine tested plain rfl ?_
      rw [Plain, Typed.forall_boundNames_app] at plain
      exact .app typed (ih plain.1).1 plain.1 (fun a ha => (ihs a ha (plain.2 a ha)).1) plain.2
  | tuple _ ihs =>
      refine tested plain rfl ?_
      rw [Plain, Typed.boundNames, Typed.forall_boundNamesList] at plain
      exact .tuple (fun a ha => (ihs a ha (plain a ha)).1) plain
  | letTuple _ _ ih1 ih2 =>
      refine tested plain rfl ?_
      rw [Plain, Typed.boundNames, List.forall_mem_append, List.forall_mem_append] at plain
      obtain ⟨hxs, h1, h2⟩ := plain
      exact .letTuple (ih1 h1).1 (ih2 h2).1 h1 hxs
  | @array Γ len init τ _ typed ihl ihi =>
      refine tested plain rfl ?_
      rw [Plain, Typed.boundNames, List.forall_mem_append] at plain
      exact .array (ihl plain.1).1 (ihi plain.2).1 typed.ty_eq plain.1 plain.2
  | get _ _ iha ihi =>
      refine tested plain rfl ?_
      rw [Plain, Typed.boundNames, List.forall_mem_append] at plain
      rw [Checked, lower]
      exact .binary ((iha plain.1).1.yields plain.1) ((ihi plain.2).1.yields plain.2) .get
  | put _ _ _ iha ihi ihv =>
      refine tested plain rfl ?_
      rw [Plain, Typed.boundNames, List.forall_mem_append, List.forall_mem_append] at plain
      obtain ⟨ha, hi, hv⟩ := plain
      exact .put (iha ha).1 (ihi hi).1 (ihv hv).1 ha hi hv
  | seq _ _ ih1 ih2 =>
      refine tested plain rfl ?_
      rw [Plain, Typed.boundNames, List.forall_mem_append] at plain
      exact .seq (ih1 plain.1).1 (ih2 plain.2).1

end

/-! ## Programs -/

theorem names_binders (e : Typed) : e.binders.map (·.1) = Typed.boundNames e := by
  have same : ∀ es : List Typed, (∀ a ∈ es, a.binders.map (·.1) = Typed.boundNames a) →
      (Term.bindersList es).map (·.1) = Typed.boundNamesList es := by
    intro es h
    induction es with
    | nil => rfl
    | cons a es ih =>
        rw [List.forall_mem_cons] at h
        rw [Term.bindersList, Typed.boundNamesList, List.map_append, h.1, ih h.2]
  induction e using Term.induct with
  | app n e es he hes =>
      simp only [Term.binders, Typed.boundNames, List.map_append, he, same es hes]
  | tuple n es hes => simp only [Term.binders, Typed.boundNames, same es hes]
  | _ => simp only [Term.binders, Typed.boundNames, List.map_append, List.map_cons, List.map_nil, *]

/-- Terms that are the same but for their notes bind the same names. -/
theorem names_eq_of_erase_eq {Note Ann Note' Ann' : Type} {e : Term Note Ann}
    {t : Term Note' Ann'} (h : t.erase = e.erase) :
    t.binders.map (·.1) = e.binders.map (·.1) := by
  have names := congrArg (fun u => u.binders.map (·.1)) h
  simp only [Term.erase, Term.binders_map, List.map_map] at names
  exact names

theorem program_hasType {e : Source} {externals : Signature} {t : Typed}
    (accepted : (Typing.outcome e externals).result = .ok t)
    (plain : ∀ x ∈ e.binders.map (·.1), x.isTemporary = false) {c c' : Supply} {k : Knf}
    {ty : Mono}
    (lowered : Gives (program (Typing.outcome e externals).externals t) c (k, ty) c')
    (few : k.binders.length ≤ 2 ^ 32) :
    ty = .unit ∧ k.HasType (Typing.outcome e externals).externals .empty .unit := by
  obtain ⟨erased, derivation⟩ := Typing.accepted_typed accepted
  rw [← names_eq_of_erase_eq erased, names_binders] at plain
  have checks := (checked_and_chooses derivation plain).1
  obtain rfl : ty = .unit := checks.ty_eq lowered
  exact ⟨rfl, checks.hasType lowered few .empty⟩

/-- Lowering preserves types.  The code of an accepted program, lowered with the signature
    that inference leaves, has the type of the program, which is that of units, with the
    types that are written on its binders. -/
theorem program_preserves_types (e : Source) (externals : Signature) (t : Typed)
    (accepted : (Typing.outcome e externals).result = .ok t)
    (plain : ∀ x ∈ e.binders.map (·.1), x.isTemporary = false) (c c' : Supply) (k : Knf)
    (ty : Mono)
    (lowered : (program (Typing.outcome e externals).externals t).run.run c = (.ok (k, ty), c'))
    (few : k.binders.length ≤ 2 ^ 32) :
    Typed.ty t = .unit ∧ ty = (Typed.ty t).mono ∧
      k.HasType (Typing.outcome e externals).externals .empty ty := by
  obtain ⟨rfl, typed⟩ := program_hasType accepted plain lowered few
  rw [(Typing.accepted_typed accepted).2.ty_eq]
  exact ⟨rfl, rfl, typed⟩

/-- A program with a truth value as a condition, a comparison as an operand, an array of
    floats and an external array whose type is found by inference. -/
def filling : Source :=
  .letRec () ("fill", none) [("n", none), ("last", none)]
    (.ifThenElse () (.not () (.var () "last"))
      (.app () (.var () "fill")
        [.arith () (.int .sub) (.var () "n") (.int () 1),
          .compare () .lt (.var () "n") (.int () 2)])
      (.put () (.var () "table") (.var () "n")
        (.get () (.array () (.var () "n") (.float () ⟨0⟩)) (.int () 0))))
    (.app () (.var () "fill") [.int () 3, .bool () false])

def fillingTyped : Typed :=
  .letRec .unit ("fill", .fn [.int, .bool] .unit) [("n", .int), ("last", .bool)]
    (.ifThenElse .unit (.not .bool (.var .bool "last"))
      (.app .unit (.var (.fn [.int, .bool] .unit) "fill")
        [.arith .int (.int .sub) (.var .int "n") (.int .int 1),
          .compare .bool .lt (.var .int "n") (.int .int 2)])
      (.put .unit (.var (.array .float) "table") (.var .int "n")
        (.get .float (.array (.array .float) (.var .int "n") (.float .float ⟨0⟩))
          (.int .int 0))))
    (.app .unit (.var (.fn [.int, .bool] .unit) "fill") [.int .int 3, .bool .bool false])

/-- Its code; the supply starts again from zero on the way. -/
def fillingCode : Knf :=
  .letRec "fill" (.fn [.int, .bool] .unit) [("n", .int), ("last", .bool)]
    (.letIn "Tb8" .bool (.op (.int 0))
      (.branch .eq "last" "Tb8"
        (.letIn "Ti5" .int
          (.letIn "Ti4" .int (.op (.int 1)) (.op (.arith (.int .sub) "n" "Ti4")))
          (.letIn "Tb7" .bool
            (.letIn "Ti6" .int (.op (.int 2))
              (.branch .le "Ti6" "n" (.op (.int 0)) (.op (.int 1))))
            (.app "fill" ["Ti5", "Tb7"])))
        (.letIn "Ta4294967295" (.array .float) (.op (.externArray "table"))
          (.letIn "Td3" .float
            (.letIn "Ta1" (.array .float)
              (.letIn "Td0" .float (.op (.float ⟨0⟩))
                (.externApp "create_float_array" ["n", "Td0"]))
              (.letIn "Ti2" .int (.op (.int 0)) (.op (.get "Ta1" "Ti2"))))
            (.op (.put "Ta4294967295" "n" "Td3"))))))
    (.letIn "Ti9" .int (.op (.int 3))
      (.letIn "Tb10" .bool (.op (.int 0)) (.app "fill" ["Ti9", "Tb10"])))

theorem filling_accepted : (Typing.outcome filling []).result = .ok fillingTyped := by
  cbv

theorem externals_filling : (Typing.outcome filling []).externals = [("table", .array .float)] := by
  cbv

theorem program_filling :
    (Typing.outcome filling []).result = .ok fillingTyped ∧
      (∀ x ∈ filling.binders.map (·.1), x.isTemporary = false) ∧
      (program (Typing.outcome filling []).externals fillingTyped).run.run ⟨4294967294⟩ =
        (.ok (fillingCode, .unit), ⟨10⟩) ∧
      fillingCode.binders.length ≤ 2 ^ 32 ∧
      Typed.ty fillingTyped = .unit ∧ .unit = (Typed.ty fillingTyped).mono ∧
      fillingCode.HasType (Typing.outcome filling []).externals .empty .unit := by
  have plain : ∀ x ∈ filling.binders.map (·.1), x.isTemporary = false := by decide
  have lowered : (program (Typing.outcome filling []).externals fillingTyped).run.run
      ⟨4294967294⟩ = (.ok (fillingCode, .unit), ⟨10⟩) := by
    rw [externals_filling]
    rfl
  have few : fillingCode.binders.length ≤ 2 ^ 32 := by decide
  exact ⟨filling_accepted, plain, lowered, few,
    program_preserves_types filling [] fillingTyped filling_accepted plain ⟨4294967294⟩ ⟨10⟩
      fillingCode .unit lowered few⟩

end Lowering

end MiddleEnd
