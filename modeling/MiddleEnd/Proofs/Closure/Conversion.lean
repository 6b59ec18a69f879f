import Mathlib
import MiddleEnd.Proofs.Closure.Evaluation
import MiddleEnd.Proofs.Knf.Drawing

/-! # Making closures preserves behaviour

A function value of K-normal code has the environment of its definition; the
closure that it becomes has a label and a few values.  The two are related
through the program: the label leads to the converted body, and what the body
needs from the environment is among the captured values.  A function that is
called by its label needs nothing from it, which the conversion found out when
it looked at the converted body.  Code and converted code then run step by step
the same way, with the same depth of calls, and get stuck at the same place.
-/

namespace MiddleEnd

namespace Name

theorem mem_insert {x y : Name} {ys : List Name} : y ∈ insert x ys ↔ y = x ∨ y ∈ ys := by
  induction ys with
  | nil => simp [insert]
  | cons z zs ih =>
      unfold insert
      split
      · simp_all
      · split
        · simp
        · simp only [List.mem_cons, ih]
          tauto

theorem mem_sorted {y : Name} {xs : List Name} : y ∈ sorted xs ↔ y ∈ xs := by
  induction xs with
  | nil => rfl
  | cons x xs ih =>
      have step : sorted (x :: xs) = insert x (sorted xs) := rfl
      rw [step, mem_insert, ih, List.mem_cons]

end Name

namespace Knf

theorem mem_outerNames {formals : List (Name × Mono)} {body : Code} {x : Name} :
    x ∈ outerNames formals body ↔ x ∈ body.freeVars ∧ x ∉ formals.map (·.1) := by
  simp [outerNames, Name.mem_sorted]

theorem mem_capturedNames {f : Name} {formals : List (Name × Mono)} {body : Code} {x : Name} :
    x ∈ capturedNames f formals body ↔
      (x ∈ body.freeVars ∧ x ∉ formals.map (·.1)) ∧ x ≠ f := by
  simp only [capturedNames, List.mem_filter, mem_outerNames, decide_eq_true_eq]

def externs : Knf → List Name
  | .op _ | .app .. => []
  | .branch _ _ _ e1 e2 | .letIn _ _ e1 e2 | .letRec _ _ _ e1 e2 => e1.externs ++ e2.externs
  | .letTuple _ _ e => e.externs
  | .externApp f _ => [f]

/-- The functions that code defines, each after those in its body. -/
def functionNames : Knf → List Name
  | .op _ | .app .. | .externApp .. => []
  | .branch _ _ _ e1 e2 | .letIn _ _ e1 e2 => e1.functionNames ++ e2.functionNames
  | .letRec f _ _ body rest => body.functionNames ++ f :: rest.functionNames
  | .letTuple _ _ e => e.functionNames

theorem capturedNames_eq_nil {f : Name} {formals : List (Name × Mono)} {body : Code}
    (h : outerNames formals body = []) : capturedNames f formals body = [] := by
  rw [capturedNames, h, List.filter_nil]

theorem mem_formals_of_outerNames_eq_nil {formals : List (Name × Mono)} {body : Code}
    (h : outerNames formals body = []) {x : Name} (hx : x ∈ body.freeVars) :
    x ∈ formals.map (·.1) := by
  by_contra outer
  have mem : x ∈ outerNames formals body := mem_outerNames.mpr ⟨hx, outer⟩
  rw [h] at mem
  cases mem

/-- How a definition is converted.  Either calls of the function in its body go by its label,
    and then nothing is free in the converted body but formals, or they do not. -/
theorem closeIn_letRec (f : Name) (ty : Mono) (formals : List (Name × Mono)) (body rest : Knf)
    (scope : Scope Mono) (known : List Name) :
    ∃ known', (known' = known ∨ known' = f :: known ∧
        outerNames formals (body.closeIn ((scope.bind f ty).bindAll formals) known').code = []) ∧
      (Knf.letRec f ty formals body rest).closeIn scope known =
        define (scope.bind f ty) f ty formals
          (capturedNames f formals (body.closeIn ((scope.bind f ty).bindAll formals) known').code)
          (body.closeIn ((scope.bind f ty).bindAll formals) known')
          (rest.closeIn (scope.bind f ty) known') := by
  rw [closeIn]
  split
  · rename_i closed
    exact ⟨f :: known, .inr ⟨rfl, closed⟩, by rw [capturedNames_eq_nil closed]⟩
  · exact ⟨known, .inl rfl, rfl⟩

/-- The names that are free in the code after a definition. -/
theorem mem_freeVars_define {inner : Scope Mono} {f : Name} {ty : Mono}
    {formals : List (Name × Mono)} {captured : List Name} {body rest : Converted} {x : Name}
    (h : x ∈ (define inner f ty formals captured body rest).code.freeVars) :
    (x ∈ rest.code.freeVars ∧ x ≠ f) ∨ x ∈ captured := by
  simp only [define] at h
  split at h
  · simpa [Code.freeVars] using h
  · rename_i unused
    exact .inl ⟨h, fun eq => unused (eq ▸ h)⟩

theorem functionNames_closeIn (e : Knf) (scope : Scope Mono) (known : List Name) :
    (e.closeIn scope known).functions.map (·.name) = e.functionNames := by
  induction e generalizing scope known with
  | op | app | externApp => rfl
  | branch test x y e1 e2 ih1 ih2 => simp [closeIn, functionNames, ih1, ih2]
  | letIn x ty e1 e2 ih1 ih2 => simp [closeIn, functionNames, ih1, ih2]
  | letRec f ty formals body rest ih1 ih2 =>
      obtain ⟨known', -, eq⟩ := closeIn_letRec f ty formals body rest scope known
      simp [eq, define, functionNames, ih1, ih2]
  | letTuple pattern y e ih => simp [closeIn, functionNames, ih]

theorem functionNames_subperm (e : Knf) : e.functionNames.Subperm e.binders := by
  induction e with
  | op | app | externApp => exact List.nil_subperm
  | branch test x y e1 e2 ih1 ih2 => exact ih1.append ih2
  | letIn x ty e1 e2 ih1 ih2 => exact (ih1.append ih2).trans (List.sublist_cons_self _ _).subperm
  | letRec f ty formals body rest ih1 ih2 =>
      refine List.perm_middle.subperm.trans ((List.subperm_cons f).mpr ?_)
      exact (ih1.append ih2).trans (List.sublist_append_right _ _).subperm
  | letTuple pattern y e ih => exact ih.trans (List.sublist_append_right _ _).subperm

/-- Conversion makes no name free. -/
theorem freeVars_closeIn (e : Knf) (scope : Scope Mono) (known : List Name) {x : Name}
    (h : x ∈ (e.closeIn scope known).code.freeVars) : x ∈ e.freeVars := by
  induction e generalizing scope known with
  | op | externApp => exact h
  | branch test y z e1 e2 ih1 ih2 =>
      simp only [closeIn, Code.freeVars, freeVars, List.mem_cons, List.mem_append] at h ⊢
      exact h.imp_right (.imp_right (.imp (ih1 _ _) (ih2 _ _)))
  | letIn y ty e1 e2 ih1 ih2 =>
      simp only [closeIn, Code.freeVars, freeVars, List.mem_append, List.mem_filter] at h ⊢
      exact h.imp (ih1 _ _) (.imp_left (ih2 _ _))
  | letRec f ty formals body rest ih1 ih2 =>
      obtain ⟨known', -, eq⟩ := closeIn_letRec f ty formals body rest scope known
      rw [eq] at h
      simp only [freeVars, List.mem_filter, List.mem_append, decide_eq_true_eq]
      rcases mem_freeVars_define h with ⟨free, ne⟩ | captured
      · exact ⟨.inr (ih2 _ _ free), ne⟩
      · obtain ⟨⟨free, outer⟩, ne⟩ := mem_capturedNames.mp captured
        exact ⟨.inl ⟨ih1 _ _ free, outer⟩, ne⟩
  | app f xs =>
      simp only [closeIn] at h
      split at h
      · exact List.mem_cons_of_mem _ h
      · exact h
  | letTuple pattern y e ih =>
      simp only [closeIn, Code.freeVars, freeVars, List.mem_cons, List.mem_filter] at h ⊢
      exact h.imp_right (.imp_left (ih _ _))

/-! ## Code that a program was made from -/

/-- The function that a definition becomes. -/
def lifted (inner : Scope Mono) (f : Name) (ty : Mono) (formals : List (Name × Mono))
    (captured : List Name) (body : Code) : Function :=
  ⟨f, ty, formals, captured.map fun z => (z, (inner.get? z).getD .int), body⟩

@[simp] theorem captured_lifted (inner : Scope Mono) (f : Name) (ty : Mono)
    (formals : List (Name × Mono)) (captured : List Name) (body : Code) :
    (lifted inner f ty formals captured body).captured.map (·.1) = captured := by
  simp [lifted, Function.comp_def]

/-- The program has the functions that the conversion of the code gives, and no name is
    bound twice or takes the name of a function that is called by its label. -/
structure Placed (P : Program) (scope : Scope Mono) (known : List Name) (e : Knf) : Prop where
  emitted : ∀ F ∈ (e.closeIn scope known).functions, P.function? F.name = some F
  nodup : e.binders.Nodup
  apart : ∀ x ∈ e.binders, x ∉ known

namespace Placed

variable {P : Program} {scope : Scope Mono} {known : List Name}

theorem branch {test : Test} {x y : Name} {e1 e2 : Knf}
    (h : Placed P scope known (.branch test x y e1 e2)) :
    Placed P scope known e1 ∧ Placed P scope known e2 := by
  obtain ⟨emitted, nodup, apart⟩ := h
  simp only [closeIn, binders, List.mem_append, List.nodup_append] at *
  exact ⟨⟨fun F hF => emitted F (.inl hF), nodup.1, fun x hx => apart x (.inl hx)⟩,
    ⟨fun F hF => emitted F (.inr hF), nodup.2.1, fun x hx => apart x (.inr hx)⟩⟩

theorem letIn {x : Name} {ty : Mono} {e1 e2 : Knf}
    (h : Placed P scope known (.letIn x ty e1 e2)) :
    Placed P scope known e1 ∧ Placed P (scope.bind x ty) known e2 ∧ x ∉ known := by
  obtain ⟨emitted, nodup, apart⟩ := h
  simp only [closeIn, binders, List.mem_append, List.nodup_append, List.nodup_cons,
    List.mem_cons] at *
  exact ⟨⟨fun F hF => emitted F (.inl hF), nodup.2.1, fun x hx => apart x (.inr (.inl hx))⟩,
    ⟨fun F hF => emitted F (.inr hF), nodup.2.2.1, fun x hx => apart x (.inr (.inr hx))⟩,
    apart x (.inl rfl)⟩

theorem letTuple {pattern : List (Name × Mono)} {y : Name} {e : Knf}
    (h : Placed P scope known (.letTuple pattern y e)) :
    Placed P (scope.bindAll pattern) known e ∧ ∀ x ∈ pattern.map (·.1), x ∉ known := by
  obtain ⟨emitted, nodup, apart⟩ := h
  simp only [closeIn, binders, List.mem_append, List.nodup_append] at *
  exact ⟨⟨emitted, nodup.2.1, fun x hx => apart x (.inr hx)⟩, fun x hx => apart x (.inl hx)⟩

/-- What a definition leaves of the names of its parts. -/
theorem letRec_names {f : Name} {ty : Mono} {formals : List (Name × Mono)} {body rest : Knf}
    (h : Placed P scope known (.letRec f ty formals body rest)) :
    f ∉ known ∧ f ∉ formals.map (·.1) ∧ (∀ x ∈ formals.map (·.1), x ∉ known) ∧
      (body.binders.Nodup ∧ ∀ x ∈ body.binders, x ∉ f :: known) ∧
      (rest.binders.Nodup ∧ ∀ x ∈ rest.binders, x ∉ f :: known) := by
  have nodup := h.nodup
  have apart := h.apart
  simp only [binders, List.nodup_cons, List.nodup_append, List.mem_append, List.mem_cons,
    not_or] at nodup apart ⊢
  refine ⟨apart f (.inl rfl), nodup.1.1, fun x hx => apart x (.inr (.inl hx)),
    ⟨nodup.2.2.1.1, fun x hx => ⟨?_, apart x (.inr (.inr (.inl hx)))⟩⟩,
    ⟨nodup.2.2.1.2.1, fun x hx => ⟨?_, apart x (.inr (.inr (.inr hx)))⟩⟩⟩
  · rintro rfl
    exact nodup.1.2.1 hx
  · rintro rfl
    exact nodup.1.2.2 hx

/-- A definition, when the parts have been converted as `guess` or as `again`. -/
theorem define_parts {f : Name} {ty : Mono} {formals : List (Name × Mono)} {body rest : Knf}
    {inner : Scope Mono} {known' captured : List Name}
    (h : Placed P scope known (.letRec f ty formals body rest))
    (sub : ∀ x ∈ known', x ∈ f :: known)
    (eq : (Knf.letRec f ty formals body rest).closeIn scope known =
      define inner f ty formals captured (body.closeIn (inner.bindAll formals) known')
        (rest.closeIn inner known')) :
    P.function? f = some (lifted inner f ty formals captured
        (body.closeIn (inner.bindAll formals) known').code) ∧
      Placed P (inner.bindAll formals) known' body ∧ Placed P inner known' rest := by
  obtain ⟨-, -, -, ⟨nodup, apart⟩, ⟨nodup', apart'⟩⟩ := h.letRec_names
  have emitted := h.emitted
  rw [eq] at emitted
  simp only [define, List.mem_append, List.mem_cons] at emitted
  refine ⟨emitted _ (.inr (.inl rfl)), ⟨?_, nodup, ?_⟩, ⟨?_, nodup', ?_⟩⟩
  · exact fun F hF => emitted F (.inl hF)
  · exact fun x hx known => apart x hx (sub x known)
  · exact fun F hF => emitted F (.inr (.inr hF))
  · exact fun x hx known => apart' x hx (sub x known)

end Placed

/-- Moreover, no function has the label of an external function that the code calls. -/
structure Installed (P : Program) (scope : Scope Mono) (known : List Name) (e : Knf) : Prop
    extends Placed P scope known e where
  externs : ∀ g ∈ e.externs, P.function? (externLabel g) = none

namespace Installed

variable {P : Program} {scope : Scope Mono} {known : List Name}

theorem branch {test : Test} {x y : Name} {e1 e2 : Knf}
    (h : Installed P scope known (.branch test x y e1 e2)) :
    Installed P scope known e1 ∧ Installed P scope known e2 := by
  have externs := List.forall_mem_append.mp h.externs
  obtain ⟨first, second⟩ := h.toPlaced.branch
  exact ⟨⟨first, externs.1⟩, ⟨second, externs.2⟩⟩

theorem letIn {x : Name} {ty : Mono} {e1 e2 : Knf}
    (h : Installed P scope known (.letIn x ty e1 e2)) :
    Installed P scope known e1 ∧ Installed P (scope.bind x ty) known e2 ∧ x ∉ known := by
  have externs := List.forall_mem_append.mp h.externs
  obtain ⟨first, second, apart⟩ := h.toPlaced.letIn
  exact ⟨⟨first, externs.1⟩, ⟨second, externs.2⟩, apart⟩

theorem letTuple {pattern : List (Name × Mono)} {y : Name} {e : Knf}
    (h : Installed P scope known (.letTuple pattern y e)) :
    Installed P (scope.bindAll pattern) known e ∧ ∀ x ∈ pattern.map (·.1), x ∉ known := by
  obtain ⟨inside, apart⟩ := h.toPlaced.letTuple
  exact ⟨⟨inside, h.externs⟩, apart⟩

theorem define_parts {f : Name} {ty : Mono} {formals : List (Name × Mono)} {body rest : Knf}
    {inner : Scope Mono} {known' captured : List Name}
    (h : Installed P scope known (.letRec f ty formals body rest))
    (sub : ∀ x ∈ known', x ∈ f :: known)
    (eq : (Knf.letRec f ty formals body rest).closeIn scope known =
      define inner f ty formals captured (body.closeIn (inner.bindAll formals) known')
        (rest.closeIn inner known')) :
    P.function? f = some (lifted inner f ty formals captured
        (body.closeIn (inner.bindAll formals) known').code) ∧
      Installed P (inner.bindAll formals) known' body ∧ Installed P inner known' rest := by
  have externs := List.forall_mem_append.mp h.externs
  obtain ⟨function, body, rest⟩ := h.toPlaced.define_parts sub eq
  exact ⟨function, ⟨body, externs.1⟩, ⟨rest, externs.2⟩⟩

end Installed

/-! ## Function values and closures -/

/-- The function value is the function `f` of the program, which needs nothing from the
    environment of its definition but functions of the same kind. -/
inductive Lifted (P : Program) : Name → Value Closure → Prop where
  | mk {env : Env} {f : Name} {formals : List Name} {body : Knf} {scope : Scope Mono}
      {known : List Name} {F : Function}
      (function : P.function? f = some F)
      (names : F.formals.map (·.1) = formals)
      (captured : F.captured = [])
      (code : F.body = (body.closeIn scope (f :: known)).code)
      (free : ∀ x ∈ F.body.freeVars, x ∈ formals)
      (installed : Installed P scope (f :: known) body)
      (apart : ∀ x ∈ formals, x ∉ f :: known)
      (present : ∀ g ∈ known, (env.get? g).isSome)
      (lifted : ∀ g ∈ known, ∀ v, env.get? g = some v → Lifted P g v) :
      Lifted P f (.fn (.mk env f formals body))

/-- The functions that are called by their labels are in force. -/
def Coherent (P : Program) (known : List Name) (env : Env) : Prop :=
  ∀ g ∈ known, ∃ v, env.get? g = some v ∧ Lifted P g v

/-- The function value becomes the closure. -/
inductive Becomes (P : Program) : Closure → Code.Closure → Prop where
  | lifted {f : Name} {c : Closure} : Lifted P f (.fn c) → Becomes P c (.mk f [])
  | captured {env : Env} {f : Name} {formals : List Name} {body : Knf} {scope : Scope Mono}
      {known : List Name} {F : Function} {values : List (Value Code.Closure)}
      (function : P.function? f = some F)
      (names : F.formals.map (·.1) = formals)
      (code : F.body = (body.closeIn scope known).code)
      (free : ∀ x ∈ F.body.freeVars, x ∈ formals ∨ x = f ∨ x ∈ F.captured.map (·.1))
      (installed : Installed P scope known body)
      (apart : ∀ x ∈ formals, x ∉ known)
      (self : f ∉ known ∧ f ∉ F.captured.map (·.1))
      (coherent : Coherent P known env)
      (length : values.length = F.captured.length)
      (bound : ∀ z ∈ F.captured.map (·.1), (env.get? z).isSome)
      (related : ∀ z w, (z, w) ∈ (F.captured.map (·.1)).zip values → ∀ v, env.get? z = some v →
        Value.Rel (Becomes P) v w) :
      Becomes P (.mk env f formals body) (.mk f values)

def Agree (P : Program) (xs : List Name) (env : Env) (env' : Code.Env) : Prop :=
  ∀ x ∈ xs, ∃ v w, env.get? x = some v ∧ env'.get? x = some w ∧ Value.Rel (Becomes P) v w

/-- The body of the function value is that of the function, and what it uses besides its
    formals is in force on both sides. -/
inductive Enters (P : Program) : Closure → Function × Code.Env → Prop where
  | mk {env : Env} {f : Name} {formals : List Name} {body : Knf} {scope : Scope Mono}
      {known : List Name} {F : Function} {env' : Code.Env}
      (names : F.formals.map (·.1) = formals)
      (code : F.body = (body.closeIn scope known).code)
      (installed : Installed P scope known body)
      (apart : ∀ x ∈ formals, x ∉ known)
      (coherent : Coherent P known (env.bind f (.fn (.mk env f formals body))))
      (agree : Agree P (F.body.freeVars.filter (· ∉ formals))
        (env.bind f (.fn (.mk env f formals body))) env') :
      Enters P (.mk env f formals body) (F, env')

namespace Coherent

variable {P : Program} {known : List Name} {env : Env}

theorem bind (h : Coherent P known env) {x : Name} (hx : x ∉ known) (v : Value Closure) :
    Coherent P known (env.bind x v) := by
  intro g hg
  have ne : g ≠ x := fun eq => hx (eq ▸ hg)
  rw [Scope.get?_bind, if_neg ne]
  exact h g hg

theorem bindEach (h : Coherent P known env) {xs : List Name} (hxs : ∀ x ∈ xs, x ∉ known)
    (vs : List (Value Closure)) : Coherent P known (env.bindEach (xs.zip vs)) := by
  intro g hg
  rw [Scope.get?_bindEach_of_notMem fun mem => hxs g mem hg]
  exact h g hg

/-- A function that is called by its label enters the environment. -/
theorem define (h : Coherent P known env) {f : Name} {v : Value Closure} (hv : Lifted P f v) :
    Coherent P (f :: known) (env.bind f v) := by
  intro g hg
  rw [Scope.get?_bind]
  split
  case isTrue eq => exact ⟨v, rfl, eq ▸ hv⟩
  case isFalse ne => exact h g ((List.mem_cons.mp hg).resolve_left ne)

end Coherent

theorem Lifted.exists_fn {P : Program} {f : Name} {v : Value Closure} (h : Lifted P f v) :
    ∃ c, v = .fn c := by
  cases h with
  | mk => exact ⟨_, rfl⟩

theorem Lifted.enters {P : Program} {f : Name} {c : Closure} (h : Lifted P f (.fn c))
    (env' : Code.Env) :
    ∃ F, P.function? f = some F ∧ F.captured = [] ∧ Enters P c (F, env') := by
  have whole := h
  cases h with
  | @mk env _ formals body scope known F function names captured code free installed apart
      present lifted =>
      refine ⟨F, function, captured, .mk names code installed apart (.define ?_ whole) ?_⟩
      · intro g hg
        obtain ⟨v, hv⟩ := Option.isSome_iff_exists.mp (present g hg)
        exact ⟨v, hv, lifted g hg v hv⟩
      · intro x hx
        obtain ⟨used, outer⟩ := List.mem_filter.mp hx
        exact absurd (free x used) (by simpa using outer)

theorem Becomes.enters {P : Program} {c : Closure} {c' : Code.Closure} (h : Becomes P c c') :
    ∃ callee, c'.open? P = some callee ∧ Enters P c callee := by
  have whole := h
  cases h with
  | @lifted f c h =>
      obtain ⟨F, function, captured, enters⟩ := h.enters (Scope.empty.bind f (.fn (.mk f [])))
      refine ⟨_, ?_, enters⟩
      have name := Program.name_of_function? function
      simp [Code.Closure.open?, function, captured, name, Scope.bindEach]
  | @captured env f formals body scope known F values function names code free installed apart
      self coherent length bound related =>
      have name := Program.name_of_function? function
      have opened : (Code.Closure.mk f values).open? P =
          some (F, (Scope.empty.bind F.name (.fn (.mk f values))).bindEach
            ((F.captured.map (·.1)).zip values)) := by
        simp only [Code.Closure.open?, function, length, if_true]
      refine ⟨_, opened, .mk names code installed apart (coherent.bind self.1 _) ?_⟩
      intro x hx
      obtain ⟨used, outer⟩ := List.mem_filter.mp hx
      have outer : x ∉ formals := by simpa using outer
      by_cases eq : x = f
      · subst eq
        refine ⟨_, _, by rw [Scope.get?_bind, if_pos rfl], ?_, .fn whole⟩
        rw [Scope.get?_bindEach_of_notMem self.2, name, Scope.get?_bind, if_pos rfl]
      · have inside := ((free x used).resolve_left outer).resolve_left eq
        obtain ⟨v, hv⟩ := Option.isSome_iff_exists.mp (bound x inside)
        obtain ⟨w, hw, found⟩ := Scope.get?_bindEach_of_mem
          (s := Scope.empty.bind F.name (Value.fn (Code.Closure.mk f values)))
          (by simpa using length) inside
        exact ⟨v, w, by rw [Scope.get?_bind, if_neg eq, hv], found, related x w hw v hv⟩

/-! ## Converted code does what the code does -/

namespace Agree

variable {P : Program} {xs ys : List Name} {env : Env} {env' : Code.Env}

theorem carries (h : Agree P xs env env') {x : Name} (hx : x ∈ xs) :
    Direction.Carries .same (Value.Rel (Becomes P)) (env.get? x) (env'.get? x) := by
  obtain ⟨v, w, hv, hw, rel⟩ := h x hx
  rw [hv, hw]
  exact .some rel

theorem carriesAll (h : Agree P xs env env') (sub : ys ⊆ xs) :
    Direction.Carries .same (List.Forall₂ (Value.Rel (Becomes P))) (lookAll env.get? ys)
      (lookAll env'.get? ys) := by
  refine .lookAll (List.forall₂_same.mpr ?_)
  intro y hy
  exact h.carries (sub hy)

theorem lookAll (h : Agree P xs env env') : ∃ ws, lookAll env'.get? xs = some ws := by
  induction xs with
  | nil => exact ⟨[], rfl⟩
  | cons x xs ih =>
      obtain ⟨ws, hws⟩ := ih fun y hy => h y (List.mem_cons_of_mem _ hy)
      obtain ⟨-, w, -, hw, -⟩ := h x (List.mem_cons_self ..)
      exact ⟨w :: ws, by simp only [MiddleEnd.lookAll, hw, hws]⟩

theorem mono (h : Agree P xs env env') (sub : ys ⊆ xs) : Agree P ys env env' :=
  fun y hy => h y (sub hy)

theorem bind {x : Name} {v : Value Closure} {w : Value Code.Closure}
    (h : Agree P (xs.filter (· ≠ x)) env env') (rel : Value.Rel (Becomes P) v w) :
    Agree P xs (env.bind x v) (env'.bind x w) := by
  intro y hy
  simp only [Scope.get?_bind]
  by_cases eq : y = x
  · rw [if_pos eq, if_pos eq]
    exact ⟨v, w, rfl, rfl, rel⟩
  · rw [if_neg eq, if_neg eq]
    exact h y (List.mem_filter.mpr ⟨hy, by simpa using eq⟩)

/-- Only the code before the conversion binds a name, which is not used. -/
theorem skip {x : Name} (h : Agree P xs env env') (hx : x ∉ xs) (v : Value Closure) :
    Agree P xs (env.bind x v) env' := by
  intro y hy
  have ne : y ≠ x := fun eq => hx (eq ▸ hy)
  rw [Scope.get?_bind, if_neg ne]
  exact h y hy

theorem bindEach {names : List Name} {vs : List (Value Closure)} {ws : List (Value Code.Closure)}
    (h : Agree P (xs.filter (· ∉ names)) env env')
    (rel : List.Forall₂ (Value.Rel (Becomes P)) vs ws) (full : vs.length = names.length) :
    Agree P xs (env.bindEach (names.zip vs)) (env'.bindEach (names.zip ws)) := by
  intro y hy
  by_cases mem : y ∈ names
  · exact Scope.get?_bindEach_rel env env' rel full mem
  · rw [Scope.get?_bindEach_of_notMem mem, Scope.get?_bindEach_of_notMem mem]
    exact h y (List.mem_filter.mpr ⟨hy, by simpa using mem⟩)

end Agree

section
variable {W : Outside} {P : Program}

abbrev RunsAs (P : Program) (x : Run W Closure (Value Closure))
    (y : Run W Code.Closure (Value Code.Closure)) : Prop :=
  Run.Sim .same (Becomes P) (Value.Rel (Becomes P)) x y

/-- A function value that needs no closure is made where the definition stands. -/
theorem lifted_of_installed {scope : Scope Mono} {known : List Name} {f : Name} {ty : Mono}
    {formals : List (Name × Mono)} {body rest : Knf} {env : Env}
    (h : Installed P scope known (.letRec f ty formals body rest))
    (closed : outerNames formals
      (body.closeIn ((scope.bind f ty).bindAll formals) (f :: known)).code = [])
    (coherent : Coherent P known env) :
    Installed P (scope.bind f ty) (f :: known) rest ∧
      Lifted P f (.fn (.mk env f (formals.map (·.1)) body)) := by
  obtain ⟨-, notFormal, apart, -, -⟩ := h.letRec_names
  obtain ⟨function, inBody, inRest⟩ := h.define_parts (fun _ hx => hx) (by
    rw [closeIn, if_pos closed])
  refine ⟨inRest, .mk function rfl rfl rfl ?_ inBody ?_ ?_ ?_⟩
  · exact fun x hx => mem_formals_of_outerNames_eq_nil closed hx
  · intro x hx
    have ne : x ≠ f := fun eq => notFormal (eq ▸ hx)
    exact List.not_mem_cons_of_ne_of_not_mem ne (apart x hx)
  · intro g hg
    obtain ⟨v, hv, -⟩ := coherent g hg
    exact Option.isSome_of_eq_some hv
  · intro g hg v hv
    obtain ⟨w, hw, lifted⟩ := coherent g hg
    rw [hw] at hv
    exact Option.some.inj hv ▸ lifted

/-- A function value becomes the closure that is made where the definition stands. -/
theorem becomes_of_installed {scope : Scope Mono} {known : List Name} {f : Name} {ty : Mono}
    {formals : List (Name × Mono)} {body rest : Knf} {env : Env} {env' : Code.Env}
    {values : List (Value Code.Closure)} {code : Code}
    (h : Installed P scope known (.letRec f ty formals body rest))
    (open_ : outerNames formals
      (body.closeIn ((scope.bind f ty).bindAll formals) (f :: known)).code ≠ [])
    (hcode : code = (body.closeIn ((scope.bind f ty).bindAll formals) known).code)
    (coherent : Coherent P known env)
    (agree : Agree P (capturedNames f formals code) env env')
    (found : lookAll env'.get? (capturedNames f formals code) = some values) :
    Becomes P (.mk env f (formals.map (·.1)) body) (.mk f values) := by
  subst hcode
  obtain ⟨notKnown, -, apart, -, -⟩ := h.letRec_names
  obtain ⟨function, inBody, -⟩ := h.define_parts (fun _ hx => List.mem_cons_of_mem _ hx) (by
    rw [closeIn, if_neg open_])
  refine .captured function rfl rfl ?_ inBody apart ⟨notKnown, ?_⟩ coherent ?_ ?_ ?_
  · intro x hx
    simp only [captured_lifted, mem_capturedNames]
    tauto
  · simp only [captured_lifted, mem_capturedNames]
    tauto
  · simpa [lifted] using lookAll_length found
  · intro z hz
    rw [captured_lifted] at hz
    obtain ⟨v, -, hv, -, -⟩ := agree z hz
    exact Option.isSome_of_eq_some hv
  · intro z w hzw v hv
    rw [captured_lifted] at hzw
    obtain ⟨v', w', hv', hw', rel⟩ := agree z (List.of_mem_zip hzw).1
    have same := lookAll_of_mem_zip found hzw
    rw [hv] at hv'
    rw [hw'] at same
    cases hv'
    cases same
    exact rel

/-- Converted code does what the code does, if calls do. -/
theorem Installed.runsAs {n : Nat} {scope : Scope Mono} {known : List Name} {e : Knf} {env : Env}
    {env' : Code.Env} (h : Installed P scope known e)
    (calls : ∀ {c callee args args'}, Enters P c callee →
      List.Forall₂ (Value.Rel (Becomes P)) args args' →
      RunsAs P (call W n c args) (Program.call W P n callee args'))
    (coherent : Coherent P known env)
    (agree : Agree P (e.closeIn scope known).code.freeVars env env') :
    RunsAs P (e.evalWith (call W n) env)
      ((e.closeIn scope known).code.evalWith P (Program.call W P n) env') := by
  induction e generalizing scope known env env' with
  | op o => exact Op.eval_sim o fun x hx => agree.carries hx
  | branch test x y e1 e2 ih1 ih2 =>
      simp only [closeIn, Code.freeVars] at agree
      refine .bind (.ofOption (agree.carries (by simp))) fun v v' hv => ?_
      refine .bind (.ofOption (agree.carries (by simp))) fun w w' hw => ?_
      rw [hv.test _ hw]
      refine .bind (.ofOption (.refl _ _)) ?_
      rintro b _ rfl
      cases b with
      | true =>
          refine ih1 h.branch.1 coherent (agree.mono fun z hz => ?_)
          simp [hz]
      | false =>
          refine ih2 h.branch.2 coherent (agree.mono fun z hz => ?_)
          simp [hz]
  | letIn x ty e1 e2 ih1 ih2 =>
      simp only [closeIn, Code.freeVars] at agree
      obtain ⟨first, second, notKnown⟩ := h.letIn
      have left := agree.mono (List.subset_append_left _ _)
      have right := agree.mono (List.subset_append_right _ _)
      refine .bind (ih1 first coherent left) fun v v' hv => ?_
      exact ih2 second (coherent.bind notKnown v) (right.bind hv)
  | letRec f ty formals body rest _ ih =>
      by_cases closed : outerNames formals
          (body.closeIn ((scope.bind f ty).bindAll formals) (f :: known)).code = []
      · obtain ⟨inRest, lifted⟩ := lifted_of_installed h closed coherent
        rw [closeIn, if_pos closed] at agree ⊢
        simp only [define] at agree ⊢
        split at agree
        case isTrue used =>
            simp only [Code.freeVars, List.append_nil] at agree
            simp only [used, if_true, Code.evalWith, lookAll, Run.ofOption_some, Run.pure_bind]
            exact ih inRest (coherent.define lifted) (agree.bind (.fn (.lifted lifted)))
        case isFalse unused =>
            simp only [unused, if_false]
            exact ih inRest (coherent.define lifted) (agree.skip unused _)
      · obtain ⟨notKnown, -, -, -, -⟩ := h.letRec_names
        obtain ⟨-, -, inRest⟩ := h.define_parts (fun _ hx => List.mem_cons_of_mem _ hx) (by
          rw [closeIn, if_neg closed])
        rw [closeIn, if_neg closed] at agree ⊢
        simp only [define] at agree ⊢
        split at agree
        case isTrue used =>
            simp only [Code.freeVars] at agree
            simp only [used, if_true, Code.evalWith]
            have inside := agree.mono (List.subset_append_right _ _)
            obtain ⟨values, found⟩ := inside.lookAll
            rw [found, Run.ofOption_some, Run.pure_bind]
            have becomes := becomes_of_installed h closed rfl coherent inside found
            refine ih inRest (coherent.bind notKnown _) (.bind (agree.mono ?_) (.fn becomes))
            exact List.subset_append_left _ _
        case isFalse unused =>
            simp only [unused, if_false]
            exact ih inRest (coherent.bind notKnown _) (agree.skip unused _)
  | app f xs =>
      simp only [closeIn] at agree ⊢
      split at agree
      case isTrue isKnown =>
          obtain ⟨v, hv, lifted⟩ := coherent f isKnown
          obtain ⟨c, rfl⟩ := lifted.exists_fn
          obtain ⟨F, function, -, enters⟩ := lifted.enters .empty
          simp only [isKnown, if_true, evalWith, Code.evalWith, hv, function, Run.ofOption_some,
            Run.pure_bind, Value.function?]
          refine .bind (.ofOption (agree.carriesAll (List.Subset.refl _))) ?_
          intro args args' hargs
          exact calls enters hargs
      case isFalse unknown =>
          simp only [unknown, if_false]
          refine .bind (.ofOption (agree.carries (List.mem_cons_self ..))) fun v v' hv => ?_
          refine .bind (.ofOption (agree.carriesAll (List.subset_cons_self ..))) ?_
          intro args args' hargs
          refine .bind (.ofOption (.of_rel _ hv.function?)) fun c c' hc => ?_
          obtain ⟨callee, opened, enters⟩ := hc.enters
          rw [opened, Run.ofOption_some, Run.pure_bind]
          exact calls enters hargs
  | letTuple pattern y e ih =>
      simp only [closeIn, Code.freeVars] at agree
      obtain ⟨inside, apart⟩ := h.letTuple
      refine .bind (.ofOption (agree.carries (List.mem_cons_self ..))) fun v v' hv => ?_
      refine .bind (.ofOption (.of_rel _ hv.components?)) fun vs vs' hvs => ?_
      rw [← hvs.length_eq]
      split
      case isTrue full =>
          refine ih inside (coherent.bindEach apart vs) (.bindEach ?_ hvs (by simpa using full))
          exact agree.mono (List.subset_cons_self ..)
      case isFalse => exact .stuck
  | externApp f xs =>
      have unused := h.externs f (List.mem_singleton.mpr rfl)
      simp only [closeIn, evalWith, Code.evalWith, unused, externName?_externLabel,
        Run.ofOption_some, Run.pure_bind]
      refine .bind (.ofOption (agree.carriesAll (List.Subset.refl _))) ?_
      intro args args' hargs
      exact .external f hargs

/-- A call of a function does what the call of the function value does. -/
theorem Enters.runsAs (n : Nat) {c : Closure} {callee : Function × Code.Env}
    {args : List (Value Closure)} {args' : List (Value Code.Closure)} (h : Enters P c callee)
    (hargs : List.Forall₂ (Value.Rel (Becomes P)) args args') :
    RunsAs P (call W n c args) (Program.call W P n callee args') := by
  induction n generalizing c callee args args' with
  | zero => exact .unfinished
  | succ n ih =>
      cases h with
      | @mk env f formals body scope known F env' names code installed apart coherent agree =>
          subst names
          simp only [call, Program.call, ← hargs.length_eq, List.length_map]
          split
          case isTrue full =>
              rw [code] at agree ⊢
              refine installed.runsAs ih (coherent.bindEach apart args) ?_
              exact agree.bindEach hargs (by simpa using full)
          case isFalse => exact .stuck

end

/-! ## Programs -/

/-- In a list of functions with different names, a name selects one function. -/
theorem filter_name_of_mem {functions : List Function} {F : Function}
    (nodup : (functions.map (·.name)).Nodup) (h : F ∈ functions) :
    functions.filter (·.name = F.name) = [F] := by
  induction functions with
  | nil => cases h
  | cons G functions ih =>
      obtain ⟨notin, nodup⟩ := List.nodup_cons.mp nodup
      rcases List.mem_cons.mp h with rfl | h
      · have others : ∀ G ∈ functions, G.name ≠ F.name := by
          intro G hG eq
          exact notin (List.mem_map.mpr ⟨G, hG, eq⟩)
        simpa using others
      · have ne : G.name ≠ F.name := by
          intro eq
          exact notin (List.mem_map.mpr ⟨F, h, eq.symm⟩)
        simpa [ne] using ih nodup h

theorem find?_name_of_mem {functions : List Function} {F : Function}
    (nodup : (functions.map (·.name)).Nodup) (h : F ∈ functions) :
    functions.find? (·.name = F.name) = some F := by
  rw [← List.head?_filter, filter_name_of_mem nodup h, List.head?_cons]

theorem nodup_functionNames {e : Knf} (distinct : e.binders.Nodup) :
    (e.toProgram.functions.map (·.name)).Nodup := by
  obtain ⟨ws, perm, sublist⟩ := functionNames_subperm e
  rw [toProgram, functionNames_closeIn]
  exact perm.nodup_iff.mp (distinct.sublist sublist)

theorem placed_toProgram {e : Knf} (distinct : e.binders.Nodup) :
    Placed e.toProgram .empty [] e := by
  refine ⟨?_, distinct, fun _ _ => List.not_mem_nil⟩
  intro F hF
  exact find?_name_of_mem (nodup_functionNames distinct) hF

theorem installed_toProgram {e : Knf} (distinct : e.binders.Nodup)
    (labels : ∀ g ∈ e.externs, externLabel g ∉ e.functionNames) :
    Installed e.toProgram .empty [] e := by
  refine ⟨placed_toProgram distinct, ?_⟩
  intro g hg
  refine List.find?_eq_none.mpr ?_
  intro F hF
  have mem : F.name ∈ e.functionNames :=
    functionNames_closeIn e .empty [] ▸ List.mem_map_of_mem hF
  simp only [decide_eq_true_eq]
  exact fun eq => labels g hg (eq ▸ mem)

/-- A program and what it is converted to run the same way, bound by bound. -/
theorem matches_toProgram (W : Outside) {e : Knf} (closed : e.freeVars = [])
    (distinct : e.binders.Nodup) (labels : ∀ g ∈ e.externs, externLabel g ∉ e.functionNames) :
    (e.runs W).Matches (e.toProgram.runs W) := by
  refine .of_sim (R := Becomes e.toProgram) fun n => ?_
  have installed := installed_toProgram distinct labels
  refine installed.runsAs (fun enters hargs => enters.runsAs n hargs) ?_ ?_ _ _
    (Memory.rel_start W (Becomes e.toProgram))
  · intro g hg
    cases hg
  · intro x hx
    have free := freeVars_closeIn e .empty [] hx
    rw [closed] at free
    cases free

/-- Making closures preserves behaviour: a closed program with different binders, none of
    whose functions takes the label of an external function that it calls, gets stuck if
    and only if the program with closures does, and ends if and only if that one does,
    with the same effects, the same visible result and the same visible memory. -/
theorem toProgram_preserves_behaviour (W : Outside) (e : Knf) (closed : e.freeVars = [])
    (distinct : e.binders.Nodup) (labels : ∀ g ∈ e.externs, externLabel g ∉ e.functionNames) :
    ((e.runs W).Safe ↔ (e.toProgram.runs W).Safe) ∧
      (e.runs W).SameBehaviour (e.toProgram.runs W) := by
  have same := matches_toProgram W closed distinct labels
  exact ⟨same.safe_iff, same.sameBehaviour⟩

/-- A function that captures a name is handed to one that is called by its label. -/
def applyingTwice : Knf :=
  .letIn "a" .int (.op (.int 3))
    (.letRec "add" (.fn [.int] .int) [("x", .int)] (.op (.arith (.int .add) "x" "a"))
      (.letRec "twice" (.fn [.fn [.int] .int, .int] .int) [("h", .fn [.int] .int), ("n", .int)]
        (.letIn "m" .int (.app "h" ["n"]) (.app "h" ["m"]))
        (.letIn "r" .int (.app "twice" ["add", "a"]) (.externApp "print_int" ["r"]))))

theorem toProgram_applyingTwice :
    applyingTwice.freeVars = [] ∧ applyingTwice.binders.Nodup ∧
    (∀ g ∈ applyingTwice.externs, externLabel g ∉ applyingTwice.functionNames) ∧
    (((applyingTwice.runs .accepting).Safe ↔ (applyingTwice.toProgram.runs .accepting).Safe) ∧
      (applyingTwice.runs .accepting).SameBehaviour (applyingTwice.toProgram.runs .accepting)) :=
  ⟨by decide, by decide, by decide,
    toProgram_preserves_behaviour .accepting applyingTwice (by decide) (by decide) (by decide)⟩

end Knf

end MiddleEnd
