import Mathlib
import MiddleEnd.Proofs.Knf.FreeNames
import MiddleEnd.Proofs.Knf.Lowering

/-! # Lowered code is closed

Lowering looks up every name that it uses, so code that it gives uses no names but those of the
scope.  Names of intermediate results are used only inside the code that binds them.  Nothing is
asked of the names or of the types of a term: a name that hides another one is bound all the same.
-/

namespace MiddleEnd.Lowering

variable {α β : Type} {P : Name → Prop} {xs ys : List Name} {p q : Pending} {k : Knf}

/-! ## Steps -/

/-- All that the step gives has the property. -/
def Ensures (Q : α → Prop) (step : Lower α) : Prop :=
  ∀ ⦃c a c'⦄, Gives step c a c' → Q a

theorem Ensures.pure {Q : α → Prop} {a : α} (h : Q a) : Ensures Q (Pure.pure a : Lower α) := by
  intro c b c' given
  obtain ⟨rfl, -⟩ := given.of_pure
  exact h

theorem Ensures.bind {Q : α → Prop} {R : β → Prop} {step : Lower α} {next : α → Lower β}
    (h : Ensures Q step) (hnext : ∀ a, Q a → Ensures R (next a)) : Ensures R (step >>= next) := by
  intro c b c' given
  obtain ⟨a, c₁, first, second⟩ := given.of_bind
  exact hnext a (h first) second

theorem Ensures.any (step : Lower α) : Ensures (fun _ => True) step :=
  fun _ _ _ _ => trivial

/-- The code that the step gives uses only names in `P`. -/
abbrev Keeps (P : Name → Prop) (step : Lower Lowered) : Prop :=
  Ensures (fun r => r.1.Uses P) step

theorem Keeps.op {o : Op} (ty : Mono) (h : ∀ x ∈ o.names, P x) :
    Keeps P (return (.op o, ty)) :=
  .pure h

theorem Keeps.truth (b : Bool) : Keeps P (truth b) :=
  .op _ (List.forall_mem_nil P)

/-! ## Operands -/

/-- The operands use only names in `P`, and each of the names that they are given stands for one of
    them or is in `P`. -/
structure Supplied (P : Name → Prop) (r : List Name × Pending) : Prop where
  codes : ∀ p ∈ r.2, p.2.Uses P
  names : ∀ x ∈ r.1, x ∈ pendingNames r.2 ∨ P x

theorem Supplied.append (h : Supplied P (xs, p)) (h' : Supplied P (ys, q)) :
    Supplied P (xs ++ ys, p ++ q) := by
  refine ⟨List.forall_mem_append.mpr ⟨h.codes, h'.codes⟩, ?_⟩
  simp only [pendingNames_append, List.mem_append]
  rintro x (hx | hx)
  · exact (h.names x hx).imp_left .inl
  · exact (h'.names x hx).imp_left .inr

/-- Code around which operands are computed may use their names. -/
theorem uses_wrap (codes : ∀ r ∈ p, r.2.Uses P) (h : k.Uses fun u => u ∈ pendingNames p ∨ P u) :
    (wrap p k).Uses P := by
  induction p generalizing P with
  | nil => exact h.mono fun u hu => hu.resolve_left List.not_mem_nil
  | cons r p ih =>
      rw [List.forall_mem_cons] at codes
      refine ⟨codes.1, ih (fun r' hr => (codes.2 r' hr).mono fun _ => .inr) (h.mono ?_)⟩
      simp only [pendingNames, List.map_cons, List.mem_cons]
      tauto

theorem Supplied.wrap (h : Supplied P (xs, p)) (hk : k.Uses fun u => u ∈ pendingNames p ∨ P u) :
    (wrap p k).Uses P :=
  uses_wrap h.codes hk

theorem Keeps.operand {step : Lower Lowered} (h : Keeps P step) :
    Ensures (fun r => Supplied P ([r.1], r.2)) (operand step) := by
  rintro c ⟨x, p⟩ c' given
  obtain ⟨rfl, ty, first⟩ | ⟨k, ty, c₁, first, -, -, rfl⟩ := given.of_operand
  · have used : P x := h first x (List.mem_singleton_self x)
    exact ⟨List.forall_mem_nil _, List.forall_mem_singleton.mpr (.inr used)⟩
  · exact ⟨List.forall_mem_singleton.mpr (h first),
      List.forall_mem_singleton.mpr (.inl (List.mem_singleton_self x))⟩

theorem Keeps.operands {steps : List (Lower Lowered)} (h : ∀ step ∈ steps, Keeps P step) :
    Ensures (Supplied P) (operands steps) := by
  induction steps with
  | nil => exact .pure ⟨List.forall_mem_nil _, List.forall_mem_nil _⟩
  | cons step steps ih =>
      rw [List.forall_mem_cons] at h
      exact h.1.operand.bind fun r hr => (ih h.2).bind fun r' hr' => .pure (hr.append hr')

section
variable {left right yes no : Lower Lowered}

theorem Keeps.unary (h : Keeps P left) {build : Name → Op} (ty : Mono)
    (names : ∀ x, (build x).names = [x]) : Keeps P (unary left build ty) := by
  refine h.operand.bind fun r hr => .pure (hr.wrap ?_)
  rw [Knf.Uses, names]
  exact hr.names

theorem Keeps.binary (hl : Keeps P left) (hr : Keeps P right) {build : Name → Name → Op} (ty : Mono)
    (names : ∀ x y, (build x y).names = [x, y]) : Keeps P (binary left right build ty) := by
  refine hl.operand.bind fun r hr' => hr.operand.bind fun r' hr'' => .pure ?_
  have both := hr'.append hr''
  refine both.wrap ?_
  rw [Knf.Uses, names]
  exact both.names

theorem uses_comparison (op : Comparison) {x y : Name} {e1 e2 : Knf} (hx : P x) (hy : P y)
    (h1 : e1.Uses P) (h2 : e2.Uses P) : (comparison op x y e1 e2).Uses P := by
  cases op with
  | eq | le => exact ⟨hx, hy, h1, h2⟩
  | ne | gt => exact ⟨hx, hy, h2, h1⟩
  | ge => exact ⟨hy, hx, h1, h2⟩
  | lt => exact ⟨hy, hx, h2, h1⟩

theorem Keeps.compareThen (hl : Keeps P left) (hr : Keeps P right) (hy : Keeps P yes)
    (hn : Keeps P no) (op : Comparison) : Keeps P (compareThen op left right yes no) := by
  refine hl.operand.bind fun r first => hr.operand.bind fun r' second =>
    hy.bind fun e1 h1 => hn.bind fun e2 h2 => .pure ?_
  have both := first.append second
  refine both.wrap (uses_comparison op ?_ ?_ (h1.mono fun _ => .inr) (h2.mono fun _ => .inr))
  · exact both.names r.1 (by simp)
  · exact both.names r'.1 (by simp)

theorem Keeps.testThen (h : Keeps P left) (hy : Keeps P yes) (hn : Keeps P no) :
    Keeps P (testThen left yes no) := by
  refine h.operand.bind fun r first => hy.bind fun e1 h1 => hn.bind fun e2 h2 => ?_
  refine (Ensures.any _).bind fun z _ => .pure (first.wrap ?_)
  refine ⟨List.forall_mem_nil _, .inr (first.names r.1 (by simp)), .inl rfl, ?_, ?_⟩
  · exact h2.mono fun _ hu => .inr (.inr hu)
  · exact h1.mono fun _ hu => .inr (.inr hu)

end

/-! ## Terms -/

abbrev Bound (scope : Scope Mono) (x : Name) : Prop :=
  scope.contains x = true

variable {externals : Signature} {scope : Scope Mono} {e e1 e2 : Typed} {es : List Typed}

theorem bound_bind {x u : Name} {ty : Mono} (h : Bound (scope.bind x ty) u) :
    u = x ∨ Bound scope u := by
  simpa [Bound, Scope.contains_bind] using h

theorem bound_bindAll {bs : List (Name × Mono)} {u : Name} (h : Bound (scope.bindAll bs) u) :
    u ∈ bs.map (·.1) ∨ Bound scope u := by
  simpa only [Bound, Scope.contains_bindAll, Bool.or_eq_true, decide_eq_true_eq] using h

/-- The code of the term uses only names that are bound around it. -/
abbrev Closes (externals : Signature) (e : Typed) : Prop :=
  ∀ scope, Keeps (Bound scope) (lower externals scope e)

/-- So does a choice by the term. -/
abbrev ClosesChoosing (externals : Signature) (e : Typed) : Prop :=
  ∀ ⦃scope yes no⦄, Keeps (Bound scope) yes → Keeps (Bound scope) no →
    Keeps (Bound scope) (branch externals scope e (lower externals scope e) yes no)

theorem Closes.list (h : ∀ a ∈ es, Closes externals a) (scope : Scope Mono) :
    Ensures (Supplied (Bound scope)) (lowerList externals scope es) := by
  rw [lowerList_eq]
  exact Keeps.operands (List.forall_mem_map.mpr fun a ha => h a ha scope)

theorem Closes.var (ty : Ty) (x : Name) : Closes externals (.var ty x) := by
  intro scope
  rw [lower]
  split
  · rename_i found
    refine .op _ (List.forall_mem_singleton.mpr ?_)
    rw [Bound, Scope.contains, found]
    rfl
  · split
    · exact .op _ (List.forall_mem_nil _)
    · intro c r c' given
      cases given

theorem Closes.letIn (h1 : Closes externals e1) (h2 : Closes externals e2) (ty : Ty)
    (x : Name × Ty) : Closes externals (.letIn ty x e1 e2) := by
  intro scope
  rw [lower]
  refine (h1 scope).bind fun r hr => (h2 _).bind fun r' hr' => .pure ⟨hr, ?_⟩
  exact hr'.mono fun u => bound_bind

theorem Closes.letRec {body rest : Typed} (h1 : Closes externals body) (h2 : Closes externals rest)
    (ty : Ty) (f : Name × Ty) (formals : List (Name × Ty)) :
    Closes externals (.letRec ty f formals body rest) := by
  intro scope
  rw [lower]
  refine (h1 _).bind fun r hr => (h2 _).bind fun r' hr' => .pure ⟨?_, ?_⟩
  · exact hr.mono fun u hu => (bound_bindAll hu).imp_right bound_bind
  · exact hr'.mono fun u => bound_bind

theorem Closes.letTuple (h1 : Closes externals e1) (h2 : Closes externals e2) (ty : Ty)
    (pattern : List (Name × Ty)) : Closes externals (.letTuple ty pattern e1 e2) := by
  intro scope
  rw [lower]
  refine (h1 scope).operand.bind fun r hr => (h2 _).bind fun r' hr' => .pure (hr.wrap ⟨?_, ?_⟩)
  · exact hr.names r.1 (List.mem_singleton_self _)
  · exact hr'.mono fun u hu => (bound_bindAll hu).imp_right .inr

theorem Closes.app (h : Closes externals e) (hs : ∀ a ∈ es, Closes externals a) (ty : Ty) :
    Closes externals (.app ty e es) := by
  intro scope
  rw [lower]
  refine (Ensures.any _).bind fun callee _ => ?_
  cases callee with
  | some f => exact (Closes.list hs scope).bind fun r hr => .pure (hr.wrap hr.names)
  | none =>
      refine (h scope).operand.bind fun r hr => (Closes.list hs scope).bind fun r' hr' => .pure ?_
      have all := hr.append hr'
      exact all.wrap (List.forall_mem_cons.mp all.names)

theorem Closes.tuple (hs : ∀ a ∈ es, Closes externals a) (ty : Ty) :
    Closes externals (.tuple ty es) := by
  intro scope
  rw [lower]
  exact (Closes.list hs scope).bind fun r hr => .pure (hr.wrap hr.names)

theorem Closes.array (h1 : Closes externals e1) (h2 : Closes externals e2) (ty : Ty) :
    Closes externals (.array ty e1 e2) := by
  intro scope
  rw [lower]
  refine (h1 scope).operand.bind fun r hr => (h2 scope).operand.bind fun r' hr' => .pure ?_
  have both := hr.append hr'
  exact both.wrap both.names

theorem Closes.put {e3 : Typed} (h1 : Closes externals e1) (h2 : Closes externals e2)
    (h3 : Closes externals e3) (ty : Ty) : Closes externals (.put ty e1 e2 e3) := by
  intro scope
  rw [lower]
  refine (h1 scope).operand.bind fun r hr => (h2 scope).operand.bind fun r' hr' =>
    (h3 scope).operand.bind fun r'' hr'' => .pure ?_
  have all := (hr.append hr').append hr''
  exact all.wrap all.names

theorem Closes.seq (h1 : Closes externals e1) (h2 : Closes externals e2) (ty : Ty) :
    Closes externals (.seq ty e1 e2) := by
  intro scope
  rw [lower]
  refine (h1 scope).bind fun r hr => (Ensures.any _).bind fun x _ =>
    (h2 scope).bind fun r' hr' => .pure ⟨hr, ?_⟩
  exact hr'.mono fun _ => .inr

theorem Closes.and_chooses (h : Closes externals e) (tested : isTested e = true) :
    Closes externals e ∧ ClosesChoosing externals e := by
  refine ⟨h, ?_⟩
  intro scope yes no hy hn
  rw [branch_eq_testThen tested]
  exact (h scope).testThen hy hn

theorem ClosesChoosing.not (h : ClosesChoosing externals e) (ty : Ty) :
    ClosesChoosing externals (.not ty e) := by
  intro scope yes no hy hn
  rw [branch]
  exact h hn hy

theorem ClosesChoosing.compare (h1 : Closes externals e1) (h2 : Closes externals e2) (ty : Ty)
    (op : Comparison) : ClosesChoosing externals (.compare ty op e1 e2) := by
  intro scope yes no hy hn
  rw [branch]
  exact (h1 scope).compareThen (h2 scope) hy hn op

/-- The code of a term uses only names that are bound around it, whether the term is a value or a
    condition. -/
theorem closes_and_chooses (e : Typed) : Closes externals e ∧ ClosesChoosing externals e := by
  induction e using Term.induct with
  | unit | int | float =>
      refine Closes.and_chooses ?_ rfl
      intro scope
      rw [lower]
      exact .op _ (List.forall_mem_nil _)
  | bool n b =>
      refine Closes.and_chooses ?_ rfl
      intro scope
      rw [lower]
      exact .truth b
  | var ty x => exact (Closes.var ty x).and_chooses rfl
  | not ty e ih =>
      refine ⟨?_, ih.2.not ty⟩
      intro scope
      rw [lower]
      exact ih.2 (.truth false) (.truth true)
  | negate n op e ih =>
      refine Closes.and_chooses ?_ rfl
      intro scope
      rw [lower]
      exact (ih.1 scope).unary _ fun _ => rfl
  | arith n op l r ihl ihr =>
      refine Closes.and_chooses ?_ rfl
      intro scope
      rw [lower]
      exact (ihl.1 scope).binary (ihr.1 scope) _ fun _ _ => rfl
  | compare ty op l r ihl ihr =>
      refine ⟨?_, .compare ihl.1 ihr.1 ty op⟩
      intro scope
      rw [lower]
      exact (ihl.1 scope).compareThen (ihr.1 scope) (.truth true) (.truth false) op
  | ifThenElse ty c t e ihc iht ihe =>
      refine Closes.and_chooses ?_ rfl
      intro scope
      rw [lower]
      exact ihc.2 (iht.1 scope) (ihe.1 scope)
  | letIn ty x e1 e2 ih1 ih2 => exact (Closes.letIn ih1.1 ih2.1 ty x).and_chooses rfl
  | letRec ty f formals body rest ih1 ih2 =>
      exact (Closes.letRec ih1.1 ih2.1 ty f formals).and_chooses rfl
  | app ty e es ih ihs => exact (Closes.app ih.1 (fun a ha => (ihs a ha).1) ty).and_chooses rfl
  | tuple ty es ihs => exact (Closes.tuple (fun a ha => (ihs a ha).1) ty).and_chooses rfl
  | letTuple ty pattern e1 e2 ih1 ih2 =>
      exact (Closes.letTuple ih1.1 ih2.1 ty pattern).and_chooses rfl
  | array ty len init ihl ihi => exact (Closes.array ihl.1 ihi.1 ty).and_chooses rfl
  | get ty a i iha ihi =>
      refine Closes.and_chooses ?_ rfl
      intro scope
      rw [lower]
      exact (iha.1 scope).binary (ihi.1 scope) _ fun _ _ => rfl
  | put ty a i v iha ihi ihv => exact (Closes.put iha.1 ihi.1 ihv.1 ty).and_chooses rfl
  | seq ty e1 e2 ih1 ih2 => exact (Closes.seq ih1.1 ih2.1 ty).and_chooses rfl

/-! ## Programs -/

/-- The code of a program is closed, whatever the names and the types in the program are and
    wherever the supply of names stands. -/
theorem program_closed (externals : Signature) (e : Typed) (c c' : Supply) (k : Knf) (ty : Mono)
    (lowered : (program externals e).run.run c = (.ok (k, ty), c')) : k.freeVars = [] := by
  have uses : k.Uses (Bound .empty) := (closes_and_chooses e).1 .empty lowered
  rw [Knf.closed_iff]
  exact uses.mono fun x => Bool.false_ne_true

/-- A program whose types are wrong and in which names are spelled like intermediate results. -/
def mistyped : Typed :=
  .letRec .unit ("Tu1", .bool) [("n", .int)]
    (.ifThenElse .int (.not .bool (.compare .bool .lt (.var .int "n") (.unit .int)))
      (.var .int "Tu1") (.unit .unit))
    (.letTuple .unit [("a", .int), ("Ti3", .float)] (.var (.array .int) "table")
      (.app .unit (.var .int "print_int")
        [.arith .int (.int .add) (.var .int "Ti3") (.int .int 2)]))

def mistypedCode : Knf :=
  .letRec "Tu1" .bool [("n", .int)]
    (.letIn "Tu1" .unit (.op .unit) (.branch .le "Tu1" "n" (.op (.var "Tu1")) (.op .unit)))
    (.letIn "Ta2" (.array .int) (.op (.externArray "table"))
      (.letTuple [("a", .int), ("Ti3", .float)] "Ta2"
        (.letIn "Ti4" .int
          (.letIn "Ti3" .int (.op (.int 2)) (.op (.arith (.int .add) "Ti3" "Ti3")))
          (.externApp "print_int" ["Ti4"]))))

def mistypedExternals : Signature :=
  [("table", .array .int), ("print_int", .fn [.int] .unit)]

theorem program_mistyped :
    (program mistypedExternals mistyped).run.run .new = (.ok (mistypedCode, .unit), ⟨4⟩) ∧
      mistypedCode.freeVars = [] := by
  have lowered : (program mistypedExternals mistyped).run.run .new =
      (.ok (mistypedCode, .unit), ⟨4⟩) := by cbv
  exact ⟨lowered, program_closed mistypedExternals mistyped .new ⟨4⟩ mistypedCode .unit lowered⟩

end MiddleEnd.Lowering
