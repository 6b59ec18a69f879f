import Mathlib
import MiddleEnd.Proofs.Closure.Conversion

/-! # References lead somewhere

Code with closures refers to functions in two ways: it calls a label, or it makes a
closure that starts at one.  While a function is converted its label may be called
already, before it is known whether the function can do without a closure.  If it
cannot, its body is converted again, and the functions that were lifted out of the
first attempt go with it; so what is left refers only to functions that are there.
-/

namespace MiddleEnd

namespace Name

theorem pairwise_insert (x : Name) {ys : List Name} (h : ys.Pairwise (· < ·)) :
    (insert x ys).Pairwise (· < ·) := by
  induction h with
  | nil => exact List.pairwise_singleton _ _
  | @cons y ys below above ih =>
      unfold insert
      split
      · exact .cons below above
      · rename_i ne
        split
        · rename_i less
          refine .cons ?_ (.cons below above)
          exact List.forall_mem_cons.mpr ⟨less, fun z hz => lt_trans less (below z hz)⟩
        · rename_i notLess
          refine .cons ?_ ih
          intro z hz
          rcases mem_insert.mp hz with rfl | hz
          · exact lt_of_le_of_ne (not_lt.mp notLess) (Ne.symm ne)
          · exact below z hz

/-- Sorted names stand in order, each once. -/
theorem pairwise_sorted (xs : List Name) : (sorted xs).Pairwise (· < ·) := by
  induction xs with
  | nil => exact .nil
  | cons x xs ih => exact pairwise_insert x ih

end Name

/-- A use of a label: it is called, or a closure is made that starts there. -/
inductive Reference where
  | call (label : Name)
  | closure (entry : Name) (captured : List Name)
deriving Repr, DecidableEq

def Code.references : Code → List Reference
  | .op _ | .callClosure .. => []
  | .branch _ _ _ e1 e2 | .letIn _ _ e1 e2 => e1.references ++ e2.references
  | .makeClosure _ _ entry captured e => .closure entry captured :: e.references
  | .callDirect label _ => [.call label]
  | .letTuple _ _ e => e.references

def Program.references (P : Program) : List Reference :=
  P.main.references ++ P.functions.flatMap (·.body.references)

/-- The body of the function takes nothing from a closure, not even the function itself. -/
structure Function.Alone (F : Function) : Prop where
  captured : F.captured = []
  free : ∀ x ∈ F.body.freeVars, x ∈ F.formals.map (·.1)

/-- What the body of the function uses is a formal, captured, or the function itself, and
    what is captured stands in order. -/
structure Function.Scoped (F : Function) : Prop where
  free : ∀ x ∈ F.body.freeVars,
    x ∈ F.formals.map (·.1) ∨ x ∈ F.captured.map (·.1) ∨ x = F.name
  ordered : (F.captured.map (·.1)).Pairwise (· < ·)

/-- The use of a label is one of an external function, of a function that is known to be
    called by its label, or of one of the functions. -/
def Reference.Leads (externs known : List Name) (functions : List Function) : Reference → Prop
  | .call label =>
      (∃ g ∈ externs, label = Knf.externLabel g) ∨ label ∈ known ∨
        ∃ F ∈ functions, F.name = label ∧ F.Alone
  | .closure entry captured =>
      ∃ F ∈ functions, F.name = entry ∧ F.captured.map (·.1) = captured

/-- Known functions may turn out to be among the functions. -/
theorem Reference.Leads.mono {externs externs' known known' : List Name}
    {functions functions' : List Function} {r : Reference} (h : r.Leads externs known functions)
    (he : externs ⊆ externs') (hf : functions ⊆ functions')
    (hk : ∀ label ∈ known, label ∈ known' ∨ ∃ F ∈ functions', F.name = label ∧ F.Alone) :
    r.Leads externs' known' functions' := by
  cases r with
  | call label =>
      rcases h with ⟨g, hg, eq⟩ | isKnown | ⟨F, hF, name, alone⟩
      · exact .inl ⟨g, he hg, eq⟩
      · exact .inr (hk label isKnown)
      · exact .inr (.inr ⟨F, hf hF, name, alone⟩)
  | closure entry captured =>
      obtain ⟨F, hF, name, eq⟩ := h
      exact ⟨F, hf hF, name, eq⟩

namespace Knf

def Converted.references (c : Converted) : List Reference :=
  Program.references ⟨c.functions, c.code⟩

theorem mem_references {c : Converted} {r : Reference} :
    r ∈ c.references ↔ r ∈ c.code.references ∨ ∃ F ∈ c.functions, r ∈ F.body.references := by
  simp [Converted.references, Program.references]

theorem mem_functions_define {inner : Scope Mono} {f : Name} {ty : Mono}
    {formals : List (Name × Mono)} {captured : List Name} {body rest : Converted} {F : Function} :
    F ∈ (define inner f ty formals captured body rest).functions ↔
      F ∈ body.functions ∨ F = lifted inner f ty formals captured body.code ∨
        F ∈ rest.functions := by
  simp [define, lifted]

theorem mem_references_define {inner : Scope Mono} {f : Name} {ty : Mono}
    {formals : List (Name × Mono)} {captured : List Name} {body rest : Converted} {r : Reference}
    (h : r ∈ (define inner f ty formals captured body rest).references) :
    r ∈ body.references ∨ r ∈ rest.references ∨
      (r = .closure f captured ∧ f ∈ rest.code.freeVars) := by
  rw [mem_references] at h
  rcases h with inCode | ⟨F, hF, inBody⟩
  · simp only [define] at inCode
    split at inCode
    case isTrue used =>
      rcases List.mem_cons.mp inCode with made | inRest
      · exact .inr (.inr ⟨made, used⟩)
      · exact .inr (.inl (mem_references.mpr (.inl inRest)))
    case isFalse => exact .inr (.inl (mem_references.mpr (.inl inCode)))
  · rcases mem_functions_define.mp hF with inside | rfl | after
    · exact .inl (mem_references.mpr (.inr ⟨F, inside, inBody⟩))
    · exact .inl (mem_references.mpr (.inl inBody))
    · exact .inr (.inl (mem_references.mpr (.inr ⟨F, after, inBody⟩)))

/-- A function whose converted body has no free names but formals needs no closure. -/
theorem alone_lifted {inner : Scope Mono} {f : Name} {ty : Mono} {formals : List (Name × Mono)}
    {body : Code} (h : outerNames formals body = []) :
    (lifted inner f ty formals (capturedNames f formals body) body).Alone := by
  constructor
  · simp [lifted, capturedNames_eq_nil h]
  · exact fun x hx => mem_formals_of_outerNames_eq_nil h hx

theorem scoped_lifted (inner : Scope Mono) (f : Name) (ty : Mono) (formals : List (Name × Mono))
    (body : Code) : (lifted inner f ty formals (capturedNames f formals body) body).Scoped := by
  constructor
  · intro x hx
    rw [captured_lifted, mem_capturedNames]
    by_cases formal : x ∈ formals.map (·.1)
    · exact .inl formal
    · by_cases self : x = f
      · exact .inr (.inr self)
      · exact .inr (.inl ⟨⟨hx, formal⟩, self⟩)
  · rw [captured_lifted]
    exact (Name.pairwise_sorted _).filter _

/-- The use of a label in converted code leads to a function that comes with the code, unless
    it was known before. -/
theorem leads_of_mem_references (e : Knf) (scope : Scope Mono) (known : List Name)
    {r : Reference} (h : r ∈ (e.closeIn scope known).references) :
    r.Leads e.externs known (e.closeIn scope known).functions := by
  induction e generalizing scope known with
  | op => cases h
  | branch test x y e1 e2 ih1 ih2 | letIn x ty e1 e2 ih1 ih2 =>
      simp only [closeIn, externs, mem_references, Code.references, List.mem_append] at *
      rcases h with (h | h) | ⟨F, hF | hF, h⟩
      · exact (ih1 _ _ (.inl h)).mono (by simp) (by simp) fun _ => .inl
      · exact (ih2 _ _ (.inl h)).mono (by simp) (by simp) fun _ => .inl
      · exact (ih1 _ _ (.inr ⟨F, hF, h⟩)).mono (by simp) (by simp) fun _ => .inl
      · exact (ih2 _ _ (.inr ⟨F, hF, h⟩)).mono (by simp) (by simp) fun _ => .inl
  | letRec f ty formals body rest ih1 ih2 =>
      obtain ⟨known', attempt, eq⟩ := closeIn_letRec f ty formals body rest scope known
      -- a function that was taken to need no closure is there, and needs none
      have settled : ∀ label ∈ known', label ∈ known ∨
          ∃ F ∈ ((Knf.letRec f ty formals body rest).closeIn scope known).functions,
            F.name = label ∧ F.Alone := by
        rw [eq]
        intro label mem
        rcases attempt with rfl | ⟨rfl, closed⟩
        · exact .inl mem
        · rcases List.mem_cons.mp mem with rfl | mem
          · exact .inr ⟨_, mem_functions_define.mpr (.inr (.inl rfl)), rfl, alone_lifted closed⟩
          · exact .inl mem
      rw [eq] at h settled ⊢
      rcases mem_references_define h with inBody | inRest | ⟨rfl, -⟩
      · refine (ih1 _ _ inBody).mono (List.subset_append_left _ _) ?_ settled
        exact fun F hF => mem_functions_define.mpr (.inl hF)
      · refine (ih2 _ _ inRest).mono (List.subset_append_right _ _) ?_ settled
        exact fun F hF => mem_functions_define.mpr (.inr (.inr hF))
      · exact ⟨_, mem_functions_define.mpr (.inr (.inl rfl)), rfl, captured_lifted ..⟩
  | app f xs =>
      simp only [closeIn, mem_references] at h
      split at h
      · rename_i isKnown
        obtain rfl : r = .call f := by simpa [Code.references] using h
        exact .inr (.inl isKnown)
      · simp [Code.references] at h
  | letTuple pattern y e ih => exact ih _ _ h
  | externApp f xs =>
      obtain rfl : r = .call (externLabel f) := by
        simpa [closeIn, mem_references, Code.references] using h
      exact .inl ⟨f, List.mem_singleton.mpr rfl, rfl⟩

/-- Every function takes what it uses from its arguments, its closure or itself. -/
theorem scoped_closeIn (e : Knf) (scope : Scope Mono) (known : List Name) :
    ∀ F ∈ (e.closeIn scope known).functions, F.Scoped := by
  induction e generalizing scope known with
  | op | app | externApp => exact nofun
  | branch test x y e1 e2 ih1 ih2 => exact List.forall_mem_append.mpr ⟨ih1 _ _, ih2 _ _⟩
  | letIn x ty e1 e2 ih1 ih2 => exact List.forall_mem_append.mpr ⟨ih1 _ _, ih2 _ _⟩
  | letRec f ty formals body rest ih1 ih2 =>
      obtain ⟨known', -, eq⟩ := closeIn_letRec f ty formals body rest scope known
      rw [eq]
      intro F hF
      rcases mem_functions_define.mp hF with inside | rfl | after
      · exact ih1 _ _ F inside
      · exact scoped_lifted ..
      · exact ih2 _ _ F after
  | letTuple pattern y e ih => exact ih _ _

/-- A function and its formals are binders of the code. -/
theorem binders_of_mem_closeIn (e : Knf) (scope : Scope Mono) (known : List Name) :
    ∀ F ∈ (e.closeIn scope known).functions,
      (F.name :: F.formals.map (·.1)).Sublist e.binders := by
  induction e generalizing scope known with
  | op | app | externApp => exact nofun
  | branch test x y e1 e2 ih1 ih2 =>
      refine List.forall_mem_append.mpr ⟨fun F hF => ?_, fun F hF => ?_⟩
      · exact (ih1 _ _ F hF).trans (List.sublist_append_left _ _)
      · exact (ih2 _ _ F hF).trans (List.sublist_append_right _ _)
  | letIn x ty e1 e2 ih1 ih2 =>
      refine List.forall_mem_append.mpr ⟨fun F hF => .cons _ ?_, fun F hF => .cons _ ?_⟩
      · exact (ih1 _ _ F hF).trans (List.sublist_append_left _ _)
      · exact (ih2 _ _ F hF).trans (List.sublist_append_right _ _)
  | letRec f ty formals body rest ih1 ih2 =>
      obtain ⟨known', -, eq⟩ := closeIn_letRec f ty formals body rest scope known
      rw [eq]
      intro F hF
      rcases mem_functions_define.mp hF with inside | rfl | after
      · refine .cons _ (((ih1 _ _ F inside).trans ?_).trans (List.sublist_append_right _ _))
        exact List.sublist_append_left _ _
      · exact .cons_cons _ (List.sublist_append_left _ _)
      · refine .cons _ (((ih2 _ _ F after).trans ?_).trans (List.sublist_append_right _ _))
        exact List.sublist_append_right _ _
  | letTuple pattern y e ih =>
      exact fun F hF => (ih _ _ F hF).trans (List.sublist_append_right _ _)

/-- Programs with closures have no dangling references, if the code is closed and its binders
    are different.  The main code has no free names, and the body of a function has none but
    its formals, its captured names and the function itself.  A label that is called is
    that of an external function that the code calls, or that of a function that captures
    nothing and whose body uses only formals, not even the function itself.  A closure
    starts at the name of exactly one function, and captures in the same order the names
    that this function takes from it, which is the order of names. -/
theorem toProgram_references_lead (e : Knf) (closed : e.freeVars = [])
    (distinct : e.binders.Nodup) :
    e.toProgram.main.freeVars = [] ∧
      (∀ F ∈ e.toProgram.functions, ∀ x ∈ F.body.freeVars,
        x ∈ F.formals.map (·.1) ∨ x ∈ F.captured.map (·.1) ∨ x = F.name) ∧
      (∀ label, .call label ∈ e.toProgram.references →
        (∃ g ∈ e.externs, label = externLabel g) ∨
          ∃ F ∈ e.toProgram.functions, F.name = label ∧ F.captured = [] ∧
            F.name ∉ F.body.freeVars ∧ ∀ x ∈ F.body.freeVars, x ∈ F.formals.map (·.1)) ∧
      ∀ entry captured, .closure entry captured ∈ e.toProgram.references →
        ∃ F, e.toProgram.functions.filter (·.name = entry) = [F] ∧
          F.captured.map (·.1) = captured ∧ captured.Pairwise (· < ·) := by
  have inside := scoped_closeIn e .empty []
  refine ⟨?_, fun F hF => (inside F hF).free, ?_, ?_⟩
  · refine List.eq_nil_iff_forall_not_mem.mpr fun x hx => ?_
    have free := freeVars_closeIn e .empty [] hx
    rw [closed] at free
    cases free
  · intro label h
    rcases leads_of_mem_references e .empty [] h with external | isKnown | ⟨F, hF, name, alone⟩
    · exact .inl external
    · cases isKnown
    · refine .inr ⟨F, hF, name, alone.captured, fun self => ?_, alone.free⟩
      have nodup := distinct.sublist (binders_of_mem_closeIn e .empty [] F hF)
      exact (List.nodup_cons.mp nodup).1 (alone.free _ self)
  · intro entry captured h
    obtain ⟨F, hF, name, eq⟩ := leads_of_mem_references e .empty [] h
    exact ⟨F, name ▸ filter_name_of_mem (nodup_functionNames distinct) hF, eq,
      eq ▸ (inside F hF).ordered⟩

/-- A function that captures two names, and one inside it that is first taken to need no
    closure, together with the outer one, and then has to capture it. -/
def rollingBack : Knf :=
  .letIn "b" .int (.op (.int 3)) (.letIn "a" .int (.op (.int 4))
    (.letRec "f" (.fn [.int] .int) [("x", .int)]
      (.letRec "g" (.fn [.int] .int) [("y", .int)] (.app "f" ["y"])
        (.letIn "z" .int (.op (.arith (.int .add) "b" "a"))
          (.branch .le "x" "z" (.app "g" ["z"]) (.op (.var "x")))))
      (.letRec "h" (.fn [.int] .unit) [("n", .int)] (.externApp "print_int" ["n"])
        (.letIn "r" .int (.app "f" ["a"]) (.app "h" ["r"])))))

/-- The first attempt leaves no call of the outer function by its label. -/
theorem toProgram_rollingBack :
    rollingBack.freeVars = [] ∧ rollingBack.binders.Nodup ∧
    rollingBack.toProgram.references =
      [.closure "f" ["a", "b"], .call "h", .closure "g" ["f"], .call "min_caml_print_int"] ∧
    rollingBack.toProgram.main.freeVars = [] ∧
    (∃ F ∈ rollingBack.toProgram.functions, F.name = "h" ∧ F.captured = [] ∧
      F.name ∉ F.body.freeVars ∧ ∀ x ∈ F.body.freeVars, x ∈ F.formals.map (·.1)) ∧
    (∃ F, rollingBack.toProgram.functions.filter (·.name = "g") = [F] ∧
      F.captured.map (·.1) = ["f"] ∧ ["f"].Pairwise (· < ·)) := by
  have uses : rollingBack.toProgram.references =
      [.closure "f" ["a", "b"], .call "h", .closure "g" ["f"], .call "min_caml_print_int"] := by
    decide +kernel
  obtain ⟨main, -, calls, closures⟩ :=
    toProgram_references_lead rollingBack (by decide) (by decide)
  have h := calls "h" (by simp [uses])
  have notExtern : ¬ ∃ g ∈ rollingBack.externs, "h" = externLabel g := by decide
  exact ⟨by decide, by decide, uses, main, h.resolve_left notExtern,
    closures "g" ["f"] (by simp [uses])⟩

end Knf

end MiddleEnd
