import Mathlib
import MiddleEnd.Proofs.Closure.References
import MiddleEnd.Proofs.Knf.DeadBindings

/-! # Functions that need no closure

Functions that use nothing from outside but each other, and each other only to call, need no
closures, however they are nested and among whatever other functions they stand.  The
conversion takes up one function at a time, from the outside in, and may convert one of them
several times because a function around it fails; but each time those that it uses are known
already, so that nothing in its converted body is left free.
-/

namespace MiddleEnd

inductive Call where
  | direct (label : Name) (args : List Name)
  | closure (f : Name) (args : List Name)
deriving Repr, DecidableEq

/-- The name that stands in the place of the function. -/
def Call.target : Call → Name
  | .direct label _ => label
  | .closure f _ => f

def Code.calls : Code → List Call
  | .op _ => []
  | .branch _ _ _ e1 e2 | .letIn _ _ e1 e2 => e1.calls ++ e2.calls
  | .makeClosure _ _ _ _ e | .letTuple _ _ e => e.calls
  | .callDirect label xs => [.direct label xs]
  | .callClosure f xs => [.closure f xs]

def Program.calls (P : Program) : List Call :=
  P.main.calls ++ P.functions.flatMap (·.body.calls)

namespace Knf

/-- The calls in K-normal code, with their arguments.  External functions have their labels. -/
def calls : Knf → List (Name × List Name)
  | .op _ => []
  | .branch _ _ _ e1 e2 | .letIn _ _ e1 e2 | .letRec _ _ _ e1 e2 => e1.calls ++ e2.calls
  | .letTuple _ _ e => e.calls
  | .app f xs => [(f, xs)]
  | .externApp f xs => [(externLabel f, xs)]

/-- The names that code uses in other places than that of the function of a call. -/
def valueNames : Knf → List Name
  | .op o => o.names
  | .branch _ x y e1 e2 => x :: y :: (e1.valueNames ++ e2.valueNames)
  | .letIn _ _ e1 e2 | .letRec _ _ _ e1 e2 => e1.valueNames ++ e2.valueNames
  | .letTuple _ y e => y :: e.valueNames
  | .app _ xs | .externApp _ xs => xs

/-- The names that code binds to something else than functions. -/
def valueBinders : Knf → List Name
  | .op _ | .app .. | .externApp .. => []
  | .branch _ _ _ e1 e2 => e1.valueBinders ++ e2.valueBinders
  | .letIn x _ e1 e2 => x :: (e1.valueBinders ++ e2.valueBinders)
  | .letRec _ _ formals body rest => formals.map (·.1) ++ (body.valueBinders ++ rest.valueBinders)
  | .letTuple pattern _ e => pattern.map (·.1) ++ e.valueBinders

theorem binders_perm (e : Knf) : e.binders.Perm (e.functionNames ++ e.valueBinders) := by
  rw [List.perm_iff_count]
  intro x
  induction e with
  | op | app | externApp => rfl
  | branch test y z e1 e2 ih1 ih2 =>
      simp only [binders, functionNames, valueBinders, List.count_append] at *
      omega
  | letIn y ty e1 e2 ih1 ih2 =>
      simp only [binders, functionNames, valueBinders, List.count_append, List.count_cons] at *
      omega
  | letRec f ty formals body rest ih1 ih2 =>
      simp only [binders, functionNames, valueBinders, List.count_append, List.count_cons] at *
      omega
  | letTuple pattern y e ih =>
      simp only [binders, functionNames, valueBinders, List.count_append] at *
      omega

/-- If the code defines a function of `K`, then the body takes from outside only functions of
    `K`, and takes them only to call them. -/
def DefinesWithin (K : List Name) : Knf → Prop
  | .letRec f _ formals body _ => f ∈ K → ∀ x ∈ body.freeVars, x ∉ formals.map (·.1) →
      x ∈ K ∧ x ∉ body.valueNames
  | .op _ | .branch .. | .letIn .. | .app .. | .letTuple .. | .externApp .. => True

instance (K : List Name) : DecidablePred (DefinesWithin K)
  | .letRec f _ formals body _ => inferInstanceAs (Decidable (f ∈ K → ∀ x ∈ body.freeVars,
      x ∉ formals.map (·.1) → x ∈ K ∧ x ∉ body.valueNames))
  | .op _ | .branch .. | .letIn .. | .app .. | .letTuple .. | .externApp .. => .isTrue trivial

/-- A known function is free in converted code only where it is used as a value. -/
theorem mem_valueNames_of_free (e : Knf) {scope : Scope Mono} {known : List Name} {x : Name}
    (isKnown : x ∈ known) (free : x ∈ (e.closeIn scope known).code.freeVars) :
    x ∈ e.valueNames := by
  induction e generalizing scope known with
  | op | externApp => exact free
  | branch test y z e1 e2 ih1 ih2 =>
      simp only [closeIn, Code.freeVars, valueNames, List.mem_cons, List.mem_append] at free ⊢
      exact free.imp_right (.imp_right (.imp (ih1 isKnown) (ih2 isKnown)))
  | letIn y ty e1 e2 ih1 ih2 =>
      simp only [closeIn, Code.freeVars, valueNames, List.mem_append, List.mem_filter] at free ⊢
      exact free.imp (ih1 isKnown) fun inRest => ih2 isKnown inRest.1
  | letRec f ty formals body rest ih1 ih2 =>
      obtain ⟨known', attempt, eq⟩ := closeIn_letRec f ty formals body rest scope known
      have stays : x ∈ known' := by
        rcases attempt with rfl | ⟨rfl, -⟩
        · exact isKnown
        · exact List.mem_cons_of_mem f isKnown
      rw [eq] at free
      apply List.mem_append.mpr
      rcases mem_freeVars_define free with ⟨inRest, -⟩ | captured
      · exact .inr (ih2 stays inRest)
      · exact .inl (ih1 stays (mem_capturedNames.mp captured).1.1)
  | app f xs =>
      simp only [closeIn] at free
      split at free
      case isTrue => exact free
      case isFalse unknown =>
        refine (List.mem_cons.mp free).resolve_left ?_
        rintro rfl
        exact unknown isKnown
  | letTuple pattern y e ih =>
      simp only [closeIn, Code.freeVars, valueNames, List.mem_cons, List.mem_filter] at free ⊢
      exact free.imp_right fun inRest => ih isKnown inRest.1

def Converted.calls (c : Converted) : List Call :=
  Program.calls ⟨c.functions, c.code⟩

section
variable {c1 c2 : Converted} {code : Code}

/-- The uses of labels in code that is put together from two parts. -/
theorem mem_references_join (h : code.references = c1.code.references ++ c2.code.references)
    {r : Reference} : r ∈ Converted.references ⟨c1.functions ++ c2.functions, code⟩ ↔
      r ∈ c1.references ∨ r ∈ c2.references := by
  simp only [Converted.references, Program.references, h, List.flatMap_append, List.mem_append]
  tauto

/-- The calls in code that is put together from two parts. -/
theorem calls_join (h : code.calls = c1.code.calls ++ c2.code.calls) :
    (Converted.calls ⟨c1.functions ++ c2.functions, code⟩).Perm (c1.calls ++ c2.calls) := by
  rw [List.perm_iff_count]
  intro c
  simp only [Converted.calls, Program.calls, h, List.flatMap_append, List.count_append]
  omega

/-- A definition adds no calls to those of its parts. -/
theorem calls_define (inner : Scope Mono) (f : Name) (ty : Mono) (formals : List (Name × Mono))
    (captured : List Name) (body rest : Converted) :
    (define inner f ty formals captured body rest).calls.Perm (body.calls ++ rest.calls) := by
  have main : (define inner f ty formals captured body rest).code.calls = rest.code.calls := by
    simp only [define]
    split
    · rfl
    · rfl
  rw [List.perm_iff_count]
  intro c
  rw [Converted.calls, Program.calls, main]
  simp only [define, Converted.calls, Program.calls, List.flatMap_append, List.flatMap_cons,
    List.count_append]
  omega

end

/-! ## What holds at every point of the conversion -/

/-- The functions of `K` that are in force are known, no other binder of the code has one of
    their names, and those that the code defines use only each other. -/
structure Resolved (K known : List Name) (e : Knf) : Prop where
  known : ∀ x ∈ K, x ∈ e.freeVars → x ∈ known
  binders : ∀ x ∈ e.valueBinders, x ∉ K
  within : ∀ part ∈ e.parts, part.DefinesWithin K

namespace Resolved

variable {K known : List Name}

theorem branch {test : Test} {x y : Name} {e1 e2 : Knf}
    (h : Resolved K known (.branch test x y e1 e2)) :
    Resolved K known e1 ∧ Resolved K known e2 := by
  obtain ⟨inForce, apart, within⟩ := h
  simp only [freeVars, Knf.valueBinders, parts, List.mem_cons, List.mem_append] at *
  constructor
  · constructor <;> grind
  · constructor <;> grind

theorem letIn {x : Name} {ty : Mono} {e1 e2 : Knf} (h : Resolved K known (.letIn x ty e1 e2)) :
    Resolved K known e1 ∧ Resolved K known e2 := by
  obtain ⟨inForce, apart, within⟩ := h
  simp only [freeVars, Knf.valueBinders, parts, List.mem_cons, List.mem_append,
    List.mem_filter] at *
  constructor
  · constructor <;> grind
  · constructor <;> grind

theorem letTuple {pattern : List (Name × Mono)} {y : Name} {e : Knf}
    (h : Resolved K known (.letTuple pattern y e)) : Resolved K known e := by
  obtain ⟨inForce, apart, within⟩ := h
  simp only [freeVars, Knf.valueBinders, parts, List.mem_cons, List.mem_append,
    List.mem_filter] at *
  constructor <;> grind

section
variable {f : Name} {ty : Mono} {formals : List (Name × Mono)} {body rest : Knf}
  {known' : List Name}

/-- The parts of a definition, with what is known after it. -/
theorem inside (h : Resolved K known (.letRec f ty formals body rest))
    (more : known ⊆ known') (own : f ∈ K → f ∈ known') :
    Resolved K known' body ∧ Resolved K known' rest := by
  obtain ⟨inForce, apart, within⟩ := h
  simp only [freeVars, Knf.valueBinders, parts, List.mem_cons, List.mem_append,
    List.mem_filter] at *
  constructor
  · constructor <;> grind
  · constructor <;> grind

/-- The attempt to do without a closure does not fail for a function of `K`. -/
theorem closes (h : Resolved K known (.letRec f ty formals body rest)) (member : f ∈ K)
    (scope : Scope Mono) :
    outerNames formals (body.closeIn scope (f :: known)).code = [] := by
  apply List.eq_nil_iff_forall_not_mem.mpr
  intro x outer
  obtain ⟨free, outside⟩ := mem_outerNames.mp outer
  have used := freeVars_closeIn body scope (f :: known) free
  obtain ⟨inK, called⟩ := h.within _ List.mem_cons_self member x used outside
  have body := (h.inside (List.subset_cons_self f known) fun _ => List.mem_cons_self).1
  exact called (mem_valueNames_of_free _ (body.known x inK used) free)

/-- How a definition is converted, and what is known in its parts. -/
theorem letRec (h : Resolved K known (.letRec f ty formals body rest)) (scope : Scope Mono) :
    ∃ known' captured, (Knf.letRec f ty formals body rest).closeIn scope known =
        define (scope.bind f ty) f ty formals captured
          (body.closeIn ((scope.bind f ty).bindAll formals) known')
          (rest.closeIn (scope.bind f ty) known') ∧
      (f ∈ K → f ∈ known' ∧ captured = []) ∧ Resolved K known' body ∧ Resolved K known' rest := by
  by_cases member : f ∈ K
  · refine ⟨f :: known, [], ?_, fun _ => ⟨List.mem_cons_self, rfl⟩, ?_⟩
    · rw [closeIn]
      exact if_pos (h.closes member _)
    · exact h.inside (List.subset_cons_self f known) fun _ => List.mem_cons_self
  · obtain ⟨known', attempt, eq⟩ := closeIn_letRec f ty formals body rest scope known
    refine ⟨known', _, eq, fun inK => absurd inK member, h.inside ?_ fun inK => absurd inK member⟩
    rcases attempt with rfl | ⟨rfl, -⟩
    · exact List.Subset.refl _
    · exact List.subset_cons_self f known

end

/-- Functions of `K` capture nothing. -/
theorem captured_eq_nil {e : Knf} (h : Resolved K known e) (scope : Scope Mono) :
    ∀ F ∈ (e.closeIn scope known).functions, F.name ∈ K → F.captured = [] := by
  induction e generalizing scope known with
  | op | app | externApp => exact List.forall_mem_nil _
  | branch test x y e1 e2 ih1 ih2 =>
      exact List.forall_mem_append.mpr ⟨ih1 h.branch.1 _, ih2 h.branch.2 _⟩
  | letIn x ty e1 e2 ih1 ih2 =>
      exact List.forall_mem_append.mpr ⟨ih1 h.letIn.1 _, ih2 h.letIn.2 _⟩
  | letRec f ty formals body rest ih1 ih2 =>
      obtain ⟨known', captured, eq, own, inBody, inRest⟩ := h.letRec scope
      rw [eq]
      intro F hF member
      rcases mem_functions_define.mp hF with inside | rfl | after
      · exact ih1 inBody _ F inside member
      · rw [(own member).2]
        rfl
      · exact ih2 inRest _ F after member
  | letTuple pattern y e ih => exact ih h.letTuple _

/-- A closure is made for a function of `K` only if the function is used as a value. -/
theorem mem_valueNames_of_closure {e : Knf} (h : Resolved K known e) (scope : Scope Mono)
    {g : Name} {zs : List Name} (member : g ∈ K)
    (made : .closure g zs ∈ (e.closeIn scope known).references) : g ∈ e.valueNames := by
  induction e generalizing scope known with
  | op | externApp => simp [closeIn, mem_references, Code.references] at made
  | app f xs =>
      simp only [closeIn, mem_references] at made
      split at made <;> simp [Code.references] at made
  | branch test x y e1 e2 ih1 ih2 =>
      have inside : g ∈ e1.valueNames ∨ g ∈ e2.valueNames :=
        ((mem_references_join rfl).mp made).imp (ih1 h.branch.1 _) (ih2 h.branch.2 _)
      simp only [valueNames, List.mem_cons, List.mem_append]
      exact .inr (.inr inside)
  | letIn x ty e1 e2 ih1 ih2 =>
      apply List.mem_append.mpr
      exact ((mem_references_join rfl).mp made).imp (ih1 h.letIn.1 _) (ih2 h.letIn.2 _)
  | letRec f ty formals body rest ih1 ih2 =>
      obtain ⟨known', captured, eq, own, inBody, inRest⟩ := h.letRec scope
      rw [eq] at made
      apply List.mem_append.mpr
      rcases mem_references_define made with inside | after | ⟨same, free⟩
      · exact .inl (ih1 inBody _ inside)
      · exact .inr (ih2 inRest _ after)
      · cases same
        exact .inr (mem_valueNames_of_free rest (own member).1 free)
  | letTuple pattern y e ih => exact List.mem_cons_of_mem _ (ih h.letTuple _ made)

theorem calls_perm_append {calls calls1 calls2 : List Call} {es1 es2 : List (Name × List Name)}
    (split : calls.Perm (calls1 ++ calls2))
    (h1 : (calls1.filter (·.target ∈ K)).Perm
      ((es1.filter (·.1 ∈ K)).map fun call => .direct call.1 call.2))
    (h2 : (calls2.filter (·.target ∈ K)).Perm
      ((es2.filter (·.1 ∈ K)).map fun call => .direct call.1 call.2)) :
    (calls.filter (·.target ∈ K)).Perm
      (((es1 ++ es2).filter (·.1 ∈ K)).map fun call => .direct call.1 call.2) := by
  have both := split.filter (·.target ∈ K)
  rw [List.filter_append] at both
  rw [List.filter_append, List.map_append]
  exact both.trans (h1.append h2)

/-- The calls of functions of `K` go by their labels. -/
theorem calls_perm {e : Knf} (h : Resolved K known e) (scope : Scope Mono) :
    ((e.closeIn scope known).calls.filter (·.target ∈ K)).Perm
      ((e.calls.filter (·.1 ∈ K)).map fun call => .direct call.1 call.2) := by
  induction e generalizing scope known with
  | op => exact .nil
  | app f xs =>
      by_cases member : f ∈ K
      · have isKnown : f ∈ known := h.known f member List.mem_cons_self
        simp [closeIn, Converted.calls, Program.calls, Code.calls, calls, Call.target, isKnown,
          member]
      · simp only [closeIn]
        split <;>
          simp [Converted.calls, Program.calls, Code.calls, calls, Call.target, member]
  | externApp f xs =>
      by_cases member : externLabel f ∈ K <;>
        simp [closeIn, Converted.calls, Program.calls, Code.calls, calls, Call.target, member]
  | branch test x y e1 e2 ih1 ih2 =>
      exact calls_perm_append (calls_join rfl) (ih1 h.branch.1 scope) (ih2 h.branch.2 scope)
  | letIn x ty e1 e2 ih1 ih2 =>
      exact calls_perm_append (calls_join rfl) (ih1 h.letIn.1 scope) (ih2 h.letIn.2 _)
  | letRec f ty formals body rest ih1 ih2 =>
      obtain ⟨known', captured, eq, -, inBody, inRest⟩ := h.letRec scope
      rw [eq]
      exact calls_perm_append (calls_define ..) (ih1 inBody _) (ih2 inRest _)
  | letTuple pattern y e ih => exact ih h.letTuple _

/-- At the start no function is known, and none is in force. -/
theorem start {e : Knf} (nodup : e.binders.Nodup) (apart : ∀ x ∈ e.binders, x ∉ e.freeVars)
    (functions : K ⊆ e.functionNames) (within : ∀ part ∈ e.parts, part.DefinesWithin K) :
    Resolved K [] e := by
  have split := binders_perm e
  refine ⟨fun x member free => ?_, fun x bound member => ?_, within⟩
  · have binder := split.mem_iff.mpr (List.mem_append_left _ (functions member))
    exact absurd free (apart x binder)
  · exact (List.nodup_append.mp (split.nodup_iff.mp nodup)).2.2 x (functions member) x bound rfl

end Resolved

/-- Functions that need no closure never get one.  Let the binders of the code be different from
    each other and from its free names, and let `K` be functions of the code whose bodies take from
    outside only functions of `K`, and take them only to call them.  Each of them becomes one
    function that captures nothing; the calls of them, wherever they stand, are all calls by label;
    and a closure is made for one of them only if the code uses it as a value somewhere. -/
theorem toProgram_calls_directly (e : Knf) (nodup : e.binders.Nodup)
    (apart : ∀ x ∈ e.binders, x ∉ e.freeVars) (K : List Name) (functions : K ⊆ e.functionNames)
    (within : ∀ part ∈ e.parts, part.DefinesWithin K) :
    (∀ f ∈ K, ∃ F, e.toProgram.functions.filter (·.name = f) = [F] ∧ F.captured = []) ∧
    (e.toProgram.calls.filter (·.target ∈ K)).Perm
      ((e.calls.filter (·.1 ∈ K)).map fun call => .direct call.1 call.2) ∧
    ∀ f ∈ K, ∀ captured, .closure f captured ∈ e.toProgram.references → f ∈ e.valueNames := by
  have start := Resolved.start nodup apart functions within
  refine ⟨fun f member => ?_, start.calls_perm .empty, fun f member captured made => ?_⟩
  · have defined : f ∈ e.toProgram.functions.map (·.name) := by
      rw [toProgram, functionNames_closeIn]
      exact functions member
    obtain ⟨F, hF, rfl⟩ := List.mem_map.mp defined
    exact ⟨F, filter_name_of_mem (nodup_functionNames nodup) hF,
      start.captured_eq_nil .empty F hF member⟩
  · exact start.mem_valueNames_of_closure .empty member made

/-- Two functions that call each other and a third one, inside a function that captures a name
    and is therefore converted twice.  The third function is also used as a value. -/
def countingParity : Knf :=
  .letIn "z" .int (.op (.int 1))
    (.letRec "step" (.fn [.int] .int) [("n", .int)]
      (.letIn "one" .int (.op (.int 1)) (.op (.arith (.int .sub) "n" "one")))
      (.letRec "outer" (.fn [.int] .int) [("x", .int)]
        (.letRec "even" (.fn [.int] .int) [("k", .int)]
          (.letRec "odd" (.fn [.int] .int) [("m", .int)]
            (.letIn "p" .int (.app "step" ["m"])
              (.branch .le "p" "m" (.app "even" ["p"]) (.op (.var "m"))))
            (.letIn "q" .int (.app "step" ["k"]) (.app "odd" ["q"])))
          (.letIn "t" .int (.app "even" ["x"]) (.op (.arith (.int .add) "t" "z"))))
        (.letIn "pair" (.tuple [.fn [.int] .int, .fn [.int] .int]) (.op (.tuple ["step", "outer"]))
          (.app "outer" ["z"]))))

/-- Of the three functions only the one that is used as a value has a closure. -/
theorem toProgram_countingParity :
    countingParity.binders.Nodup ∧
    (∀ x ∈ countingParity.binders, x ∉ countingParity.freeVars) ∧
    ["even", "odd", "step"] ⊆ countingParity.functionNames ∧
    (∀ part ∈ countingParity.parts, part.DefinesWithin ["even", "odd", "step"]) ∧
    .closure "step" [] ∈ countingParity.toProgram.references ∧
    (∀ f ∈ ["even", "odd", "step"], ∃ F,
      countingParity.toProgram.functions.filter (·.name = f) = [F] ∧ F.captured = []) ∧
    (countingParity.toProgram.calls.filter (·.target ∈ ["even", "odd", "step"])).Perm
      [.direct "step" ["m"], .direct "even" ["p"], .direct "step" ["k"], .direct "odd" ["q"],
        .direct "even" ["x"]] ∧
    ∀ captured, .closure "even" captured ∉ countingParity.toProgram.references := by
  have within : ∀ part ∈ countingParity.parts, part.DefinesWithin ["even", "odd", "step"] := by
    decide
  obtain ⟨captured, calls, closures⟩ := toProgram_calls_directly countingParity (by decide)
    (by decide) ["even", "odd", "step"] (by decide) within
  refine ⟨by decide, by decide, by decide, within, by decide +kernel, captured, calls, ?_⟩
  intro zs made
  exact absurd (closures "even" (by decide) zs made) (by decide)

end Knf

end MiddleEnd
