import Mathlib
import MiddleEnd.Proofs.Typing.Rules

/-! # Occurrences of names

Which names a term uses without binding them, and whether it calls them or takes
their values.  The types of a term depend on what is known of these names and of
no others.
-/

namespace MiddleEnd

/-- What a name is used for where it occurs. -/
inductive Role where
  | value
  /-- The name stands in the place of the function of an application. -/
  | callee
deriving Repr, DecidableEq

/-- A place in a term where a name is used. -/
structure Occurrence where
  role : Role
  name : Name
deriving Repr, DecidableEq

/-- The occurrences that are left where these names are bound. -/
def Occurrence.outside (bound : List Name) (os : List Occurrence) : List Occurrence :=
  os.filter fun o => o.name ∉ bound

namespace Scope

variable {α : Type} (scope : Scope α)

/-- The occurrences of names that the scope does not bind. -/
def unbound (os : List Occurrence) : List Occurrence :=
  os.filter fun o => !scope.contains o.name

theorem unbound_empty (os : List Occurrence) : (empty : Scope α).unbound os = os := by
  simp [unbound, contains]

@[simp] theorem unbound_append (os os' : List Occurrence) :
    scope.unbound (os ++ os') = scope.unbound os ++ scope.unbound os' :=
  List.filter_append ..

theorem unbound_singleton {o : Occurrence} (free : scope.get? o.name = none) :
    scope.unbound [o] = [o] := by
  simp [unbound, contains, free]

theorem unbound_outside_one (x : Name) (a : α) (os : List Occurrence) :
    scope.unbound (Occurrence.outside [x] os) = (scope.bind x a).unbound os := by
  rw [unbound, unbound, Occurrence.outside, List.filter_filter]
  refine List.filter_congr fun o _ => ?_
  simp [contains_bind, Bool.and_comm]

theorem unbound_outside (bindings : List (Name × α)) (os : List Occurrence) :
    scope.unbound (Occurrence.outside (bindings.map (·.1)) os) =
      (scope.bindAll bindings).unbound os := by
  rw [unbound, unbound, Occurrence.outside, List.filter_filter]
  refine List.filter_congr fun o _ => ?_
  rw [contains_bindAll, Bool.not_or, Bool.and_comm, decide_not]

end Scope

namespace Term

variable {Note Ann : Type}

/-- The occurrences in the function of an application, where a mere name is called. -/
def asCallee (e : Term Note Ann) (os : List Occurrence) : List Occurrence :=
  match e with
  | .var _ f => [⟨.callee, f⟩]
  | _ => os

mutual
/-- The occurrences of names that no binder around them binds, from left to right. -/
def loose : Term Note Ann → List Occurrence
  | .unit _ | .bool .. | .int .. | .float .. => []
  | .var _ x => [⟨.value, x⟩]
  | .not _ e | .negate _ _ e => loose e
  | .arith _ _ l r | .compare _ _ l r | .array _ l r | .get _ l r | .seq _ l r =>
      loose l ++ loose r
  | .ifThenElse _ c t e | .put _ c t e => loose c ++ (loose t ++ loose e)
  | .letIn _ x l r => loose l ++ Occurrence.outside [x.1] (loose r)
  | .letTuple _ pattern l r => loose l ++ Occurrence.outside (pattern.map (·.1)) (loose r)
  | .letRec _ f formals l r =>
      Occurrence.outside [f.1] (Occurrence.outside (formals.map (·.1)) (loose l) ++ loose r)
  | .app _ e es => asCallee e (loose e) ++ looseList es
  | .tuple _ es => looseList es

def looseList : List (Term Note Ann) → List Occurrence
  | [] => []
  | e :: es => loose e ++ looseList es
end

section
variable (n : Note) (e e1 e2 : Term Note Ann)

theorem loose_var (x : Name) : (var n x : Term Note Ann).loose = [⟨.value, x⟩] := rfl

theorem loose_letIn (x : Name × Ann) :
    (letIn n x e1 e2).loose = e1.loose ++ Occurrence.outside [x.1] e2.loose := rfl

theorem loose_letTuple (pattern : List (Name × Ann)) : (letTuple n pattern e1 e2).loose =
    e1.loose ++ Occurrence.outside (pattern.map (·.1)) e2.loose := rfl

theorem loose_letRec (f : Name × Ann) (formals : List (Name × Ann)) :
    (letRec n f formals e1 e2).loose = Occurrence.outside [f.1]
      (Occurrence.outside (formals.map (·.1)) e1.loose ++ e2.loose) := rfl

theorem loose_app (es : List (Term Note Ann)) :
    (app n e es).loose = asCallee e e.loose ++ looseList es := rfl

theorem loose_tuple (es : List (Term Note Ann)) : (tuple n es).loose = looseList es := rfl

end

theorem looseList_eq (es : List (Term Note Ann)) : looseList es = es.flatMap loose := by
  induction es with
  | nil => rfl
  | cons e es ih => rw [looseList, ih, List.flatMap_cons]

theorem asCallee_map {Note' Ann' : Type} (f : Note → Note') (g : Ann → Ann') (e : Term Note Ann) :
    asCallee (e.map f g) = asCallee e := by
  cases e <;> rfl

/-- The notes of a term do not say which names are used. -/
theorem loose_map {Note' Ann' : Type} (f : Note → Note') (g : Ann → Ann') (e : Term Note Ann) :
    (e.map f g).loose = e.loose := by
  have same : ∀ es : List (Term Note Ann), (∀ a ∈ es, (a.map f g).loose = a.loose) →
      looseList (mapList f g es) = looseList es := by
    intro es h
    rw [mapList_eq, looseList_eq, looseList_eq, List.flatMap_map]
    exact List.flatMap_congr h
  induction e using Term.induct with
  | app n e es he hes => simp only [map, loose, asCallee_map, he, same es hes]
  | tuple n es hes => simp only [map, loose, same es hes]
  | letRec n h formals body rest hbody hrest =>
      simp only [map, loose, hbody, hrest, List.map_map]
      rfl
  | letTuple n pattern e1 e2 h1 h2 =>
      simp only [map, loose, h1, h2, List.map_map]
      rfl
  | _ => simp only [map, loose, mapBinder, *]

theorem loose_eq_of_erase_eq {Note' Ann' : Type} {e : Term Note Ann} {e' : Term Note' Ann'}
    (h : e.erase = e'.erase) : e.loose = e'.loose := by
  rw [← loose_map (fun _ => ()) (fun _ => ()) e, ← loose_map (fun _ => ()) (fun _ => ()) e']
  exact congrArg loose h

/-! ## Names that a scope does not bind -/

section
variable {α : Type} (scope : Scope α)

/-- The occurrences of names that neither the term nor the scope binds. -/
def looseIn (e : Term Note Ann) : List Occurrence :=
  scope.unbound e.loose

def calleeIn (e : Term Note Ann) : List Occurrence :=
  scope.unbound (asCallee e e.loose)

theorem looseIn_letIn (n : Note) (x : Name × Ann) (e1 e2 : Term Note Ann) (a : α) :
    (letIn n x e1 e2).looseIn scope = e1.looseIn scope ++ e2.looseIn (scope.bind x.1 a) := by
  rw [looseIn, loose_letIn, Scope.unbound_append, scope.unbound_outside_one x.1 a]
  rfl

theorem looseIn_letTuple (n : Note) (pattern : List (Name × Ann)) (e1 e2 : Term Note Ann)
    {bindings : List (Name × α)} (names : bindings.map (·.1) = pattern.map (·.1)) :
    (letTuple n pattern e1 e2).looseIn scope =
      e1.looseIn scope ++ e2.looseIn (scope.bindAll bindings) := by
  rw [looseIn, loose_letTuple, ← names, Scope.unbound_append, scope.unbound_outside]
  rfl

theorem looseIn_letRec (n : Note) (f : Name × Ann) (formals : List (Name × Ann))
    (body rest : Term Note Ann) (a : α) {bindings : List (Name × α)}
    (names : bindings.map (·.1) = formals.map (·.1)) :
    (letRec n f formals body rest).looseIn scope =
      body.looseIn ((scope.bind f.1 a).bindAll bindings) ++ rest.looseIn (scope.bind f.1 a) := by
  rw [looseIn, loose_letRec, ← names, scope.unbound_outside_one f.1 a, Scope.unbound_append,
    Scope.unbound_outside]
  rfl

theorem unbound_looseList (es : List (Term Note Ann)) :
    scope.unbound (looseList es) = es.flatMap (looseIn scope) := by
  rw [looseList_eq, Scope.unbound, List.filter_flatMap]
  rfl

theorem looseIn_app (n : Note) (e : Term Note Ann) (es : List (Term Note Ann)) :
    (app n e es).looseIn scope = e.calleeIn scope ++ es.flatMap (looseIn scope) := by
  rw [looseIn, loose_app, Scope.unbound_append, unbound_looseList]
  rfl

theorem looseIn_tuple (n : Note) (es : List (Term Note Ann)) :
    (tuple n es).looseIn scope = es.flatMap (looseIn scope) := by
  rw [looseIn, loose_tuple, unbound_looseList]

/-- Whether a name is called or not, it is the same name. -/
theorem forall_name_callee {e : Term Note Ann} {P : Name → Prop}
    (h : ∀ o ∈ e.calleeIn scope, P o.name) : ∀ o ∈ e.looseIn scope, P o.name := by
  cases e with
  | var n f =>
      intro o mem
      obtain ⟨mem, free⟩ := List.mem_filter.mp mem
      obtain rfl := List.mem_singleton.mp mem
      exact h ⟨.callee, f⟩ (List.mem_filter.mpr ⟨List.mem_singleton_self _, free⟩)
  | _ => exact h

end

/-! ## The names themselves -/

/-- The names that a term uses and does not bind, from left to right, as often as it uses
    them. -/
def freeNames (e : Term Note Ann) : List Name :=
  e.loose.map (·.name)

/-- Those of them that the scope does not bind either. -/
def freeNamesIn {α : Type} (scope : Scope α) (e : Term Note Ann) : List Name :=
  (e.looseIn scope).map (·.name)

theorem freeNamesIn_empty {α : Type} (e : Term Note Ann) :
    e.freeNamesIn (.empty : Scope α) = e.freeNames := by
  rw [freeNamesIn, looseIn, Scope.unbound_empty, freeNames]

section
variable {α : Type} (scope : Scope α)

theorem names_calleeIn (e : Term Note Ann) :
    (e.calleeIn scope).map (·.name) = e.freeNamesIn scope := by
  cases e with
  | var n f =>
      simp only [calleeIn, asCallee, freeNamesIn, looseIn, loose_var, Scope.unbound,
        List.filter_cons]
      cases scope.contains f <;> rfl
  | _ => rfl

theorem freeNamesIn_var_bound {n : Note} {x : Name} {a : α} (bound : scope.get? x = some a) :
    (var n x : Term Note Ann).freeNamesIn scope = [] := by
  simp [freeNamesIn, looseIn, loose_var, Scope.unbound, Scope.contains, bound]

theorem freeNamesIn_var_free {n : Note} {x : Name} (free : scope.get? x = none) :
    (var n x : Term Note Ann).freeNamesIn scope = [x] := by
  rw [freeNamesIn, looseIn, loose_var, scope.unbound_singleton free, List.map_singleton]

theorem freeNamesIn_app (n : Note) (e : Term Note Ann) (es : List (Term Note Ann)) :
    (app n e es).freeNamesIn scope = e.freeNamesIn scope ++ es.flatMap (freeNamesIn scope) := by
  rw [freeNamesIn, looseIn_app, List.map_append, names_calleeIn, List.map_flatMap]
  rfl

theorem freeNamesIn_tuple (n : Note) (es : List (Term Note Ann)) :
    (tuple n es).freeNamesIn scope = es.flatMap (freeNamesIn scope) := by
  rw [freeNamesIn, looseIn_tuple, List.map_flatMap]
  rfl

end

end Term

/-- What the first signature says of the name, the second one says as well. -/
def Signature.Keeps (known known' : Signature) (x : Name) : Prop :=
  ∀ ty, known.find? x = some ty → known'.find? x = some ty

namespace Typing

/-- The types of a term depend on those of the external names that it uses. -/
theorem HasType.congr {known known' : Signature} {Γ : Scope Ty} {t : Typed} {τ : Ty}
    (h : HasType known Γ t τ) (keeps : ∀ o ∈ t.looseIn Γ, known.Keeps known' o.name) :
    HasType known' Γ t τ := by
  induction h with
  | unit => exact .unit
  | bool => exact .bool
  | int => exact .int
  | float => exact .float
  | var bound => exact .var bound
  | @external Γ x τ free found =>
      rw [Term.looseIn, Term.loose_var, Γ.unbound_singleton free, List.forall_mem_singleton] at keeps
      exact .external free (keeps τ found)
  | not _ he => exact .not (he keeps)
  | negate _ he => exact .negate (he keeps)
  | letIn _ _ h1 h2 =>
      rw [Term.looseIn_letIn, List.forall_mem_append] at keeps
      exact .letIn (h1 keeps.1) (h2 keeps.2)
  | letRec _ _ hbody hrest =>
      rw [Term.looseIn_letRec _ _ _ _ _ _ _ rfl, List.forall_mem_append] at keeps
      exact .letRec (hbody keeps.1) (hrest keeps.2)
  | letTuple _ _ h1 h2 =>
      rw [Term.looseIn_letTuple _ _ _ _ _ rfl, List.forall_mem_append] at keeps
      exact .letTuple (h1 keeps.1) (h2 keeps.2)
  | app _ _ he hes =>
      rw [Term.looseIn_app, List.forall_mem_append, List.forall_mem_flatMap] at keeps
      exact .app (he (Term.forall_name_callee _ keeps.1)) fun a ha => hes a ha (keeps.2 a ha)
  | tuple _ hes =>
      rw [Term.looseIn_tuple, List.forall_mem_flatMap] at keeps
      exact .tuple fun a ha => hes a ha (keeps a ha)
  | ifThenElse _ _ _ hc hy ho =>
      simp only [Term.looseIn, Term.loose, Scope.unbound_append, List.forall_mem_append] at keeps
      exact .ifThenElse (hc keeps.1) (hy keeps.2.1) (ho keeps.2.2)
  | put _ _ _ ha hi hv =>
      simp only [Term.looseIn, Term.loose, Scope.unbound_append, List.forall_mem_append] at keeps
      exact .put (ha keeps.1) (hi keeps.2.1) (hv keeps.2.2)
  | arith _ _ h1 h2 =>
      rw [Term.looseIn, Term.loose, Scope.unbound_append, List.forall_mem_append] at keeps
      exact .arith (h1 keeps.1) (h2 keeps.2)
  | compare _ _ h1 h2 =>
      rw [Term.looseIn, Term.loose, Scope.unbound_append, List.forall_mem_append] at keeps
      exact .compare (h1 keeps.1) (h2 keeps.2)
  | array _ _ h1 h2 =>
      rw [Term.looseIn, Term.loose, Scope.unbound_append, List.forall_mem_append] at keeps
      exact .array (h1 keeps.1) (h2 keeps.2)
  | get _ _ h1 h2 =>
      rw [Term.looseIn, Term.loose, Scope.unbound_append, List.forall_mem_append] at keeps
      exact .get (h1 keeps.1) (h2 keeps.2)
  | seq _ _ h1 h2 =>
      rw [Term.looseIn, Term.loose, Scope.unbound_append, List.forall_mem_append] at keeps
      exact .seq (h1 keeps.1) (h2 keeps.2)

end Typing

end MiddleEnd
