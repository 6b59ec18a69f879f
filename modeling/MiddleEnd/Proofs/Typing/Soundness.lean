import Mathlib
import MiddleEnd.Proofs.Ty.Defaulting
import MiddleEnd.Proofs.Typing.Solutions

/-! # Soundness of type inference

Whatever inference accepts has a derivation by the typing rules.  Inference of a
part is followed by inference of other parts, which may still say more about its
types; so the derivation is built for the types as they are at the end, under any
solution.  When inference has settled all types there is one solution, the table
itself.
-/

namespace MiddleEnd

namespace Typing

section
variable {s s' : State} {scope : Scope Ty}

theorem infers_not {n : Unit} {e : Source} (he : Infers e) : Infers (.not n e) := by
  intro scope s t s' ready below h
  obtain ⟨t, s₁, part, h⟩ := h.of_bind
  obtain ⟨⟨⟩, s₂, equation, h⟩ := h.of_bind
  obtain ⟨rfl, rfl⟩ := h.of_pure
  obtain ⟨more, inferred, typed⟩ := he.expect ready below part equation nofun
  refine ⟨more, nofun, congrArg (Term.not ()) inferred.erase, inferred.binders, ?_⟩
  intro A solves
  exact .not (typed A solves)

theorem infers_negate {n : Unit} {op : Negation} {e : Source} (he : Infers e) :
    Infers (.negate n op e) := by
  intro scope s t s' ready below h
  obtain ⟨t, s₁, part, h⟩ := h.of_bind
  obtain ⟨⟨⟩, s₂, equation, h⟩ := h.of_bind
  obtain ⟨rfl, rfl⟩ := h.of_pure
  obtain ⟨more, inferred, typed⟩ := he.expect ready below part equation (below_negation op)
  refine ⟨more, below_negation op, congrArg (Term.negate () op) inferred.erase,
    inferred.binders, ?_⟩
  intro A solves
  have derivation := typed A solves
  rw [A.apply_negation] at derivation
  rw [Term.map, Typed.ty, Term.note, A.apply_negation]
  exact .negate derivation

theorem infers_arith {n : Unit} {op : Arith} {l r : Source} (hl : Infers l) (hr : Infers r) :
    Infers (.arith n op l r) := by
  intro scope s t s' ready below h
  obtain ⟨t, s₁, left, h⟩ := h.of_bind
  obtain ⟨u, s₂, right, h⟩ := h.of_bind
  obtain ⟨⟨⟩, s₃, equation, h⟩ := h.of_bind
  obtain ⟨⟨⟩, s₄, equation', h⟩ := h.of_bind
  obtain ⟨rfl, rfl⟩ := h.of_pure
  obtain ⟨more₁, inferred⟩ := hl ready below left
  obtain ⟨more₂, inferred'⟩ := hr more₁.ready (below.mono more₁.size_le) right
  obtain ⟨more₃, equal⟩ :=
    unify_equates more₂.ready (below_arith op) (inferred.later more₂).below equation
  obtain ⟨more₄, equal'⟩ :=
    unify_equates more₃.ready (below_arith op) (inferred'.later more₃).below equation'
  have lhs := inferred.later (more₂.trans (more₃.trans more₄))
  have rhs := inferred'.later (more₃.trans more₄)
  refine ⟨more₁.trans (more₂.trans (more₃.trans more₄)), below_arith op,
    congrArg₂ (Term.arith () op) lhs.erase rhs.erase, List.rel_append lhs.binders rhs.binders, ?_⟩
  intro A solves
  have typed := lhs.typed.convert (equal.later more₄) A solves
  have typed' := rhs.typed.convert equal' A solves
  rw [A.apply_arith] at typed typed'
  rw [Term.map, Typed.ty, Term.note, A.apply_arith]
  exact .arith typed typed'

theorem infers_compare {n : Unit} {op : Comparison} {l r : Source} (hl : Infers l)
    (hr : Infers r) : Infers (.compare n op l r) := by
  intro scope s t s' ready below h
  obtain ⟨t, s₁, left, h⟩ := h.of_bind
  obtain ⟨u, s₂, right, h⟩ := h.of_bind
  obtain ⟨⟨⟩, s₃, equation, h⟩ := h.of_bind
  obtain ⟨rfl, rfl⟩ := h.of_pure
  obtain ⟨more₁, inferred⟩ := hl ready below left
  obtain ⟨more₂, rhs, typed⟩ := hr.expect more₁.ready (below.mono more₁.size_le) right equation
    inferred.below
  have lhs := inferred.later more₂
  refine ⟨more₁.trans more₂, nofun, congrArg₂ (Term.compare () op) lhs.erase rhs.erase,
    List.rel_append lhs.binders rhs.binders, ?_⟩
  intro A solves
  exact .compare (lhs.typed A solves) (typed A solves)

theorem infers_ifThenElse {n : Unit} {c y o : Source} (hc : Infers c) (hy : Infers y)
    (ho : Infers o) : Infers (.ifThenElse n c y o) := by
  intro scope s t s' ready below h
  obtain ⟨c', s₁, part, h⟩ := h.of_bind
  obtain ⟨⟨⟩, s₂, equation, h⟩ := h.of_bind
  obtain ⟨y', s₃, yes, h⟩ := h.of_bind
  obtain ⟨o', s₄, no, h⟩ := h.of_bind
  obtain ⟨⟨⟩, s₅, equation', h⟩ := h.of_bind
  obtain ⟨rfl, rfl⟩ := h.of_pure
  obtain ⟨more₁, test, isBool⟩ := hc.expect ready below part equation nofun
  have below₁ := below.mono more₁.size_le
  obtain ⟨more₂, first⟩ := hy more₁.ready below₁ yes
  obtain ⟨more₃, second, same⟩ := ho.expect more₂.ready (below₁.mono more₂.size_le) no equation'
    first.below
  have first' := first.later more₃
  have test' := test.later (more₂.trans more₃)
  refine ⟨more₁.trans (more₂.trans more₃), first'.below, ?_,
    List.rel_append test'.binders (List.rel_append first'.binders second.binders), ?_⟩
  · show Term.ifThenElse () c'.erase y'.erase o'.erase = .ifThenElse () c.erase y.erase o.erase
    rw [test'.erase, first'.erase, second.erase]
  · intro A solves
    exact .ifThenElse (isBool.later (more₂.trans more₃) A solves) (first'.typed A solves)
      (same A solves)

theorem infers_letIn {n : Unit} {x : Name × Option Ty} {e1 e2 : Source} (h1 : Infers e1)
    (h2 : Infers e2) : Infers (.letIn n x e1 e2) := by
  intro scope s t s' ready below h
  obtain ⟨b, s₁, bind, h⟩ := h.of_bind
  obtain ⟨t1, s₂, bound, h⟩ := h.of_bind
  obtain ⟨⟨⟩, s₃, equation, h⟩ := h.of_bind
  obtain ⟨t2, s₄, body, h⟩ := h.of_bind
  obtain ⟨rfl, rfl⟩ := h.of_pure
  obtain ⟨more₁, bind⟩ := binder_binds ready bind
  have below₁ := below.mono more₁.size_le
  obtain ⟨more₂, first, same⟩ := h1.expect more₁.ready below₁ bound equation bind.below
  have bind' := bind.later more₂
  obtain ⟨more₃, second⟩ :=
    h2 more₂.ready ((below₁.mono more₂.size_le).bind bind'.below) body
  have bind'' := bind'.later more₃
  have first' := first.later more₃
  refine ⟨more₁.trans (more₂.trans more₃), second.below, ?_,
    .cons bind'' (List.rel_append first'.binders second.binders), ?_⟩
  · show Term.letIn () (Term.mapBinder _ b) t1.erase t2.erase =
      .letIn () (Term.mapBinder _ x) e1.erase e2.erase
    rw [bind''.erase_eq, first'.erase, second.erase]
  · intro A solves
    exact .letIn (same.later more₃ A solves) (second.typed A solves)

theorem infers_letRec {n : Unit} {f : Name × Option Ty} {formals : List (Name × Option Ty)}
    {body rest : Source} (hbody : Infers body) (hrest : Infers rest) :
    Infers (.letRec n f formals body rest) := by
  intro scope s t s' ready below h
  obtain ⟨g, s₁, bind, h⟩ := h.of_bind
  obtain ⟨bs, s₂, binds, h⟩ := h.of_bind
  obtain ⟨t1, s₃, inside, h⟩ := h.of_bind
  obtain ⟨⟨⟩, s₄, equation, h⟩ := h.of_bind
  obtain ⟨t2, s₅, after, h⟩ := h.of_bind
  obtain ⟨rfl, rfl⟩ := h.of_pure
  obtain ⟨more₁, bind⟩ := binder_binds ready bind
  obtain ⟨more₂, binds⟩ := binders_bind more₁.ready binds
  have inner := ((below.mono more₁.size_le).bind bind.below).mono more₂.size_le
  obtain ⟨more₃, first⟩ := hbody more₂.ready (inner.bindAll (below_of_binds binds)) inside
  have binds₃ := binds.imp fun _ _ b => b.later more₃
  obtain ⟨more₄, equal⟩ := unify_equates more₃.ready (bind.later (more₂.trans more₃)).below
    (below_fn (List.forall_mem_map.mpr (below_of_binds binds₃)) first.below) equation
  obtain ⟨more₅, second⟩ := hrest more₄.ready (inner.mono (more₃.trans more₄).size_le) after
  have bind' := bind.later (more₂.trans (more₃.trans (more₄.trans more₅)))
  have binds' := binds₃.imp fun _ _ b => b.later (more₄.trans more₅)
  have first' := first.later (more₄.trans more₅)
  refine ⟨more₁.trans (more₂.trans (more₃.trans (more₄.trans more₅))), second.below, ?_,
    .cons bind' (List.rel_append binds' (List.rel_append first'.binders second.binders)), ?_⟩
  · show Term.letRec () (Term.mapBinder _ g) (bs.map (Term.mapBinder _)) t1.erase t2.erase =
      .letRec () (Term.mapBinder _ f) (formals.map (Term.mapBinder _)) body.erase rest.erase
    rw [bind'.erase_eq, erase_binders binds', first'.erase, second.erase]
  · intro A solves
    -- The body was walked before its function was known to have a function type; under the
    -- solution the binder had that type all along.
    have function : A.apply g.2 =
        .fn ((bs.map (Term.mapBinder A.apply)).map (·.2)) (A.apply (Typed.ty t1)) := by
      rw [equal.later more₅ A solves, A.apply_fn, List.map_map, List.map_map]
      rfl
    have typed := first'.typed A solves
    have typed' := second.typed A solves
    rw [Scope.map_bindAll, Scope.map_bind, function] at typed
    rw [Scope.map_bind, function] at typed'
    rw [Term.map, Term.mapBinder, function]
    exact .letRec typed typed'

theorem infers_letTuple {n : Unit} {pattern : List (Name × Option Ty)} {e1 e2 : Source}
    (h1 : Infers e1) (h2 : Infers e2) : Infers (.letTuple n pattern e1 e2) := by
  intro scope s t s' ready below h
  obtain ⟨bs, s₁, binds, h⟩ := h.of_bind
  obtain ⟨t1, s₂, bound, h⟩ := h.of_bind
  obtain ⟨⟨⟩, s₃, equation, h⟩ := h.of_bind
  obtain ⟨t2, s₄, body, h⟩ := h.of_bind
  obtain ⟨rfl, rfl⟩ := h.of_pure
  obtain ⟨more₁, binds⟩ := binders_bind ready binds
  have below₁ := below.mono more₁.size_le
  obtain ⟨more₂, first, same⟩ := h1.expect more₁.ready below₁ bound equation
    (below_tuple (List.forall_mem_map.mpr (below_of_binds binds)))
  have binds₂ := binds.imp fun _ _ b => b.later more₂
  obtain ⟨more₃, second⟩ :=
    h2 more₂.ready ((below₁.mono more₂.size_le).bindAll (below_of_binds binds₂)) body
  have binds' := binds₂.imp fun _ _ b => b.later more₃
  have first' := first.later more₃
  refine ⟨more₁.trans (more₂.trans more₃), second.below, ?_,
    List.rel_append binds' (List.rel_append first'.binders second.binders), ?_⟩
  · show Term.letTuple () (bs.map (Term.mapBinder _)) t1.erase t2.erase =
      .letTuple () (pattern.map (Term.mapBinder _)) e1.erase e2.erase
    rw [erase_binders binds', first'.erase, second.erase]
  · intro A solves
    have components : A.apply (.tuple (bs.map (·.2))) =
        .tuple ((bs.map (Term.mapBinder A.apply)).map (·.2)) := by
      rw [A.apply_tuple, List.map_map, List.map_map]
      rfl
    have typed := same.later more₃ A solves
    have typed' := second.typed A solves
    rw [components] at typed
    rw [Scope.map_bindAll] at typed'
    exact .letTuple typed typed'

theorem infers_array {n : Unit} {len init : Source} (hlen : Infers len) (hinit : Infers init) :
    Infers (.array n len init) := by
  intro scope s t s' ready below h
  obtain ⟨l, s₁, length, h⟩ := h.of_bind
  obtain ⟨⟨⟩, s₂, equation, h⟩ := h.of_bind
  obtain ⟨i, s₃, initial, h⟩ := h.of_bind
  obtain ⟨rfl, rfl⟩ := h.of_pure
  obtain ⟨more₁, first, isInt⟩ := hlen.expect ready below length equation nofun
  obtain ⟨more₂, second⟩ := hinit more₁.ready (below.mono more₁.size_le) initial
  have first' := first.later more₂
  refine ⟨more₁.trans more₂, second.below, congrArg₂ (Term.array ()) first'.erase second.erase,
    List.rel_append first'.binders second.binders, ?_⟩
  intro A solves
  exact .array (isInt.later more₂ A solves) (second.typed A solves)

theorem infers_seq {n : Unit} {e1 e2 : Source} (h1 : Infers e1) (h2 : Infers e2) :
    Infers (.seq n e1 e2) := by
  intro scope s t s' ready below h
  obtain ⟨t1, s₁, former, h⟩ := h.of_bind
  obtain ⟨⟨⟩, s₂, equation, h⟩ := h.of_bind
  obtain ⟨t2, s₃, latter, h⟩ := h.of_bind
  obtain ⟨rfl, rfl⟩ := h.of_pure
  obtain ⟨more₁, first, isUnit⟩ := h1.expect ready below former equation nofun
  obtain ⟨more₂, second⟩ := h2 more₁.ready (below.mono more₁.size_le) latter
  have first' := first.later more₂
  refine ⟨more₁.trans more₂, second.below, congrArg₂ (Term.seq ()) first'.erase second.erase,
    List.rel_append first'.binders second.binders, ?_⟩
  intro A solves
  exact .seq (isUnit.later more₂ A solves) (second.typed A solves)

theorem infers_get {n : Unit} {a i : Source} (ha : Infers a) (hi : Infers i) :
    Infers (.get n a i) := by
  intro scope s t s' ready below h
  obtain ⟨elem, s₁, new, h⟩ := h.of_bind
  obtain ⟨a', s₂, array, h⟩ := h.of_bind
  obtain ⟨⟨⟩, s₃, equation, h⟩ := h.of_bind
  obtain ⟨i', s₄, index, h⟩ := h.of_bind
  obtain ⟨⟨⟩, s₅, equation', h⟩ := h.of_bind
  obtain ⟨rfl, rfl⟩ := h.of_pure
  obtain ⟨more₁, known⟩ := fresh_below ready new
  have below₁ := below.mono more₁.size_le
  obtain ⟨more₂, first, isArray⟩ := ha.expect more₁.ready below₁ array equation known
  obtain ⟨more₃, second, isInt⟩ :=
    hi.expect more₂.ready (below₁.mono more₂.size_le) index equation' nofun
  have first' := first.later more₃
  refine ⟨more₁.trans (more₂.trans more₃), known.mono (more₂.trans more₃).size_le,
    congrArg₂ (Term.get ()) first'.erase second.erase,
    List.rel_append first'.binders second.binders, ?_⟩
  intro A solves
  exact .get (isArray.later more₃ A solves) (isInt A solves)

theorem infers_put {n : Unit} {a i v : Source} (ha : Infers a) (hi : Infers i) (hv : Infers v) :
    Infers (.put n a i v) := by
  intro scope s t s' ready below h
  obtain ⟨elem, s₁, new, h⟩ := h.of_bind
  obtain ⟨a', s₂, array, h⟩ := h.of_bind
  obtain ⟨⟨⟩, s₃, equation, h⟩ := h.of_bind
  obtain ⟨i', s₄, index, h⟩ := h.of_bind
  obtain ⟨⟨⟩, s₅, equation', h⟩ := h.of_bind
  obtain ⟨v', s₆, value, h⟩ := h.of_bind
  obtain ⟨⟨⟩, s₇, equation'', h⟩ := h.of_bind
  obtain ⟨rfl, rfl⟩ := h.of_pure
  obtain ⟨more₁, known⟩ := fresh_below ready new
  have below₁ := below.mono more₁.size_le
  obtain ⟨more₂, first, isArray⟩ := ha.expect more₁.ready below₁ array equation known
  have below₂ := below₁.mono more₂.size_le
  obtain ⟨more₃, second, isInt⟩ := hi.expect more₂.ready below₂ index equation' nofun
  obtain ⟨more₄, third, isElem⟩ := hv.expect more₃.ready (below₂.mono more₃.size_le) value
    equation'' (known.mono (more₂.trans more₃).size_le)
  have first' := first.later (more₃.trans more₄)
  have second' := second.later more₄
  refine ⟨more₁.trans (more₂.trans (more₃.trans more₄)), nofun, ?_,
    List.rel_append first'.binders (List.rel_append second'.binders third.binders), ?_⟩
  · show Term.put () a'.erase i'.erase v'.erase = .put () a.erase i.erase v.erase
    rw [first'.erase, second'.erase, third.erase]
  · intro A solves
    exact .put (isArray.later (more₃.trans more₄) A solves) (isInt.later more₄ A solves)
      (isElem A solves)

/-! ## Several terms -/

theorem infers_list {es : List Source} {ts : List Typed} (hes : ∀ e ∈ es, Infers e)
    (ready : Ready s) (below : ScopeBelow s.table.size scope)
    (h : Gives (inferList scope es) s ts s') :
    Extends s s' ∧ List.Forall₂ (Inferred s' scope) es ts := by
  induction es generalizing s ts with
  | nil =>
      obtain ⟨rfl, rfl⟩ := h.of_pure
      exact ⟨.refl ready, .nil⟩
  | cons e es ih =>
      rw [List.forall_mem_cons] at hes
      obtain ⟨t, s₁, first, h⟩ := h.of_bind
      obtain ⟨ts, s₂, others, h⟩ := h.of_bind
      obtain ⟨rfl, rfl⟩ := h.of_pure
      obtain ⟨more, inferred⟩ := hes.1 ready below first
      obtain ⟨more', inferreds⟩ := ih hes.2 more.ready (below.mono more.size_le) others
      exact ⟨more.trans more', .cons (inferred.later more') inferreds⟩

section
variable {es : List Source} {ts : List Typed} (h : List.Forall₂ (Inferred s scope) es ts)
include h

theorem below_types : ∀ ty ∈ ts.map Typed.ty, ty.Below s.table.size :=
  List.forall_mem_map.mpr (forall_right h fun _ _ inferred => inferred.below)

theorem erase_list :
    Term.mapList (fun _ => ()) (fun _ => ()) ts = Term.mapList (fun _ => ()) (fun _ => ()) es := by
  induction h with
  | nil => rfl
  | cons head _ ih =>
      have erase := head.erase
      rw [Term.erase, Term.erase] at erase
      rw [Term.mapList, Term.mapList, erase, ih]

theorem binders_list : List.Forall₂ (Binds s) (Term.bindersList es) (Term.bindersList ts) := by
  induction h with
  | nil => exact .nil
  | cons head _ ih => exact List.rel_append head.binders ih

theorem typed_list {A : Solution} (solves : A.Solves s) :
    ∀ a ∈ ts.map (Term.map A.apply A.apply),
      HasType A.externals (scope.map A.apply) a (Typed.ty a) := by
  rw [List.forall_mem_map]
  refine forall_right h ?_
  intro e t inferred
  rw [Typed.ty, Term.note_map]
  exact inferred.typed A solves

end

theorem map_types (f : Ty → Ty) (ts : List Typed) :
    (ts.map Typed.ty).map f = (ts.map (Term.map f f)).map Typed.ty := by
  rw [List.map_map, List.map_map]
  apply List.map_congr_left
  intro t _
  exact (Term.note_map f f t).symm

theorem infers_app {n : Unit} {e : Source} {es : List Source} (he : Infers e)
    (hes : ∀ a ∈ es, Infers a) : Infers (.app n e es) := by
  intro scope s t s' ready below h
  obtain ⟨c, s₁, callee, h⟩ := h.of_bind
  obtain ⟨ts, s₂, args, h⟩ := h.of_bind
  obtain ⟨result, s₃, new, h⟩ := h.of_bind
  obtain ⟨⟨⟩, s₄, equation, h⟩ := h.of_bind
  obtain ⟨rfl, rfl⟩ := h.of_pure
  obtain ⟨more₁, first⟩ := he ready below callee
  obtain ⟨more₂, others⟩ := infers_list hes more₁.ready (below.mono more₁.size_le) args
  obtain ⟨more₃, known⟩ := fresh_below more₂.ready new
  have others₃ := others.imp fun _ _ inferred => inferred.later more₃
  obtain ⟨more₄, equal⟩ := unify_equates more₃.ready (first.later (more₂.trans more₃)).below
    (below_fn (below_types others₃) known) equation
  have first' := first.later (more₂.trans (more₃.trans more₄))
  have others' := others₃.imp fun _ _ inferred => inferred.later more₄
  refine ⟨more₁.trans (more₂.trans (more₃.trans more₄)), known.mono more₄.size_le, ?_,
    List.rel_append first'.binders (binders_list others'), ?_⟩
  · show Term.app () c.erase (Term.mapList _ _ ts) = .app () e.erase (Term.mapList _ _ es)
    rw [first'.erase, erase_list others']
  · intro A solves
    have typed := first'.typed A solves
    rw [equal A solves, A.apply_fn, map_types] at typed
    rw [Term.map, Term.mapList_eq]
    exact .app typed (typed_list others' solves)

theorem infers_tuple {n : Unit} {es : List Source} (hes : ∀ a ∈ es, Infers a) :
    Infers (.tuple n es) := by
  intro scope s t s' ready below h
  obtain ⟨ts, s₁, elems, h⟩ := h.of_bind
  obtain ⟨rfl, rfl⟩ := h.of_pure
  obtain ⟨more, inferreds⟩ := infers_list hes ready below elems
  refine ⟨more, below_tuple (below_types inferreds),
    congrArg (Term.tuple ()) (erase_list inferreds), binders_list inferreds, ?_⟩
  intro A solves
  rw [Term.map, Term.mapList_eq, Typed.ty, Term.note, A.apply_tuple, map_types]
  exact .tuple (typed_list inferreds solves)

theorem infers (e : Source) : Infers e := by
  induction e using Term.induct with
  | unit | bool | int | float =>
      intro scope s t s' ready below h
      obtain ⟨rfl, rfl⟩ := h.of_pure
      refine ⟨.refl ready, nofun, rfl, .nil, ?_⟩
      intro A _
      constructor
  | var n x => exact infers_var n x
  | not _ _ he => exact infers_not he
  | negate _ _ _ he => exact infers_negate he
  | arith _ _ _ _ hl hr => exact infers_arith hl hr
  | compare _ _ _ _ hl hr => exact infers_compare hl hr
  | ifThenElse _ _ _ _ hc hy ho => exact infers_ifThenElse hc hy ho
  | letIn _ _ _ _ h1 h2 => exact infers_letIn h1 h2
  | letRec _ _ _ _ _ hbody hrest => exact infers_letRec hbody hrest
  | app _ _ _ he hes => exact infers_app he hes
  | tuple _ _ hes => exact infers_tuple hes
  | letTuple _ _ _ _ h1 h2 => exact infers_letTuple h1 h2
  | array _ _ _ hlen hinit => exact infers_array hlen hinit
  | get _ _ _ ha hi => exact infers_get ha hi
  | put _ _ _ _ ha hi hv => exact infers_put ha hi hv
  | seq _ _ _ h1 h2 => exact infers_seq h1 h2

/-! ## Programs -/

theorem imports_signature (sig : Signature) (sound : Sound s) :
    Grows s ((sig.mapM importTy).run s).2 ∧
      List.Forall₂ (fun b c => c.1 = b.1 ∧ Imported ((sig.mapM importTy).run s).2 b.2 c.2)
        sig ((sig.mapM importTy).run s).1 := by
  induction sig generalizing s with
  | nil => exact ⟨.refl sound, .nil⟩
  | cons b rest ih =>
      obtain ⟨grows, imported⟩ := imports_importTy b.2 s sound
      obtain ⟨grows', others⟩ := ih grows.sound
      exact ⟨grows.trans grows', .cons ⟨rfl, imported.later grows'⟩ others⟩

/-- Every solution has the caller's types of external names. -/
theorem importExternals_ready (sound : Sound s) :
    Ready (importExternals.run s).2 ∧
      ∀ A : Solution, A.Solves (importExternals.run s).2 → ∀ x ty, s.externals.find? x = some ty →
        A.externals.find? x = some (ty.subst A.callers) := by
  obtain ⟨grows, entries⟩ := imports_signature s.externals sound
  have found := lookup_rel entries
  have run : (importExternals.run s).2 =
      { ((s.externals.mapM importTy).run s).2 with
        externals := ((s.externals.mapM importTy).run s).1 } := rfl
  rw [run]
  generalize (s.externals.mapM importTy).run s = r at grows found
  refine ⟨⟨⟨grows.sound.table, grows.sound.imported⟩, ?_⟩, ?_⟩
  · intro x ty eq
    have rel := found x
    rw [Signature.find?] at eq
    rw [eq] at rel
    generalize s.externals.lookup x = o at rel
    cases rel with
    | some imported => exact imported.below
  · intro A solves x ty eq
    have rel := found x
    rw [Signature.find?] at eq
    rw [eq] at rel
    generalize known : r.1.lookup x = o at rel
    cases rel with
    | some imported =>
        rw [solves.externals x _ known, imported.equal A ⟨solves.models, solves.imported⟩]

theorem gives_requireUnit_iff {ty : Ty} :
    Gives (requireUnit ty) s () s' ↔ Gives (unify .unit ty) s () s' := by
  simp only [Gives, requireUnit, unify, ExceptT.run, StateT.run]
  cases s.table.unify .unit ty with
  | mk result table =>
      cases result with
      | error err =>
          constructor
          · intro h
            cases h
          · intro h
            cases h
      | ok u => rfl

/-- What holds of the state all the time while its types are settled. -/
structure Settling (ρ : Nat → Ty) (roots height : Nat → Nat) (externals : Signature)
    (s : State) : Prop where
  keeps : Ty.Table.Settling.Keeps ρ roots height ⟨s.table, []⟩
  externals : s.externals = externals

theorem returns_settle {ρ : Nat → Ty} {roots height : Nat → Nat} {externals : Signature} (ty : Ty) :
    Returns (Settling ρ roots height externals) (settle ty) (ty.subst ρ) := by
  intro s hs
  have depth : ∀ v ∈ ty.vars, Returns (Ty.Table.Settling.Keeps ρ roots height)
      (Ty.Table.settleVar s.table.size v) (ρ v) := by
    intro v _
    exact Ty.Table.returns_settleVar (hs.keeps.descends.le_size _)
  obtain ⟨eq, keeps⟩ := Ty.returns_substM depth _ hs.keeps
  exact ⟨eq, ⟨keeps.settles, keeps.descends, keeps.root⟩, hs.externals⟩

section
variable {S : Type} {I : S → Prop} {f : Ty → StateM S Ty} {g : Ty → Ty}

theorem returns_mapBinderM {b : Name × Ty} (h : Returns I (f b.2) (g b.2)) :
    Returns I (Typed.mapBinderM f b) (Term.mapBinder g b) :=
  h.bind (.pure _)

/-- Where each type of the term is replaced by another, the term gets the other types. -/
def ReturnsTypes (I : S → Prop) (f : Ty → StateM S Ty) (g : Ty → Ty) (t : Typed) : Prop :=
  (∀ ty ∈ t.notes, Returns I (f ty) (g ty)) → (∀ b ∈ t.binders, Returns I (f b.2) (g b.2)) →
    Returns I (Typed.mapTypesM f t) (t.map g g)

theorem returns_mapTypesListM {ts : List Typed} (h : ∀ t ∈ ts, ReturnsTypes I f g t)
    (notes : ∀ ty ∈ Term.notesList ts, Returns I (f ty) (g ty))
    (binders : ∀ b ∈ Term.bindersList ts, Returns I (f b.2) (g b.2)) :
    Returns I (Typed.mapTypesListM f ts) (Term.mapList g g ts) := by
  induction ts with
  | nil => exact .pure _
  | cons t ts ih =>
      rw [List.forall_mem_cons] at h
      rw [Term.notesList, List.forall_mem_append] at notes
      rw [Term.bindersList, List.forall_mem_append] at binders
      exact (h.1 notes.1 binders.1).bind ((ih h.2 notes.2 binders.2).bind (.pure _))

theorem returns_mapTypesM (t : Typed) : ReturnsTypes I f g t := by
  induction t using Term.induct with
  | unit ty | bool ty | int ty | float ty | var ty =>
      intro notes _
      exact (notes ty (List.mem_singleton_self ty)).bind (.pure _)
  | not ty _ he | negate ty _ _ he =>
      intro notes binders
      rw [Term.notes, List.forall_mem_cons] at notes
      exact (he notes.2 binders).bind (notes.1.bind (.pure _))
  | arith ty _ _ _ h1 h2 | compare ty _ _ _ h1 h2 | array ty _ _ h1 h2 | get ty _ _ h1 h2
  | seq ty _ _ h1 h2 =>
      intro notes binders
      rw [Term.notes, List.forall_mem_cons, List.forall_mem_append] at notes
      rw [Term.binders, List.forall_mem_append] at binders
      exact (h1 notes.2.1 binders.1).bind ((h2 notes.2.2 binders.2).bind (notes.1.bind (.pure _)))
  | ifThenElse ty _ _ _ h1 h2 h3 | put ty _ _ _ h1 h2 h3 =>
      intro notes binders
      rw [Term.notes, List.forall_mem_cons, List.forall_mem_append, List.forall_mem_append] at notes
      rw [Term.binders, List.forall_mem_append, List.forall_mem_append] at binders
      exact (h1 notes.2.1 binders.1).bind ((h2 notes.2.2.1 binders.2.1).bind
        ((h3 notes.2.2.2 binders.2.2).bind (notes.1.bind (.pure _))))
  | letIn ty x _ _ h1 h2 =>
      intro notes binders
      rw [Term.notes, List.forall_mem_cons, List.forall_mem_append] at notes
      rw [Term.binders, List.forall_mem_cons, List.forall_mem_append] at binders
      exact (returns_mapBinderM binders.1).bind ((h1 notes.2.1 binders.2.1).bind
        ((h2 notes.2.2 binders.2.2).bind (notes.1.bind (.pure _))))
  | letRec ty x xs _ _ h1 h2 =>
      intro notes binders
      rw [Term.notes, List.forall_mem_cons, List.forall_mem_append] at notes
      rw [Term.binders, List.forall_mem_cons, List.forall_mem_append,
        List.forall_mem_append] at binders
      have formals := Returns.mapM fun b mem => returns_mapBinderM (binders.2.1 b mem)
      exact (returns_mapBinderM binders.1).bind (formals.bind
        ((h1 notes.2.1 binders.2.2.1).bind ((h2 notes.2.2 binders.2.2.2).bind
          (notes.1.bind (.pure _)))))
  | letTuple ty xs _ _ h1 h2 =>
      intro notes binders
      rw [Term.notes, List.forall_mem_cons, List.forall_mem_append] at notes
      rw [Term.binders, List.forall_mem_append, List.forall_mem_append] at binders
      have pattern := Returns.mapM fun b mem => returns_mapBinderM (binders.1 b mem)
      exact pattern.bind ((h1 notes.2.1 binders.2.1).bind
        ((h2 notes.2.2 binders.2.2).bind (notes.1.bind (.pure _))))
  | app ty _ _ he hes =>
      intro notes binders
      rw [Term.notes, List.forall_mem_cons, List.forall_mem_append] at notes
      rw [Term.binders, List.forall_mem_append] at binders
      exact (he notes.2.1 binders.1).bind
        ((returns_mapTypesListM hes notes.2.2 binders.2).bind (notes.1.bind (.pure _)))
  | tuple ty _ hes =>
      intro notes binders
      rw [Term.notes, List.forall_mem_cons] at notes
      exact (returns_mapTypesListM hes notes.2 binders).bind (notes.1.bind (.pure _))

theorem returns_signature {sig : Signature} (h : ∀ b ∈ sig, Returns I (f b.2) (g b.2)) :
    Returns I (sig.mapM f) (sig.map (Term.mapBinder g)) := by
  induction sig with
  | nil => exact .pure _
  | cons b rest ih =>
      rw [List.forall_mem_cons] at h
      exact h.1.bind ((ih h.2).bind (.pure _))

end

/-- The state with these types for its variables. -/
def State.solutionWith (s : State) (ρ : Nat → Ty) : Solution where
  types := ρ
  callers v := match s.imported.lookup v with
    | some w => ρ w
    | none => .int
  externals := s.externals.map (Term.mapBinder (·.subst ρ))

theorem State.find?_solutionWith (s : State) (ρ : Nat → Ty) (x : Name) :
    (s.solutionWith ρ).externals.find? x = (s.externals.find? x).map (·.subst ρ) :=
  lookup_map_snd (Ty.subst ρ) x s.externals

theorem State.solutionWith_solves {ρ : Nat → Ty} (models : Ty.Table.Models ρ s.table) :
    (s.solutionWith ρ).Solves s := by
  refine ⟨⟨models, ?_⟩, ?_⟩
  · intro v w found
    simp only [State.solutionWith, found]
  · intro x ty found
    rw [State.find?_solutionWith, found]
    rfl

/-- What the state says in the end: variables of which nothing is known are integers. -/
def State.solution (s : State) : Solution where
  types := s.table.settled
  callers v := match s.imported.lookup v with
    | some w => s.table.settled w
    | none => .int
  externals := s.externals.map (Term.mapBinder (·.subst s.table.settled))

theorem Ready.solution_solves (ready : Ready s) : s.solution.Solves s := by
  obtain ⟨order, ordered⟩ := ready.table
  exact State.solutionWith_solves ordered.descends.settles.models

/-- The walk of a program, which has to have the type of programs, ends here. -/
structure Walked (s : State) (e : Source) (u : Typed) (s' : State) : Prop where
  steps : ∃ s₀, Gives (infer .empty e) (importExternals.run s).2 u s₀ ∧
    Gives (unify .unit (Typed.ty u)) s₀ () s'
  more : Extends (importExternals.run s).2 s'
  inferred : Inferred s' .empty e u
  isUnit : Types s' .empty u .unit

/-- What follows the walk of a program: its types and those of external names are settled. -/
def settleAll (u : Typed) : StateM State Typed := do
  let t ← Typed.mapTypesM settle u
  let externals ← (← get).externals.mapM settle
  modify fun s => { s with externals }
  return t

theorem run_settleAll (u : Typed) (s : State) :
    (settleAll u).run s =
      let terms := (Typed.mapTypesM settle u).run s
      let entries := (terms.2.externals.mapM settle).run terms.2
      (terms.1, { entries.2 with externals := entries.1 }) := rfl

/-- A program that is accepted is walked and then settled. -/
theorem program_walked {e : Source} {t : Typed} (sound : Sound s)
    (h : Gives (program e) s t s') :
    ∃ u s₁, Walked s e u s₁ ∧ (settleAll u).run s₁ = (t, s') := by
  rw [program] at h
  obtain ⟨⟨⟩, s₀, start, h⟩ := h.of_bind
  obtain ⟨-, rfl⟩ := start.of_lift
  obtain ⟨u, s₁, walk, h⟩ := h.of_bind
  obtain ⟨⟨⟩, s₂, unit, h⟩ := h.of_bind
  obtain ⟨u', s₃, terms, h⟩ := h.of_bind
  obtain ⟨known, s₄, now, h⟩ := h.of_bind
  obtain ⟨externals, s₅, entries, h⟩ := h.of_bind
  obtain ⟨⟨⟩, s₆, put, h⟩ := h.of_bind
  obtain ⟨rfl, rfl⟩ := h.of_pure
  obtain ⟨rfl, rfl⟩ := terms.of_lift
  cases now
  obtain ⟨rfl, rfl⟩ := entries.of_lift
  cases put
  obtain ⟨ready, -⟩ := importExternals_ready sound
  obtain ⟨more, inferred, isUnit⟩ :=
    (infers e).expect ready (scopeBelow_empty _) walk (gives_requireUnit_iff.mp unit) nofun
  exact ⟨u, s₂, ⟨⟨s₁, walk, gives_requireUnit_iff.mp unit⟩, more, inferred, isUnit⟩, rfl⟩

/-- A program that is rejected is rejected in its walk. -/
theorem program_fails {e : Source} {err : TypeError}
    (failed : (program e).run.run s = (.error err, s')) :
    (do requireUnit (Typed.ty (← infer .empty e)) : Infer Unit).run.run (importExternals.run s).2 =
      (.error err, s') := by
  have start : (liftM importExternals : Infer Unit).run.run s =
      (.ok (), (importExternals.run s).2) := rfl
  rw [program, Step.run_bind_except, start] at failed
  dsimp only at failed
  rw [Step.run_bind_except] at failed ⊢
  split at failed
  · rw [Step.run_bind_except] at failed
    split at failed
    · cases failed
    · rename_i unit
      cases failed
      exact unit
  · cases failed
    rfl

theorem Ready.settling (ready : Ready s) :
    ∃ height, Settling s.table.settled s.table.root height s.externals s := by
  obtain ⟨order, ordered⟩ := ready.table
  exact ⟨_, ⟨ordered.descends.settles, ordered.descends, fun _ => rfl⟩, rfl⟩

/-- Settling gives the types of the solution.  It changes the table with every default, but the
    solution has made all defaults already and stays the same. -/
theorem Ready.settleAll_solution (ready : Ready s) (u : Typed) :
    ((settleAll u).run s).1 = u.map s.solution.apply s.solution.apply ∧
      ((settleAll u).run s).2.externals = s.solution.externals := by
  obtain ⟨height, start⟩ := ready.settling
  obtain ⟨term, settling⟩ :=
    returns_mapTypesM u (fun ty _ => returns_settle ty) (fun b _ => returns_settle b.2) s start
  obtain ⟨signature, -⟩ := returns_signature (fun b _ => returns_settle b.2) _ settling
  rw [run_settleAll]
  dsimp only
  rw [settling.externals]
  exact ⟨term, signature⟩

/-- A program is walked and gets the types of the solution. -/
theorem program_gives {e : Source} {t : Typed} (sound : Sound s)
    (h : Gives (program e) s t s') :
    ∃ u s₁, Walked s e u s₁ ∧ t = u.map s₁.solution.apply s₁.solution.apply ∧
      s'.externals = s₁.solution.externals := by
  obtain ⟨u, s₁, walked, settled⟩ := program_walked sound h
  obtain ⟨term, signature⟩ := walked.more.ready.settleAll_solution u
  rw [settled] at term signature
  exact ⟨u, s₁, walked, term, signature⟩

/-- An accepted program has the types of a solution, and so has the new signature; the
    solution makes the caller's entries those of the new signature. -/
theorem accepted_solved {e : Source} {externals : Signature} {t : Typed}
    (accepted : (outcome e externals).result = .ok t) :
    ∃ u s₁, Inferred s₁ .empty e u ∧ s₁.solution.Solves s₁ ∧
      t = u.map s₁.solution.apply s₁.solution.apply ∧
      (outcome e externals).externals = s₁.solution.externals ∧
      HasType s₁.solution.externals .empty t .unit ∧
      ∀ x ty, externals.find? x = some ty →
        s₁.solution.externals.find? x = some (ty.subst s₁.solution.callers) := by
  let s : State := { table := .empty, warnings := [], externals, imported := [] }
  have sound : Sound s := ⟨Ty.Table.valid_empty, nofun⟩
  have gives : Gives (program e) s t ((program e).run.run s).2 := Prod.ext accepted rfl
  obtain ⟨u, s₁, walked, rfl, signature⟩ := program_gives sound gives
  have solves := walked.more.ready.solution_solves
  exact ⟨u, s₁, walked.inferred, solves, rfl, signature, walked.isUnit _ solves,
    (importExternals_ready sound).2 _ (walked.more.solves _ solves)⟩

theorem accepted_typed {e : Source} {externals : Signature} {t : Typed}
    (accepted : (outcome e externals).result = .ok t) :
    t.erase = e.erase ∧ HasType (outcome e externals).externals .empty t .unit := by
  obtain ⟨u, s₁, inferred, -, rfl, final, typed, -⟩ := accepted_solved accepted
  rw [final]
  exact ⟨(Term.erase_map ..).trans inferred.erase, typed⟩

/-- Inference is sound.  An accepted program is the source program with types.  Neither
    these types nor those of the new signature have variables, and the typing rules give
    the program the type of units where the new signature has the types of external names.
    One choice of types for the caller's variables turns every annotation into the type of
    its binder and every entry of the caller's signature into the new entry. -/
theorem outcome_sound (e : Source) (externals : Signature) (t : Typed)
    (accepted : (outcome e externals).result = .ok t) :
    t.erase = e.erase ∧
      (∀ ty ∈ t.notes ++ t.binders.map (·.2) ++ (outcome e externals).externals.map (·.2),
        ty.isGround = true) ∧
      HasType (outcome e externals).externals .empty t .unit ∧ Typed.ty t = .unit ∧
      ∃ σ : Nat → Ty,
        List.Forall₂ (fun x b => b.1 = x.1 ∧ ∀ ty, x.2 = some ty → b.2 = ty.subst σ)
          e.binders t.binders ∧
        ∀ x ty, externals.find? x = some ty →
          (outcome e externals).externals.find? x = some (ty.subst σ) := by
  obtain ⟨u, s₁, inferred, solves, rfl, final, derivation, entries⟩ := accepted_solved accepted
  have ground : ∀ ty, (s₁.solution.apply ty).isGround = true :=
    Ty.isGround_subst s₁.table.isGround_settled
  rw [final]
  refine ⟨(Term.erase_map ..).trans inferred.erase, ?_, derivation, derivation.ty_eq,
    s₁.solution.callers, ?_, entries⟩
  · rw [Term.notes_map, Term.binders_map, State.solution, List.map_map, List.map_map]
    simp only [List.forall_mem_append, List.forall_mem_map]
    exact ⟨⟨fun _ _ => ground _, fun _ _ => ground _⟩, fun _ _ => ground _⟩
  · rw [Term.binders_map, List.forall₂_map_right_iff]
    refine inferred.binders.imp ?_
    intro x b binds
    exact ⟨binds.name, binds.annotation _ solves⟩

/-- A program with annotations in two variables of its caller and with external names
    that the caller does not know. -/
def swapping : Source :=
  .letRec () ("swap", none) [("p", some (.tuple [.var 7, .var 3]))]
    (.letTuple () [("x", none), ("y", none)] (.var () "p")
      (.tuple () [.var () "y", .var () "x"]))
    (.letTuple () [("a", some (.var 3)), ("b", none)]
      (.app () (.var () "swap") [.tuple () [.int () 1, .var () "a"]])
      (.seq () (.app () (.var () "out") [.var () "b"]) (.app () (.var () "use") [.var () "z"])))

def swappingTyped : Typed :=
  .letRec .unit ("swap", .fn [.tuple [.int, .float]] (.tuple [.float, .int]))
    [("p", .tuple [.int, .float])]
    (.letTuple (.tuple [.float, .int]) [("x", .int), ("y", .float)]
      (.var (.tuple [.int, .float]) "p")
      (.tuple (.tuple [.float, .int]) [.var .float "y", .var .int "x"]))
    (.letTuple .unit [("a", .float), ("b", .int)]
      (.app (.tuple [.float, .int])
        (.var (.fn [.tuple [.int, .float]] (.tuple [.float, .int])) "swap")
        [.tuple (.tuple [.int, .float]) [.int .int 1, .var .float "a"]])
      (.seq .unit (.app .unit (.var (.fn [.int] .unit) "out") [.var .int "b"])
        (.app .unit (.var (.fn [.int] .unit) "use") [.var .int "z"])))

/-- The signature of the caller; the name `a` is also bound in the program. -/
def swappingExternals : Signature :=
  [("a", .float), ("out", .fn [.var 7] .unit)]

theorem swapping_accepted : (outcome swapping swappingExternals).result = .ok swappingTyped := by
  cbv

theorem outcome_swapping :
    (outcome swapping swappingExternals).result = .ok swappingTyped ∧
      swappingTyped.erase = swapping.erase ∧
      (∀ ty ∈ swappingTyped.notes ++ swappingTyped.binders.map (·.2) ++
          (outcome swapping swappingExternals).externals.map (·.2), ty.isGround = true) ∧
      HasType (outcome swapping swappingExternals).externals .empty swappingTyped .unit ∧
      Typed.ty swappingTyped = .unit ∧
      ∃ σ : Nat → Ty,
        List.Forall₂ (fun x b => b.1 = x.1 ∧ ∀ ty, x.2 = some ty → b.2 = ty.subst σ)
          swapping.binders swappingTyped.binders ∧
        ∀ x ty, swappingExternals.find? x = some ty →
          (outcome swapping swappingExternals).externals.find? x = some (ty.subst σ) :=
  ⟨swapping_accepted, outcome_sound swapping swappingExternals swappingTyped swapping_accepted⟩

end

end Typing

end MiddleEnd
