import Mathlib
import MiddleEnd.Proofs.Typing.Completeness

/-! # Inference finds principal typings

Whatever typing a program has is an instance of the one that inference finds before it
replaces the variables that are left by the type of integers.  The types of all nodes follow
from those of the binders and of the external names, so it is enough to follow the
binders through the walk.
-/

namespace MiddleEnd

namespace Term

variable {Note Ann Note' Ann' : Type}

theorem map_congr {f f' : Note → Note'} {g g' : Ann → Ann'} {e : Term Note Ann}
    (notes : ∀ n ∈ e.notes, f n = f' n) (binders : ∀ x ∈ e.binders, g x.2 = g' x.2) :
    e.map f g = e.map f' g' := by
  have same : ∀ es : List (Term Note Ann),
      (∀ a ∈ es, (∀ n ∈ a.notes, f n = f' n) → (∀ x ∈ a.binders, g x.2 = g' x.2) →
        a.map f g = a.map f' g') →
      (∀ n ∈ notesList es, f n = f' n) → (∀ x ∈ bindersList es, g x.2 = g' x.2) →
      mapList f g es = mapList f' g' es := by
    intro es h notes binders
    induction es with
    | nil => rfl
    | cons a es ih =>
        simp only [notesList, bindersList, List.forall_mem_cons, List.forall_mem_append]
          at h notes binders
        rw [mapList, mapList, h.1 notes.1 binders.1, ih h.2 notes.2 binders.2]
  have names : ∀ xs : List (Name × Ann), (∀ x ∈ xs, g x.2 = g' x.2) →
      xs.map (mapBinder g) = xs.map (mapBinder g') := fun xs h =>
    List.map_congr_left fun x hx => congrArg (Prod.mk x.1) (h x hx)
  induction e using Term.induct with
  | app n e es he hes =>
      simp only [Term.notes, Term.binders, List.forall_mem_cons, List.forall_mem_append]
        at notes binders
      rw [map, map, notes.1, he notes.2.1 binders.1, same es hes notes.2.2 binders.2]
  | tuple n es hes =>
      simp only [Term.notes, List.forall_mem_cons] at notes
      rw [map, map, notes.1, same es hes notes.2 binders]
  | _ =>
      simp only [Term.notes, Term.binders, List.forall_mem_cons, List.forall_mem_append]
        at notes binders
      simp_all only [map, mapBinder, implies_true]

end Term

namespace Typing

section
variable {l l' r r' : Typed} {bs bs' : List (Name × Ty)}

theorem binders_of_append (erase : l.erase = l'.erase)
    (binders : l.binders ++ bs = l'.binders ++ bs') : l.binders = l'.binders ∧ bs = bs' := by
  refine List.append_inj binders ?_
  have same := congrArg (·.binders.length) erase
  simpa only [Term.erase, Term.binders_map, List.length_map] using same

theorem eq_list_of_binders {externals : Signature} {Γ : Scope Ty} {ts ts' : List Typed}
    (hts : ∀ t ∈ ts, ∀ {t' : Typed} {τ' : Ty}, HasType externals Γ t' τ' → t.erase = t'.erase →
      t.binders = t'.binders → t = t')
    (hts' : ∀ t ∈ ts', HasType externals Γ t (Typed.ty t))
    (erase : Term.mapList (fun _ => ()) (fun _ => ()) ts =
      Term.mapList (fun _ => ()) (fun _ => ()) ts')
    (binders : Term.bindersList ts = Term.bindersList ts') : ts = ts' := by
  induction ts generalizing ts' with
  | nil =>
      cases ts' with
      | nil => rfl
      | cons => cases erase
  | cons t ts ih =>
      cases ts' with
      | nil => cases erase
      | cons t' ts' =>
          obtain ⟨head, tail⟩ := List.cons.inj erase
          obtain ⟨own, others⟩ := binders_of_append head binders
          rw [List.forall_mem_cons] at hts hts'
          rw [hts.1 hts'.1 head own, ih hts.2 hts'.2 tail others]

end

/-- The types of all nodes follow from those of the binders and of the external names. -/
theorem HasType.eq_of_binders {externals : Signature} {Γ : Scope Ty} {t t' : Typed} {τ τ' : Ty}
    (h : HasType externals Γ t τ) (h' : HasType externals Γ t' τ') (erase : t.erase = t'.erase)
    (binders : t.binders = t'.binders) : t = t' := by
  induction h generalizing t' τ' with
  | unit | bool | int | float =>
      cases h' <;> cases erase
      rfl
  | not _ he =>
      cases h' with
      | not h' => rw [he h' (Term.not.inj erase).2 binders]
      | _ => cases erase
  | negate _ he =>
      cases h' with
      | negate h' =>
          obtain ⟨-, rfl, part⟩ := Term.negate.inj erase
          rw [he h' part binders]
      | _ => cases erase
  | arith _ _ hl hr =>
      cases h' with
      | arith hl' hr' =>
          obtain ⟨-, rfl, left, right⟩ := Term.arith.inj erase
          obtain ⟨inLeft, inRight⟩ := binders_of_append left binders
          rw [hl hl' left inLeft, hr hr' right inRight]
      | _ => cases erase
  | compare _ _ hl hr =>
      cases h' with
      | compare hl' hr' =>
          obtain ⟨-, rfl, left, right⟩ := Term.compare.inj erase
          obtain ⟨inLeft, inRight⟩ := binders_of_append left binders
          rw [hl hl' left inLeft, hr hr' right inRight]
      | _ => cases erase
  | ifThenElse _ yes _ hc hy ho =>
      cases h' with
      | ifThenElse hc' hy' ho' =>
          obtain ⟨-, eqTest, eqYes, eqNo⟩ := Term.ifThenElse.inj erase
          obtain ⟨inTest, binders⟩ := binders_of_append eqTest binders
          obtain ⟨inYes, inNo⟩ := binders_of_append eqYes binders
          obtain rfl := hy hy' eqYes inYes
          rw [hc hc' eqTest inTest, ho ho' eqNo inNo, yes.ty_eq.symm.trans hy'.ty_eq]
      | _ => cases erase
  | letIn _ body h1 h2 =>
      cases h' with
      | letIn h1' h2' =>
          obtain ⟨-, -, eqBound, eqBody⟩ := Term.letIn.inj erase
          obtain ⟨binder, inside⟩ := List.cons.inj binders
          obtain ⟨inBound, inBody⟩ := binders_of_append eqBound inside
          cases binder
          obtain rfl := h2 h2' eqBody inBody
          rw [h1 h1' eqBound inBound, body.ty_eq.symm.trans h2'.ty_eq]
      | _ => cases erase
  | var bound =>
      cases h' with
      | var bound' =>
          obtain ⟨-, rfl⟩ := Term.var.inj erase
          rw [Option.some.inj (bound.symm.trans bound')]
      | external free =>
          obtain ⟨-, rfl⟩ := Term.var.inj erase
          cases bound.symm.trans free
      | _ => cases erase
  | external free found =>
      cases h' with
      | var bound =>
          obtain ⟨-, rfl⟩ := Term.var.inj erase
          cases free.symm.trans bound
      | external _ found' =>
          obtain ⟨-, rfl⟩ := Term.var.inj erase
          rw [Option.some.inj (found.symm.trans found')]
      | _ => cases erase
  | letRec _ rest hbody hrest =>
      cases h' with
      | letRec hbody' hrest' =>
          obtain ⟨-, -, same, eqBody, eqRest⟩ := Term.letRec.inj erase
          obtain ⟨self, inside⟩ := List.cons.inj binders
          obtain ⟨formals, parts⟩ :=
            List.append_inj inside (by simpa using congrArg List.length same)
          obtain ⟨inBody, inRest⟩ := binders_of_append eqBody parts
          cases formals
          cases self
          obtain rfl := hrest hrest' eqRest inRest
          rw [hbody hbody' eqBody inBody, rest.ty_eq.symm.trans hrest'.ty_eq]
      | _ => cases erase
  | app callee _ he hes =>
      cases h' with
      | app he' hes' =>
          obtain ⟨-, eqCallee, eqArgs⟩ := Term.app.inj erase
          obtain ⟨inCallee, inArgs⟩ := binders_of_append eqCallee binders
          obtain rfl := he he' eqCallee inCallee
          obtain rfl := eq_list_of_binders hes hes' eqArgs inArgs
          cases callee.ty_eq.symm.trans he'.ty_eq
          rfl
      | _ => cases erase
  | tuple _ hes =>
      cases h' with
      | tuple hes' =>
          rw [eq_list_of_binders hes hes' (Term.tuple.inj erase).2 binders]
      | _ => cases erase
  | letTuple _ body h1 h2 =>
      cases h' with
      | letTuple h1' h2' =>
          obtain ⟨-, same, eqBound, eqBody⟩ := Term.letTuple.inj erase
          obtain ⟨pattern, parts⟩ :=
            List.append_inj binders (by simpa using congrArg List.length same)
          obtain ⟨inBound, inBody⟩ := binders_of_append eqBound parts
          cases pattern
          obtain rfl := h2 h2' eqBody inBody
          rw [h1 h1' eqBound inBound, body.ty_eq.symm.trans h2'.ty_eq]
      | _ => cases erase
  | array _ initial hlen hinit =>
      cases h' with
      | array hlen' hinit' =>
          obtain ⟨-, eqLength, eqInitial⟩ := Term.array.inj erase
          obtain ⟨inLength, inInitial⟩ := binders_of_append eqLength binders
          obtain rfl := hinit hinit' eqInitial inInitial
          rw [hlen hlen' eqLength inLength, initial.ty_eq.symm.trans hinit'.ty_eq]
      | _ => cases erase
  | get array _ ha hi =>
      cases h' with
      | get ha' hi' =>
          obtain ⟨-, eqArray, eqIndex⟩ := Term.get.inj erase
          obtain ⟨inArray, inIndex⟩ := binders_of_append eqArray binders
          obtain rfl := ha ha' eqArray inArray
          rw [hi hi' eqIndex inIndex, Ty.array.inj (array.ty_eq.symm.trans ha'.ty_eq)]
      | _ => cases erase
  | put _ _ _ ha hi hv =>
      cases h' with
      | put ha' hi' hv' =>
          obtain ⟨-, eqArray, eqIndex, eqValue⟩ := Term.put.inj erase
          obtain ⟨inArray, binders⟩ := binders_of_append eqArray binders
          obtain ⟨inIndex, inValue⟩ := binders_of_append eqIndex binders
          rw [ha ha' eqArray inArray, hi hi' eqIndex inIndex, hv hv' eqValue inValue]
      | _ => cases erase
  | seq _ last h1 h2 =>
      cases h' with
      | seq h1' h2' =>
          obtain ⟨-, eqFirst, eqSecond⟩ := Term.seq.inj erase
          obtain ⟨inFirst, inSecond⟩ := binders_of_append eqFirst binders
          obtain rfl := h2 h2' eqSecond inSecond
          rw [h1 h1' eqFirst inFirst, last.ty_eq.symm.trans h2'.ty_eq]
      | _ => cases erase

/-! ## Instances -/

/-- Replace all variables in the types of the term. -/
def instantiate (σ : Nat → Ty) (t : Typed) : Typed :=
  t.map (·.subst σ) (·.subst σ)

theorem instantiate_instantiate (ρ σ : Nat → Ty) (t : Typed) :
    instantiate σ (instantiate ρ t) = instantiate (fun v => (ρ v).subst σ) t := by
  rw [instantiate, instantiate, instantiate, Term.map_map]
  simp only [Ty.subst_subst]

theorem mapBinder_means {s : State} {ρ : Nat → Ty} {bs cs : List (Name × Ty)}
    (h : List.Forall₂ (BinderMeans s ρ) bs cs) : bs.map (Term.mapBinder (·.subst ρ)) = cs := by
  induction h with
  | nil => rfl
  | cons head _ ih => rw [List.map_cons, ih, Term.mapBinder, head.2.subst_eq, ← head.1]

/-- A typing of a program: types for the variables of the caller, the types of all external
    names, and the program with types. -/
structure IsTyping (e : Source) (externals : Signature) (callers : Nat → Ty) (known : Signature)
    (t : Typed) : Prop where
  source : Elaborates callers e t
  entries : ∀ x ty, externals.find? x = some ty → known.find? x = some (ty.subst callers)
  typed : HasType known .empty t .unit

def State.start (externals : Signature) : State where
  table := .empty
  warnings := []
  externals := externals
  imported := []

theorem sound_start (externals : Signature) : Sound (.start externals) :=
  ⟨Ty.Table.valid_empty, nofun⟩

section
variable {e : Source} {externals known : Signature} {callers : Nat → Ty} {s : State} {t u : Typed}

theorem accepted_walked (accepted : (outcome e externals).result = .ok t) :
    ∃ u s, Walked (.start externals) e u s ∧ t = instantiate s.table.settled u ∧
      (outcome e externals).externals = s.solution.externals :=
  program_gives (sound_start externals) (Prod.ext accepted rfl)

/-- Every solution of what the walk has found is a typing. -/
theorem Walked.isTyping {A : Solution} (walked : Walked (.start externals) e u s)
    (solves : A.Solves s) : IsTyping e externals A.callers A.externals (instantiate A.types u) := by
  refine ⟨⟨?_, ?_⟩, ?_, walked.isUnit A solves⟩
  · exact (Term.erase_map ..).trans walked.inferred.erase
  · rw [instantiate, Term.binders_map, List.forall₂_map_right_iff]
    exact walked.inferred.binders.imp fun x b binds => ⟨binds.name, binds.annotation A solves⟩
  · exact (importExternals_ready (sound_start externals)).2 A (walked.more.solves A solves)

/-- Every typing is a solution of what the walk has found.  The walk of the typing is the
    same walk, and its types agree with those of the typing at all binders. -/
theorem Walked.of_isTyping (walked : Walked (.start externals) e u s)
    (typing : IsTyping e externals callers known t) :
    ∃ ρ, (Solution.mk ρ callers known).Solves s ∧ instantiate ρ u = t ∧
      (Covers ⟨ρ, callers, known⟩ (importExternals.run (.start externals)).2 →
        s.externals = (importExternals.run (.start externals)).2.externals) := by
  let A : Solution := ⟨fun _ => .int, callers, known⟩
  have fits : (A.withTypes A.types).Fits (.start externals) := ⟨⟨fun _ => rfl, nofun⟩, nofun⟩
  obtain ⟨ρ₀, start⟩ :=
    importExternals_consistent (sound_start externals) fits typing.entries
  have names : ScopeMeans (importExternals.run (.start externals)).2 ρ₀ .empty .empty :=
    fun _ => .none
  obtain ⟨u', s₀', ρ₁, walk', more, found⟩ := typing.typed.finds typing.source ⟨start, names⟩
  obtain ⟨s₀, walk, unit⟩ := walked.steps
  cases walk.symm.trans walk'
  obtain ⟨⟨⟩, s', ρ₂, unit', more', -⟩ := unify_succeeds more.toConsistent .unit found.type
  cases unit.symm.trans unit'
  have solves : (Solution.mk ρ₂ callers known).Solves s := more'.solves
  have derived := walked.isTyping solves
  refine ⟨ρ₂, solves, ?_, (more.trans more').externals⟩
  refine derived.typed.eq_of_binders typing.typed ?_ ?_
  · exact derived.source.erase.trans typing.source.erase.symm
  · rw [instantiate, Term.binders_map]
    exact mapBinder_means (found.later more').binders

/-! ## Principal typings -/

/-- The term and the types of external names are a typing of the program, and every other is
    an instance of it. -/
structure Principal (e : Source) (externals : Signature) (p : Typed) (general : Signature) :
    Prop where
  isTyping : ∃ callers, IsTyping e externals callers general p
  instances : ∀ {callers known t}, IsTyping e externals callers known t →
    ∃ σ, instantiate σ p = t ∧
      ∀ x ty, general.find? x = some ty → known.find? x = some (ty.subst σ)

/-- What the walk has found is principal once all that is known of variables is put in. -/
theorem Walked.principal (walked : Walked (.start externals) e u s) :
    Principal e externals (instantiate (s.table.lookup s.table.size) u)
      (s.solutionWith (s.table.lookup s.table.size)).externals := by
  have solves := State.solutionWith_solves walked.more.ready.table.models_lookup
  refine ⟨⟨_, walked.isTyping solves⟩, ?_⟩
  intro callers known t typing
  obtain ⟨ρ, solves, rfl, -⟩ := walked.of_isTyping typing
  refine ⟨ρ, ?_, ?_⟩
  · rw [instantiate_instantiate]
    simp only [Ty.Table.lookup_subst solves.models]
  · intro x ty found
    rw [State.find?_solutionWith, Option.map_eq_some_iff] at found
    obtain ⟨old, found, rfl⟩ := found
    rw [Ty.subst_subst, solves.externals x old found]
    simp only [Ty.Table.lookup_subst solves.models]
    rfl

/-- An accepted program has the types of a principal typing, with integers for variables. -/
theorem outcome_principal (accepted : (outcome e externals).result = .ok t) :
    ∃ p general, Principal e externals p general ∧ instantiate (fun _ => .int) p = t ∧
      ∀ x, (outcome e externals).externals.find? x =
        (general.find? x).map (·.subst fun _ => .int) := by
  obtain ⟨u, s, walked, rfl, final⟩ := accepted_walked accepted
  refine ⟨_, _, walked.principal, instantiate_instantiate .., ?_⟩
  intro x
  have settled : s.solution = s.solutionWith s.table.settled := rfl
  rw [final, settled, State.find?_solutionWith, State.find?_solutionWith, Option.map_map]
  congr 1
  funext ty
  exact (Ty.subst_subst ..).symm

end

end Typing

end MiddleEnd
