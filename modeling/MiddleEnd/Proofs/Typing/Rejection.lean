import Mathlib
import MiddleEnd.Proofs.Typing.Recompilation
import MiddleEnd.Proofs.Typing.Walk

/-! # What a rejected program leaves

Inference writes down what it finds out about variables in its table and not in the
signature, and a rejected program never gets to the end where the signature is read
through the table.  So the signature that it leaves says what the caller's signature said,
in variables of its own, and nothing about further names.  Other programs have the same
types with it.
-/

namespace MiddleEnd

namespace Typing

open Ty (Below)

/-- The second signature says what the first one says, in other variables, and nothing of
    further names: its variables can be given types with which it has any instance of the first
    and any types for further names, and whatever types they are given, it has an instance of
    the first. -/
structure Restates (externals externals' : Signature) : Prop where
  general : ∀ (callers : Nat → Ty) (types : Name → Ty), ∃ callers', ∀ x ty',
    externals'.find? x = some ty' →
      ty'.subst callers' = ((externals.find? x).map (·.subst callers)).getD (types x)
  special : ∀ callers' : Nat → Ty, ∃ callers, ∀ x ty, externals.find? x = some ty →
    ∃ ty', externals'.find? x = some ty' ∧ ty'.subst callers' = ty.subst callers

/-- The signature of the state says no more than that of the caller. -/
structure Unspoilt (externals : Signature) (s : State) : Prop where
  restates : Restates externals s.externals
  below : ∀ x ty, s.externals.find? x = some ty → ty.Below s.table.size

variable {externals : Signature} {s s' : State}

/-- A step that only makes variables and equations. -/
theorem Unspoilt.of_table (h : Unspoilt externals s) (same : s'.externals = s.externals)
    (size_le : s.table.size ≤ s'.table.size) : Unspoilt externals s' := by
  constructor
  · rw [same]
    exact h.restates
  · intro x ty found
    rw [same] at found
    exact (h.below x ty found).mono size_le

/-- A name that gets a new variable may still have any type. -/
theorem Unspoilt.assume (h : Unspoilt externals s) {x : Name}
    (new : s.externals.find? x = none) : Unspoilt externals (s.assume x) := by
  have insert := Signature.find?_insert new (.var s.table.size)
  refine ⟨⟨?_, ?_⟩, ?_⟩
  · intro callers types
    obtain ⟨callers', entries⟩ := h.restates.general callers types
    refine ⟨Function.update callers' s.table.size (types x), ?_⟩
    intro y ty' found
    rw [State.assume, insert] at found
    split at found
    · rename_i eq
      cases found
      have missing : externals.find? x = none := by
        rw [Option.eq_none_iff_forall_ne_some]
        intro ty old
        obtain ⟨callers, kept⟩ := h.restates.special callers'
        obtain ⟨ty', found, -⟩ := kept x ty old
        rw [new] at found
        cases found
      rw [eq, missing, Ty.subst, Function.update_self]
      rfl
    · rw [← entries y ty' found]
      refine Ty.subst_congr fun v hv => ?_
      exact update_agrees callers' s.table.size (types x) v (h.below y ty' found v hv)
  · intro callers'
    obtain ⟨callers, entries⟩ := h.restates.special callers'
    refine ⟨callers, fun y ty old => ?_⟩
    obtain ⟨ty', found, equal⟩ := entries y ty old
    refine ⟨ty', ?_, equal⟩
    rw [State.assume, insert, if_neg, found]
    rintro rfl
    rw [new] at found
    cases found
  · intro y ty found
    rw [State.assume, insert] at found
    split at found
    · cases found
      exact below_fresh s.table
    · exact (h.below y ty found).mono (by simp [State.assume])

/-- No step of the walk spoils the signature. -/
def unspoilt (externals : Signature) : Account where
  Holds _ s s' := Unspoilt externals s → Unspoilt externals s'
  table same _ size_le h := h.of_table same size_le
  known _ h := h
  assume new h := h.assume new
  trans first second h := second (first h)

/-! ## Programs -/

/-- Nothing is said about the variables for those of the caller. -/
theorem models_imported (sig : Signature) (ρ : Nat → Ty) :
    Ty.Table.Models ρ ((sig.mapM importTy).run (.start externals)).2.table := by
  have var : ∀ v, Preserves (fun s : State => Ty.Table.Models ρ s.table) (importVar v) := by
    intro v s models
    cases found : s.imported.lookup v with
    | some w =>
        rw [run_importVar_known found]
        exact models
    | none =>
        rw [run_importVar_new found]
        exact models.fresh
  have each : Preserves (fun s : State => Ty.Table.Models ρ s.table) (sig.mapM importTy) :=
    preserves_signature fun _ _ => Ty.preserves_substM fun v _ => var v
  exact each (.start externals) ⟨fun _ => rfl, nofun⟩

theorem imported_entry (externals : Signature) (x : Name) :
    Option.Rel (Imported ((externals.mapM importTy).run (.start externals)).2)
      (externals.find? x) ((importExternals.run (.start externals)).2.externals.find? x) :=
  lookup_rel (imports_signature externals (sound_start externals)).2 x

/-- The caller's signature in the variables of the inference says what it said before. -/
theorem unspoilt_start (externals : Signature) :
    Unspoilt externals (importExternals.run (.start externals)).2 := by
  obtain ⟨ready, -⟩ := importExternals_ready (sound_start externals)
  refine ⟨⟨?_, ?_⟩, ready.externals⟩
  · intro callers types
    let A : Solution := ⟨fun _ => .int, callers, []⟩
    have start : Fitted A 0 A.types (.start externals) :=
      ⟨sound_start externals, le_rfl, A.types, ⟨⟨fun _ => rfl, nofun⟩, nofun⟩, fun _ _ => rfl⟩
    have each : Preserves (Fitted A 0 A.types) (externals.mapM importTy) :=
      preserves_signature fun _ _ => Ty.preserves_substM fun v _ => preserves_importVar 0 v
    obtain ⟨-, -, ρ, fits, -⟩ := each _ start
    refine ⟨ρ, fun x ty' found => ?_⟩
    have entry := imported_entry externals x
    rw [found] at entry
    generalize externals.find? x = old at entry
    cases entry with
    | some imported => exact imported.equal _ fits
  · intro callers'
    obtain ⟨A, rfl, fits⟩ : ∃ A : Solution, A.types = callers' ∧
        A.Fits ((externals.mapM importTy).run (.start externals)).2 :=
      ⟨_, rfl, (State.solutionWith_solves (models_imported externals callers')).toFits⟩
    refine ⟨A.callers, fun x ty found => ?_⟩
    have entry := imported_entry externals x
    rw [found] at entry
    generalize (importExternals.run (.start externals)).2.externals.find? x = new at entry ⊢
    cases entry with
    | some imported => exact ⟨_, rfl, imported.equal A fits⟩

/-- Where a program is rejected, the signature says what it said before. -/
theorem unspoilt_of_error {e : Source} {err : TypeError}
    (failed : (program e).run.run (.start externals) = (.error err, s)) :
    Unspoilt externals s := by
  obtain ⟨seen, -, holds⟩ := (unspoilt externals).of_error failed
  exact holds (unspoilt_start externals)

theorem restates_of_error {e : Source} {err : TypeError}
    (failed : (outcome e externals).result = .error err) :
    Restates externals (outcome e externals).externals :=
  (unspoilt_of_error (Prod.ext failed rfl)).restates

section
variable {externals' known : Signature} {callers : Nat → Ty} {q : Source} {t : Typed}
  (plain : ∀ x ∈ q.binders, ∀ ty, x.2 = some ty → ty.isGround = true)

include plain

theorem Restates.isTyping_of_left (h : Restates externals externals')
    (typing : IsTyping q externals' callers known t) :
    ∃ callers, IsTyping q externals callers known t := by
  obtain ⟨callers', entries⟩ := h.special callers
  refine ⟨callers', ⟨typing.source.erase, respects_of_ground plain typing.source.binders⟩, ?_,
    typing.typed⟩
  intro x ty found
  obtain ⟨ty', found', equal⟩ := entries x ty found
  rw [typing.entries x ty' found', equal]

/-- The external names that the program does not use may have any types. -/
theorem Restates.isTyping_of_right (h : Restates externals externals')
    (typing : IsTyping q externals callers known t) :
    ∃ callers' known', IsTyping q externals' callers' known' t ∧
      ∀ x, known.Keeps known' x := by
  obtain ⟨callers', entries⟩ := h.general callers fun x => (known.find? x).getD .int
  let known' : Signature := known ++ externals'.map (Term.mapBinder fun _ => .int)
  have find : ∀ x, known'.find? x =
      (known.find? x).or ((externals'.find? x).map fun _ => .int) := by
    intro x
    exact List.lookup_append.trans (congrArg _ (lookup_map_snd (fun _ => Ty.int) x externals'))
  have keeps : ∀ x, known.Keeps known' x := by
    intro x ty found
    rw [find, found]
    rfl
  refine ⟨callers', known', ⟨⟨typing.source.erase, respects_of_ground plain typing.source.binders⟩,
    ?_, typing.typed.congr fun o _ => keeps o.name⟩, keeps⟩
  intro x ty' found
  rw [find, entries x ty' found, found]
  cases old : externals.find? x with
  | some ty =>
      rw [typing.entries x ty old]
      rfl
  | none => cases known.find? x <;> rfl

end

/-- A program that is rejected does no harm to others.  With the signature that it leaves, a
    program whose annotations have no variables is accepted if and only if it is with the
    signature before; then it has the same types, and the external names that it leaves with
    the signature before have the same types too. -/
theorem outcome_after_rejected (p : Source) (externals : Signature) (err : TypeError)
    (rejected : (outcome p externals).result = .error err) (q : Source)
    (plain : ∀ x ∈ q.binders, ∀ ty, x.2 = some ty → ty.isGround = true) :
    (∀ t, (outcome q (outcome p externals).externals).result = .ok t ↔
        (outcome q externals).result = .ok t) ∧
      ∀ t, (outcome q externals).result = .ok t →
        ∀ x ty, (outcome q externals).externals.find? x = some ty →
          (outcome q (outcome p externals).externals).externals.find? x = some ty := by
  have restates := restates_of_error rejected
  have kept : ∀ t, (outcome q externals).result = .ok t →
      (outcome q (outcome p externals).externals).result = .ok t ∧
        ∀ x ty, (outcome q externals).externals.find? x = some ty →
          (outcome q (outcome p externals).externals).externals.find? x = some ty := by
    intro t accepted
    obtain ⟨u, s, walked, rfl, final⟩ := accepted_walked accepted
    have typing := walked.isTyping walked.more.ready.solution_solves
    obtain ⟨callers, known, again, keeps⟩ := restates.isTyping_of_right plain typing
    obtain ⟨result, left⟩ :=
      outcome_of_between accepted (restates.isTyping_of_left plain) again
    refine ⟨result, fun x ty found => left x ty found (keeps x ty ?_)⟩
    rw [← final]
    exact found
  refine ⟨fun t => ⟨?_, fun accepted => (kept t accepted).1⟩, fun t accepted => (kept t accepted).2⟩
  intro accepted'
  obtain ⟨u, s, walked, rfl, -⟩ := accepted_walked accepted'
  obtain ⟨callers, typing⟩ := restates.isTyping_of_left plain
    (walked.isTyping walked.more.ready.solution_solves)
  obtain ⟨t, accepted⟩ :=
    accepted_of_typable ⟨_, _, _, typing.source, typing.entries, typing.typed⟩
  rw [accepted, ← (kept t accepted).1, accepted']

/-- A program that has types for the variable of its caller and for two names that the caller
    does not know before it is rejected. -/
def mixing : Source :=
  .seq () (.app () (.var () "out") [.int () 1])
    (.seq () (.app () (.var () "log") [.var () "level"])
      (.arith () (.int .add) (.get () (.var () "cells") (.int () 0)) (.float () ⟨0⟩)))

/-- A program that uses all these names in another way. -/
def logging : Source :=
  .letIn () ("first", some .float) (.get () (.var () "cells") (.int () 0))
    (.letIn () ("shown", none) (.app () (.var () "log") [.get () (.var () "level") (.int () 1)])
      (.app () (.var () "out") [.var () "first"]))

def mixingExternals : Signature :=
  [("cells", .array (.var 7)), ("out", .fn [.var 7] .unit)]

theorem outcome_after_mixing :
    (outcome mixing mixingExternals).result = .error (.mismatch .int .float) ∧
      (outcome mixing mixingExternals).externals =
        [("cells", .array (.var 0)), ("level", .var 3), ("log", .var 2),
          ("out", .fn [.var 0] .unit)] ∧
      (outcome logging mixingExternals).result.isOk = true ∧
      (∀ t, (outcome logging (outcome mixing mixingExternals).externals).result = .ok t ↔
        (outcome logging mixingExternals).result = .ok t) ∧
      ∀ t, (outcome logging mixingExternals).result = .ok t →
        ∀ x ty, (outcome logging mixingExternals).externals.find? x = some ty →
          (outcome logging (outcome mixing mixingExternals).externals).externals.find? x =
            some ty := by
  have rejected : (outcome mixing mixingExternals).result = .error (.mismatch .int .float) := by
    cbv
  have plain : ∀ x ∈ logging.binders, ∀ ty, x.2 = some ty → ty.isGround = true := by
    intro x mem ty annotated
    fin_cases mem <;> cases annotated
    rfl
  exact ⟨rejected, by cbv, by cbv,
    outcome_after_rejected mixing mixingExternals _ rejected logging plain⟩

end Typing

end MiddleEnd
