import Mathlib
import MiddleEnd.Proofs.Typing.Defaults
import MiddleEnd.Proofs.Typing.Rejection

/-! # External names of a program

The walk of inference meets the free names of a program from left to right and notes each one
that the signature does not have yet, with a warning, also in a walk that fails later.
Nothing else gets into the signature, and the warnings about defaults come after all of these.
-/

namespace MiddleEnd

namespace Signature

def names (sig : Signature) : List Name :=
  sig.map (·.1)

/-- Those of the names that have no entry, each once, in the order of their first places. -/
def missing (sig : Signature) (xs : List Name) : List Name :=
  (xs.filter (· ∉ sig.names)).eraseDups

variable {sig sig' : Signature} {x y : Name} {xs ys : List Name}

theorem find?_eq_none_iff : sig.find? x = none ↔ x ∉ sig.names := by
  rw [find?, List.lookup_eq_none_iff, names, List.mem_map]
  constructor
  · rintro absent ⟨b, mem, rfl⟩
    simpa using absent b mem
  · intro absent b mem
    have other : x ≠ b.1 := fun eq => absent ⟨b, mem, eq.symm⟩
    simpa using other

theorem mem_names_insert (new : sig.find? x = none) (ty : Ty) :
    y ∈ (sig.insert x ty).names ↔ y ∈ sig.names ∨ y ∈ [x] := by
  have before : sig.find? y = none ↔ y ∉ sig.names := find?_eq_none_iff
  have after : (sig.insert x ty).find? y = none ↔ y ∉ (sig.insert x ty).names := find?_eq_none_iff
  rw [find?_insert new] at after
  grind

theorem eq_or_mem_of_mem_insert {ty : Ty} {b : Name × Ty} (mem : b ∈ sig.insert x ty) :
    b = (x, ty) ∨ b ∈ sig := by
  induction sig with
  | nil => exact .inl (List.mem_singleton.mp mem)
  | cons c rest ih =>
      unfold insert at mem
      grind

theorem missing_append (names : ∀ x, x ∈ sig'.names ↔ x ∈ sig.names ∨ x ∈ xs) :
    sig.missing (xs ++ ys) = sig.missing xs ++ sig'.missing ys := by
  rw [missing, List.filter_append, List.eraseDups_append, missing, missing, List.removeAll,
    List.filter_filter]
  congr 2
  refine List.filter_congr fun y _ => ?_
  have known := names y
  grind

theorem names_mapM {S : Type} (f : Ty → StateM S Ty) (sig : Signature) (s : S) :
    ((sig.mapM f).run s).1.names = sig.names := by
  induction sig generalizing s with
  | nil => rfl
  | cons b rest ih => exact congrArg (b.1 :: ·) (ih _)

end Signature

namespace Typing

variable {s s' s'' : State} {xs ys : List Name} {externals : Signature}

/-- The names have been met between the two states: those that had no entry have one now, with
    a warning.  All entries are in variables of the table as before. -/
structure Noted (xs : List Name) (s s' : State) : Prop where
  names : ∀ x, x ∈ s'.externals.names ↔ x ∈ s.externals.names ∨ x ∈ xs
  warnings : s'.warnings = s.warnings ++ (s.externals.missing xs).map .assumedExternal
  entries : (∀ b ∈ s.externals, b.2.Below s.table.size) →
    ∀ b ∈ s'.externals, b.2.Below s'.table.size

namespace Noted

/-- A step that only makes variables and equations. -/
theorem of_table (same : s'.externals = s.externals) (warnings : s'.warnings = s.warnings)
    (size_le : s.table.size ≤ s'.table.size) : Noted [] s s' := by
  refine ⟨?_, ?_, ?_⟩
  · simp [same]
  · simp [warnings, Signature.missing]
  · intro entries b mem
    rw [same] at mem
    exact (entries b mem).mono size_le

theorem trans (h : Noted xs s s') (h' : Noted ys s' s'') : Noted (xs ++ ys) s s'' := by
  refine ⟨?_, ?_, fun entries => h'.entries (h.entries entries)⟩
  · intro x
    rw [h'.names, h.names, List.mem_append, or_assoc]
  · rw [h'.warnings, h.warnings, Signature.missing_append h.names, List.map_append,
      List.append_assoc]

theorem known {x : Name} {ty : Ty} (found : s.externals.find? x = some ty) : Noted [x] s s := by
  have mem : x ∈ s.externals.names := by
    by_contra absent
    rw [Signature.find?_eq_none_iff.mpr absent] at found
    cases found
  refine ⟨?_, ?_, id⟩
  · intro y
    rw [List.mem_singleton]
    exact ⟨.inl, fun h => h.elim id fun eq => eq ▸ mem⟩
  · simp [Signature.missing, mem]

theorem assume {x : Name} (new : s.externals.find? x = none) : Noted [x] s (s.assume x) := by
  refine ⟨fun y => Signature.mem_names_insert new _, ?_, ?_⟩
  · have absent := Signature.find?_eq_none_iff.mp new
    simp [State.assume, Signature.missing, absent, List.eraseDups_cons]
  · intro entries b mem
    rcases Signature.eq_or_mem_of_mem_insert mem with rfl | old
    · exact below_fresh s.table
    · exact (entries b old).mono (size_le_fresh s.table)

end Noted

/-- Every step of the walk notes the names that it meets. -/
def noted : Account where
  Holds := Noted
  table := .of_table
  known := .known
  assume := .assume
  trans := .trans

/-! ## Programs -/

/-- What the names that have been met mean for the caller's signature, which inference starts
    with in variables of its own. -/
theorem Noted.of_start (h : Noted xs (importExternals.run (.start externals)).2 s) :
    (∀ x, x ∈ s.externals.names ↔ x ∈ externals.names ∨ x ∈ xs) ∧
      s.warnings = (externals.missing xs).map .assumedExternal ∧
      ∀ b ∈ s.externals, b.2.Below s.table.size := by
  have names : (importExternals.run (.start externals)).2.externals.names = externals.names :=
    Signature.names_mapM importTy externals _
  have each : Preserves (Noted [] (.start externals)) (externals.mapM importTy) :=
    preserves_signature fun _ _ => Ty.preserves_substM fun v _ => noted.preserves_importVar v
  have warnings : (importExternals.run (.start externals)).2.warnings = [] :=
    (each _ (noted.refl _)).warnings
  obtain ⟨-, entries⟩ := imports_signature externals (sound_start externals)
  refine ⟨?_, ?_, h.entries (forall_right entries fun _ _ entry => entry.2.below)⟩
  · intro x
    rw [h.names, names]
  · rw [h.warnings, warnings, Signature.missing, names]
    rfl

theorem State.names_solution (s : State) : s.solution.externals.names = s.externals.names :=
  List.map_map

/-- Inference records the free names of a program.  Where the program is accepted, the signature
    gains these names and no others, and the warnings report the names that it gains, each once,
    in the order in which they come first in the program.  The warnings about defaults follow,
    for different variables.  Where the program is rejected, no name is lost, and only free
    names of the program are gained. -/
theorem outcome_records_free_names (e : Source) (externals : Signature) :
    (∀ t, (outcome e externals).result = .ok t →
      (∀ x, x ∈ (outcome e externals).externals.names ↔
        x ∈ externals.names ∨ x ∈ e.freeNames) ∧
      ∃ vars : List Nat, vars.Nodup ∧
        (outcome e externals).warnings =
          (externals.missing e.freeNames).map .assumedExternal ++ vars.map .defaultedToInt) ∧
    ∀ err, (outcome e externals).result = .error err →
      (∀ x ∈ externals.names, x ∈ (outcome e externals).externals.names) ∧
      ∀ x ∈ (outcome e externals).externals.names, x ∈ externals.names ∨ x ∈ e.freeNames := by
  constructor
  · intro t accepted
    obtain ⟨u, s, walked, settled⟩ :=
      program_walked (sound_start externals) (Prod.ext accepted rfl)
    obtain ⟨names, warnings, entries⟩ := Noted.of_start (walked.account noted)
    have final := (walked.more.ready.settleAll_solution u).2
    obtain ⟨vars, nodup, reported⟩ := walked.warnings_settleAll entries
    rw [settled] at final reported
    refine ⟨?_, vars, nodup, ?_⟩
    · intro x
      have same : (outcome e externals).externals.names = s.externals.names := by
        rw [← s.names_solution]
        exact congrArg Signature.names final
      rw [same, names]
    · rw [← warnings]
      exact reported
  · intro err rejected
    have failed : (program e).run.run (.start externals) = (.error err, _) :=
      Prod.ext rejected rfl
    obtain ⟨seen, first, met⟩ := noted.of_error failed
    obtain ⟨names, -, -⟩ := Noted.of_start met
    exact ⟨fun x mem => (names x).mpr (.inl mem),
      fun x mem => ((names x).mp mem).imp_right (first.subset ·)⟩

/-- A program that uses the names `trace` and `x` freely before it binds them. -/
def measuring : Source :=
  .seq () (.app () (.var () "trace") [.var () "x"])
    (.letIn () ("x", none) (.app () (.var () "read") [.unit ()])
      (.letRec () ("trace", none) [("y", none)] (.app () (.var () "out") [.var () "y", .var () "x"])
        (.app () (.var () "trace") [.var () "level"])))

def measuringExternals : Signature :=
  [("read", .fn [.unit] .float)]

theorem outcome_records_measuring :
    (∃ t, (outcome measuring measuringExternals).result = .ok t ∧
      (∀ x, x ∈ (outcome measuring measuringExternals).externals.names ↔
        x ∈ measuringExternals.names ∨ x ∈ measuring.freeNames) ∧
      ∃ vars : List Nat, vars.Nodup ∧
        (outcome measuring measuringExternals).warnings =
          (measuringExternals.missing measuring.freeNames).map .assumedExternal ++
            vars.map .defaultedToInt) ∧
    (outcome measuring measuringExternals).warnings =
      [.assumedExternal "trace", .assumedExternal "x", .assumedExternal "out",
        .assumedExternal "level", .defaultedToInt 1, .defaultedToInt 9] ∧
    (outcome mixing mixingExternals).result = .error (.mismatch .int .float) ∧
    (∀ x ∈ mixingExternals.names, x ∈ (outcome mixing mixingExternals).externals.names) ∧
    ∀ x ∈ (outcome mixing mixingExternals).externals.names,
      x ∈ mixingExternals.names ∨ x ∈ mixing.freeNames := by
  have accepted : (outcome measuring measuringExternals).result.isOk = true := by cbv
  have rejected : (outcome mixing mixingExternals).result = .error (.mismatch .int .float) := by
    cbv
  refine ⟨?_, by cbv, rejected, (outcome_records_free_names _ _).2 _ rejected⟩
  cases result : (outcome measuring measuringExternals).result with
  | error err =>
      rw [result] at accepted
      cases accepted
  | ok t => exact ⟨t, rfl, (outcome_records_free_names _ _).1 t result⟩

end Typing

end MiddleEnd
