import Mathlib
import MiddleEnd.Proofs.Knf.AlphaEquality
import MiddleEnd.Proofs.Knf.ImprovementTypes

/-! # Improvement does not depend on names

Rounds on two pieces of code that are equal up to bound names, with names from two
supplies, go hand in hand: a permutation of names that takes the names drawn by the one
to those drawn by the other takes every intermediate code of the one to that of the
other, and so each round and each test for the end decide alike.

Code in which a function is called with too few arguments is an exception at the very
end: the expansion of such a call leaves a formal of the function free, and a free name is not
one that equality up to bound names may change.
-/

namespace MiddleEnd.Knf

/-! ## Expansion of calls -/

def Candidate.relabel (σ : Name → Name) (k : Candidate) : Candidate :=
  ⟨k.formals.map σ, k.body.relabel σ⟩

section
variable {σ : Name → Name} (threshold : Nat)

theorem candidates_relabel (s : Scope Candidate) (f : Name) (formals : List (Name × Mono))
    (body : Knf) :
    (candidates threshold s f formals body).relabel σ (Candidate.relabel σ) =
      candidates threshold (s.relabel σ (Candidate.relabel σ)) (σ f)
        (formals.map (Prod.map σ id)) (body.relabel σ) := by
  rw [candidates, candidates, size_relabel, map_fst_map]
  split <;> rfl

variable (inj : σ.Injective)
include inj

theorem copiedBinders_relabel (s : Scope Candidate) (e : Knf) :
    (e.relabel σ).copiedBinders threshold (s.relabel σ (Candidate.relabel σ)) =
      (e.copiedBinders threshold s).map σ := by
  induction e generalizing s with
  | op | externApp => rfl
  | branch test x y e1 e2 ih1 ih2 | letIn x ty e1 e2 ih1 ih2 =>
      simp only [relabel, copiedBinders, ih1, ih2, List.map_append]
  | letRec f ty formals body rest ih1 ih2 =>
      simp only [relabel, copiedBinders, ← candidates_relabel, ih1, ih2, List.map_append]
  | app f xs =>
      rw [relabel, copiedBinders, copiedBinders, Scope.get?_relabel inj]
      cases s.get? f with
      | none => rfl
      | some k => exact binders_relabel σ k.body
  | letTuple pattern y e ih => simp only [relabel, copiedBinders, ih]

/-- The copy of a function body, with the arguments in place of the formals. -/
theorem relabel_copy (k : Candidate) (xs : List Name) {c d : Supply}
    (drawn : (c.names k.body.binders).map σ = d.names (k.body.binders.map σ)) :
    (k.body.freshened (Scope.empty.bindAll (k.formals.zip xs)) c).relabel σ =
      (k.relabel σ).body.freshened
        (Scope.empty.bindAll ((k.relabel σ).formals.zip (xs.map σ))) d := by
  have scope : Scope.empty.bindAll ((k.relabel σ).formals.zip (xs.map σ)) =
      (Scope.empty.bindAll (k.formals.zip xs)).relabel σ σ := by
    rw [Scope.relabel_bindAll, Scope.relabel_empty, Candidate.relabel, List.zip_map]
  rw [scope]
  refine relabel_freshened (alphaEqIn_linking inj fun x hx => hx) ?_ fun x hx y same => ?_
  · rw [Candidate.relabel, binders_relabel, drawn]
  · rw [Pairing.eq_of_same_linking hx same, Scope.target_relabel inj]

theorem relabel_expanded (s : Scope Candidate) (e : Knf) {c d : Supply}
    (drawn : (c.names (e.copiedBinders threshold s)).map σ =
      d.names ((e.copiedBinders threshold s).map σ)) :
    (e.expanded threshold s c).relabel σ =
      (e.relabel σ).expanded threshold (s.relabel σ (Candidate.relabel σ)) d := by
  induction e generalizing s c d with
  | op | externApp => rfl
  | branch test x y e1 e2 ih1 ih2 | letIn x ty e1 e2 ih1 ih2 =>
      simp only [copiedBinders, Supply.names_append, List.map_append, List.length_map] at drawn
      obtain ⟨drawn1, drawn2⟩ := List.append_inj drawn (by simp)
      simp only [relabel, expanded, copiedBinders_relabel threshold inj, List.length_map,
        ih1 s drawn1, ih2 s drawn2]
  | letRec f ty formals body rest ih1 ih2 =>
      simp only [copiedBinders, Supply.names_append, List.map_append, List.length_map] at drawn
      obtain ⟨drawn1, drawn2⟩ := List.append_inj drawn (by simp)
      simp only [relabel, expanded, ← candidates_relabel, copiedBinders_relabel threshold inj,
        List.length_map, ih1 _ drawn1, ih2 _ drawn2]
  | app f xs =>
      rw [copiedBinders] at drawn
      rw [relabel, expanded, expanded, Scope.get?_relabel inj]
      cases found : s.get? f with
      | none => rfl
      | some k =>
          rw [found] at drawn
          exact relabel_copy inj k xs drawn
  | letTuple pattern y e ih => simp only [relabel, expanded, ih s drawn]

end

/-! ## A round -/

section
variable {σ : Name → Name} (inj : σ.Injective) {a b : Knf} {p : Pairing}
  (same : a.alphaEqIn p b = true) (carries : ∀ x ∈ a.freeVars, p.Carries σ .empty .empty x)
  {c d : Supply}
include inj same carries

theorem relabel_prepared (drawn : (c.names a.binders).map σ = d.names b.binders) :
    (a.prepared c).relabel σ = b.prepared d := by
  rw [prepared, prepared, relabel_flatten, relabel_dropCopies inj,
    relabel_freshened same drawn carries]

theorem length_roundBinders_eq (threshold : Nat)
    (drawn : (c.names a.binders).map σ = d.names b.binders) :
    (a.roundBinders threshold c).length = (b.roundBinders threshold d).length := by
  have copied := copiedBinders_relabel threshold inj .empty (a.prepared c)
  rw [relabel_prepared inj same carries drawn, Scope.relabel_empty] at copied
  rw [roundBinders, roundBinders, copied, List.length_append, List.length_append, List.length_map,
    length_binders_eq same]

/-- Rounds on code that is equal up to bound names give the same code up to the names that
    they draw. -/
theorem relabel_round (threshold : Nat)
    (drawn : (c.names (a.roundBinders threshold c)).map σ = d.names (b.roundBinders threshold d)) :
    ((a.round threshold).run c).1.relabel σ = ((b.round threshold).run d).1 := by
  have size := length_binders_eq same
  rw [roundBinders, roundBinders, Supply.names_append, Supply.names_append, List.map_append] at drawn
  obtain ⟨own, copies⟩ := List.append_inj drawn (by simpa using size)
  have start := relabel_prepared inj same carries own
  have copied := copiedBinders_relabel threshold inj .empty (a.prepared c)
  rw [start, Scope.relabel_empty] at copied
  rw [copied] at copies
  rw [round_run, round_run, relabel_dropDead inj, relabel_foldConstants inj,
    relabel_expanded threshold inj _ _ copies, start, Scope.relabel_empty]

end

/-! ## Names that are left -/

/-- If every permutation of names that keeps some names keeps the code, the other names are not
    free in it: a free name would have to be exchanged with one that is not. -/
theorem mem_of_relabel_eq {e : Knf} {kept : List Name}
    (fixed : ∀ σ : Equiv.Perm Name, (∀ x ∈ kept, σ x = x) → e.relabel σ = e) {y : Name}
    (hy : y ∈ e.freeVars) : y ∈ kept := by
  by_contra notin
  obtain ⟨z, hz⟩ := Infinite.exists_notMem_finset (kept ++ e.freeVars).toFinset
  rw [List.mem_toFinset, List.mem_append, not_or] at hz
  have keeps : ∀ x ∈ kept, Equiv.swap y z x = x := fun x hx =>
    Equiv.swap_apply_of_ne_of_ne (fun eq => notin (eq ▸ hx)) (fun eq => hz.1 (eq ▸ hx))
  have free := congrArg freeVars (fixed (Equiv.swap y z) keeps)
  rw [freeVars_relabel (Equiv.injective _)] at free
  have moved := List.mem_map_of_mem (f := Equiv.swap y z) hy
  rw [free, Equiv.swap_apply_left] at moved
  exact hz.2 moved

section
variable {e : Knf} {c : Supply} {y : Name}

theorem carries_empty {σ : Name → Name} {x : Name} (h : σ x = x) :
    Pairing.empty.Carries σ .empty .empty x := by
  intro y same
  rw [Pairing.same_empty, beq_iff_eq] at same
  exact same ▸ h

theorem mem_of_mem_freshened (hy : y ∈ (e.freshened .empty c).freeVars) :
    y ∈ c.names e.binders ++ e.freeVars := by
  refine mem_of_relabel_eq (fun σ fixed => ?_) hy
  rw [List.forall_mem_append] at fixed
  refine relabel_freshened e.alphaEq_self ?_ fun x hx => carries_empty (fixed.2 x hx)
  rw [List.map_congr_left fixed.1, List.map_id']

/-- A round leaves no names free but those that were free before and those that it draws. -/
theorem mem_of_mem_round (threshold : Nat) (hy : y ∈ ((e.round threshold).run c).1.freeVars) :
    y ∈ c.names (e.roundBinders threshold c) ++ e.freeVars := by
  refine mem_of_relabel_eq (fun σ fixed => ?_) hy
  rw [List.forall_mem_append] at fixed
  refine relabel_round σ.injective e.alphaEq_self (fun x hx => carries_empty (fixed.2 x hx)) _ ?_
  rw [List.map_congr_left fixed.1, List.map_id']

end

/-! ## Runs hand in hand -/

/-- Two supplies give names that a permutation takes to each other, until names repeat. -/
theorem exists_perm_names {xs ys : List Name} (c d : Supply) (full : xs.length = ys.length)
    (names : xs.length ≤ 2 ^ 32) : ∃ σ : Equiv.Perm Name, (c.names xs).map σ = d.names ys :=
  Name.exists_perm_of_nodup (by simpa using full) (c.nodup_names names)
    (d.nodup_names (full ▸ names))

theorem map_names_append {σ : Name → Name} {xs ys zs zs' : List Name} {c d : Supply}
    (full : xs.length = ys.length) (drawn : (c.names (xs ++ zs)).map σ = d.names (ys ++ zs')) :
    (c.names xs).map σ = d.names ys ∧
      ((c.skip xs.length).names zs).map σ = (d.skip ys.length).names zs' := by
  rw [Supply.names_append, Supply.names_append, List.map_append] at drawn
  exact List.append_inj drawn (by simpa using full)

theorem carries_linking {σ τ : Name → Name} {xs : List Name} {x : Name} (hx : x ∈ xs)
    (agree : τ x = σ x) : (Pairing.linking σ xs).Carries τ .empty .empty x :=
  fun _ same => agree.trans (Pairing.eq_of_same_linking hx same).symm

/-- Code of two runs that have drawn names for `xs` and for `ys` so far: a permutation takes
    the names drawn by the one to those drawn by the other, and the code to the code. -/
structure Linked (c : Supply) (xs : List Name) (d : Supply) (ys : List Name) (a b : Knf) : Prop where
  free : ∀ x ∈ a.freeVars, x ∈ c.names xs
  relabelled : ∃ σ : Equiv.Perm Name, (c.names xs).map σ = d.names ys ∧ a.relabel σ = b

namespace Linked

variable {c d : Supply} {xs ys : List Name} {a b : Knf}

theorem length_eq (h : Linked c xs d ys a b) : xs.length = ys.length := by
  obtain ⟨σ, drawn, -⟩ := h.relabelled
  simpa using congrArg List.length drawn

/-- The renaming before the first round links code that is equal up to bound names. -/
theorem start (closed : a.freeVars = []) (same : a.alphaEq b = true)
    (names : a.binders.length ≤ 2 ^ 32) :
    Linked c a.binders d b.binders (a.freshened .empty c) (b.freshened .empty d) := by
  have none : ∀ {P : Name → Prop}, ∀ x ∈ a.freeVars, P x := by simp [closed]
  obtain ⟨σ, drawn⟩ := exists_perm_names c d (length_binders_eq same) names
  refine ⟨fun x hx => ?_, σ, drawn, relabel_freshened same drawn none⟩
  have mem := mem_of_mem_freshened hx
  rwa [closed, List.append_nil] at mem

/-- A permutation for more names goes on like the one so far on the names that can be free. -/
theorem carries (free : ∀ x ∈ a.freeVars, x ∈ c.names xs) {σ τ : Name → Name}
    (before : (c.names xs).map σ = d.names ys) (later : (c.names xs).map τ = d.names ys) :
    ∀ x ∈ a.freeVars, (Pairing.linking σ a.freeVars).Carries τ .empty .empty x :=
  fun x hx => carries_linking hx (List.map_inj_left.mp (later.trans before.symm) x (free x hx))

theorem length_roundBinders (h : Linked c xs d ys a b) (threshold : Nat)
    (names : (xs ++ a.binders).length ≤ 2 ^ 32) :
    (a.roundBinders threshold (c.skip xs.length)).length =
      (b.roundBinders threshold (d.skip ys.length)).length := by
  have full := h.length_eq
  obtain ⟨free, σ, before, rfl⟩ := h
  have same := alphaEqIn_linking σ.injective (e := a) fun x hx => hx
  have total : (xs ++ a.binders).length = (ys ++ (a.relabel σ).binders).length := by simp [full]
  obtain ⟨τ, drawn⟩ := exists_perm_names c d total names
  obtain ⟨earlier, own⟩ := map_names_append full drawn
  exact length_roundBinders_eq τ.injective same (carries free before earlier) threshold own

/-- A round on linked code gives linked code, and the test whether the round has changed
    anything has the same answer. -/
theorem round (h : Linked c xs d ys a b) (threshold : Nat)
    (names : (xs ++ a.roundBinders threshold (c.skip xs.length)).length ≤ 2 ^ 32) :
    Linked c (xs ++ a.roundBinders threshold (c.skip xs.length))
        d (ys ++ b.roundBinders threshold (d.skip ys.length))
        ((a.round threshold).run (c.skip xs.length)).1
        ((b.round threshold).run (d.skip ys.length)).1 ∧
      ((b.round threshold).run (d.skip ys.length)).1.alphaEq b =
        ((a.round threshold).run (c.skip xs.length)).1.alphaEq a := by
  have full := h.length_eq
  have total : (xs ++ a.roundBinders threshold (c.skip xs.length)).length =
      (ys ++ b.roundBinders threshold (d.skip ys.length)).length := by
    have own : (xs ++ a.binders).length ≤ 2 ^ 32 := by
      rw [List.length_append, roundBinders, List.length_append] at names
      rw [List.length_append]
      omega
    rw [List.length_append, List.length_append, h.length_roundBinders threshold own, full]
  obtain ⟨free, σ, before, rfl⟩ := h
  have same := alphaEqIn_linking σ.injective (e := a) fun x hx => hx
  obtain ⟨τ, drawn⟩ := exists_perm_names c d total names
  obtain ⟨earlier, own⟩ := map_names_append full drawn
  have next := relabel_round τ.injective same (carries free before earlier) threshold own
  refine ⟨⟨fun x hx => ?_, τ, drawn, next⟩, ?_⟩
  · rw [Supply.names_append, List.mem_append]
    exact (List.mem_append.mp (mem_of_mem_round threshold hx)).symm.imp_left (free x)
  · rw [← next]
    refine alphaEqIn_relabel τ.injective σ.injective fun u _ v hv => ?_
    have agree : τ v = σ v := List.map_inj_left.mp (earlier.trans before.symm) v (free v hv)
    rw [Pairing.Mirrors, Pairing.same_empty, Pairing.same_empty, ← agree]
    exact Bool.eq_iff_iff.mpr (by simp)

end Linked

def drawsWithin (threshold : Nat) : (left : Nat) → Supply → Knf → Nat
  | 0, _, _ => 0
  | left + 1, c, e =>
      let next := (e.round threshold).run c
      (e.roundBinders threshold c).length +
        if next.1.alphaEq e then 0 else drawsWithin threshold left next.2 next.1

def draws (options : Options) (c : Supply) (e : Knf) : Nat :=
  e.binders.length +
    (e.freshened .empty c).drawsWithin options.inlineThreshold options.maxIterations
      (c.skip e.binders.length)

/-- The supply has enough names for all of the improvement: no name is drawn twice, not even in
    different rounds.  A name that some round leaves free is not drawn again by a later one. -/
def NamesLast (options : Options) (c : Supply) (e : Knf) : Prop :=
  e.draws options c ≤ 2 ^ 32

instance (options : Options) (c : Supply) (e : Knf) : Decidable (e.NamesLast options c) :=
  inferInstanceAs (Decidable (_ ≤ _))

section
variable (threshold left done : Nat) (e : Knf) (c : Supply)

theorem improveWithin_run :
    (improveWithin threshold (left + 1) done e).run c =
      if ((e.round threshold).run c).1.alphaEq e then
        (⟨((e.round threshold).run c).1, done + 1, true⟩, ((e.round threshold).run c).2)
      else
        (improveWithin threshold left (done + 1) ((e.round threshold).run c).1).run
          ((e.round threshold).run c).2 := by
  rw [improveWithin, Step.run_bind]
  split <;> rfl

theorem round_supply :
    ((e.round threshold).run c).2 = c.skip (e.roundBinders threshold c).length := by
  rw [round_run]

theorem improveWithin_supply :
    ((improveWithin threshold left done e).run c).2 = c.skip (e.drawsWithin threshold left c) := by
  induction left generalizing done e c with
  | zero => exact c.skip_zero.symm
  | succ left ih =>
      rw [improveWithin_run, drawsWithin]
      split
      · exact round_supply threshold e c
      · rw [ih, ← Supply.skip_skip, ← round_supply]

theorem improve_supply (options : Options) :
    ((e.improve options).run c).2 = c.skip (e.draws options c) := by
  rw [improve_run, improveWithin_supply, Supply.skip_skip, draws]

variable {threshold left e c}

theorem namesSuffice_of_drawsWithin (names : e.drawsWithin threshold left c ≤ 2 ^ 32) :
    e.NamesSuffice threshold left c := by
  induction left generalizing e c with
  | zero => trivial
  | succ left ih =>
      rw [drawsWithin] at names
      refine ⟨by omega, fun unsettled => ih ?_⟩
      rw [if_neg (by simp [unsettled])] at names
      omega

theorem NamesLast.enoughNames {options : Options} (names : e.NamesLast options c) :
    e.EnoughNames options c := by
  rw [NamesLast, draws] at names
  exact ⟨by omega, namesSuffice_of_drawsWithin (by omega)⟩

end

/-- Linked code is improved to linked code in as many rounds with as many names. -/
theorem Linked.improveWithin {c d : Supply} {xs ys : List Name} {a b : Knf}
    (h : Linked c xs d ys a b) (threshold left done : Nat)
    (names : xs.length + a.drawsWithin threshold left (c.skip xs.length) ≤ 2 ^ 32) :
    let r := ((Knf.improveWithin threshold left done a).run (c.skip xs.length)).1
    let r' := ((Knf.improveWithin threshold left done b).run (d.skip ys.length)).1
    r'.rounds = r.rounds ∧ r'.settled = r.settled ∧
      b.drawsWithin threshold left (d.skip ys.length) =
        a.drawsWithin threshold left (c.skip xs.length) ∧
      ∃ σ : Equiv.Perm Name, r.code.relabel σ = r'.code := by
  induction left generalizing done xs ys a b with
  | zero =>
      obtain ⟨σ, -, relabelled⟩ := h.relabelled
      exact ⟨rfl, rfl, rfl, σ, relabelled⟩
  | succ left ih =>
      rw [drawsWithin] at names
      obtain ⟨next, test⟩ := h.round threshold (by rw [List.length_append]; omega)
      have length := next.length_eq
      have supplyA : ((a.round threshold).run (c.skip xs.length)).2 =
          c.skip (xs ++ a.roundBinders threshold (c.skip xs.length)).length := by
        rw [round_supply, Supply.skip_skip, List.length_append]
      have supplyB : ((b.round threshold).run (d.skip ys.length)).2 =
          d.skip (ys ++ b.roundBinders threshold (d.skip ys.length)).length := by
        rw [round_supply, Supply.skip_skip, List.length_append]
      have own : (b.roundBinders threshold (d.skip ys.length)).length =
          (a.roundBinders threshold (c.skip xs.length)).length := by
        have full := h.length_eq
        rw [List.length_append, List.length_append] at length
        omega
      rw [improveWithin_run, improveWithin_run, drawsWithin, drawsWithin]
      rw [supplyA] at names
      simp only [test, own, supplyA, supplyB]
      cases settled : ((a.round threshold).run (c.skip xs.length)).1.alphaEq a with
      | true =>
          obtain ⟨σ, -, relabelled⟩ := next.relabelled
          exact ⟨rfl, rfl, rfl, σ, relabelled⟩
      | false =>
          rw [settled, if_neg Bool.false_ne_true] at names
          have append : (xs ++ a.roundBinders threshold (c.skip xs.length)).length =
              xs.length + (a.roundBinders threshold (c.skip xs.length)).length := List.length_append
          have rest := ih next (done + 1) (by omega)
          simp only [Bool.false_eq_true, if_false]
          exact ⟨rest.1, rest.2.1, by rw [rest.2.2.1], rest.2.2.2⟩

/-- The improvement of code does not depend on names.  From closed code that is equal up to
    bound names and from any states of two supplies, as long as no name comes twice, it
    makes the same number of rounds, ends in the same way and draws the same number of names,
    and the results are equal up to a permutation of names.  If the result is closed, as it is
    for code that has a type, the results are equal up to bound names. -/
theorem improve_independent_of_names (options : Options) (a b : Knf) (c d : Supply)
    (closed : a.freeVars = []) (same : a.alphaEq b = true)
    (names : a.NamesLast options c) :
    let r := (a.improve options).run c
    let r' := (b.improve options).run d
    r'.1.rounds = r.1.rounds ∧ r'.1.settled = r.1.settled ∧
      r.2 = c.skip (a.draws options c) ∧ r'.2 = d.skip (a.draws options c) ∧
      (∃ σ : Equiv.Perm Name, r.1.code.relabel σ = r'.1.code) ∧
      (r.1.code.freeVars = [] → r.1.code.alphaEq r'.1.code = true) ∧
      (∀ externals τ, a.HasType externals .empty τ → r.1.code.alphaEq r'.1.code = true) := by
  intro r r'
  have start := Linked.start (c := c) (d := d) closed same names.enoughNames.1
  have runs := start.improveWithin options.inlineThreshold options.maxIterations 0 names
  obtain ⟨rounds, settled, drawn, σ, relabelled⟩ := runs
  rw [← improve_run, ← improve_run] at rounds settled relabelled
  have equal : r.1.code.freeVars = [] → r.1.code.alphaEq r'.1.code = true := by
    intro closed
    rw [← relabelled]
    exact alphaEq_relabel_self σ.injective closed
  refine ⟨rounds, settled, improve_supply a c options, ?_, ⟨σ, relabelled⟩, equal, ?_⟩
  · rw [improve_supply, draws, draws, drawn, start.length_eq]
  · intro externals τ typed
    exact equal (typed.improve names.enoughNames).closed

/-- `answering` with other bound names, one of them as a supply draws them. -/
def answeringAgain : Knf :=
  .letRec "a.3" (.fn [.int] .int) [("a", .int)]
    (.letIn "f" .int (.op (.int 1)) (.op (.arith (.int .add) "a" "f")))
    (.letIn "a" .int (.op (.int 41))
      (.letIn "a" .int (.app "a.3" ["a"]) (.externApp "print_int" ["a"])))

/-- The second supply starts again from zero on the way. -/
theorem improve_answeringAgain :
    answering.freeVars = [] ∧ answering.alphaEq answeringAgain = true ∧
      answering.NamesLast {} ⟨0⟩ ∧
      ((answeringAgain.improve {}).run ⟨4294967293⟩).1.rounds =
        ((answering.improve {}).run ⟨0⟩).1.rounds ∧
      ((answering.improve {}).run ⟨0⟩).1.code.alphaEq
        ((answeringAgain.improve {}).run ⟨4294967293⟩).1.code = true := by
  have same : answering.alphaEq answeringAgain = true := by decide +kernel
  have names : answering.NamesLast {} ⟨0⟩ := by decide +kernel
  have runs := improve_independent_of_names {} answering answeringAgain ⟨0⟩ ⟨4294967293⟩
    (by decide +kernel) same names
  exact ⟨by decide +kernel, same, names, runs.1, runs.2.2.2.2.2.1 (by decide +kernel)⟩

/-- Code that calls a function of two arguments with one. -/
def callingShort : Knf :=
  .letRec "f" (.fn [.int, .int] .int) [("x", .int), ("y", .int)] (.op (.var "y"))
    (.letIn "k" .int (.op (.int 1)) (.app "f" ["k"]))

/-- The expansion of a call with too few arguments leaves a formal free, with the name drawn
    for it. -/
theorem improve_callingShort :
    callingShort.freeVars = [] ∧ callingShort.alphaEq callingShort = true ∧
      callingShort.NamesLast {} ⟨0⟩ ∧ callingShort.NamesLast {} ⟨100⟩ ∧
      ((callingShort.improve {}).run ⟨0⟩).1.code = .op (.var "y.7") ∧
      ((callingShort.improve {}).run ⟨100⟩).1.code = .op (.var "y.107") ∧
      ((callingShort.improve {}).run ⟨0⟩).1.code.alphaEq
        ((callingShort.improve {}).run ⟨100⟩).1.code = false := by
  decide +kernel

end MiddleEnd.Knf
