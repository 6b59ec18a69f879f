import Mathlib
import MiddleEnd.Proofs.Knf.FreeNames
import MiddleEnd.Proofs.Knf.OpenCode

/-! # Rewrites of open code

Folding constants, dropping copies and moving binders outward are right in every
environment, if the binders of the code are different from each other and from its free
names.  All three rely on this: a known tuple is taken apart where its components are
still in force, a copy is replaced below binders that do not hide what it stands for,
and a binder that is moved outward comes to stand over code that it did not bind before.
-/

namespace MiddleEnd.Knf

/-! ## Constants -/

/-- Folding constants preserves behaviour, in every environment and from every memory, if the
    binders of the code are different from each other and from its free names: code that does not
    get stuck becomes code that does not get stuck either, that ends if and only if the code does,
    with the same effects, the same visible result and the same visible memory, and that shows the
    same effects where it does not end. -/
theorem foldConstants_preserves_behaviour (W : Outside) (e : Knf) (env : Env)
    (m : Memory W Closure) (nodup : e.binders.Nodup) (apart : ∀ x ∈ e.binders, x ∉ e.freeVars)
    (safe : (e.runsIn W env m).Safe) :
    (e.foldConstants.runsIn W env m).Safe ∧
      (e.runsIn W env m).SameBehaviour (e.foldConstants.runsIn W env m) := by
  have improves : Improves true (.free e) e e.foldConstants :=
    improves_foldConstantsIn e (Context.tracks_free e) .empty (Context.new_free nodup apart)
  exact improves.refines_open W env m safe

/-- Code with a sum that wraps around, a float that is not equal to itself, and a function that
    takes a tuple apart which is known outside it. -/
def knowing : Knf :=
  .letIn "big" .int (.op (.int 9223372036854775807))
    (.letIn "one" .int (.op (.int 1))
      (.letIn "nan" .float (.op (.float ⟨0x7ff8000000000000⟩))
        (.letIn "t" (.tuple [.int, .int]) (.op (.tuple ["big", "z"]))
          (.letRec "f" (.fn [.int] .unit) [("k", .int)]
            (.letTuple [("p", .int), ("q", .int)] "t"
              (.letIn "s" .int (.op (.arith (.int .add) "big" "one"))
                (.branch .le "s" "k" (.externApp "print" ["p", "q", "s"]) (.app "f" ["s"]))))
            (.branch .eq "nan" "nan" (.app "z" []) (.app "f" ["one"]))))))

def knowingEnv : Env :=
  Scope.empty.bindAll [("z", .int 5), ("big", .unit)]

theorem safe_knowing :
    (knowing.runsIn .accepting knowingEnv (Memory.start .accepting Closure)).Safe := by
  intro n
  cases n with
  | zero => exact nofun
  | succ n => exact nofun

/-- The sum is the least integer, and a comparison with what is not a number fails. -/
theorem foldConstants_knowing :
    knowing.binders.Nodup ∧ (∀ x ∈ knowing.binders, x ∉ knowing.freeVars) ∧
    knowing.foldConstants =
      .letIn "big" .int (.op (.int 9223372036854775807))
        (.letIn "one" .int (.op (.int 1))
          (.letIn "nan" .float (.op (.float ⟨0x7ff8000000000000⟩))
            (.letIn "t" (.tuple [.int, .int]) (.op (.tuple ["big", "z"]))
              (.letRec "f" (.fn [.int] .unit) [("k", .int)]
                (.letIn "p" .int (.op (.var "big"))
                  (.letIn "q" .int (.op (.var "z"))
                    (.letIn "s" .int (.op (.int (-9223372036854775808)))
                      (.branch .le "s" "k" (.externApp "print" ["p", "q", "s"])
                        (.app "f" ["s"])))))
                (.app "f" ["one"]))))) ∧
    (knowing.runsIn .accepting knowingEnv (Memory.start .accepting Closure)).Safe ∧
    (knowing.foldConstants.runsIn .accepting knowingEnv (Memory.start .accepting Closure)).Safe ∧
    (knowing.runsIn .accepting knowingEnv (Memory.start .accepting Closure)).SameBehaviour
      (knowing.foldConstants.runsIn .accepting knowingEnv (Memory.start .accepting Closure)) := by
  have nodup : knowing.binders.Nodup := by decide
  have apart : ∀ x ∈ knowing.binders, x ∉ knowing.freeVars := by decide
  refine ⟨nodup, apart, by decide, safe_knowing, ?_⟩
  exact foldConstants_preserves_behaviour .accepting knowing knowingEnv _ nodup apart safe_knowing

/-! ## Copies -/

theorem freeVars_dropCopies (e : Knf) : ∀ x ∈ e.dropCopies.freeVars, x ∈ e.freeVars := by
  have uses : e.Uses (· ∈ e.freeVars) := uses_iff.mpr fun x used => used
  exact uses_iff.mp (uses_dropCopiesIn (fun x y found => by cases found) uses)

/-- Dropping copies preserves behaviour, in every environment and from every memory, if the
    binders of the code are different from each other and from its free names: code that does not
    get stuck becomes code that does not get stuck either, that ends if and only if the code does,
    with the same effects, the same visible result and the same visible memory, and that shows the
    same effects where it does not end.  No name becomes free. -/
theorem dropCopies_preserves_behaviour (e : Knf) (nodup : e.binders.Nodup)
    (apart : ∀ x ∈ e.binders, x ∉ e.freeVars) :
    (∀ (W : Outside) (env : Env) (m : Memory W Closure), (e.runsIn W env m).Safe →
      (e.dropCopies.runsIn W env m).Safe ∧
        (e.runsIn W env m).SameBehaviour (e.dropCopies.runsIn W env m)) ∧
    ∀ x ∈ e.dropCopies.freeVars, x ∈ e.freeVars := by
  have improves : Improves true (.free e) e e.dropCopies :=
    improves_dropCopiesIn e (Context.tracks_free e) .empty (Context.new_free nodup apart)
  exact ⟨improves.refines_open, freeVars_dropCopies e⟩

/-- Code with a copy of a copy, inside a function, and with a copy of the function. -/
def copying : Knf :=
  .letIn "b" .int (.op (.var "a"))
    (.letRec "f" (.fn [.int] .int) [("x", .int)]
      (.letIn "c" .int (.op (.var "b")) (.op (.arith (.int .add) "x" "c")))
      (.letIn "g" (.fn [.int] .int) (.op (.var "f"))
        (.letIn "r" .int (.app "g" ["b"]) (.externApp "print_int" ["r"]))))

def copyingEnv : Env :=
  Scope.empty.bindAll [("a", .int 20), ("b", .unit)]

theorem safe_copying :
    (copying.runsIn .accepting copyingEnv (Memory.start .accepting Closure)).Safe := by
  intro n
  cases n with
  | zero => exact nofun
  | succ n => exact nofun

theorem dropCopies_copying :
    copying.binders.Nodup ∧ (∀ x ∈ copying.binders, x ∉ copying.freeVars) ∧
    copying.dropCopies =
      .letRec "f" (.fn [.int] .int) [("x", .int)] (.op (.arith (.int .add) "x" "a"))
        (.letIn "r" .int (.app "f" ["a"]) (.externApp "print_int" ["r"])) ∧
    (copying.runsIn .accepting copyingEnv (Memory.start .accepting Closure)).Safe ∧
    (copying.dropCopies.runsIn .accepting copyingEnv (Memory.start .accepting Closure)).Safe ∧
    (copying.runsIn .accepting copyingEnv (Memory.start .accepting Closure)).SameBehaviour
      (copying.dropCopies.runsIn .accepting copyingEnv (Memory.start .accepting Closure)) ∧
    ∀ x ∈ copying.dropCopies.freeVars, x ∈ copying.freeVars := by
  have nodup : copying.binders.Nodup := by decide
  have apart : ∀ x ∈ copying.binders, x ∉ copying.freeVars := by decide
  obtain ⟨preserves, free⟩ := dropCopies_preserves_behaviour copying nodup apart
  obtain ⟨safe, same⟩ := preserves .accepting copyingEnv (Memory.start .accepting Closure)
    safe_copying
  exact ⟨nodup, apart, by decide, safe_copying, safe, same, free⟩

/-! ## Flat bindings -/

theorem size_hoist (x : Name) (ty : Mono) (body e : Knf) :
    (hoist x ty body e).size = 1 + e.size + body.size := by
  induction e with
  | op | branch | app | externApp => rfl
  | letIn y u e1 e2 _ ih =>
      simp only [hoist, size, ih]
      omega
  | letRec f u formals e1 e2 _ ih =>
      simp only [hoist, size, ih]
      omega
  | letTuple pattern z e ih =>
      simp only [hoist, size, ih]
      omega

theorem size_flatten (e : Knf) : e.flatten.size = e.size := by
  induction e with
  | op | app | externApp => rfl
  | branch test x y e1 e2 ih1 ih2 => simp only [flatten, size, ih1, ih2]
  | letIn x ty e1 e2 ih1 ih2 => simp only [flatten, size_hoist, size, ih1, ih2]
  | letRec f ty formals body rest ih1 ih2 => simp only [flatten, size, ih1, ih2]
  | letTuple pattern y e ih => simp only [flatten, size, ih]

theorem filter_ne_eq_self {xs : List Name} {y : Name} (h : y ∉ xs) : xs.filter (· ≠ y) = xs :=
  List.filter_eq_self.mpr fun _ hz => decide_eq_true fun eq => h (eq ▸ hz)

/-- Nothing is captured by the binders that are moved outward, if they do not occur in what they
    come to stand over. -/
theorem freeVars_hoist {x : Name} (ty : Mono) {body e : Knf}
    (apart : ∀ y ∈ e.leading, y ∉ body.freeVars.filter (· ≠ x)) :
    (hoist x ty body e).freeVars = e.freeVars ++ body.freeVars.filter (· ≠ x) := by
  induction e with
  | op | branch | app | externApp => rfl
  | letIn y u e1 e2 _ ih =>
      obtain ⟨outer, inner⟩ := List.forall_mem_cons.mp apart
      rw [hoist, freeVars, ih inner, List.filter_append, filter_ne_eq_self outer,
        ← List.append_assoc, freeVars]
  | letRec f u formals e1 e2 _ ih =>
      obtain ⟨outer, inner⟩ := List.forall_mem_cons.mp apart
      rw [hoist, freeVars, ih inner, ← List.append_assoc, List.filter_append,
        filter_ne_eq_self outer, freeVars]
  | letTuple pattern z e ih =>
      obtain ⟨outer, inner⟩ := List.forall_mem_append.mp apart
      have kept : (body.freeVars.filter (· ≠ x)).filter (· ∉ pattern.map (·.1)) =
          body.freeVars.filter (· ≠ x) :=
        List.filter_eq_self.mpr fun w used => decide_eq_true fun bound => outer w bound used
      rw [hoist, freeVars, ih inner, List.filter_append, kept, ← List.cons_append, freeVars]

theorem Context.after_bindAfterEach {Φ : Context} {xs : List Name} {a : Name} :
    (Φ.bindAfterEach xs).after a ↔ a ∈ xs ∨ Φ.after a := by
  induction xs generalizing Φ with
  | nil => exact (or_iff_right List.not_mem_nil).symm
  | cons x xs ih =>
      have later : (Φ.bindAfterEach (x :: xs)).after a ↔ a ∈ xs ∨ a = x ∨ Φ.after a := ih
      rw [later, List.mem_cons]
      tauto

/-- Code keeps its free names, in their order, if its binders are different and not in force. -/
theorem freeVars_flatten_of_fresh {Φ : Context} {e : Knf} (uses : e.Uses Φ.after)
    (fresh : Φ.Fresh e.binders) : e.flatten.freeVars = e.freeVars := by
  -- The names in force are given apart from the code, since there are more of them further in.
  induction e generalizing Φ with
  | op | app | externApp => rfl
  | branch test x y e1 e2 ih1 ih2 =>
      rw [flatten, freeVars, freeVars, ih1 uses.2.2.1 fresh.left, ih2 uses.2.2.2 fresh.right]
  | letIn x ty e1 e2 ih1 ih2 =>
      have fresh : Φ.Fresh ([x] ++ (e1.binders ++ e2.binders)) := fresh
      have outside := fresh.right.left
      have inside := fresh.bindAfterEach
      have second := ih2 uses.2 inside.right
      -- A name that is used after the binding is `x` or in force, and no binder is in force.
      have apart : ∀ y ∈ e1.flatten.leading, y ∉ e2.flatten.freeVars.filter (· ≠ x) := by
        intro y moved used
        rw [second, List.mem_filter, decide_eq_true_eq] at used
        have bound : y ∈ e1.binders :=
          (binders_flatten e1).subset ((leading_sublist _).subset moved)
        exact outside.after y bound ((uses_iff.mp uses.2 y used.1).resolve_left used.2)
      rw [flatten, freeVars_hoist ty apart, ih1 uses.1 outside, second, freeVars]
  | letRec f ty formals body rest ih1 ih2 =>
      have fresh : Φ.Fresh ([f] ++ (formals.map (·.1) ++ (body.binders ++ rest.binders))) := fresh
      have inside := fresh.bindAfterEach
      have inBody : body.Uses ((Φ.bindAfterEach [f]).bindAfterEach (formals.map (·.1))).after :=
        uses.1.mono fun u hu => Context.after_bindAfterEach.mpr hu
      rw [flatten, freeVars, freeVars, ih1 inBody inside.bindAfterEach.left,
        ih2 uses.2 inside.right.right]
  | letTuple pattern y e ih =>
      have inside : e.Uses (Φ.bindAfterEach (pattern.map (·.1))).after :=
        uses.2.mono fun u hu => Context.after_bindAfterEach.mpr hu
      rw [flatten, freeVars, freeVars, ih inside fresh.bindAfterEach]

theorem freeVars_flatten {e : Knf} (nodup : e.binders.Nodup)
    (apart : ∀ x ∈ e.binders, x ∉ e.freeVars) : e.flatten.freeVars = e.freeVars := by
  have uses : e.Uses (Context.free e).after := uses_iff.mpr fun x used => used
  exact freeVars_flatten_of_fresh uses (Context.new_free nodup apart).toFresh

/-- Moving binders outward preserves behaviour, in every environment and from every memory, if the
    binders of the code are different from each other and from its free names: code that does not
    get stuck becomes code that does not get stuck either, that ends if and only if the code does,
    with the same effects in the same order, the same visible result and the same visible memory,
    and that shows the same effects where it does not end.  The free names stay the same, also in
    their order and number, and so does the size. -/
theorem flatten_preserves_behaviour (e : Knf) (nodup : e.binders.Nodup)
    (apart : ∀ x ∈ e.binders, x ∉ e.freeVars) :
    (∀ (W : Outside) (env : Env) (m : Memory W Closure), (e.runsIn W env m).Safe →
      (e.flatten.runsIn W env m).Safe ∧
        (e.runsIn W env m).SameBehaviour (e.flatten.runsIn W env m)) ∧
    e.flatten.freeVars = e.freeVars ∧ e.flatten.size = e.size := by
  have improves : Improves true (.free e) e e.flatten :=
    improves_flatten e (Context.tracks_free e) (Context.new_free nodup apart)
  exact ⟨improves.refines_open, freeVars_flatten nodup apart, size_flatten e⟩

/-- Code that binds a name to code with binders of each kind, in two layers. -/
def layered : Knf :=
  .letIn "x" .int
    (.letIn "y" .int
      (.letRec "f" (.fn [.int] .int) [("k", .int)] (.op (.arith (.int .add) "k" "n"))
        (.letTuple [("p", .int), ("q", .int)] "t" (.app "f" ["p"])))
      (.letIn "u" .unit (.externApp "print_int" ["y"]) (.op (.arith (.int .sub) "y" "n"))))
    (.externApp "print_int" ["x"])

def layeredEnv : Env :=
  Scope.empty.bindAll [("n", .int 1), ("t", .tuple [.int 2, .int 3]), ("p", .unit)]

theorem safe_layered :
    (layered.runsIn .accepting layeredEnv (Memory.start .accepting Closure)).Safe := by
  intro n
  cases n with
  | zero => exact nofun
  | succ n => exact nofun

theorem flatten_layered :
    layered.binders.Nodup ∧ (∀ x ∈ layered.binders, x ∉ layered.freeVars) ∧
    layered.flatten =
      .letRec "f" (.fn [.int] .int) [("k", .int)] (.op (.arith (.int .add) "k" "n"))
        (.letTuple [("p", .int), ("q", .int)] "t"
          (.letIn "y" .int (.app "f" ["p"])
            (.letIn "u" .unit (.externApp "print_int" ["y"])
              (.letIn "x" .int (.op (.arith (.int .sub) "y" "n"))
                (.externApp "print_int" ["x"]))))) ∧
    (layered.runsIn .accepting layeredEnv (Memory.start .accepting Closure)).Safe ∧
    (layered.flatten.runsIn .accepting layeredEnv (Memory.start .accepting Closure)).Safe ∧
    (layered.runsIn .accepting layeredEnv (Memory.start .accepting Closure)).SameBehaviour
      (layered.flatten.runsIn .accepting layeredEnv (Memory.start .accepting Closure)) ∧
    layered.flatten.freeVars = layered.freeVars ∧ layered.flatten.size = layered.size := by
  have nodup : layered.binders.Nodup := by decide
  have apart : ∀ x ∈ layered.binders, x ∉ layered.freeVars := by decide
  obtain ⟨preserves, free, size⟩ := flatten_preserves_behaviour layered nodup apart
  obtain ⟨safe, same⟩ := preserves .accepting layeredEnv (Memory.start .accepting Closure)
    safe_layered
  exact ⟨nodup, apart, by decide, safe_layered, safe, same, free, size⟩

end MiddleEnd.Knf
