import Mathlib
import MiddleEnd.Proofs.Knf.Passes
import MiddleEnd.Proofs.Knf.Simulation

/-! # Open code

Code with free names is run in an environment that gives values to them, and
perhaps to other names, also to those that the code binds itself.  The code does
not notice the rest of the environment.  So a change is right in every
environment if it is right where the free names of the code are all that is bound,
and this is what the rewrites ask for.  The values in the environment and in the
memory may be functions of any kind: a value is related to itself.
-/

namespace MiddleEnd

namespace Scope

variable {α : Type}

def only (s : Scope α) (xs : List Name) : Scope α :=
  ⟨s.groups.map (·.filter (·.1 ∈ xs))⟩

theorem lookup_filter (group : List (Name × α)) (xs : List Name) (x : Name) :
    (group.filter (·.1 ∈ xs)).lookup x = if x ∈ xs then group.lookup x else none := by
  induction group with
  | nil => simp
  | cons b bs ih => grind

theorem get?_only {s : Scope α} {xs : List Name} {x : Name} {a : α} :
    (s.only xs).get? x = some a ↔ x ∈ xs ∧ s.get? x = some a := by
  unfold only get?
  rw [List.findSome?_map]
  by_cases mem : x ∈ xs
  · simp [Function.comp_def, lookup_filter, mem]
  · simp [Function.comp_def, lookup_filter, mem, List.findSome?_eq_some_iff]

theorem sizeOf_get? [SizeOf α] {s : Scope α} {x : Name} {a : α} (h : s.get? x = some a) :
    sizeOf a < sizeOf s := by
  obtain ⟨group, hgroup, found⟩ := List.exists_of_findSome?_eq_some h
  obtain ⟨before, after, rfl, -⟩ := List.lookup_eq_some_iff.mp found
  have inGroups := List.sizeOf_lt_of_mem hgroup
  have inGroup : sizeOf (x, a) < sizeOf (before ++ (x, a) :: after) :=
    List.sizeOf_lt_of_mem (by simp)
  obtain ⟨groups⟩ := s
  simp only [mk.sizeOf_spec, Prod.mk.sizeOf_spec] at *
  omega

end Scope

namespace Knf

namespace Context

/-- A name that is bound before and after the change keeps its meaning. -/
def shared (before after : Name → Prop) : Context :=
  ⟨before, after, fun x o => o = .var x ∧ before x ∧ after x, fun _ _ _ _ => False⟩

variable {before after : Name → Prop} {a : Name}

theorem means_shared (h : after a) : (shared before after).Means a (.var a) :=
  fun bound => ⟨rfl, bound, h⟩

theorem Holds.shared {env env' : Env} (bound : ∀ x v, env.get? x = some v → before x)
    (bound' : ∀ x v, env'.get? x = some v → after x)
    (same : ∀ x v, before x → after x → env.get? x = some v →
      env'.get? x = some v ∧ Value.Rel Closure.Rel v v) :
    (shared before after).Holds env env' := by
  apply Holds.of_parts bound bound'
  · rintro x _ v ⟨rfl, hx, hx'⟩ found
    exact ⟨v, same x v hx hx' found⟩
  · intro f formals body bound function
    cases function

end Context

/-! ## Code and values take their own place -/

/-- Code takes its own place wherever its free names keep their meaning. -/
theorem Improves.refl (e : Knf) {i : Bool} {Φ : Context}
    (means : ∀ a ∈ e.freeVars, Φ.Means a (.var a)) : Improves i Φ e e := by
  induction e generalizing i Φ with
  | op o => exact .op (.refl means)
  | branch test x y e1 e2 ih1 ih2 =>
      simp only [freeVars, List.mem_cons, List.mem_append] at means
      refine .branch (means x (.inl rfl)) (means y (.inr (.inl rfl))) ?_ ?_
      · exact ih1 fun a ha => means a (.inr (.inr (.inl ha)))
      · exact ih2 fun a ha => means a (.inr (.inr (.inr ha)))
  | letIn x ty e1 e2 ih1 ih2 =>
      simp only [freeVars, List.mem_append, List.mem_filter, decide_eq_true_eq] at means
      refine .letIn (ih1 fun a ha => means a (.inl ha)) (ih2 fun a ha => ?_)
      exact Context.means_keep (fun ne => means a (.inr ⟨ha, ne⟩)) _
  | letRec f ty formals body rest ih1 ih2 =>
      simp only [freeVars, List.mem_append, List.mem_filter, decide_eq_true_eq] at means
      refine .letRec rfl (ih1 fun a ha => ?_) (ih2 fun a ha => ?_)
      · refine Context.means_keepEach fun notin => Context.means_keep (fun ne => ?_) (.app f [])
        exact means a ⟨.inl ⟨ha, notin⟩, ne⟩
      · exact Context.means_keep (fun ne => means a ⟨.inr ha, ne⟩) (.app f [])
  | app f xs =>
      refine .app (means f (List.mem_cons_self ..)) (List.forall₂_same.mpr fun x hx => ?_)
      exact means x (List.mem_cons_of_mem _ hx)
  | letTuple pattern y e ih =>
      simp only [freeVars, List.mem_cons, List.mem_filter, decide_eq_true_eq] at means
      refine .letTuple rfl (means y (.inl rfl)) (ih fun a ha => ?_)
      exact Context.means_keepEach fun notin => means a (.inr ⟨ha, notin⟩)
  | externApp f xs => exact .externApp (List.forall₂_same.mpr means)

mutual
theorem Closure.rel_self (k : Closure) : Closure.Rel k k := by
  cases k with
  | mk env f formals body =>
      have holds : (Context.shared (fun _ => True) fun _ => True).Holds env env := by
        refine .shared (fun _ _ _ => trivial) (fun _ _ _ => trivial) fun x v _ _ found => ?_
        exact ⟨found, Closure.rel_value v⟩
      refine .mk rfl holds (.refl body fun a _ => Context.means_keepEach fun _ => ?_)
      exact Context.means_keep (fun _ => Context.means_shared trivial) (.app f [])
termination_by sizeOf k
decreasing_by
  have smaller := Scope.sizeOf_get? found
  simp only [Closure.mk.sizeOf_spec]
  omega

theorem Closure.rel_value (v : Value Closure) : Value.Rel Closure.Rel v v := by
  cases v with
  | unit => exact .unit
  | int n => exact .int n
  | float d => exact .float d
  | tuple vs => exact .tuple (List.forall₂_same.mpr fun w mem => Closure.rel_value w)
  | array a => exact .array a
  | fn k => exact .fn (Closure.rel_self k)
termination_by sizeOf v
end

theorem rel_memory {W : Outside} (m : Memory W Closure) : Memory.Rel Closure.Rel m m := by
  refine ⟨?_, rfl⟩
  exact List.forall₂_same.mpr fun row _ => List.forall₂_same.mpr fun v _ => Closure.rel_value v

/-! ## Changes of open code -/

namespace Context

def free (e : Knf) : Context :=
  shared (· ∈ e.freeVars) (· ∈ e.freeVars)

theorem tracks_free (e : Knf) : (free e).Tracks .empty :=
  fun _ bound => ⟨rfl, bound, bound⟩

theorem new_free {e : Knf} {ys : List Name} (nodup : ys.Nodup)
    (apart : ∀ y ∈ ys, y ∉ e.freeVars) : (free e).New ys :=
  ⟨⟨nodup, apart⟩, apart⟩

end Context

section
variable (W : Outside) (env : Env) (m : Memory W Closure)

/-- Code runs as well where only its free names are bound. -/
theorem refines_only (e : Knf) :
    (e.runsIn W env m).Refines (e.runsIn W (env.only e.freeVars) m) := by
  have holds : (Context.shared (fun _ => True) (· ∈ e.freeVars)).Holds env
      (env.only e.freeVars) := by
    apply Context.Holds.shared
    · exact fun _ _ _ => trivial
    · exact fun x v found => (Scope.get?_only.mp found).1
    · exact fun x v _ used found => ⟨Scope.get?_only.mpr ⟨used, found⟩, Closure.rel_value v⟩
  exact (Improves.refl e fun a used => Context.means_shared used).refinesIn holds (rel_memory m)

/-- Code that needs only some names runs as well where more are bound. -/
theorem refines_of_only (e : Knf) (xs : List Name) :
    (e.runsIn W (env.only xs) m).Refines (e.runsIn W env m) := by
  have holds : (Context.shared (· ∈ xs) fun _ => True).Holds (env.only xs) env := by
    apply Context.Holds.shared
    · exact fun x v found => (Scope.get?_only.mp found).1
    · exact fun _ _ _ => trivial
    · exact fun x v _ _ found => ⟨(Scope.get?_only.mp found).2, Closure.rel_value v⟩
  exact (Improves.refl e fun a _ => Context.means_shared trivial).refinesIn holds (rel_memory m)

/-- A change that is right where the free names of the code are all that is bound is right in
    every environment. -/
theorem Improves.refines_open {e e' : Knf} (h : Improves true (.free e) e e') :
    (e.runsIn W env m).Refines (e'.runsIn W env m) := by
  have holds : (Context.free e).Holds (env.only e.freeVars) (env.only e.freeVars) := by
    apply Context.Holds.shared
    · exact fun x v found => (Scope.get?_only.mp found).1
    · exact fun x v found => (Scope.get?_only.mp found).1
    · exact fun x v _ _ found => ⟨found, Closure.rel_value v⟩
  have inside := refines_only W env m e
  have changed := h.refinesIn holds (rel_memory m)
  exact (inside.trans changed).trans (refines_of_only W env m e' e.freeVars)

end

/-- Expanding calls preserves behaviour, in every environment, from every memory and with every
    threshold, if the binders of the code are different from each other and from its free names
    and no name of the code has the number of one of the names that are drawn, as is so if the
    count has reached the numbers of all names and does not start again from zero
    (`Supply.Reaches.not_ahead`): code that does not get stuck becomes code that does not get
    stuck either, that ends if and only if the code does, with the same effects, the same visible
    result and the same visible memory, and that shows the same effects where it does not end.
    Functions may be copied into themselves. -/
theorem expandCalls_preserves_behaviour (W : Outside) (threshold : Nat) (e : Knf) (c : Supply)
    (env : Env) (m : Memory W Closure) (nodup : e.binders.Nodup)
    (apart : ∀ x ∈ e.binders, x ∉ e.freeVars)
    (names : (e.copiedBinders threshold .empty).length ≤ 2 ^ 32)
    (ahead : ∀ x ∈ e.binders ++ e.freeVars,
      ¬ c.Ahead (e.copiedBinders threshold .empty).length x)
    (safe : (e.runsIn W env m).Safe) :
    (((e.expandCalls threshold).run c).1.runsIn W env m).Safe ∧
      (e.runsIn W env m).SameBehaviour (((e.expandCalls threshold).run c).1.runsIn W env m) := by
  have drawn : ∀ x ∈ e.binders ++ e.freeVars, x ∉ c.names (e.copiedBinders threshold .empty) :=
    fun x hx mem => ahead x hx (Supply.ahead_of_mem_names mem)
  have new : (Context.free e).New (e.binders ++ c.names (e.copiedBinders threshold .empty)) := by
    apply Context.new_free
    · refine nodup.append (c.nodup_names names) ?_
      exact fun x bound => drawn x (List.mem_append_left _ bound)
    · intro x hx used
      rcases List.mem_append.mp hx with bound | copied
      · exact apart x bound used
      · exact drawn x (List.mem_append_right _ used) copied
  have improves : Improves true (.free e) e (e.expanded threshold .empty c) :=
    improves_expanded threshold e (Context.tracks_free e) new.left .empty new.toFresh
  have run : ((e.expandCalls threshold).run c).1 = e.expanded threshold .empty c :=
    congrArg Prod.fst (expandCallsIn_run threshold .empty e c)
  rw [run]
  exact improves.refines_open W env m safe

/-- Code that counts down from a number that it does not bind, with a function that calls
    itself. -/
def counting : Knf :=
  .letRec "down" (.fn [.int] .int) [("k", .int)]
    (.branch .le "k" "zero" (.op (.var "k"))
      (.letIn "k.1" .int (.op (.arith (.int .sub) "k" "one")) (.app "down" ["k.1"])))
    (.letIn "r" .int (.app "down" ["n"]) (.externApp "print_int" ["r"]))

/-- Values for the free names of the code, and one for a name that it binds. -/
def countingEnv : Env :=
  Scope.empty.bindAll [("zero", .int 0), ("one", .int 1), ("n", .int 2), ("k", .unit)]

theorem safe_counting :
    (counting.runsIn .accepting countingEnv (Memory.start .accepting Closure)).Safe := by
  intro n
  match n with
  | 0 | 1 | 2 => exact nofun
  | n + 3 => exact nofun

/-- The function is copied into itself, and one of its binders is numbered. -/
theorem expandCalls_counting :
    counting.binders.Nodup ∧ (∀ x ∈ counting.binders, x ∉ counting.freeVars) ∧
    (counting.copiedBinders 10 .empty).length = 2 ∧
    (∀ x ∈ counting.binders ++ counting.freeVars, Supply.Reaches ⟨1⟩ x) ∧
    (counting.runsIn .accepting countingEnv (Memory.start .accepting Closure)).Safe ∧
    (((counting.expandCalls 10).run ⟨1⟩).1.runsIn .accepting countingEnv
      (Memory.start .accepting Closure)).Safe ∧
    (counting.runsIn .accepting countingEnv (Memory.start .accepting Closure)).SameBehaviour
      (((counting.expandCalls 10).run ⟨1⟩).1.runsIn .accepting countingEnv
        (Memory.start .accepting Closure)) := by
  have nodup : counting.binders.Nodup := by decide
  have apart : ∀ x ∈ counting.binders, x ∉ counting.freeVars := by decide
  have copied : (counting.copiedBinders 10 .empty).length = 2 := by decide +kernel
  have reached : ∀ x ∈ counting.binders ++ counting.freeVars, Supply.Reaches ⟨1⟩ x := by
    decide +kernel
  refine ⟨nodup, apart, copied, reached, safe_counting, ?_⟩
  refine expandCalls_preserves_behaviour .accepting 10 counting ⟨1⟩ countingEnv _ nodup apart
    ?_ ?_ safe_counting
  · rw [copied]
    decide
  · rw [copied]
    exact fun x hx => (reached x hx).not_ahead (by decide)

/-- Code that prints 5, by way of a function that returns a number from outside. -/
def lookingOut : Knf :=
  .letIn "b.0" .int (.op (.int 5))
    (.letRec "f" (.fn [.int] .int) [("a", .int)]
      (.letIn "b" .int (.op (.int 1)) (.op (.var "b.0")))
      (.letIn "r" .int (.app "f" ["b.0"]) (.externApp "print_int" ["r"])))

theorem safe_lookingOut :
    (lookingOut.runsIn .accepting .empty (Memory.start .accepting Closure)).Safe := by
  intro n
  cases n with
  | zero => exact nofun
  | succ n => exact nofun

/-- Where the count starts again from zero, a copied binder can capture a name of the code,
    although the count had reached the numbers of all names.  The expanded code prints 1. -/
theorem expandCalls_lookingOut :
    lookingOut.binders.Nodup ∧ (∀ x ∈ lookingOut.binders, x ∉ lookingOut.freeVars) ∧
    (∀ x ∈ lookingOut.binders ++ lookingOut.freeVars, Supply.Reaches ⟨4294967295⟩ x) ∧
    (lookingOut.runsIn .accepting .empty (Memory.start .accepting Closure)).Safe ∧
    ¬ (lookingOut.runsIn .accepting .empty (Memory.start .accepting Closure)).SameBehaviour
      (((lookingOut.expandCalls 10).run ⟨4294967295⟩).1.runsIn .accepting .empty
        (Memory.start .accepting Closure)) := by
  refine ⟨by decide, by decide, by decide +kernel, safe_lookingOut, fun same => ?_⟩
  have before : (lookingOut.runsIn .accepting .empty (Memory.start .accepting Closure)).Shows
      [.call "print_int" [.int 5] .unit] := ⟨1, List.prefix_rfl⟩
  obtain ⟨n, shown⟩ := (same.shows _).mp before
  have after : (((lookingOut.expandCalls 10).run ⟨4294967295⟩).1.runsIn .accepting .empty
      (Memory.start .accepting Closure) n).effects = [.call "print_int" [.int 1] .unit] := rfl
  rw [after] at shown
  simp at shown

end Knf

end MiddleEnd
