import Mathlib
import MiddleEnd.Proofs.Ty.Calls
import MiddleEnd.Typing.Inference

/-! # Classes that get the default

To settle a type is to give the default to the classes that are left in it.  The table changes
under way, so a class that is met a second time, be it by way of another variable or inside a
binding, is bound by then.  Hence what is done can be read off the type as the table has it at
the start: each of its variables gets the default once, in the order of their first places.
-/

namespace MiddleEnd

theorem nodup_eraseDups (vs : List Nat) : vs.eraseDups.Nodup := by
  cases vs with
  | nil => exact List.nodup_nil
  | cons v vs =>
      rw [List.eraseDups_cons, List.nodup_cons]
      refine ⟨?_, nodup_eraseDups _⟩
      simp [List.mem_eraseDups]
termination_by vs.length
decreasing_by exact Nat.lt_succ_of_le (List.length_filter_le ..)

namespace Ty.Table

/-- Give the default to several classes, one after the other. -/
def giveDefaults (t : Table) (rs : List Nat) : Table :=
  rs.foldl (fun t r => t.bind r .int) t

/-- What is known after the classes have got the default: all that was known before, and these
    classes. -/
structure Defaulted (t : Table) (rs : List Nat) (t' : Table) : Prop extends Extends t t' where
  size : t'.size = t.size
  same : ∀ v, t'.root v = t.root v
  unbound_iff : ∀ v, t'.Unbound v ↔ t.Unbound v ∧ v ∉ rs
  int : ∀ r ∈ rs, t'.binding? r = some .int

section
variable {t t' : Table} {ty : Ty} {v w : Nat} {rs vs : List Nat}

theorem defaulted_giveDefaults (valid : t.Valid) (nodup : rs.Nodup)
    (left : ∀ r ∈ rs, t.Unbound r ∧ r < t.size) : Defaulted t rs (t.giveDefaults rs) := by
  induction rs generalizing t with
  | nil =>
      refine ⟨.refl valid, rfl, fun _ => rfl, ?_, List.forall_mem_nil _⟩
      exact fun v => (and_iff_left (List.not_mem_nil)).symm
  | cons r rs ih =>
      rw [List.forall_mem_cons] at left
      rw [List.nodup_cons] at nodup
      obtain ⟨⟨unbound, inside⟩, others⟩ := left
      have first := solved_of_bind (y := .int) valid ⟨unbound, inside⟩ nofun rfl
      have still := unbound.unbound_bind_iff inside .int
      have rest := ih first.valid nodup.2 fun w hw =>
        ⟨(still w).mpr ⟨(others w hw).1, ne_of_mem_of_not_mem hw nodup.1⟩,
          (others w hw).2.trans_eq first.size.symm⟩
      refine ⟨first.toExtends.trans rest.toExtends, rest.size.trans first.size, ?_, ?_, ?_⟩
      · intro w
        exact (rest.same w).trans (root_bind ..)
      · intro w
        rw [giveDefaults, List.foldl_cons, ← giveDefaults, rest.unbound_iff, still, List.mem_cons,
          not_or, and_assoc]
      · rw [List.forall_mem_cons]
        refine ⟨rest.binding? r .int ?_, rest.int⟩
        rw [unbound.binding?_bind inside, if_pos unbound.root]

/-- What a type is read as once classes have got the default. -/
theorem Defaulted.resolve (h : Defaulted t rs t') (valid : t.Valid) (ty : Ty) :
    t'.resolve ty = (t.resolve ty).subst fun v => if v ∈ rs then .int else .var v := by
  rw [← h.resolve_resolve, Table.resolve]
  refine subst_congr fun v hv => ?_
  obtain ⟨order, ordered⟩ := valid
  have unbound := ordered.descends.unbound_of_mem_resolve hv
  split
  · rename_i mem
    exact h.valid.lookup_of_bound (h.int v mem)
  · rename_i other
    exact ((h.unbound_iff v).mpr ⟨unbound, other⟩).lookup _

/-- Of the variables of a type those are left that have not got the default. -/
theorem Defaulted.vars_resolve (h : Defaulted t rs t') (valid : t.Valid) (ty : Ty) :
    (t'.resolve ty).vars = (t.resolve ty).vars.removeAll rs := by
  rw [h.resolve valid, vars_subst, List.removeAll]
  induction (t.resolve ty).vars with
  | nil => rfl
  | cons v vs ih =>
      rw [List.flatMap_cons, List.filter_cons, ih]
      by_cases mem : v ∈ rs <;> simp [mem, vars]

end

/-! ## Settling -/

/-- The state after the default has been given to these variables, some of which may come more
    than once. -/
def Settling.give (s : Settling) (vs : List Nat) : Settling :=
  ⟨s.table.giveDefaults vs.eraseDups, s.defaulted ++ vs.eraseDups⟩

section
variable {s : Settling} {vs : List Nat}

theorem Settling.give_nil (s : Settling) : s.give [] = s := by
  simp [Settling.give, giveDefaults]

theorem Settling.give_append (s : Settling) (vs ws : List Nat) :
    s.give (vs ++ ws) = (s.give vs).give (ws.removeAll vs) := by
  simp only [Settling.give, List.eraseDups_append, giveDefaults, List.foldl_append,
    List.append_assoc]

theorem defaulted_give (valid : s.table.Valid)
    (left : ∀ v ∈ vs, s.table.Unbound v ∧ v < s.table.size) :
    Defaulted s.table vs (s.give vs).table := by
  obtain ⟨more, size, same, unbound, int⟩ := defaulted_giveDefaults valid (nodup_eraseDups vs)
    fun v hv => left v (List.mem_eraseDups.mp hv)
  simp only [List.mem_eraseDups] at unbound int
  exact ⟨more, size, same, unbound, int⟩

end

mutual
/-- The default is given to the variables of the type as the table has it. -/
theorem Defaults.give {s s' : Settling} {ty u : Ty} : Defaults s ty u s' → s.table.Valid →
    ty.Below s.table.size → s' = s.give (s.table.resolve ty).vars
  | @Defaults.bound _ _ v ty _ found rest, valid, _ => by
      have read : s.table.resolve (.var v) = s.table.resolve ty := valid.lookup_of_bound found
      rw [read]
      exact Defaults.give rest valid (valid.vars_lt found)
  | @Defaults.unbound _ v free, valid, _ => by
      have read : s.table.resolve (.var v) = .var (s.table.root v) :=
        (valid.lookup_root v).symm.trans ((valid.unbound_root free).lookup _)
      rw [read]
      rfl
  | .type other _ each, valid, below => by
      have parts := DefaultsEach.give each valid fun c hc v hv =>
        below v (mem_vars_of_component hc hv)
      rw [parts, Table.resolve, vars_subst, vars_eq_flatMap other, List.flatMap_assoc]
      simp only [Table.resolve, vars_subst]

theorem DefaultsEach.give {s s' : Settling} {cs us : List Ty} : DefaultsEach s cs us s' →
    s.table.Valid → (∀ c ∈ cs, c.Below s.table.size) →
    s' = s.give (cs.flatMap fun c => (s.table.resolve c).vars)
  | .nil, _, _ => s.give_nil.symm
  | .cons first rest, valid, below => by
      rw [List.forall_mem_cons] at below
      have eq := Defaults.give first valid below.1
      -- the rest is read through a table in which the variables of the first are bound
      have now := defaulted_give valid fun v hv => valid.unbound_of_mem_resolve below.1 hv
      rw [← eq] at now
      rw [DefaultsEach.give rest now.valid fun c hc v hv =>
        (below.2 c hc v hv).trans_eq now.size.symm]
      rw [eq, List.flatMap_cons, Settling.give_append, List.removeAll, List.filter_flatMap]
      simp only [now.vars_resolve valid, List.removeAll, ← eq]
end

section
variable {t t' : Table} {ty : Ty} {v : Nat}

/-- A class that is not bound occurs in a type if it is left when the type is read. -/
theorem Unbound.occurs_iff (unbound : t.Unbound v) :
    t.occurs v ty = true ↔ v ∈ (t.resolve ty).vars := by
  have leads : ∀ depth w, t.leadsTo v depth w = true ↔ v ∈ (t.lookup depth w).vars := by
    intro depth
    induction depth with
    | zero =>
        intro w
        rw [leadsTo, Table.lookup, unbound.root, beq_iff_eq, vars, List.mem_singleton, eq_comm]
    | succ depth ih =>
        intro w
        rw [leadsTo, Table.lookup]
        cases found : t.binding? w with
        | none =>
            rw [Bool.or_false, unbound.root, beq_iff_eq, vars, List.mem_singleton, eq_comm]
        | some ty =>
            have other : t.root w ≠ v := by
              intro root
              rw [binding?_eq, root, unbound.bound?] at found
              cases found
            simp [unbound.root, other, anyVar_iff, mem_vars_subst, ih]
  rw [Table.occurs, anyVar_iff, Table.resolve, mem_vars_subst]
  simp only [leads]

/-- Settling reads a type, takes integers for the variables that are left and gives the default
    to each of them. -/
theorem Valid.settle_eq (valid : t.Valid) (below : ty.Below t.size) :
    t.settle ty =
      ((t.resolve ty).subst fun _ => .int, Settling.give ⟨t, []⟩ (t.resolve ty).vars) := by
  obtain ⟨order, ordered⟩ := valid
  have reads : Returns (Settling.Keeps t.settled t.root fun v => order.length - order.idxOf v)
      (ty.substM (settleVar t.size)) (ty.subst t.settled) :=
    returns_substM fun v _ => returns_settleVar (ordered.descends.le_size _)
  obtain ⟨value, -⟩ := reads ⟨t, []⟩ ⟨ordered.descends.settles, ordered.descends, fun _ => rfl⟩
  refine Prod.ext ?_ ((Valid.defaults ⟨order, ordered⟩ below).1.give ⟨order, ordered⟩ below)
  rw [Table.resolve, subst_subst]
  exact value

theorem Valid.defaulted_settle (valid : t.Valid) (below : ty.Below t.size) :
    Defaulted t (t.resolve ty).vars (t.settle ty).2.table := by
  rw [valid.settle_eq below]
  exact defaulted_give (s := ⟨t, []⟩) valid fun v hv => valid.unbound_of_mem_resolve below hv

/-- A type that has been settled is read as it was settled. -/
theorem Valid.resolve_settle (valid : t.Valid) (below : ty.Below t.size) :
    (t.settle ty).2.table.resolve ty = (t.settle ty).1 := by
  rw [(valid.defaulted_settle below).resolve valid, valid.settle_eq below]
  exact subst_congr fun v hv => if_pos hv

end

end Ty.Table

namespace Typing

open Ty.Table (Reaches)

variable {s : State} {ty : Ty}

theorem settle_run (valid : s.table.Valid) (below : ty.Below s.table.size) :
    (settle ty).run s = ((s.table.resolve ty).subst fun _ => .int,
      { s with
        table := (s.table.settle ty).2.table
        warnings := s.warnings ++ (s.table.resolve ty).vars.eraseDups.map .defaultedToInt }) := by
  have eq := valid.settle_eq below
  have reported : (s.table.settle ty).2.defaulted = (s.table.resolve ty).vars.eraseDups := by
    rw [eq]
    rfl
  have run : (settle ty).run s = ((s.table.settle ty).1,
      { s with
        table := (s.table.settle ty).2.table
        warnings := s.warnings ++ (s.table.settle ty).2.defaulted.map .defaultedToInt }) := rfl
  rw [run, reported, eq]

/-- Where nothing is left to be settled nothing is done. -/
theorem settle_run_ground (valid : s.table.Valid) (below : ty.Below s.table.size)
    (ground : (s.table.resolve ty).isGround = true) :
    (settle ty).run s = (s.table.resolve ty, s) := by
  have none : (s.table.resolve ty).vars = [] :=
    List.eq_nil_iff_forall_not_mem.mpr (Ty.isGround_iff.mp ground)
  have same : (s.table.settle ty).2.table = s.table := by
    rw [valid.settle_eq below, none, Ty.Table.Settling.give_nil]
  rw [settle_run valid below, none, same, Ty.subst_of_isGround ground]
  simp

/-- Settling a type in a state with a table that calls lead to.  The result has no variables: it
    is the type as it was read before, with integers for the variables that are left, which are
    the classes that occur in the type and are not bound.  There is one new warning for each of
    these, in the order of their first places.  From then on the type is read and settled as
    this result, without a change to the state, whatever calls come between; and the classes
    that do not occur in it are not bound and have the same variables standing for them. -/
theorem settle_defaults_once (s s' : State) (ty result : Ty) (reached : Reaches .empty s.table)
    (below : ty.Below s.table.size) (run : (settle ty).run s = (result, s')) :
    result.isGround = true ∧ result = ((s.table.resolve ty).subst fun _ => .int) ∧
      (∀ v, v ∈ (s.table.resolve ty).vars ↔ s.table.Unbound v ∧ s.table.occurs v ty = true) ∧
      s' = { s with
        table := s'.table
        warnings := s.warnings ++ (s.table.resolve ty).vars.eraseDups.map .defaultedToInt } ∧
      (∀ later : State, Reaches s'.table later.table →
        later.table.resolve ty = result ∧ (settle ty).run later = (result, later)) ∧
      ∀ v, s.table.binding? v = none → s.table.root v ∉ (s.table.resolve ty).vars →
        s'.table.binding? v = none ∧ s'.table.root v = s.table.root v := by
  have valid := reached.valid
  have defaulted := valid.defaulted_settle below
  have ground : ((s.table.resolve ty).subst fun _ => .int).isGround = true :=
    Ty.isGround_subst (fun _ => rfl) _
  rw [settle_run valid below] at run
  cases run
  refine ⟨ground, rfl, ?_, rfl, ?_, ?_⟩
  · intro v
    constructor
    · intro mem
      have unbound := (valid.unbound_of_mem_resolve below mem).1
      exact ⟨unbound, unbound.occurs_iff.mpr mem⟩
    · rintro ⟨unbound, occurs⟩
      exact unbound.occurs_iff.mp occurs
  · intro later reached'
    have more := reached'.toExtends defaulted.valid
    have read : later.table.resolve ty = (s.table.resolve ty).subst fun _ => .int := by
      rw [← more.resolve_resolve, valid.resolve_settle below, valid.settle_eq below]
      exact Ty.subst_of_isGround ground
    have below' : ty.Below later.table.size :=
      below.mono (defaulted.size.ge.trans more.size_le)
    have again := settle_run_ground more.valid below' (read ▸ ground)
    exact ⟨read, read ▸ again⟩
  · intro v free absent
    have unbound := (defaulted.unbound_iff _).mpr ⟨valid.unbound_root free, absent⟩
    rw [Ty.Table.binding?_eq, defaulted.same]
    exact ⟨unbound.bound?, rfl⟩

/-- Two variables are one class, another one is bound to arrays of that class, and of two more
    variables nothing is known. -/
def sharingClass : State where
  table := .afterAll .empty [.fresh, .fresh, .fresh, .fresh, .fresh, .unify (.var 0) (.var 1),
    .unify (.var 2) (.array (.var 0))]
  warnings := [.assumedExternal "table"]
  externals := [("table", .var 2)]
  imported := []

/-- A type that has the shared class in three ways. -/
def usingClass : Ty :=
  .tuple [.var 2, .fn [.var 3] (.var 1), .var 0]

theorem settle_sharingClass :
    Reaches .empty sharingClass.table ∧
      ∃ result s', (settle usingClass).run sharingClass = (result, s') ∧
        result = .tuple [.array .int, .fn [.int] .int, .int] ∧
        s'.warnings = [.assumedExternal "table", .defaultedToInt 1, .defaultedToInt 3] ∧
        s'.table.resolve usingClass = result ∧ s'.table.binding? 4 = none := by
  have reached : Reaches .empty sharingClass.table := ⟨_, by decide +kernel, rfl⟩
  have read : sharingClass.table.resolve usingClass =
      .tuple [.array (.var 1), .fn [.var 3] (.var 1), .var 1] := by cbv
  cases run : (settle usingClass).run sharingClass with
  | mk result s' =>
      obtain ⟨-, value, -, state, later, others⟩ :=
        settle_defaults_once _ _ _ _ reached (by decide +kernel) run
      rw [read] at value state others
      refine ⟨reached, result, s', rfl, value, ?_, (later s' ⟨[], trivial, rfl⟩).1, ?_⟩
      · rw [state]
        rfl
      · exact (others 4 (by cbv) (by decide +kernel)).1

end Typing

end MiddleEnd
