import Mathlib
import MiddleEnd.Proofs.Ty.Defaulting
import MiddleEnd.Proofs.Ty.Unify

/-! # Recursion through a table

To read a type through a table, to search it for a variable, to default what is
left in it and to make it equal to another one are recursions that follow the
bindings of the table.  Here are their rules, without the bounds on depth and on
the number of rounds that `lookup`, `leadsTo`, `settleVar` and `unifyWithin` have.
In a valid table every one of these recursions comes to an end, and its result is
that of the function with the bound; so no bound ever cuts a recursion short.
-/

namespace MiddleEnd.Ty.Table

/-- Reading a type: a variable that is bound is replaced by its binding, read in turn. -/
inductive Resolves (t : Table) : Ty → Ty → Prop where
  | bound {v ty u} : t.binding? v = some ty → Resolves t ty u → Resolves t (.var v) u
  | unbound {v} : t.binding? v = none → Resolves t (.var v) (.var (t.root v))
  | type {ty u} : (∀ v, ty ≠ .var v) → ty.sameHead u = true →
      List.Forall₂ (Resolves t) ty.components u.components → Resolves t ty u

mutual
/-- Searching a type for the class of `v`, from left to right and until it is found. -/
inductive Searches (t : Table) (v : Nat) : Ty → Bool → Prop where
  | here {w} : t.root w = t.root v → Searches t v (.var w) true
  | bound {w ty found} : t.root w ≠ t.root v → t.binding? w = some ty →
      Searches t v ty found → Searches t v (.var w) found
  | unbound {w} : t.root w ≠ t.root v → t.binding? w = none → Searches t v (.var w) false
  | type {ty found} : (∀ w, ty ≠ .var w) → SearchesEach t v ty.components found →
      Searches t v ty found

inductive SearchesEach (t : Table) (v : Nat) : List Ty → Bool → Prop where
  | nil : SearchesEach t v [] false
  | here {c cs} : Searches t v c true → SearchesEach t v (c :: cs) true
  | later {c cs found} : Searches t v c false → SearchesEach t v cs found →
      SearchesEach t v (c :: cs) found
end

mutual
/-- Defaulting a type, from left to right: a class that is not bound becomes the type of
    integers when it is met. -/
inductive Defaults : Settling → Ty → Ty → Settling → Prop where
  | bound {s s' v ty u} : s.table.binding? v = some ty → Defaults s ty u s' →
      Defaults s (.var v) u s'
  | unbound {s v} : s.table.binding? v = none →
      Defaults s (.var v) .int
        ⟨s.table.bind (s.table.root v) .int, s.defaulted ++ [s.table.root v]⟩
  | type {s s' ty u} : (∀ v, ty ≠ .var v) → ty.sameHead u = true →
      DefaultsEach s ty.components u.components s' → Defaults s ty u s'

inductive DefaultsEach : Settling → List Ty → List Ty → Settling → Prop where
  | nil {s} : DefaultsEach s [] [] s
  | cons {s s' s'' c u cs us} : Defaults s c u s' → DefaultsEach s' cs us s'' →
      DefaultsEach s (c :: cs) (u :: us) s''
end

mutual
/-- Making two types equal: both are read through the table.  If their heads differ then
    this difference is solved; if not, their components are made equal pair by pair,
    from left to right and up to the first failure. -/
inductive Unifies : Table → Ty → Ty → Except TypeError Unit → Table → Prop where
  | solved {t t' a b} : (t.resolve a).sameHead (t.resolve b) = false →
      t.solve (t.resolve a) (t.resolve b) = .ok t' → Unifies t a b (.ok ()) t'
  | failed {t a b e} : (t.resolve a).sameHead (t.resolve b) = false →
      t.solve (t.resolve a) (t.resolve b) = .error e → Unifies t a b (.error e) t
  | components {t t' a b r} : (t.resolve a).sameHead (t.resolve b) = true →
      UnifiesEach t (t.resolve a).components (t.resolve b).components r t' → Unifies t a b r t'

inductive UnifiesEach : Table → List Ty → List Ty → Except TypeError Unit → Table → Prop where
  | nil {t} : UnifiesEach t [] [] (.ok ()) t
  | cons {t t' t'' a b as bs r} : Unifies t a b (.ok ()) t' → UnifiesEach t' as bs r t'' →
      UnifiesEach t (a :: as) (b :: bs) r t''
  | failed {t t' a b as bs e} : Unifies t a b (.error e) t' →
      UnifiesEach t (a :: as) (b :: bs) (.error e) t'
end

/-- From every state that satisfies the condition the step defaults the type, and the
    condition still holds. -/
def DefaultsFrom (I : Settling → Prop) (x : StateM Settling Ty) (ty : Ty) : Prop :=
  ∀ s, I s → Defaults s ty (x.run s).1 (x.run s).2 ∧ I (x.run s).2

section
variable {t : Table} {height : Nat → Nat} {a b ty : Ty} {v w depth : Nat}

/-! ## Reading -/

theorem resolves_subst {σ : Nat → Ty} (h : ∀ v ∈ ty.vars, t.Resolves (.var v) (σ v)) :
    t.Resolves ty (ty.subst σ) := by
  induction ty using inductVars with
  | var v => exact h v (List.mem_singleton_self v)
  | type ty type ih =>
      refine .type type (sameHead_subst type) ?_
      rw [components_subst type, List.forall₂_map_right_iff, List.forall₂_same]
      exact fun c hc => ih c hc fun v hv => h v (mem_vars_of_component hc hv)

theorem Descends.resolves_lookup (h : Descends t height) (deep : height (t.root v) ≤ depth) :
    t.Resolves (.var v) (t.lookup depth v) := by
  induction depth generalizing v with
  | zero => exact .unbound (h.unbound_of_height_zero (Nat.le_zero.mp deep)).binding?
  | succ depth ih =>
      rw [lookup]
      cases found : t.binding? v with
      | none => exact .unbound found
      | some ty =>
          refine .bound found (resolves_subst fun w hw => ih ?_)
          have := h.lt v ty found w hw
          omega

theorem Valid.resolves (valid : t.Valid) (ty : Ty) : t.Resolves ty (t.resolve ty) := by
  obtain ⟨order, h⟩ := valid
  exact resolves_subst fun v _ => h.descends.resolves_lookup (h.descends.le_size _)

/-! ## Searching -/

theorem searchesEach {p : Nat → Bool} {cs : List Ty}
    (h : ∀ c ∈ cs, t.Searches v c (c.anyVar p)) :
    t.SearchesEach v cs (cs.any (·.anyVar p)) := by
  induction cs with
  | nil => exact .nil
  | cons c cs ih =>
      rw [List.forall_mem_cons] at h
      rw [List.any_cons]
      cases found : c.anyVar p with
      | true => exact .here (found ▸ h.1)
      | false => exact .later (found ▸ h.1) (ih h.2)

theorem searches_anyVar {p : Nat → Bool} (h : ∀ w ∈ ty.vars, t.Searches v (.var w) (p w)) :
    t.Searches v ty (ty.anyVar p) := by
  induction ty using inductVars with
  | var w => exact h w (List.mem_singleton_self w)
  | type ty type ih =>
      rw [anyVar_components type]
      refine .type type (searchesEach fun c hc => ?_)
      exact ih c hc fun w hw => h w (mem_vars_of_component hc hw)

theorem Descends.searches_leadsTo (h : Descends t height) (deep : height (t.root w) ≤ depth) :
    t.Searches v (.var w) (t.leadsTo v depth w) := by
  induction depth generalizing w with
  | zero =>
      have unbound := h.unbound_of_height_zero (Nat.le_zero.mp deep)
      rw [leadsTo]
      cases same : t.root w == t.root v with
      | true => exact .here (beq_iff_eq.mp same)
      | false => exact .unbound (beq_eq_false_iff_ne.mp same) unbound.binding?
  | succ depth ih =>
      rw [leadsTo]
      cases same : t.root w == t.root v with
      | true => exact .here (beq_iff_eq.mp same)
      | false =>
          have ne := beq_eq_false_iff_ne.mp same
          rw [Bool.false_or]
          cases found : t.binding? w with
          | none => exact .unbound ne found
          | some ty =>
              refine .bound ne found (searches_anyVar fun u hu => ih ?_)
              have := h.lt w ty found u hu
              omega

theorem Valid.searches (valid : t.Valid) (v : Nat) (ty : Ty) : t.Searches v ty (t.occurs v ty) := by
  obtain ⟨order, h⟩ := valid
  exact searches_anyVar fun w _ => h.descends.searches_leadsTo (h.descends.le_size _)

/-! ## Defaulting -/

theorem substListM_append {S : Type} (f : Nat → StateM S Ty) (as bs : List Ty) (s : S) :
    (substListM f (as ++ bs)).run s =
      (((substListM f as).run s).1 ++ ((substListM f bs).run ((substListM f as).run s).2).1,
        ((substListM f bs).run ((substListM f as).run s).2).2) := by
  induction as generalizing s with
  | nil => rfl
  | cons a as ih => simp only [List.cons_append, substListM, Step.run_bind, Step.run_pure, ih]

theorem length_substListM {S : Type} (f : Nat → StateM S Ty) (ts : List Ty) (s : S) :
    ((substListM f ts).run s).1.length = ts.length := by
  induction ts generalizing s with
  | nil => rfl
  | cons t ts ih => simp only [substListM, Step.run_bind, Step.run_pure, List.length_cons, ih]

/-- What is done to a type is done to its components. -/
theorem substM_components {S : Type} (f : Nat → StateM S Ty) (type : ∀ v, ty ≠ .var v) (s : S) :
    ty.sameHead ((ty.substM f).run s).1 = true ∧
      ((ty.substM f).run s).1.components = ((substListM f ty.components).run s).1 ∧
      ((ty.substM f).run s).2 = ((substListM f ty.components).run s).2 := by
  cases ty with
  | var n => exact absurd rfl (type n)
  | unit | bool | int | float | array => exact ⟨rfl, rfl, rfl⟩
  | tuple es =>
      exact ⟨beq_iff_eq.mpr (length_substListM f es s).symm, rfl, rfl⟩
  | fn ps r =>
      refine ⟨beq_iff_eq.mpr (length_substListM f ps s).symm, ?_, ?_⟩
      · rw [components, substListM_append]
        rfl
      · rw [components, substListM_append]
        rfl

theorem defaultsEach {I : Settling → Prop} {f : Nat → StateM Settling Ty} {cs : List Ty}
    (h : ∀ c ∈ cs, DefaultsFrom I (c.substM f) c) {s : Settling} (hs : I s) :
    DefaultsEach s cs ((substListM f cs).run s).1 ((substListM f cs).run s).2 ∧
      I ((substListM f cs).run s).2 := by
  induction cs generalizing s with
  | nil => exact ⟨.nil, hs⟩
  | cons c cs ih =>
      rw [List.forall_mem_cons] at h
      obtain ⟨first, hs'⟩ := h.1 s hs
      obtain ⟨others, hs''⟩ := ih h.2 hs'
      exact ⟨.cons first others, hs''⟩

theorem defaults_substM {I : Settling → Prop} {f : Nat → StateM Settling Ty}
    (h : ∀ v ∈ ty.vars, DefaultsFrom I (f v) (.var v)) : DefaultsFrom I (ty.substM f) ty := by
  induction ty using inductVars with
  | var v => exact h v (List.mem_singleton_self v)
  | type ty type ih =>
      intro s hs
      obtain ⟨same, parts, last⟩ := substM_components f type s
      have parts' : ∀ c ∈ ty.components, DefaultsFrom I (c.substM f) c :=
        fun c hc => ih c hc fun v hv => h v (mem_vars_of_component hc hv)
      have each := defaultsEach parts' hs
      rw [← parts, ← last] at each
      exact ⟨.type type same each.1, each.2⟩

/-- Besides, the table extends the one at the start. -/
structure Settling.Extending (t : Table) (height : Nat → Nat) (s : Settling) : Prop extends
    Settling.Keeps t.settled t.root height s where
  more : Extends t s.table
  size : s.table.size = t.size

theorem defaults_settleVar (inside : v < t.size) (deep : height (t.root v) ≤ depth) :
    DefaultsFrom (Settling.Extending t height) (settleVar depth v) (.var v) := by
  induction depth generalizing v with
  | zero =>
      intro s hs
      have := hs.descends.pos v (inside.trans_eq hs.size.symm)
      rw [hs.root] at this
      omega
  | succ depth ih =>
      intro s hs
      cases found : s.table.binding? v with
      | some ty =>
          have vars : ∀ w ∈ ty.vars,
              DefaultsFrom (Settling.Extending t height) (settleVar depth w) (.var w) := by
            intro w hw
            have lower := hs.descends.lt v ty found w hw
            rw [hs.root, hs.root] at lower
            exact ih ((hs.more.valid.vars_lt found w hw).trans_eq hs.size) (by omega)
          obtain ⟨ends, later⟩ := defaults_substM vars s hs
          rw [settleVar_bound found]
          exact ⟨.bound found ends, later⟩
      | none =>
          have insideRoot : s.table.root v < s.table.size :=
            hs.more.valid.root_lt (inside.trans_eq hs.size.symm)
          have solved := solved_of_bind (y := .int) hs.more.valid
            ⟨hs.descends.unbound_root found, insideRoot⟩ nofun rfl
          rw [settleVar_unbound found]
          refine ⟨.unbound found, hs.default found _, hs.more.trans solved.toExtends, ?_⟩
          exact solved.size.trans hs.size

theorem Descends.defaults (descends : t.Descends height) (valid : t.Valid)
    (below : ty.Below t.size) :
    Defaults ⟨t, []⟩ ty (t.settle ty).1 (t.settle ty).2 ∧ Extends t (t.settle ty).2.table := by
  have start : Settling.Extending t height ⟨t, []⟩ :=
    ⟨⟨descends.settles, descends, fun _ => rfl⟩, .refl valid, rfl⟩
  have vars : ∀ v ∈ ty.vars,
      DefaultsFrom (Settling.Extending t height) (settleVar t.size v) (.var v) :=
    fun v hv => defaults_settleVar (below v hv) (descends.le_size (t.root v))
  obtain ⟨ends, later⟩ := defaults_substM vars _ start
  exact ⟨ends, later.more⟩

theorem Valid.defaults (valid : t.Valid) (below : ty.Below t.size) :
    Defaults ⟨t, []⟩ ty (t.settle ty).1 (t.settle ty).2 ∧ Extends t (t.settle ty).2.table := by
  obtain ⟨order, h⟩ := valid
  exact h.descends.defaults ⟨order, h⟩ below

end

/-! ## Unification -/

section
variable {t t' t₀ : Table} {a b a' b' : Ty} {as bs : List Ty} {r : Except TypeError Unit}

/-- The order in which differences are solved depends only on the first ones. -/
theorem Solving.congr (h : Solving a b t r t') (start : Extends t₀ t)
    (same : ∀ t₁, Extends t₀ t₁ → (t₁.resolve a).firstDifference (t₁.resolve b) =
      (t₁.resolve a').firstDifference (t₁.resolve b')) : Solving a' b' t r t' := by
  induction h with
  | done none => exact .done (same _ start ▸ none)
  | failed difference error clash => exact .failed (same _ start ▸ difference) error clash
  | solved difference ok solved _ ih =>
      exact .solved (same _ start ▸ difference) ok solved (ih (start.trans solved.toExtends))

/-- Where there is no difference nothing is done. -/
theorem Solving.eq_of_same (h : Solving a b t r t')
    (same : (t.resolve a).firstDifference (t.resolve b) = none) : r = .ok () ∧ t' = t := by
  cases h with
  | done => exact ⟨rfl, rfl⟩
  | failed difference | solved difference =>
      rw [same] at difference
      cases difference

theorem Solving.progress (h : Solving a b t r t') :
    t' = t ∨ t'.unboundVars.card < t.unboundVars.card := by
  induction h with
  | done | failed => exact .inl rfl
  | solved _ _ solved _ ih =>
      rcases ih with rfl | less
      · exact .inr solved.card_lt
      · exact .inr (less.trans solved.card_lt)

/-- Differences between lists of types are solved from left to right. -/
theorem Solving.cons (h : Solving (.tuple (a :: as)) (.tuple (b :: bs)) t r t')
    (full : as.length = bs.length) :
    (∃ t₁, Solving a b t (.ok ()) t₁ ∧ Solving (.tuple as) (.tuple bs) t₁ r t') ∨
      ∃ e, r = .error e ∧ Solving a b t (.error e) t' := by
  have first : ∀ t : Table, (t.resolve (.tuple (a :: as))).firstDifference
      (t.resolve (.tuple (b :: bs))) = ((t.resolve a).firstDifference (t.resolve b)).or
        ((t.resolve (.tuple as)).firstDifference (t.resolve (.tuple bs))) := by
    intro t
    simp [resolve, subst, substList, firstDifference, substList_eq_map, firstDifferenceList_cons, full]
  induction h with
  | done none =>
      rw [first, Option.or_eq_none_iff] at none
      exact .inl ⟨_, .done none.1, .done none.2⟩
  | failed difference error clash =>
      rw [first, Option.or_eq_some_iff] at difference
      rcases difference with here | ⟨none, later⟩
      · exact .inr ⟨_, rfl, .failed here error clash⟩
      · exact .inl ⟨_, .done none, .failed later error clash⟩
  | @solved t t₁ _ x y _ difference ok solved _ ih =>
      rw [first, Option.or_eq_some_iff] at difference
      rcases difference with here | ⟨none, later⟩
      · rcases ih with ⟨t₂, run, rest⟩ | ⟨e, error, run⟩
        · exact .inl ⟨t₂, .solved here ok solved run, rest⟩
        · exact .inr ⟨e, error, .solved here ok solved run⟩
      · -- the first two types are equal already, and stay so
        have still : (t₁.resolve a).firstDifference (t₁.resolve b) = .none := by
          rw [← solved.resolve_resolve a, eq_of_firstDifference none, solved.resolve_resolve,
            firstDifference_self]
        rcases ih with ⟨t₂, run, rest⟩ | ⟨e, error, run⟩
        · obtain ⟨-, rfl⟩ := run.eq_of_same still
          exact .inl ⟨t, .done none, .solved later ok solved rest⟩
        · cases (run.eq_of_same still).1

theorem unifiesEach_of_solving (valid : t.Valid)
    (near : t = t₀ ∨ t.unboundVars.card < t₀.unboundVars.card)
    (each : ∀ a ∈ as, ∀ b t r t', t.Valid → (t = t₀ ∨ t.unboundVars.card < t₀.unboundVars.card) →
      Solving a b t r t' → Unifies t a b r t')
    (full : as.length = bs.length) (h : Solving (.tuple as) (.tuple bs) t r t') :
    UnifiesEach t as bs r t' := by
  induction as generalizing bs t with
  | nil =>
      obtain rfl := List.length_eq_zero_iff.mp full.symm
      obtain ⟨rfl, rfl⟩ := h.eq_of_same (firstDifference_self _)
      exact .nil
  | cons a as ih =>
      obtain ⟨b, bs, rfl⟩ := List.exists_cons_of_length_eq_add_one full.symm
      rw [List.forall_mem_cons] at each
      rcases h.cons (Nat.succ.inj full) with ⟨t₁, first, rest⟩ | ⟨e, rfl, first⟩
      · have nearer : t₁ = t₀ ∨ t₁.unboundVars.card < t₀.unboundVars.card := by
          rcases first.progress with rfl | less
          · exact near
          · exact .inr (by rcases near with rfl | near <;> omega)
        have valid' := (first.toExtends valid).valid
        exact .cons (each.1 b _ _ _ valid near first) (ih valid' nearer each.2 (Nat.succ.inj full) rest)
      · exact .failed (each.1 b _ _ _ valid near first)

theorem Valid.resolve_component {c : Ty} (valid : t.Valid) (hc : c ∈ (t.resolve a).components) :
    t.resolve c = c := by
  obtain ⟨order, h⟩ := valid
  exact resolve_eq_self fun v hv =>
    h.descends.unbound_of_mem_resolve (mem_vars_of_component hc hv)

/-- A solved difference between the whole types leaves no other. -/
theorem Solved.resolve_eq (h : Solved t (t.resolve a) (t.resolve b) t') :
    t'.resolve a = t'.resolve b := by
  rw [← h.resolve_resolve a, ← h.resolve_resolve b]
  exact ((h.models_iff _).mp h.valid.models_lookup).2

theorem Solving.unifies (valid : t.Valid) (h : Solving a b t r t') : Unifies t a b r t' := by
  induction n : t.unboundVars.card using Nat.strong_induction_on generalizing t a b r t' with
  | _ n fewer =>
  induction whole : t.resolve a using inductComponents generalizing a b r t' with
  | type _ inside =>
      subst n whole
      cases same : (t.resolve a).sameHead (t.resolve b) with
      | false =>
          have first := firstDifference_of_not_sameHead same
          cases h with
          | done none =>
              rw [first] at none
              cases none
          | failed difference error =>
              rw [first] at difference
              cases difference
              exact .failed same error
          | solved difference ok solved rest =>
              rw [first] at difference
              cases difference
              obtain ⟨rfl, rfl⟩ := rest.eq_of_same (by rw [solved.resolve_eq, firstDifference_self])
              exact .solved same ok
      | true =>
          have tuples : Solving (.tuple (t.resolve a).components) (.tuple (t.resolve b).components)
              t r t' := by
            refine h.congr (.refl valid) fun t₁ later => ?_
            rw [← later.resolve_resolve a, ← later.resolve_resolve b]
            exact firstDifference_subst same
          refine .components same
            (unifiesEach_of_solving valid (.inl rfl) ?_ (length_components same) tuples)
          intro c hc d t₁ r₁ t₂ valid₁ near run
          rcases near with rfl | less
          · exact inside c hc run (valid.resolve_component hc)
          · exact fewer _ less valid₁ run rfl

/-- Unification takes the types apart, pair by pair. -/
theorem Valid.unifies (valid : t.Valid) (ha : a.Below t.size) (hb : b.Below t.size) :
    Unifies t a b (t.unify a b).1 (t.unify a b).2 :=
  (unify_solving valid ha hb).unifies valid

end

end MiddleEnd.Ty.Table
