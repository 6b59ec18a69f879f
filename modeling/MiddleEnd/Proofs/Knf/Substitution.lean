import Mathlib
import MiddleEnd.Proofs.Knf.FreeNames
import MiddleEnd.Proofs.Knf.Nameless

/-! # Renaming is substitution

Renaming code in a scope puts names in the place of its free names and gives new names to
its binders.  `Substitutes` says what is asked of the new names so that no name that is put
in is captured, and determines the result up to bound names: on nameless code, where there
is nothing to capture, substitution is a change of the free names.  `substitute` is a
substitution that keeps a bound name where it can; renaming with names from a supply is
another one, as long as the names that are put in do not have numbers that the supply is
about to give.
-/

namespace MiddleEnd

namespace Nameless

def map (σ : Name → Name) : Nameless → Nameless
  | .op form rs => .op form (rs.map (Ref.map σ))
  | .branch test x y e1 e2 => .branch test (x.map σ) (y.map σ) (e1.map σ) (e2.map σ)
  | .letIn ty e1 e2 => .letIn ty (e1.map σ) (e2.map σ)
  | .letRec ty formals body rest => .letRec ty formals (body.map σ) (rest.map σ)
  | .app f rs => .app (f.map σ) (rs.map (Ref.map σ))
  | .letTuple pattern y e => .letTuple pattern (y.map σ) (e.map σ)
  | .externApp f rs => .externApp f (rs.map (Ref.map σ))

theorem filterMap_name?_map (σ : Name → Name) (rs : List Ref) :
    (rs.map (Ref.map σ)).filterMap Ref.name? = (rs.filterMap Ref.name?).map σ := by
  simp only [List.filterMap_map, List.map_filterMap, Function.comp_def, Ref.name?_map]

theorem freeNames_map (σ : Name → Name) (e : Nameless) :
    (e.map σ).freeNames = e.freeNames.map σ := by
  induction e with
  | op form rs => exact filterMap_name?_map σ rs
  | branch test x y e1 e2 ih1 ih2 =>
      have both := filterMap_name?_map σ [x, y]
      simp only [List.map_cons, List.map_nil] at both
      simp only [map, freeNames, both, ih1, ih2, List.map_append]
  | letIn ty e1 e2 ih1 ih2 => simp only [map, freeNames, ih1, ih2, List.map_append]
  | letRec ty formals body rest ih1 ih2 => simp only [map, freeNames, ih1, ih2, List.map_append]
  | app f rs => exact filterMap_name?_map σ (f :: rs)
  | letTuple pattern y e ih =>
      have one := filterMap_name?_map σ [y]
      simp only [List.map_cons, List.map_nil] at one
      simp only [map, freeNames, one, ih, List.map_append]
  | externApp f rs => exact filterMap_name?_map σ rs

@[simp] theorem map_id (e : Nameless) : e.map id = e := by
  have refs : Ref.map id = id := by
    funext r
    cases r <;> rfl
  induction e with
  | op | app | externApp => simp [map, refs]
  | branch test x y e1 e2 ih1 ih2 => simp [map, refs, ih1, ih2]
  | letIn ty e1 e2 ih1 ih2 => simp [map, ih1, ih2]
  | letRec ty formals body rest ih1 ih2 => simp [map, ih1, ih2]
  | letTuple pattern y e ih => simp [map, refs, ih]

end Nameless

/-! ## References below renamed binders -/

namespace Scope

variable {s : Scope Name} {σ : Name → Name} {xs ys : List Name} {u : Name}

/-- What replaces the name refers, below the binders `ys`, to what the name refers to below
    the binders `xs`; a free name is replaced as `σ` says. -/
def Redirects (s : Scope Name) (σ : Name → Name) (xs ys : List Name) (u : Name) : Prop :=
  Ref.resolve ys (s.target u) = (Ref.resolve xs u).map σ

theorem Redirects.bind {x x' : Name} (apart : u ≠ x → s.target u ≠ x')
    (h : u ≠ x → s.Redirects σ xs ys u) :
    (s.bind x x').Redirects σ (x :: xs) (x' :: ys) u := by
  unfold Redirects at h ⊢
  by_cases eq : u = x
  · subst eq
    simp [target, Ref.resolve, Ref.map]
  · have same : (s.bind x x').target u = s.target u := by simp [target, eq]
    simp only [same, Ref.resolve, apart eq, eq, if_false, h eq, Ref.map_next]

/-- In a group the last of several binders with one name counts, and it keeps its place
    because the new names are different. -/
theorem Redirects.bindAll {us us' : List Name} (full : us'.length = us.length)
    (nodup : us'.Nodup) (apart : u ∉ us → s.target u ∉ us')
    (h : u ∉ us → s.Redirects σ xs ys u) :
    (s.bindAll (us.zip us')).Redirects σ (us.reverse ++ xs) (us'.reverse ++ ys) u := by
  unfold Redirects
  rw [← target_bindEach]
  induction us generalizing s xs ys us' with
  | nil =>
      obtain rfl := List.length_eq_zero_iff.mp full
      exact h List.not_mem_nil
  | cons x us ih =>
      obtain ⟨x', us', rfl⟩ := List.exists_cons_of_length_eq_add_one full
      obtain ⟨notin, nodup⟩ := List.nodup_cons.mp nodup
      simp only [List.reverse_cons, List.append_assoc, List.singleton_append]
      apply ih (Nat.succ.inj full) nodup
      · intro hu
        by_cases eq : u = x
        · simpa [target, eq] using notin
        · have away := apart (List.not_mem_cons_of_ne_of_not_mem eq hu)
          simpa [target, eq] using List.not_mem_of_not_mem_cons away
      · intro hu
        apply Redirects.bind
        · intro ne
          have away := apart (List.not_mem_cons_of_ne_of_not_mem ne hu)
          exact List.ne_of_not_mem_cons away
        · intro ne
          exact h (List.not_mem_cons_of_ne_of_not_mem ne hu)

end Scope

namespace Knf

/-! ## Substitution as a relation -/

/-- New names `xs'` for binders `xs` above code that uses the names `below`: they are
    different from each other and from what replaces the other names. -/
structure Avoids (s : Scope Name) (below xs xs' : List Name) : Prop where
  full : xs'.length = xs.length
  nodup : xs'.Nodup
  apart : ∀ u ∈ below, u ∉ xs → s.target u ∉ xs'

/-- The second code is the first one with its free names replaced as the scope says, and
    with bound names that capture none of them. -/
inductive Substitutes : Scope Name → Knf → Knf → Prop where
  | op {s o} : Substitutes s (.op o) (.op (o.map s.target))
  | branch {s test x y e1 e1' e2 e2'} : Substitutes s e1 e1' → Substitutes s e2 e2' →
      Substitutes s (.branch test x y e1 e2) (.branch test (s.target x) (s.target y) e1' e2')
  | letIn {s x x' ty e1 e1' e2 e2'} : Avoids s e2.freeVars [x] [x'] →
      Substitutes s e1 e1' → Substitutes (s.bind x x') e2 e2' →
      Substitutes s (.letIn x ty e1 e2) (.letIn x' ty e1' e2')
  | letRec {s f f' ty formals formals' body body' rest rest'} :
      formals'.map (·.2) = formals.map (·.2) →
      Avoids s (body.freeVars.filter (· ∉ formals.map (·.1)) ++ rest.freeVars) [f] [f'] →
      Avoids (s.bind f f') body.freeVars (formals.map (·.1)) (formals'.map (·.1)) →
      Substitutes ((s.bind f f').bindAll (renamed formals formals')) body body' →
      Substitutes (s.bind f f') rest rest' →
      Substitutes s (.letRec f ty formals body rest) (.letRec f' ty formals' body' rest')
  | app {s f xs} : Substitutes s (.app f xs) (.app (s.target f) (xs.map s.target))
  | letTuple {s pattern pattern' y e e'} :
      pattern'.map (·.2) = pattern.map (·.2) →
      Avoids s e.freeVars (pattern.map (·.1)) (pattern'.map (·.1)) →
      Substitutes (s.bindAll (renamed pattern pattern')) e e' →
      Substitutes s (.letTuple pattern y e) (.letTuple pattern' (s.target y) e')
  | externApp {s f xs} : Substitutes s (.externApp f xs) (.externApp f (xs.map s.target))

section
variable {s : Scope Name} {σ : Name → Name} {xs ys us us' : List Name} {u x x' : Name}
  {below : List Name}

theorem Avoids.redirects (h : Avoids s below us us') (hu : u ∈ below)
    (redirects : u ∉ us → s.Redirects σ xs ys u) :
    (s.bindAll (us.zip us')).Redirects σ (us.reverse ++ xs) (us'.reverse ++ ys) u :=
  .bindAll h.full h.nodup (h.apart u hu) redirects

theorem Avoids.redirects_one (h : Avoids s below [x] [x']) (hu : u ∈ below)
    (redirects : u ≠ x → s.Redirects σ xs ys u) :
    (s.bind x x').Redirects σ (x :: xs) (x' :: ys) u :=
  h.redirects hu fun notin => redirects (List.ne_of_not_mem_cons notin)

theorem map_resolve_eq {us : List Name} (h : ∀ u ∈ us, s.Redirects σ xs ys u) :
    (us.map s.target).map (Ref.resolve ys) = (us.map (Ref.resolve xs)).map (Ref.map σ) := by
  rw [List.map_map, List.map_map]
  exact List.map_congr_left h

/-- Substitution goes through the nameless form: it replaces the free names there. -/
theorem Substitutes.namelessIn_eq {e e' : Knf} (h : Substitutes s e e')
    (redirects : ∀ u ∈ e.freeVars, s.Redirects σ xs ys u) :
    e'.namelessIn ys = (e.namelessIn xs).map σ := by
  induction h generalizing xs ys with
  | @op s o =>
      have form : ((o.map s.target).map fun _ => "") = o.map fun _ => "" := Op.map_map ..
      have operands : (o.names.map s.target).map (Ref.resolve ys) = _ := map_resolve_eq redirects
      simp only [namelessIn, Nameless.map, form, Op.names_map, operands]
  | branch _ _ ih1 ih2 =>
      simp only [freeVars, List.forall_mem_cons, List.forall_mem_append] at redirects
      obtain ⟨first, second, yes, no⟩ := redirects
      rw [Scope.Redirects] at first second
      simp only [namelessIn, Nameless.map, first, second, ih1 yes, ih2 no]
  | letIn avoids _ _ ih1 ih2 =>
      simp only [freeVars, List.forall_mem_append, List.mem_filter, decide_eq_true_eq]
        at redirects
      have body := ih2 fun u hu => avoids.redirects_one hu fun ne => redirects.2 u ⟨hu, ne⟩
      simp only [namelessIn, Nameless.map, ih1 redirects.1, body]
  | @letRec s f f' ty formals formals' body body' rest rest' types own inner _ _ ih1 ih2 =>
      simp only [freeVars, List.mem_filter, decide_eq_true_eq] at redirects
      have outer : ∀ u ∈ body.freeVars.filter (· ∉ formals.map (·.1)) ++ rest.freeVars,
          (s.bind f f').Redirects σ (f :: xs) (f' :: ys) u := by
        intro u hu
        exact own.redirects_one hu fun ne => redirects u ⟨hu, ne⟩
      simp only [List.forall_mem_append, List.mem_filter, decide_eq_true_eq] at outer
      have inBody := ih1 fun u hu => inner.redirects hu fun notin => outer.1 u ⟨hu, notin⟩
      simp only [namelessIn, Nameless.map, types, inBody, ih2 outer.2]
  | app =>
      simp only [freeVars, List.forall_mem_cons] at redirects
      have function := redirects.1
      rw [Scope.Redirects] at function
      simp only [namelessIn, Nameless.map, function, map_resolve_eq redirects.2]
  | letTuple types avoids _ ih =>
      simp only [freeVars, List.forall_mem_cons, List.mem_filter, decide_eq_true_eq] at redirects
      have tuple := redirects.1
      rw [Scope.Redirects] at tuple
      have body := ih fun u hu => avoids.redirects hu fun notin => redirects.2 u ⟨hu, notin⟩
      simp only [namelessIn, Nameless.map, types, tuple, body]
  | @externApp s f us =>
      have args : (us.map s.target).map (Ref.resolve ys) = _ := map_resolve_eq redirects
      simp only [namelessIn, Nameless.map, args]

end

theorem Substitutes.nameless_eq {s : Scope Name} {e e' : Knf} (h : Substitutes s e e') :
    e'.nameless = e.nameless.map s.target :=
  h.namelessIn_eq fun _ _ => rfl

/-- The free names of the result are what replaces the free names. -/
theorem Substitutes.freeVars_eq {s : Scope Name} {e e' : Knf} (h : Substitutes s e e') :
    e'.freeVars = e.freeVars.map s.target := by
  rw [← freeNames_nameless, h.nameless_eq, Nameless.freeNames_map, freeNames_nameless]

/-! ## Substitution that keeps names -/

end Knf

/-- The name, made longer if it is one of the names to avoid. -/
def Name.avoiding (taken : List Name) (x : Name) : Name :=
  if x ∈ taken then
    x ++ String.ofList (List.replicate ((taken.map String.length).sum + 1) '_')
  else x

theorem Name.avoiding_notMem (taken : List Name) (x : Name) : x.avoiding taken ∉ taken := by
  unfold avoiding
  split
  case isTrue =>
      intro mem
      have shorter := List.le_sum_of_mem (List.mem_map_of_mem (f := String.length) mem)
      simp only [String.length_append, String.length_ofList, List.length_replicate] at shorter
      omega
  case isFalse free => exact free

namespace Knf

/-- Names for a group of binders, different from each other and from the names to avoid. -/
def avoidEach (taken : List Name) : List (Name × Mono) → List (Name × Mono)
  | [] => []
  | (x, ty) :: rest => (x.avoiding taken, ty) :: avoidEach (x.avoiding taken :: taken) rest

/-- Replace the free names of code as the scope says, all at once.  A binder gets another name
    only if its name is put in for a free name below it, or is bound again in its group. -/
def substitute (s : Scope Name) : Knf → Knf
  | .op o => .op (o.map s.target)
  | .branch test x y e1 e2 =>
      .branch test (s.target x) (s.target y) (e1.substitute s) (e2.substitute s)
  | .letIn x ty e1 e2 =>
      let x' := x.avoiding ((e2.freeVars.filter (· ≠ x)).map s.target)
      .letIn x' ty (e1.substitute s) (e2.substitute (s.bind x x'))
  | .letRec f ty formals body rest =>
      let f' := f.avoiding ((Knf.letRec f ty formals body rest).freeVars.map s.target)
      let inner := s.bind f f'
      let formals' := avoidEach
        ((body.freeVars.filter (· ∉ formals.map (·.1))).map inner.target) formals
      .letRec f' ty formals' (body.substitute (inner.bindAll (renamed formals formals')))
        (rest.substitute inner)
  | .app f xs => .app (s.target f) (xs.map s.target)
  | .letTuple pattern y e =>
      let pattern' := avoidEach
        ((e.freeVars.filter (· ∉ pattern.map (·.1))).map s.target) pattern
      .letTuple pattern' (s.target y) (e.substitute (s.bindAll (renamed pattern pattern')))
  | .externApp f xs => .externApp f (xs.map s.target)

theorem avoidEach_types (taken : List Name) (bs : List (Name × Mono)) :
    (avoidEach taken bs).map (·.2) = bs.map (·.2) := by
  induction bs generalizing taken with
  | nil => rfl
  | cons b bs ih => simp only [avoidEach, List.map_cons, ih]

theorem avoidEach_new (taken : List Name) (bs : List (Name × Mono)) :
    ((avoidEach taken bs).map (·.1)).Nodup ∧ ∀ y ∈ (avoidEach taken bs).map (·.1), y ∉ taken := by
  induction bs generalizing taken with
  | nil => simp [avoidEach]
  | cons b bs ih =>
      have later := ih (b.1.avoiding taken :: taken)
      have first := b.1.avoiding_notMem taken
      simp only [avoidEach, List.map_cons, List.nodup_cons, List.forall_mem_cons]
      grind

theorem avoids_avoiding (s : Scope Name) (below : List Name) (x : Name) :
    Avoids s below [x] [x.avoiding ((below.filter (· ≠ x)).map s.target)] := by
  refine ⟨rfl, List.nodup_singleton _, ?_⟩
  intro u hu ne mem
  have taken := Name.avoiding_notMem ((below.filter (· ≠ x)).map s.target) x
  apply taken
  rw [← List.mem_singleton.mp mem]
  apply List.mem_map_of_mem
  simpa [hu] using ne

theorem avoids_avoidEach (s : Scope Name) (below : List Name) (bs : List (Name × Mono)) :
    Avoids s below (bs.map (·.1))
      ((avoidEach ((below.filter (· ∉ bs.map (·.1))).map s.target) bs).map (·.1)) := by
  obtain ⟨nodup, new⟩ := avoidEach_new ((below.filter (· ∉ bs.map (·.1))).map s.target) bs
  refine ⟨?_, nodup, ?_⟩
  · exact length_map_fst_eq (avoidEach_types _ bs)
  · intro u hu notin mem
    apply new _ mem
    apply List.mem_map_of_mem
    simpa [hu] using notin

theorem substitutes_substitute (s : Scope Name) (e : Knf) : Substitutes s e (e.substitute s) := by
  induction e generalizing s with
  | op o => exact .op
  | branch test x y e1 e2 ih1 ih2 => exact .branch (ih1 s) (ih2 s)
  | letIn x ty e1 e2 ih1 ih2 => exact .letIn (avoids_avoiding s _ x) (ih1 s) (ih2 _)
  | letRec f ty formals body rest ih1 ih2 =>
      exact .letRec (avoidEach_types _ _) (avoids_avoiding s _ f) (avoids_avoidEach _ _ formals)
        (ih1 _) (ih2 _)
  | app f xs => exact .app
  | letTuple pattern y e ih =>
      exact .letTuple (avoidEach_types _ _) (avoids_avoidEach s _ pattern) (ih _)
  | externApp f xs => exact .externApp

/-! ## Renaming with names from a supply -/

/-- Names that can be given to the binders of code which uses the names `below`: they are
    different from each other and from what replaces these. -/
structure Unused (s : Scope Name) (below zs : List Name) : Prop where
  nodup : zs.Nodup
  apart : ∀ u ∈ below, s.target u ∉ zs

section
variable {s : Scope Name} {below below' us us' zs zs' : List Name} {x x' : Name}

theorem Unused.mono (h : Unused s below zs) (fewer : below' ⊆ below) (sub : zs'.Sublist zs) :
    Unused s below' zs' :=
  ⟨h.nodup.sublist sub, fun u hu mem => h.apart u (fewer hu) (sub.subset mem)⟩

theorem Unused.avoids (h : Unused s (below.filter (· ∉ us)) (us' ++ zs))
    (full : us'.length = us.length) : Avoids s below us us' := by
  refine ⟨full, (List.nodup_append.mp h.nodup).1, ?_⟩
  intro u hu notin mem
  exact h.apart u (List.mem_filter.mpr ⟨hu, decide_eq_true notin⟩) (List.mem_append_left zs mem)

/-- Below a group that has got its names, the other names are still unused. -/
theorem Unused.enter (h : Unused s (below.filter (· ∉ us)) (us' ++ zs))
    (full : us'.length = us.length) : Unused (s.bindAll (us.zip us')) below zs := by
  obtain ⟨-, nodup, disjoint⟩ := List.nodup_append.mp h.nodup
  refine ⟨nodup, ?_⟩
  intro u hu mem
  have given : u ∈ us ∨ s.target u ∉ us' ++ zs := by
    rw [or_iff_not_imp_left]
    intro notin
    exact h.apart u (List.mem_filter.mpr ⟨hu, decide_eq_true notin⟩)
  rcases target_bindAll_or (P := (· ∉ us' ++ zs)) full given with new | old
  · exact disjoint _ new _ mem rfl
  · exact old (List.mem_append_right us' mem)

/-- Renaming with names that are unused is a substitution. -/
theorem substitutes_freshened {e : Knf} {c : Supply}
    (unused : Unused s e.freeVars (c.names e.binders)) : Substitutes s e (e.freshened s c) := by
  induction e generalizing s c with
  | op o => exact .op
  | branch test x y e1 e2 ih1 ih2 =>
      rw [binders, Supply.names_append] at unused
      apply Substitutes.branch
      · exact ih1 (unused.mono (by grind [freeVars]) (List.sublist_append_left ..))
      · exact ih2 (unused.mono (by grind [freeVars]) (List.sublist_append_right ..))
  | letIn x ty e1 e2 ih1 ih2 =>
      rw [binders, Supply.names, Supply.names_append, Supply.skip_skip] at unused
      have own : Unused s (e2.freeVars.filter (· ∉ [x]))
          ([c.name x] ++ (c.skip (1 + e1.binders.length)).names e2.binders) :=
        unused.mono (by grind [freeVars]) ((List.sublist_append_right ..).cons_cons _)
      have bound : Unused s e1.freeVars ((c.skip 1).names e1.binders) :=
        unused.mono (by grind [freeVars]) ((List.sublist_append_left ..).cons _)
      exact .letIn (own.avoids rfl) (ih1 bound) (ih2 (own.enter rfl))
  | letRec f ty formals body rest ih1 ih2 =>
      rw [binders, Supply.names, Supply.names_append, Supply.names_append, Supply.skip_skip,
        Supply.skip_skip, List.length_map] at unused
      have own : Unused s
          ((body.freeVars.filter (· ∉ formals.map (·.1)) ++ rest.freeVars).filter (· ∉ [f]))
          ([c.name f] ++ ((c.skip 1).names (formals.map (·.1)) ++ (_ ++ _))) :=
        unused.mono (by grind [freeVars]) (.refl _)
      have outer : Unused (s.bind f (c.name f)) _ _ := own.enter rfl
      have inner : Unused (s.bind f (c.name f)) (body.freeVars.filter (· ∉ formals.map (·.1)))
          ((drawEach (c.skip 1) formals).map (·.1) ++
            (c.skip (1 + formals.length)).names body.binders) := by
        rw [drawEach_names]
        exact outer.mono (by simp) ((List.sublist_append_left ..).append_left _)
      have full : ((drawEach (c.skip 1) formals).map (·.1)).length = (formals.map (·.1)).length :=
        length_map_fst_eq (drawEach_types _ formals)
      apply Substitutes.letRec (drawEach_types _ formals) (own.avoids rfl) (inner.avoids full)
      · exact ih1 (inner.enter full)
      · apply ih2
        exact outer.mono (by simp)
          ((List.sublist_append_right ..).trans (List.sublist_append_right ..))
  | app f xs => exact .app
  | letTuple pattern y e ih =>
      rw [binders, Supply.names_append, List.length_map, ← drawEach_names] at unused
      have own : Unused s (e.freeVars.filter (· ∉ pattern.map (·.1))) _ :=
        unused.mono (by grind [freeVars]) (.refl _)
      have full : ((drawEach c pattern).map (·.1)).length = (pattern.map (·.1)).length :=
        length_map_fst_eq (drawEach_types _ pattern)
      exact .letTuple (drawEach_types _ pattern) (own.avoids full) (ih (own.enter full))
  | externApp f xs => exact .externApp

theorem substitutes_freshenIn {e : Knf} {c : Supply} (names : e.binders.length ≤ 2 ^ 32)
    (apart : ∀ u ∈ e.freeVars, ¬ c.Ahead e.binders.length (s.target u)) :
    Substitutes s e ((e.freshenIn s).run c).1 := by
  rw [freshenIn_run]
  apply substitutes_freshened
  exact ⟨c.nodup_names names, fun u hu mem => apart u hu (Supply.ahead_of_mem_names mem)⟩

end

/-- Renaming in a scope is simultaneous substitution without capture, for all code, all scopes
    and every state of the supply, if no name that is put in has the number of one of the names
    that are drawn, as is so if the count has reached the numbers of these names and does not
    start again from zero (`Supply.Reaches.not_ahead`): the result is equal to the substituted
    code up to bound names, its nameless form is that of the code with the free names replaced,
    and its free names are what replaces those of the code. -/
theorem freshenIn_substitutes (s : Scope Name) (e : Knf) (c : Supply)
    (names : e.binders.length ≤ 2 ^ 32)
    (apart : ∀ x ∈ e.freeVars, ¬ c.Ahead e.binders.length (s.target x)) :
    let r := ((e.freshenIn s).run c).1
    r.alphaEq (e.substitute s) = true ∧ r.nameless = e.nameless.map s.target ∧
      r.freeVars = e.freeVars.map s.target := by
  intro r
  have renamed : Substitutes s e r := substitutes_freshenIn names apart
  have spec := substitutes_substitute s e
  refine ⟨?_, renamed.nameless_eq, renamed.freeVars_eq⟩
  rw [alphaEq_iff, renamed.nameless_eq, spec.nameless_eq]

/-- Code that binds names again at each kind of binder and twice in a group, and that uses three
    names which it does not bind there. -/
def rebinding : Knf :=
  .letRec "x" (.fn [.int, .int] .int) [("x", .int), ("x", .int)]
    (.letIn "x.2" .int (.op (.arith (.int .add) "x" "x")) (.app "f" ["x.2", "x"]))
    (.letTuple [("x", .int), ("y", .int), ("x", .int)] "t"
      (.letIn "y" .int (.app "x" ["y", "x.2"]) (.op (.arith (.int .add) "x" "y"))))

/-- The names that are put in are names that the code binds. -/
theorem freshenIn_rebinding :
    let s := Scope.empty.bindAll [("f", "x"), ("t", "x"), ("x.2", "y")]
    2 + rebinding.binders.length < 2 ^ 32 ∧
      (∀ x ∈ rebinding.freeVars, Supply.Reaches ⟨2⟩ x ∧ Supply.Reaches ⟨2⟩ (s.target x)) ∧
      ((rebinding.freshenIn s).run ⟨2⟩).1.alphaEq (rebinding.substitute s) = true ∧
      ((rebinding.freshenIn s).run ⟨2⟩).1.freeVars = rebinding.freeVars.map s.target := by
  intro s
  have room : 2 + rebinding.binders.length < 2 ^ 32 := by decide
  have reached : ∀ x ∈ rebinding.freeVars,
      Supply.Reaches ⟨2⟩ x ∧ Supply.Reaches ⟨2⟩ (s.target x) := by decide +kernel
  have substitutes := freshenIn_substitutes s rebinding ⟨2⟩ (by decide)
    fun x used => (reached x used).2.not_ahead room
  exact ⟨room, reached, substitutes.1, substitutes.2.2⟩

def lookingPast : Knf :=
  .letIn "x" .int (.op (.int 1)) (.op (.var "y"))

/-- Where the count starts again from zero, a name that is put in can be captured, although the
    count had reached the numbers of all names. -/
theorem freshenIn_lookingPast :
    let s := Scope.empty.bind "y" "x.0"
    let r := ((lookingPast.freshenIn s).run ⟨4294967295⟩).1
    (∀ x ∈ lookingPast.freeVars,
        Supply.Reaches ⟨4294967295⟩ x ∧ Supply.Reaches ⟨4294967295⟩ (s.target x)) ∧
      r = .letIn "x.0" .int (.op (.int 1)) (.op (.var "x.0")) ∧
      r.alphaEq (lookingPast.substitute s) = false ∧
      r.freeVars = [] ∧ lookingPast.freeVars.map s.target = ["x.0"] := by
  decide +kernel

/-- Renaming changes nothing but bound names, for all code and every state of the supply, if no
    free name has the number of one of the names that are drawn: the result is equal to the code
    up to bound names and has the same free names, its binders are different, and none of them
    is a free name. -/
theorem freshen_only_renames (e : Knf) (c : Supply) (names : e.binders.length ≤ 2 ^ 32)
    (apart : ∀ x ∈ e.freeVars, ¬ c.Ahead e.binders.length x) :
    let r := (e.freshen.run c).1
    r.alphaEq e = true ∧ r.freeVars = e.freeVars ∧ r.binders.Nodup ∧
      ∀ x ∈ r.binders, x ∉ r.freeVars := by
  intro r
  have renamed : Substitutes .empty e r := substitutes_freshenIn names apart
  have target : Scope.empty.target = id := rfl
  have free : r.freeVars = e.freeVars := by
    rw [renamed.freeVars_eq, target, List.map_id]
  have run : r = e.freshened .empty c := congrArg Prod.fst (freshenIn_run .empty e c)
  have drawn : r.binders = c.names e.binders := by rw [run, binders_freshened]
  refine ⟨?_, free, drawn ▸ c.nodup_names names, ?_⟩
  · rw [alphaEq_iff, renamed.nameless_eq, target, Nameless.map_id]
  · intro x bound used
    rw [drawn] at bound
    rw [free] at used
    exact apart x used (Supply.ahead_of_mem_names bound)

theorem freshen_rebinding :
    rebinding.binders.length ≤ 2 ^ 32 ∧
      (∀ x ∈ rebinding.freeVars, ¬ Supply.Ahead ⟨2⟩ rebinding.binders.length x) ∧
      (rebinding.freshen.run ⟨2⟩).1.alphaEq rebinding = true ∧
      (rebinding.freshen.run ⟨2⟩).1.freeVars = rebinding.freeVars ∧
      (rebinding.freshen.run ⟨2⟩).1.binders.Nodup := by
  have names : rebinding.binders.length ≤ 2 ^ 32 := by decide
  have apart : ∀ x ∈ rebinding.freeVars, ¬ Supply.Ahead ⟨2⟩ rebinding.binders.length x := by
    decide +kernel
  obtain ⟨same, free, nodup, -⟩ := freshen_only_renames rebinding ⟨2⟩ names apart
  exact ⟨names, apart, same, free, nodup⟩

end Knf

end MiddleEnd
