import Mathlib
import MiddleEnd.Knf.DeadBindings
import MiddleEnd.Proofs.Knf.Drawing
import MiddleEnd.Proofs.Knf.Improvement

/-! # The rewrites improve code

Each rewrite of K-normal code makes changes that `Improves` allows.  Renaming may
be applied to any code, and so may dropping dead bindings; the other rewrites need
binders that are different from each other and from all names in force, which is
what renaming leaves.
-/

namespace MiddleEnd

theorem Scope.target_bindEach (s : Scope Name) (pairs : List (Name × Name)) :
    (s.bindEach pairs).target = (s.bindAll pairs).target := by
  funext x
  rw [Scope.target, Scope.get?_bindEach, ← Scope.target]

/-- To replace a name by itself changes nothing. -/
theorem Scope.target_bind_self {s : Scope Name} {x : Name} (h : s.get? x = none) :
    (s.bind x x).target = s.target := by
  funext a
  rw [Scope.target, Scope.target, Scope.get?_bind]
  split
  case isTrue eq => rw [eq, h]; rfl
  case isFalse => rfl

namespace Knf

theorem OpImproves.refl {Φ : Context} {o : Op} (h : ∀ x ∈ o.names, Φ.Means x (.var x)) :
    OpImproves Φ o o := by
  have step : OpImproves Φ o (o.map id) := .renamed h
  rwa [Op.map_id] at step

namespace Context

variable {Φ : Context}

/-! ## What binding names leaves as it is -/

@[simp] theorem before_learnCode {x : Name} (e : Knf) : (Φ.learnCode x e).before = Φ.before := by
  unfold learnCode
  split
  · split <;> rfl
  · rfl

@[simp] theorem after_learnCode {x : Name} (e : Knf) : (Φ.learnCode x e).after = Φ.after := by
  unfold learnCode
  split
  · split <;> rfl
  · rfl

theorem fact_learnCode {x a : Name} {o : Op} (e : Knf) (h : Φ.fact a o) :
    (Φ.learnCode x e).fact a o := by
  unfold learnCode
  split
  · split
    · exact .inl h
    · exact h
  · exact h

@[simp] theorem function_learnCode {x : Name} (e : Knf) :
    (Φ.learnCode x e).function = Φ.function := by
  unfold learnCode
  split
  · split <;> rfl
  · rfl

@[simp] theorem before_bindTo {x y a : Name} {e : Knf} :
    (Φ.bindTo x y e).before a ↔ a = x ∨ Φ.before a := by
  simp [bindTo, learn, bindAfter, bindBefore]

@[simp] theorem after_bindTo {x y a : Name} {e : Knf} :
    (Φ.bindTo x y e).after a ↔ a = y ∨ Φ.after a := by
  simp [bindTo, learn, bindAfter, bindBefore]

theorem fact_bindTo {x y a : Name} {o : Op} {e : Knf} (hf : Φ.fact a o) (ne : a ≠ x)
    (hy : ¬ Φ.after y) : (Φ.bindTo x y e).fact a o := by
  refine .inl ⟨fact_learnCode e ⟨ne, hf⟩, fun _ => ?_⟩
  simpa [bindBefore] using hy

theorem fact_bindTo_self {x y : Name} {e : Knf} : (Φ.bindTo x y e).fact x (.var y) :=
  .inr ⟨rfl, rfl⟩

theorem fact_bindTo_known {x y : Name} {o : Op} (ho : o.isKnown = true) (hy : ¬ Φ.after y) :
    (Φ.bindTo x y (.op o)).fact x o := by
  refine .inl ⟨?_, fun _ => by simpa [bindBefore] using hy⟩
  simp only [learnCode, ho, if_true]
  exact .inr ⟨rfl, rfl⟩

theorem function_bindTo {x y f : Name} {formals : List Name} {body e : Knf} {bound : Name → Prop}
    (hf : Φ.function f formals body bound) (ne : f ≠ x) (hx : ¬ bound x) :
    (Φ.bindTo x y e).function f formals body bound := by
  have kept : ((Φ.bindBefore x).learnCode x e).function f formals body bound := by
    rw [function_learnCode]
    exact ⟨hf, ne, hx⟩
  exact kept

theorem before_bindAfterEach (ys : List Name) : (Φ.bindAfterEach ys).before = Φ.before := by
  induction ys generalizing Φ with
  | nil => rfl
  | cons y ys ih => exact ih

/-! ## Names that are free to be bound -/

/-- The names are different, and none of them is bound after the change. -/
structure Fresh (Φ : Context) (ys : List Name) : Prop where
  nodup : ys.Nodup
  after : ∀ y ∈ ys, ¬ Φ.after y

namespace Fresh

variable {xs ys zs : List Name} {x y : Name} {e : Knf}

theorem of_subperm (h : Φ.Fresh ys) (sub : zs.Subperm ys) : Φ.Fresh zs := by
  obtain ⟨ws, perm, sublist⟩ := sub
  exact ⟨perm.nodup_iff.mp (h.nodup.sublist sublist),
    fun z hz => h.after z (sublist.subset (perm.mem_iff.mpr hz))⟩

theorem left (h : Φ.Fresh (ys ++ zs)) : Φ.Fresh ys :=
  h.of_subperm (List.sublist_append_left ys zs).subperm

theorem right (h : Φ.Fresh (ys ++ zs)) : Φ.Fresh zs :=
  h.of_subperm (List.sublist_append_right ys zs).subperm

theorem bindTo (h : Φ.Fresh (y :: zs)) : (Φ.bindTo x y e).Fresh zs := by
  obtain ⟨notin, nodup⟩ := List.nodup_cons.mp h.nodup
  refine ⟨nodup, fun z hz => ?_⟩
  rw [after_bindTo]
  rintro (rfl | bound)
  · exact notin hz
  · exact h.after z (List.mem_cons_of_mem _ hz) bound

theorem bind (h : Φ.Fresh (y :: zs)) : (Φ.bind x y).Fresh zs :=
  h.bindTo (e := .app x [])

theorem define (h : Φ.Fresh (y :: zs)) (formals : List Name) (body : Knf) :
    (Φ.define x y formals body).Fresh zs :=
  ⟨(h.bind (x := x)).nodup, (h.bind (x := x)).after⟩

theorem bindEach (h : Φ.Fresh (ys ++ zs)) : (Φ.bindEach (xs.zip ys)).Fresh zs := by
  induction xs generalizing Φ ys with
  | nil => exact h.right
  | cons x xs ih =>
      cases ys with
      | nil => exact h
      | cons y ys => exact ih h.bind

theorem bindAfterEach (h : Φ.Fresh (ys ++ zs)) : (Φ.bindAfterEach ys).Fresh zs := by
  induction ys generalizing Φ with
  | nil => exact h
  | cons y ys ih =>
      refine ih ⟨(List.nodup_cons.mp h.nodup).2, fun z hz => ?_⟩
      rintro (rfl | bound)
      · exact (List.nodup_cons.mp h.nodup).1 hz
      · exact h.after z (List.mem_cons_of_mem _ hz) bound

end Fresh

/-- The names are also not bound before the change. -/
structure New (Φ : Context) (ys : List Name) : Prop extends Φ.Fresh ys where
  before : ∀ y ∈ ys, ¬ Φ.before y

namespace New

variable {xs ys zs : List Name} {x y : Name} {e : Knf}

theorem of_subperm (h : Φ.New ys) (sub : zs.Subperm ys) : Φ.New zs :=
  ⟨h.toFresh.of_subperm sub, fun z hz => h.before z (sub.subset hz)⟩

theorem left (h : Φ.New (ys ++ zs)) : Φ.New ys :=
  h.of_subperm (List.sublist_append_left ys zs).subperm

theorem right (h : Φ.New (ys ++ zs)) : Φ.New zs :=
  h.of_subperm (List.sublist_append_right ys zs).subperm

theorem tail (h : Φ.New (y :: zs)) : Φ.New zs :=
  h.of_subperm (List.sublist_cons_self y zs).subperm

theorem bindTo (h : Φ.New (x :: zs)) : (Φ.bindTo x x e).New zs := by
  refine ⟨h.toFresh.bindTo, fun z hz => ?_⟩
  rw [before_bindTo]
  rintro (rfl | bound)
  · exact (List.nodup_cons.mp h.nodup).1 hz
  · exact h.tail.before z hz bound

theorem bind (h : Φ.New (x :: zs)) : (Φ.bind x x).New zs :=
  h.bindTo (e := .app x [])

theorem define (h : Φ.New (x :: zs)) (formals : List Name) (body : Knf) :
    (Φ.define x x formals body).New zs :=
  ⟨h.toFresh.define formals body, h.bind.before⟩

theorem bindEach (h : Φ.New (xs ++ zs)) : (Φ.bindEach (xs.zip xs)).New zs := by
  induction xs generalizing Φ with
  | nil => exact h
  | cons x xs ih => exact ih h.bind

theorem bindAfterEach (h : Φ.New (ys ++ zs)) : (Φ.bindAfterEach ys).New zs := by
  refine ⟨h.toFresh.bindAfterEach, ?_⟩
  rw [before_bindAfterEach]
  exact h.right.before

theorem replace (h : Φ.New (x :: zs)) : (Φ.replace x y).New zs := by
  refine ⟨⟨h.tail.nodup, h.tail.after⟩, fun z hz => ?_⟩
  rintro (rfl | bound)
  · exact (List.nodup_cons.mp h.nodup).1 hz
  · exact h.tail.before z hz bound

end New

/-- The scope speaks only of names in force. -/
def Covers {α : Type} (Φ : Context) (s : Scope α) : Prop :=
  ∀ a v, s.get? a = some v → Φ.before a

namespace Covers

variable {α : Type} {s : Scope α} {x y : Name} {ys zs : List Name}

theorem empty : Φ.Covers (.empty : Scope α) := by
  intro a v ha
  cases ha

/-- Nothing is said about a name that is to be bound. -/
theorem get?_eq_none (h : Φ.Covers s) (hx : ¬ Φ.before x) : s.get? x = none := by
  cases hs : s.get? x with
  | none => rfl
  | some v => exact absurd (h x v hs) hx

theorem bindTo (h : Φ.Covers s) (e : Knf) : (Φ.bindTo x y e).Covers s :=
  fun a v ha => before_bindTo.mpr (.inr (h a v ha))

theorem define (h : Φ.Covers s) (formals : List Name) (body : Knf) :
    (Φ.define x y formals body).Covers s :=
  fun a v ha => .inr (h a v ha)

theorem bindEach (h : Φ.Covers s) (pairs : List (Name × Name)) :
    (Φ.bindEach pairs).Covers s := by
  induction pairs generalizing Φ with
  | nil => exact h
  | cons p pairs ih => exact ih (h.bindTo (.app p.1 []))

theorem replace (h : Φ.Covers s) (a : α) : (Φ.replace x y).Covers (s.bind x a) := by
  intro b v hb
  rw [Scope.get?_bind] at hb
  split at hb
  case isTrue eq => exact .inl eq
  case isFalse => exact .inr (h b v hb)

end Covers

/-! ## Names in force and what replaces them -/

/-- Each name in force is replaced as the scope says. -/
def Tracks (Φ : Context) (s : Scope Name) : Prop :=
  ∀ x, Φ.Means x (.var (s.target x))

namespace Tracks

variable {s : Scope Name} {xs ys : List Name} {x y : Name}

theorem all (h : Φ.Tracks s) (xs : List Name) :
    List.Forall₂ (fun x x' => Φ.Means x (.var x')) xs (xs.map s.target) :=
  List.forall₂_map_right_iff.mpr (List.forall₂_same.mpr fun x _ => h x)

theorem congr {s' : Scope Name} (h : Φ.Tracks s) (same : s.target = s'.target) : Φ.Tracks s' := by
  intro x
  rw [← same]
  exact h x

theorem bindTo (h : Φ.Tracks s) (hy : ¬ Φ.after y) (e : Knf) :
    (Φ.bindTo x y e).Tracks (s.bind x y) := by
  intro a ha
  rw [Scope.target, Scope.get?_bind]
  by_cases eq : a = x
  · subst eq
    rw [if_pos rfl]
    exact fact_bindTo_self
  · rw [if_neg eq]
    exact fact_bindTo (h a ((before_bindTo.mp ha).resolve_left eq)) eq hy

theorem bind (h : Φ.Tracks s) (hy : ¬ Φ.after y) : (Φ.bind x y).Tracks (s.bind x y) :=
  h.bindTo hy (.app x [])

theorem define (h : Φ.Tracks s) (hy : ¬ Φ.after y) (formals : List Name) (body : Knf) :
    (Φ.define x y formals body).Tracks (s.bind x y) :=
  h.bind hy

theorem bindEach (h : Φ.Tracks s) (hys : Φ.Fresh ys) :
    (Φ.bindEach (xs.zip ys)).Tracks (s.bindAll (xs.zip ys)) := by
  refine congr ?_ (Scope.target_bindEach s (xs.zip ys))
  induction xs generalizing Φ s ys with
  | nil => exact h
  | cons x xs ih =>
      cases ys with
      | nil => exact h
      | cons y ys => exact ih (h.bind (hys.after y (List.mem_cons_self ..))) hys.bind

/-- A binder that keeps its name. -/
theorem keep (h : Φ.Tracks s) (hx : Φ.New (x :: ys)) (covers : Φ.Covers s) (e : Knf) :
    (Φ.bindTo x x e).Tracks s := by
  have unbound := covers.get?_eq_none (hx.before x (List.mem_cons_self ..))
  exact (h.bindTo (hx.after x (List.mem_cons_self ..)) e).congr (Scope.target_bind_self unbound)

theorem keepDefined (h : Φ.Tracks s) (hx : Φ.New (x :: ys)) (covers : Φ.Covers s)
    (formals : List Name) (body : Knf) : (Φ.define x x formals body).Tracks s :=
  h.keep hx covers (.app x [])

theorem keepEach (h : Φ.Tracks s) (hxs : Φ.New (xs ++ ys)) (covers : Φ.Covers s) :
    (Φ.bindEach (xs.zip xs)).Tracks s := by
  induction xs generalizing Φ with
  | nil => exact h
  | cons x xs ih => exact ih (h.keep hxs covers (.app x [])) hxs.bind (covers.bindTo (.app x []))

theorem bindAfterEach (h : Φ.Tracks s) (hys : Φ.Fresh ys) : (Φ.bindAfterEach ys).Tracks s := by
  induction ys generalizing Φ with
  | nil => exact h
  | cons y ys ih =>
      have step : Φ.Fresh ([y] ++ ys) := hys
      refine ih (fun a ha => ⟨h a ha, fun _ => hys.after y (List.mem_cons_self ..)⟩) ?_
      exact step.bindAfterEach

theorem replace (h : Φ.Tracks s) : (Φ.replace x y).Tracks (s.bind x y) := by
  intro a ha
  rw [Scope.target, Scope.get?_bind]
  by_cases eq : a = x
  · subst eq
    rw [if_pos rfl]
    exact .inr ⟨rfl, rfl⟩
  · rw [if_neg eq]
    exact .inl ⟨eq, h a (ha.resolve_left eq)⟩

theorem replaceEach (h : Φ.Tracks s) (pairs : List (Name × Name)) :
    (Φ.replaceEach pairs).Tracks (s.bindAll pairs) := by
  refine congr ?_ (Scope.target_bindEach s pairs)
  induction pairs generalizing Φ s with
  | nil => exact h
  | cons p pairs ih => exact ih h.replace

end Tracks

theorem after_replaceEach (pairs : List (Name × Name)) :
    (Φ.replaceEach pairs).after = Φ.after := by
  induction pairs generalizing Φ with
  | nil => rfl
  | cons p pairs ih => exact ih

end Context

/-! ## Renaming -/

/-- Renaming improves any code, if the drawn names are different and not in use. -/
theorem improves_freshened (e : Knf) {i : Bool} {Φ : Context} {s : Scope Name} {c : Supply}
    (tracks : Φ.Tracks s) (fresh : Φ.Fresh (c.names e.binders)) :
    Improves i Φ e (e.freshened s c) := by
  induction e generalizing i Φ s c with
  | op o => exact .op (.renamed fun x _ => tracks x)
  | branch test x y e1 e2 ih1 ih2 =>
      rw [binders, Supply.names_append] at fresh
      exact .branch (tracks x) (tracks y) (ih1 tracks fresh.left) (ih2 tracks fresh.right)
  | letIn x ty e1 e2 ih1 ih2 =>
      rw [binders, Supply.names, Supply.names_append, Supply.skip_skip] at fresh
      refine .letIn (ih1 tracks (fresh.of_subperm ?_)) (ih2 (tracks.bindTo ?_ _) ?_)
      · exact ((List.sublist_append_left _ _).cons _).subperm
      · exact fresh.after _ (List.mem_cons_self ..)
      · exact fresh.bindTo.right
  | letRec f ty formals body rest ih1 ih2 =>
      rw [binders, Supply.names, Supply.names_append, Supply.names_append, Supply.skip_skip,
        Supply.skip_skip, List.length_map] at fresh
      have unused := fresh.after _ (List.mem_cons_self ..)
      have inner := fresh.define (x := f) (formals.map (·.1)) body
      refine .letRec (drawEach_types _ _).symm (ih1 ?_ ?_) (ih2 (tracks.define unused _ _) ?_)
      · refine (tracks.define unused _ _).bindEach ?_
        rw [drawEach_names]
        exact inner.left
      · rw [drawEach_names]
        exact inner.bindEach.left
      · exact inner.right.right
  | app f xs => exact .app (tracks f) (tracks.all xs)
  | letTuple pattern y e ih =>
      rw [binders, Supply.names_append, List.length_map] at fresh
      refine .letTuple (drawEach_types _ _).symm (tracks y) (ih ?_ ?_)
      · refine tracks.bindEach ?_
        rw [drawEach_names]
        exact fresh.left
      · rw [drawEach_names]
        exact fresh.bindEach
  | externApp f xs => exact .externApp (tracks.all xs)

/-! ## Copies -/

theorem improves_dropCopiesIn (e : Knf) {i : Bool} {Φ : Context} {s : Scope Name}
    (tracks : Φ.Tracks s) (covers : Φ.Covers s) (new : Φ.New e.binders) :
    Improves i Φ e (e.dropCopiesIn s) := by
  induction e generalizing i Φ s with
  | op o => exact .op (.renamed fun x _ => tracks x)
  | branch test x y e1 e2 ih1 ih2 =>
      exact .branch (tracks x) (tracks y) (ih1 tracks covers new.left) (ih2 tracks covers new.right)
  | letIn x ty e1 e2 ih1 ih2 =>
      have first := ih1 (i := i) tracks covers new.tail.left
      rw [dropCopiesIn]
      split
      case h_1 y eq =>
          rw [eq] at first
          exact .copy first (ih2 tracks.replace (covers.replace y) new.replace.right)
      case h_2 =>
          exact .letIn first (ih2 (tracks.keep new covers _) (covers.bindTo _) new.bindTo.right)
  | letRec f ty formals body rest ih1 ih2 =>
      have inner := new.define (formals.map (·.1)) body
      have tracks' := tracks.keepDefined new covers (formals.map (·.1)) body
      have covers' := covers.define (x := f) (y := f) (formals.map (·.1)) body
      refine .letRec rfl (ih1 ?_ ?_ ?_) (ih2 tracks' covers' inner.right.right)
      · exact tracks'.keepEach inner covers'
      · exact covers'.bindEach _
      · exact inner.bindEach.left
  | app f xs => exact .app (tracks f) (tracks.all xs)
  | letTuple pattern y e ih =>
      exact .letTuple rfl (tracks y)
        (ih (tracks.keepEach new covers) (covers.bindEach _) new.bindEach)
  | externApp f xs => exact .externApp (tracks.all xs)

/-! ## Flat bindings -/

theorem leading_sublist (e : Knf) : e.leading.Sublist e.binders := by
  induction e with
  | op | app | externApp => exact .refl _
  | branch => exact List.nil_sublist _
  | letIn x ty e1 e2 _ ih => exact .cons_cons _ (ih.trans (List.sublist_append_right _ _))
  | letRec f ty formals body rest _ ih =>
      refine .cons_cons _ (ih.trans ?_)
      exact (List.sublist_append_right _ _).trans (List.sublist_append_right _ _)
  | letTuple pattern y e ih => exact ih.append_left _

theorem improves_flatten (e : Knf) {i : Bool} {Φ : Context} (tracks : Φ.Tracks .empty)
    (new : Φ.New e.binders) : Improves i Φ e e.flatten := by
  induction e generalizing i Φ with
  | op o =>
      exact .op (.refl fun x _ => tracks x)
  | branch test x y e1 e2 ih1 ih2 =>
      exact .branch (tracks x) (tracks y) (ih1 tracks new.left) (ih2 tracks new.right)
  | letIn x ty e1 e2 ih1 ih2 =>
      have moved : (e1.flatten.leading ++ x :: e2.binders).Subperm
          (x :: (e1.binders ++ e2.binders)) := by
        have part : e1.flatten.leading.Subperm e1.binders :=
          (leading_sublist _).subperm.trans (binders_flatten e1).subperm
        refine List.perm_middle.subperm.trans ((List.subperm_cons x).mpr ?_)
        exact (List.subperm_append_right e2.binders).mpr part
      have outer := new.of_subperm moved
      have tracks' := tracks.bindAfterEach outer.toFresh.left
      refine .hoist (ih1 tracks new.tail.left) (ih2 ?_ outer.bindAfterEach.bind)
      exact tracks'.keep outer.bindAfterEach .empty (.app x [])
  | letRec f ty formals body rest ih1 ih2 =>
      have inner := new.define (formals.map (·.1)) body
      have tracks' := tracks.keepDefined new .empty (formals.map (·.1)) body
      refine .letRec rfl (ih1 ?_ inner.bindEach.left) (ih2 tracks' inner.right.right)
      exact tracks'.keepEach inner .empty
  | app f xs => exact .app (tracks f) (List.forall₂_same.mpr fun x _ => tracks x)
  | letTuple pattern y e ih =>
      exact .letTuple rfl (tracks y) (ih (tracks.keepEach new .empty) new.bindEach)
  | externApp f xs => exact .externApp (List.forall₂_same.mpr fun x _ => tracks x)

/-! ## Expansion of calls -/

/-- The candidates for expansion are functions in force, defined where only names were
    bound that are still in force. -/
def Context.Offers (Φ : Context) (s : Scope Candidate) : Prop :=
  ∀ f k, s.get? f = some k → Φ.before f ∧
    ∃ bound, Φ.function f k.formals k.body bound ∧ ∀ a, bound a → Φ.before a

namespace Context.Offers

variable {Φ : Context} {s : Scope Candidate} {x : Name} {xs zs : List Name}

theorem empty : Φ.Offers .empty := by
  intro f k found
  cases found

theorem bindTo (h : Φ.Offers s) (new : Φ.New (x :: zs)) (e : Knf) :
    (Φ.bindTo x x e).Offers s := by
  intro f k hf
  have unbound := new.before x (List.mem_cons_self ..)
  obtain ⟨present, bound, hk, inside⟩ := h f k hf
  refine ⟨before_bindTo.mpr (.inr present), bound, function_bindTo hk ?_ ?_, ?_⟩
  · exact fun eq => unbound (eq ▸ present)
  · exact fun hx => unbound (inside x hx)
  · exact fun a ha => before_bindTo.mpr (.inr (inside a ha))

theorem bindEach (h : Φ.Offers s) (new : Φ.New (xs ++ zs)) :
    (Φ.bindEach (xs.zip xs)).Offers s := by
  induction xs generalizing Φ with
  | nil => exact h
  | cons x xs ih => exact ih (h.bindTo new (.app x [])) new.bind

/-- A function that is defined becomes a candidate if it is small. -/
theorem define (h : Φ.Offers s) (threshold : Nat) {f : Name} (new : Φ.New (f :: zs))
    (formals : List (Name × Mono)) (body : Knf) :
    (Φ.define f f (formals.map (·.1)) body).Offers (candidates threshold s f formals body) := by
  have outer : (Φ.define f f (formals.map (·.1)) body).Offers s := by
    intro g k hg
    obtain ⟨present, bound, hk, inside⟩ := h.bindTo new (.app f []) g k hg
    exact ⟨present, bound, .inl hk, inside⟩
  intro g k hg
  unfold candidates at hg
  split at hg
  case isFalse => exact outer g k hg
  case isTrue =>
      rw [Scope.get?_bind] at hg
      split at hg
      case isFalse => exact outer g k hg
      case isTrue eq =>
          obtain rfl := Option.some.inj hg
          exact ⟨.inl eq, _, .inr ⟨eq, rfl, rfl, rfl⟩, fun a ha => ha⟩

end Context.Offers

theorem improves_expanded (threshold : Nat) (e : Knf) {Φ : Context} {s : Scope Candidate}
    {c : Supply} (tracks : Φ.Tracks .empty) (new : Φ.New e.binders) (offers : Φ.Offers s)
    (fresh : Φ.Fresh (e.binders ++ c.names (e.copiedBinders threshold s))) :
    Improves true Φ e (e.expanded threshold s c) := by
  induction e generalizing Φ s c with
  | op o => exact .op (.refl fun x _ => tracks x)
  | branch test x y e1 e2 ih1 ih2 =>
      rw [binders, copiedBinders, Supply.names_append] at fresh
      refine .branch (tracks x) (tracks y) (ih1 tracks new.left offers (fresh.of_subperm ?_))
        (ih2 tracks new.right offers (fresh.of_subperm ?_))
      · exact ((List.sublist_append_left _ _).append (List.sublist_append_left _ _)).subperm
      · exact ((List.sublist_append_right _ _).append (List.sublist_append_right _ _)).subperm
  | letIn x ty e1 e2 ih1 ih2 =>
      rw [binders, copiedBinders, Supply.names_append] at fresh
      refine .letIn (ih1 tracks new.tail.left offers (fresh.of_subperm ?_))
        (ih2 (tracks.keep new .empty _) new.bindTo.right (offers.bindTo new _)
          (fresh.bindTo.of_subperm ?_))
      · exact (((List.sublist_append_left _ _).cons _).append
          (List.sublist_append_left _ _)).subperm
      · exact ((List.sublist_append_right _ _).append (List.sublist_append_right _ _)).subperm
  | letRec f ty formals body rest ih1 ih2 =>
      rw [binders, copiedBinders, Supply.names_append, List.cons_append,
        List.append_assoc (formals.map (·.1))] at fresh
      have inner := new.define (formals.map (·.1)) body
      have tracks' := tracks.keepDefined new .empty (formals.map (·.1)) body
      have offers' := offers.define threshold new formals body
      have fresh' := fresh.define (x := f) (formals.map (·.1)) body
      refine .letRec rfl (ih1 (tracks'.keepEach inner .empty) inner.bindEach.left
          (offers'.bindEach inner) ?_)
        (ih2 tracks' inner.right.right offers' (fresh'.right.of_subperm ?_))
      · refine fresh'.bindEach.of_subperm ?_
        exact ((List.sublist_append_left _ _).append (List.sublist_append_left _ _)).subperm
      · exact ((List.sublist_append_right _ _).append (List.sublist_append_right _ _)).subperm
  | app f xs =>
      rw [expanded]
      split
      case h_1 k hk =>
          obtain ⟨-, bound, hf, inside⟩ := offers f k hk
          rw [copiedBinders, hk] at fresh
          refine .expand hf (List.forall₂_same.mpr fun x _ => tracks x)
            (improves_freshened k.body ?_ ?_)
          · refine Context.Tracks.replaceEach ?_ _
            exact fun a ha => tracks a (inside a ha)
          · refine ⟨fresh.right.nodup, ?_⟩
            rw [Context.after_replaceEach]
            exact fresh.right.after
      case h_2 => exact .app (tracks f) (List.forall₂_same.mpr fun x _ => tracks x)
  | letTuple pattern y e ih =>
      rw [binders, copiedBinders, List.append_assoc] at fresh
      exact .letTuple rfl (tracks y) (ih (tracks.keepEach new .empty) new.bindEach
        (offers.bindEach new) fresh.bindEach)
  | externApp f xs => exact .externApp (List.forall₂_same.mpr fun x _ => tracks x)

/-! ## Constants -/

/-- What the scope says about values is so. -/
def Context.Agrees (Φ : Context) (s : Knowns) : Prop :=
  ∀ x o, s.get? x = some o → Φ.before x ∧ Φ.fact x o

namespace Context.Agrees

variable {Φ : Context} {s : Knowns} {x y : Name} {xs zs : List Name}

theorem empty : Φ.Agrees .empty := by
  intro x o known
  cases known

theorem means (h : Φ.Agrees s) {o : Op} (hx : s.get? x = some o) : Φ.Means x o :=
  fun _ => (h x o hx).2

theorem means_int (h : Φ.Agrees s) {n : Int64} (hx : s.int? x = some n) :
    Φ.Means x (.int n) := by
  unfold Knowns.int? at hx
  split at hx
  case h_1 m hm => exact Option.some.inj hx ▸ h.means hm
  case h_2 => cases hx

theorem means_float (h : Φ.Agrees s) {c : Double} (hx : s.float? x = some c) :
    Φ.Means x (.float c) := by
  unfold Knowns.float? at hx
  split at hx
  case h_1 d hd => exact Option.some.inj hx ▸ h.means hd
  case h_2 => cases hx

theorem means_tuple (h : Φ.Agrees s) (hx : s.tuple? x = some zs) : Φ.Means x (.tuple zs) := by
  unfold Knowns.tuple? at hx
  split at hx
  case h_1 ys hys => exact Option.some.inj hx ▸ h.means hys
  case h_2 => cases hx

theorem decides (h : Φ.Agrees s) {test : Test} {b : Bool} (hb : s.test? test x y = some b) :
    Φ.Decides test x y b := by
  unfold Knowns.test? at hb
  split at hb
  case h_1 m n hm hn => exact .inl ⟨m, n, h.means_int hm, h.means_int hn, Option.some.inj hb⟩
  case h_2 =>
      split at hb
      case h_1 c d hc hd =>
          exact .inr ⟨c, d, h.means_float hc, h.means_float hd, Option.some.inj hb⟩
      case h_2 => cases hb

theorem keep (h : Φ.Agrees s) (new : Φ.New (x :: zs)) (e : Knf) : (Φ.bindTo x x e).Agrees s := by
  intro a o ha
  obtain ⟨present, hf⟩ := h a o ha
  refine ⟨before_bindTo.mpr (.inr present), fact_bindTo hf ?_ (new.after x (List.mem_cons_self ..))⟩
  exact fun eq => new.before x (List.mem_cons_self ..) (eq ▸ present)

theorem keepEach (h : Φ.Agrees s) (new : Φ.New (xs ++ zs)) :
    (Φ.bindEach (xs.zip xs)).Agrees s := by
  induction xs generalizing Φ with
  | nil => exact h
  | cons x xs ih => exact ih (h.keep new (.app x [])) new.bind

theorem learn (h : Φ.Agrees s) (new : Φ.New (x :: zs)) (e : Knf) :
    (Φ.bindTo x x e).Agrees (s.learn x e) := by
  cases e with
  | op o =>
      simp only [Knowns.learn]
      split
      case isFalse => exact h.keep new (.op o)
      case isTrue known =>
          intro a p ha
          rw [Scope.get?_bind] at ha
          split at ha
          case isFalse => exact h.keep new (.op o) a p ha
          case isTrue eq =>
              obtain rfl := Option.some.inj ha
              subst eq
              have unused := new.after a (List.mem_cons_self ..)
              exact ⟨before_bindTo.mpr (.inl rfl), fact_bindTo_known known unused⟩
  | _ => exact h.keep new _

end Context.Agrees

theorem opImproves_foldOp {Φ : Context} {s : Knowns} (tracks : Φ.Tracks .empty)
    (agrees : Φ.Agrees s) (o : Op) : OpImproves Φ o (s.foldOp o) := by
  have stays : OpImproves Φ o o := .refl fun x _ => tracks x
  unfold Knowns.foldOp
  split
  case h_1 x =>
      cases hx : s.get? x with
      | none => exact stays
      | some o => exact .known (agrees.means hx)
  case h_2 x =>
      split
      case h_1 n hn => exact .negateInt (agrees.means_int hn)
      case h_2 => exact stays
  case h_3 x =>
      split
      case h_1 d hd => exact .negateFloat (agrees.means_float hd)
      case h_2 => exact stays
  case h_4 op x y =>
      split
      case h_1 m n hm hn => exact .arithInt (agrees.means_int hm) (agrees.means_int hn)
      case h_2 => exact stays
  case h_5 op x y =>
      split
      case h_1 c d hc hd => exact .arithFloat (agrees.means_float hc) (agrees.means_float hd)
      case h_2 => exact stays
  all_goals exact stays

theorem improves_foldConstantsIn (e : Knf) {i : Bool} {Φ : Context} {s : Knowns}
    (tracks : Φ.Tracks .empty) (agrees : Φ.Agrees s) (new : Φ.New e.binders) :
    Improves i Φ e (e.foldConstantsIn s) := by
  induction e generalizing i Φ s with
  | op o => exact .op (opImproves_foldOp tracks agrees o)
  | branch test x y e1 e2 ih1 ih2 =>
      rw [foldConstantsIn]
      split
      case h_1 hb => exact .decided true (agrees.decides hb) (ih1 tracks agrees new.left)
      case h_2 hb => exact .decided false (agrees.decides hb) (ih2 tracks agrees new.right)
      case h_3 =>
          exact .branch (tracks x) (tracks y) (ih1 tracks agrees new.left)
            (ih2 tracks agrees new.right)
  | letIn x ty e1 e2 ih1 ih2 =>
      refine .letIn (ih1 tracks agrees new.tail.left) (ih2 ?_ ?_ new.bindTo.right)
      · exact tracks.keep new .empty _
      · exact agrees.learn new _
  | letRec f ty formals body rest ih1 ih2 =>
      have inner := new.define (formals.map (·.1)) body
      have tracks' := tracks.keepDefined new .empty (formals.map (·.1)) body
      have agrees' : (Φ.define f f (formals.map (·.1)) body).Agrees s :=
        agrees.keep new (.app f [])
      refine .letRec rfl (ih1 ?_ ?_ inner.bindEach.left) (ih2 tracks' agrees' inner.right.right)
      · exact tracks'.keepEach inner .empty
      · exact agrees'.keepEach inner
  | app f xs => exact .app (tracks f) (List.forall₂_same.mpr fun x _ => tracks x)
  | letTuple pattern y e ih =>
      have inside : ∀ {i : Bool}, Improves i
          (Φ.bindEach ((pattern.map (·.1)).zip (pattern.map (·.1)))) e (e.foldConstantsIn s) :=
        ih (tracks.keepEach new .empty) (agrees.keepEach new) new.bindEach
      rw [foldConstantsIn]
      split
      case h_1 zs hzs =>
          split
          case isTrue length =>
              refine .split length (agrees.means_tuple hzs) ?_ inside
              exact fun b hb => new.left.after b.1 (List.mem_map_of_mem hb)
          case isFalse => exact .letTuple rfl (tracks y) inside
      case h_2 => exact .letTuple rfl (tracks y) inside
  | externApp f xs => exact .externApp (List.forall₂_same.mpr fun x _ => tracks x)

/-! ## Dead bindings -/

namespace Context

variable {Φ : Context} {x a : Name} {xs : List Name}

theorem means_keep (h : a ≠ x → Φ.Means a (.var a)) (e : Knf) :
    (Φ.bindTo x x e).Means a (.var a) := by
  intro ha
  by_cases eq : a = x
  · subst eq
    exact fact_bindTo_self
  · have fact := h eq ((before_bindTo.mp ha).resolve_left eq)
    refine .inl ⟨fact_learnCode e ⟨eq, fact⟩, fun used => ?_⟩
    exact absurd (List.mem_singleton.mp used).symm eq

theorem means_keepEach (h : a ∉ xs → Φ.Means a (.var a)) :
    (Φ.bindEach (xs.zip xs)).Means a (.var a) := by
  induction xs generalizing Φ with
  | nil => exact h List.not_mem_nil
  | cons x xs ih =>
      refine ih fun notin => means_keep (fun ne => h ?_) (.app x [])
      exact List.not_mem_cons_of_ne_of_not_mem ne notin

theorem means_bindBefore (h : Φ.Means a (.var a)) (ne : a ≠ x) :
    (Φ.bindBefore x).Means a (.var a) :=
  fun ha => ⟨ne, h (ha.resolve_left ne)⟩

theorem means_bindBeforeEach (h : Φ.Means a (.var a)) (notin : a ∉ xs) :
    (xs.foldl bindBefore Φ).Means a (.var a) := by
  induction xs generalizing Φ with
  | nil => exact h
  | cons x xs ih =>
      obtain ⟨ne, notin⟩ := List.ne_and_not_mem_of_not_mem_cons notin
      exact ih (means_bindBefore h ne) notin

end Context

theorem isLive_iff {x : Name} {bound body : Knf} :
    isLive x bound body = true ↔ bound.isEffectful = true ∨ x ∈ body.freeVars := by
  rw [isLive, Bool.or_eq_true, decide_eq_true_eq]

theorem usesAny_iff {pattern : List (Name × Mono)} {e : Knf} :
    usesAny pattern e = true ↔ ∃ x ∈ pattern.map (·.1), x ∈ e.freeVars := by
  simp only [usesAny, List.any_eq_true, decide_eq_true_eq, List.mem_map, exists_exists_and_eq_and]

/-- Dropping dead bindings drops no effect. -/
theorem isEffectful_dropDead (e : Knf) : e.dropDead.isEffectful = e.isEffectful := by
  induction e with
  | op | app | externApp => rfl
  | branch test x y e1 e2 ih1 ih2 => simp only [dropDead, isEffectful, ih1, ih2]
  | letIn x ty e1 e2 ih1 ih2 =>
      rw [dropDead]
      split
      case isTrue => simp only [isEffectful, ih1, ih2]
      case isFalse dead =>
          rw [isLive_iff, ih1, not_or, Bool.not_eq_true] at dead
          simp only [isEffectful, ih2, dead.1, Bool.false_or]
  | letRec f ty formals body rest _ ih =>
      rw [dropDead]
      split
      · exact ih
      · exact ih
  | letTuple pattern y e ih =>
      rw [dropDead]
      split
      · exact ih
      · exact ih

theorem improves_dropDead (e : Knf) {i : Bool} {Φ : Context}
    (means : ∀ a ∈ e.dropDead.freeVars, Φ.Means a (.var a)) : Improves i Φ e e.dropDead := by
  induction e generalizing i Φ with
  | op o => exact .op (.refl means)
  | branch test x y e1 e2 ih1 ih2 =>
      simp only [dropDead, freeVars, List.mem_cons, List.mem_append] at means
      refine .branch (means x (.inl rfl)) (means y (.inr (.inl rfl))) ?_ ?_
      · exact ih1 fun a ha => means a (.inr (.inr (.inl ha)))
      · exact ih2 fun a ha => means a (.inr (.inr (.inr ha)))
  | letIn x ty e1 e2 ih1 ih2 =>
      rw [dropDead] at means ⊢
      split at means
      case isTrue live =>
          simp only [freeVars, List.mem_append, List.mem_filter, decide_eq_true_eq] at means
          rw [if_pos live]
          refine .letIn (ih1 fun a ha => means a (.inl ha)) (ih2 fun a ha => ?_)
          exact Context.means_keep (fun ne => means a (.inr ⟨ha, ne⟩)) _
      case isFalse dead =>
          rw [if_neg dead]
          rw [isLive_iff, isEffectful_dropDead, not_or, Bool.not_eq_true] at dead
          refine .dropLet dead.1 (ih2 fun a ha => Context.means_bindBefore (means a ha) ?_)
          exact fun eq => dead.2 (eq ▸ ha)
  | letRec f ty formals body rest ih1 ih2 =>
      rw [dropDead] at means ⊢
      split at means
      case isTrue used =>
          simp only [freeVars, List.mem_append, List.mem_filter, decide_eq_true_eq] at means
          rw [if_pos used]
          refine .letRec rfl (ih1 fun a ha => ?_) (ih2 fun a ha => ?_)
          · refine Context.means_keepEach fun notin => Context.means_keep (fun ne => ?_) (.app f [])
            exact means a ⟨.inl ⟨ha, notin⟩, ne⟩
          · exact Context.means_keep (fun ne => means a ⟨.inr ha, ne⟩) (.app f [])
      case isFalse unused =>
          rw [if_neg unused]
          refine .dropRec (ih2 fun a ha => Context.means_bindBefore (means a ha) ?_)
          exact fun eq => unused (eq ▸ ha)
  | app f xs =>
      refine .app (means f (List.mem_cons_self ..)) (List.forall₂_same.mpr fun x hx => ?_)
      exact means x (List.mem_cons_of_mem _ hx)
  | letTuple pattern y e ih =>
      rw [dropDead] at means ⊢
      split at means
      case isTrue used =>
          simp only [freeVars, List.mem_cons, List.mem_filter, decide_eq_true_eq] at means
          rw [if_pos used]
          refine .letTuple rfl (means y (.inl rfl)) (ih fun a ha => ?_)
          exact Context.means_keepEach fun notin => means a (.inr ⟨ha, notin⟩)
      case isFalse unused =>
          rw [if_neg unused]
          refine .dropTuple (ih fun a ha => Context.means_bindBeforeEach (means a ha) ?_)
          exact fun bound => unused (usesAny_iff.mpr ⟨a, bound, ha⟩)
  | externApp f xs => exact .externApp (List.forall₂_same.mpr means)

end Knf

end MiddleEnd
