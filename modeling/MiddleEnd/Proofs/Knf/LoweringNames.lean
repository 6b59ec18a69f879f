import Mathlib
import MiddleEnd.Proofs.Knf.AlphaEquality
import MiddleEnd.Proofs.Knf.Lowering

/-! # Lowering and the spelling of bound names

Two terms that differ in the choice of bound names are lowered in the same steps.  The
names of intermediate results may differ too, but only by how far the supplies are apart,
and so they go together one by one, whether one of them comes again or not.  As long as no
binder of the terms has a name of this kind, no name of an intermediate result hides it, and
the code is the same up to bound names.
-/

namespace MiddleEnd

/-! ## Names of two supplies -/

namespace Supply

theorem skip_comm (c : Supply) (j k : Nat) : (c.skip j).skip k = (c.skip k).skip j := by
  rw [skip_skip, skip_skip, Nat.add_comm]

theorem skip_inj {c c' : Supply} {k : Nat} : c.skip k = c'.skip k ↔ c = c' := by
  cases c
  cases c'
  simp [skip]

theorem exists_skip (c c' : Supply) : ∃ d, c' = c.skip d := by
  refine ⟨(c'.count - c.count).toNat, ?_⟩
  cases c'
  simp [skip]

theorem temp_inj {c c' : Supply} {ty ty' : Mono} :
    c.temp ty = c'.temp ty' ↔ c = c' ∧ ty.tag = ty'.tag := by
  constructor
  · intro eq
    have number := Request.number_eq (r := .temporary ty.tag) (s := .temporary ty'.tag) eq
    have count : c.skip 1 = c'.skip 1 := congrArg Supply.mk (UInt32.toNat_inj.mp number)
    rw [skip_inj] at count
    subst count
    refine ⟨rfl, ?_⟩
    have letters := congrArg String.toList eq
    simpa [temp, Char.toString] using letters
  · rintro ⟨rfl, tag⟩
    rw [temp, temp, tag]

/-- Names for one intermediate result from two supplies that are this far apart. -/
def Shifted (d : Nat) (u v : Name) : Prop :=
  ∃ (c : Supply) (ty : Mono), u = c.temp ty ∧ v = (c.skip d).temp ty

section
variable {d : Nat} {u u' v v' : Name}

theorem Shifted.eq_iff (h : Shifted d u v) (h' : Shifted d u' v') : u = u' ↔ v = v' := by
  obtain ⟨c, ty, rfl, rfl⟩ := h
  obtain ⟨c', ty', rfl, rfl⟩ := h'
  rw [temp_inj, temp_inj, skip_inj]

theorem Shifted.isTemporary (h : Shifted d u v) : u.isTemporary = true ∧ v.isTemporary = true := by
  obtain ⟨c, ty, rfl, rfl⟩ := h
  exact ⟨isTemporary_temp .., isTemporary_temp ..⟩

/-- Names that go together in the code of two terms: names of the terms, or names for one
    intermediate result. -/
def Stable (d : Nat) (u v : Name) : Prop :=
  (u.isTemporary = false ∧ v.isTemporary = false) ∨ Shifted d u v

theorem Stable.eq_iff (h : Stable d u v) (h' : Shifted d u' v') : u = u' ↔ v = v' := by
  rcases h with ⟨plain, plain'⟩ | shifted
  · have kind := h'.isTemporary
    constructor
    · rintro rfl
      rw [plain] at kind
      cases kind.1
    · rintro rfl
      rw [plain'] at kind
      cases kind.2
  · exact shifted.eq_iff h'

end

end Supply

/-! ## Pairings of the names in code -/

namespace Knf.Pairing

open Supply

variable {p q : Pairing} {d : Nat} {u v x y : Name}

/-- Names of terms that go together in the first pairing do so in the second one. -/
def Passes (p q : Pairing) : Prop :=
  ∀ u v, u.isTemporary = false → v.isTemporary = false → p.same u v = true → q.same u v = true

theorem Passes.refl (p : Pairing) : p.Passes p :=
  fun _ _ _ _ same => same

theorem Passes.bind (h : p.Passes q) (x y : Name) : (p.bind x y).Passes (q.bind x y) := by
  intro u v plain plain' same
  rw [same_bind] at same ⊢
  by_cases eq : u = x
  · rwa [if_pos eq] at same ⊢
  · rw [if_neg eq, Bool.and_eq_true] at same ⊢
    exact ⟨same.1, h u v plain plain' same.2⟩

theorem Passes.bindAll (h : p.Passes q) (xs ys : List Name) :
    (p.bindAll xs ys).Passes (q.bindAll xs ys) := by
  rw [Passes, same_bindAll, same_bindAll, ← Passes]
  generalize xs.zip ys = pairs
  induction pairs generalizing p q with
  | nil => exact h
  | cons b pairs ih => exact ih (h.bind b.1 b.2)

/-- Names for an intermediate result hide no names of the terms. -/
theorem Passes.temporary (h : p.Passes q) (hx : x.isTemporary = true) (hy : y.isTemporary = true) :
    p.Passes (q.bind x y) := by
  intro u v plain plain' same
  have left : u ≠ x := by
    rintro rfl
    rw [plain] at hx
    cases hx
  have right : v ≠ y := by
    rintro rfl
    rw [plain'] at hy
    cases hy
  rw [same_bind, if_neg left, decide_eq_false right]
  exact h u v plain plain' same

theorem Passes.shifted (h : p.Passes q) (names : Shifted d x y) : p.Passes (q.bind x y) :=
  h.temporary names.isTemporary.1 names.isTemporary.2

/-- Names that go together still do so under names for another intermediate result. -/
theorem same_bind_shifted (stable : Stable d u v) (names : Shifted d x y)
    (same : q.same u v = true) : (q.bind x y).same u v = true := by
  rw [same_bind]
  by_cases eq : u = x
  · rw [if_pos eq]
    exact decide_eq_true ((stable.eq_iff names).mp eq)
  · rw [if_neg eq, decide_eq_false (mt (stable.eq_iff names).mpr eq)]
    exact same

/-- Names that go together whatever intermediate results are named are names of the terms. -/
theorem plain_of_passes (h : ∀ q, p.Passes q → q.same u v = true) :
    u.isTemporary = false ∧ v.isTemporary = false := by
  have other : ∀ w : Name, ∃ t : Name, t.isTemporary = true ∧ t ≠ w := by
    intro w
    by_cases eq : w = "Ti1"
    · exact ⟨"Ti2", by decide, by simp [eq]⟩
    · exact ⟨"Ti1", by decide, Ne.symm eq⟩
  -- A name of an intermediate result can be bound again, to go together with another one.
  constructor
  · by_contra temporary
    obtain ⟨t, ht, ne⟩ := other v
    have same := h _ ((Passes.refl p).temporary (Bool.eq_true_of_not_eq_false temporary) ht)
    rw [same_bind, if_pos rfl] at same
    exact ne (of_decide_eq_true same).symm
  · by_contra temporary
    obtain ⟨t, ht, ne⟩ := other u
    have same := h _ ((Passes.refl p).temporary ht (Bool.eq_true_of_not_eq_false temporary))
    rw [same_bind, if_neg ne.symm] at same
    simp at same

theorem same_bound : (q.bind x y).same x y = true := by
  rw [same_bind, if_pos rfl, decide_eq_true rfl]

/-- Names of code that go together in the first pairing do so in the second one. -/
def Retains (d : Nat) (q q' : Pairing) : Prop :=
  ∀ u v, Stable d u v → q.same u v = true → q'.same u v = true

theorem Retains.each {q' : Pairing} (h : Retains d q q') {xs ys : List Name}
    (stable : List.Forall₂ (Stable d) xs ys)
    (same : List.Forall₂ (fun x y => q.same x y = true) xs ys) :
    List.Forall₂ (fun x y => q'.same x y = true) xs ys := by
  induction stable with
  | nil => exact .nil
  | cons head _ ih =>
      rcases same with _ | ⟨first, others⟩
      exact .cons (h _ _ head first) (ih others)

theorem retains_shifted (names : Shifted d x y) : Retains d q (q.bind x y) :=
  fun _ _ stable same => same_bind_shifted stable names same

theorem sameAll_iff {xs ys : List Name} :
    p.sameAll xs ys = true ↔ List.Forall₂ (fun x y => p.same x y = true) xs ys := by
  induction xs generalizing ys with
  | nil => cases ys <;> simp [sameAll]
  | cons x xs ih => cases ys <;> simp [sameAll, ih]

end Knf.Pairing

/-! ## Terms with other bound names -/

/-- The terms differ in the choice of bound names only, where the names around them go
    together as the pairing says. -/
inductive Typed.Renames : Knf.Pairing → Typed → Typed → Prop where
  | unit {p ty} : Renames p (.unit ty) (.unit ty)
  | bool {p ty b} : Renames p (.bool ty b) (.bool ty b)
  | int {p ty n} : Renames p (.int ty n) (.int ty n)
  | float {p ty d} : Renames p (.float ty d) (.float ty d)
  | not {p ty e e'} : Renames p e e' → Renames p (.not ty e) (.not ty e')
  | negate {p ty op e e'} : Renames p e e' → Renames p (.negate ty op e) (.negate ty op e')
  | arith {p ty op l l' r r'} :
      Renames p l l' → Renames p r r' → Renames p (.arith ty op l r) (.arith ty op l' r')
  | compare {p ty op l l' r r'} :
      Renames p l l' → Renames p r r' → Renames p (.compare ty op l r) (.compare ty op l' r')
  | ifThenElse {p ty c c' t t' e e'} :
      Renames p c c' → Renames p t t' → Renames p e e' →
      Renames p (.ifThenElse ty c t e) (.ifThenElse ty c' t' e')
  | letIn {p ty x y bound e1 e1' e2 e2'} :
      Renames p e1 e1' → Renames (p.bind x y) e2 e2' →
      Renames p (.letIn ty (x, bound) e1 e2) (.letIn ty (y, bound) e1' e2')
  | var {p ty x y} : p.same x y = true → Renames p (.var ty x) (.var ty y)
  | letRec {p ty f g fn xs ys body body' rest rest'} :
      xs.map (·.2) = ys.map (·.2) →
      Renames ((p.bind f g).bindAll (xs.map (·.1)) (ys.map (·.1))) body body' →
      Renames (p.bind f g) rest rest' →
      Renames p (.letRec ty (f, fn) xs body rest) (.letRec ty (g, fn) ys body' rest')
  | app {p ty e e' es es'} :
      Renames p e e' → es.length = es'.length → (∀ b ∈ es.zip es', Renames p b.1 b.2) →
      Renames p (.app ty e es) (.app ty e' es')
  | tuple {p ty es es'} :
      es.length = es'.length → (∀ b ∈ es.zip es', Renames p b.1 b.2) →
      Renames p (.tuple ty es) (.tuple ty es')
  | letTuple {p ty xs ys e1 e1' e2 e2'} :
      xs.map (·.2) = ys.map (·.2) → Renames p e1 e1' →
      Renames (p.bindAll (xs.map (·.1)) (ys.map (·.1))) e2 e2' →
      Renames p (.letTuple ty xs e1 e2) (.letTuple ty ys e1' e2')
  | array {p ty l l' r r'} :
      Renames p l l' → Renames p r r' → Renames p (.array ty l r) (.array ty l' r')
  | get {p ty l l' r r'} :
      Renames p l l' → Renames p r r' → Renames p (.get ty l r) (.get ty l' r')
  | put {p ty a a' i i' v v'} :
      Renames p a a' → Renames p i i' → Renames p v v' →
      Renames p (.put ty a i v) (.put ty a' i' v')
  | seq {p ty l l' r r'} :
      Renames p l l' → Renames p r r' → Renames p (.seq ty l r) (.seq ty l' r')

namespace Lowering

open Supply
open Knf (Pairing)

/-! ## Steps from two supplies -/

variable {α β γ δ : Type} {d : Nat}

/-- From supplies that are this far apart both steps fail with the same error, or both give
    results in this relation and leave supplies that are as far apart. -/
def Together (d : Nat) (R : α → β → Prop) (left : Lower α) (right : Lower β) : Prop :=
  ∀ c, (∃ a b c₁, Gives left c a c₁ ∧ Gives right (c.skip d) b (c₁.skip d) ∧ R a b) ∨
    ∃ err c₁ c₂, left.run.run c = (.error err, c₁) ∧ right.run.run (c.skip d) = (.error err, c₂)

namespace Together

variable {R : α → β → Prop} {S : γ → δ → Prop}

theorem pure {a : α} {b : β} (h : R a b) : Together d R (Pure.pure a) (Pure.pure b) :=
  fun c => .inl ⟨a, b, c, .pure a c, .pure b _, h⟩

theorem throw (err : LowerError) : Together d R (throw err) (throw err) :=
  fun c => .inr ⟨err, c, c.skip d, rfl, rfl⟩

theorem bind {left : Lower α} {right : Lower β} {f : α → Lower γ} {g : β → Lower δ}
    (h : Together d R left right) (next : ∀ a b, R a b → Together d S (f a) (g b)) :
    Together d S (left >>= f) (right >>= g) := by
  intro c
  rw [Step.run_bind_except, Step.run_bind_except]
  rcases h c with ⟨a, b, c₁, first, first', related⟩ | ⟨err, c₁, c₂, failed, failed'⟩
  · rcases next a b related c₁ with ⟨a', b', c₂, second, second', related'⟩ | failed
    · exact .inl ⟨a', b', c₂, first.bind second, first'.bind second', related'⟩
    · rw [Gives] at first first'
      rw [first, first']
      exact .inr failed
  · rw [failed, failed']
    exact .inr ⟨err, c₁, c₂, rfl, rfl⟩

theorem temporary (ty : Mono) :
    Together d (Shifted d) (liftM (Supply.temporary ty.tag)) (liftM (Supply.temporary ty.tag)) := by
  intro c
  refine .inl ⟨c.temp ty, (c.skip d).temp ty, c.skip 1, rfl, ?_, c, ty, rfl, rfl⟩
  rw [skip_comm]
  rfl

end Together

/-! ## Operands from two supplies -/

/-- Code that is the same up to bound names, however intermediate results around it are
    named, and of the same type. -/
structure Alike (p : Pairing) (a b : Lowered) : Prop where
  ty : a.2 = b.2
  code : ∀ q, p.Passes q → a.1.alphaEqIn q b.1 = true

/-- Names for operands that go together once the operands are bound. -/
structure Handed (d : Nat) (p : Pairing) (a b : List Name × Pending) : Prop where
  stable : List.Forall₂ (Stable d) a.1 b.1
  wraps : ∀ q, p.Passes q → ∃ q', p.Passes q' ∧
    Pairing.Retains d q q' ∧
    List.Forall₂ (fun x y => q'.same x y = true) a.1 b.1 ∧
    ∀ k k', k.alphaEqIn q' k' = true → (wrap a.2 k).alphaEqIn q (wrap b.2 k') = true

def HandedOne (d : Nat) (p : Pairing) (a b : Name × Pending) : Prop :=
  Handed d p ([a.1], a.2) ([b.1], b.2)

section
variable {p : Pairing} {xs ys xs' ys' : List Name} {m n m' n' : Pending} {x y : Name}

theorem Handed.nil : Handed d p ([], []) ([], []) :=
  ⟨.nil, fun q passes => ⟨q, passes, fun _ _ _ same => same, .nil, fun _ _ same => same⟩⟩

theorem Handed.append (h : Handed d p (xs, m) (ys, n)) (h' : Handed d p (xs', m') (ys', n')) :
    Handed d p (xs ++ xs', m ++ m') (ys ++ ys', n ++ n') := by
  refine ⟨List.rel_append h.stable h'.stable, ?_⟩
  intro q passes
  obtain ⟨q₁, passes₁, kept₁, same₁, wraps₁⟩ := h.wraps q passes
  obtain ⟨q₂, passes₂, kept₂, same₂, wraps₂⟩ := h'.wraps q₁ passes₁
  refine ⟨q₂, passes₂, fun u v stable same => kept₂ u v stable (kept₁ u v stable same), ?_, ?_⟩
  · exact List.rel_append (kept₂.each h.stable same₁) same₂
  · intro k k' same
    have inner := wraps₁ _ _ (wraps₂ k k' same)
    simpa [wrap] using inner

theorem HandedOne.name (plain : x.isTemporary = false ∧ y.isTemporary = false)
    (same : ∀ q, p.Passes q → q.same x y = true) : HandedOne d p (x, []) (y, []) := by
  refine ⟨.cons (.inl plain) .nil, fun q passes => ?_⟩
  exact ⟨q, passes, fun _ _ _ same => same, .cons (same q passes) .nil, fun _ _ same => same⟩

theorem HandedOne.code {k k' : Knf} {ty : Mono} (alike : Alike p (k, ty) (k', ty))
    (names : Shifted d x y) : HandedOne d p (x, [((x, ty), k)]) (y, [((y, ty), k')]) := by
  refine ⟨.cons (.inr names) .nil, fun q passes => ?_⟩
  refine ⟨q.bind x y, passes.shifted names, Pairing.retains_shifted names,
    .cons Pairing.same_bound .nil, ?_⟩
  intro body body' same
  simp only [wrap, List.foldr, Knf.alphaEqIn, Bool.and_eq_true, beq_iff_eq]
  exact ⟨⟨trivial, alike.code q passes⟩, same⟩

variable {left left' right right' yes yes' no no' : Lower Lowered}

theorem Together.operand (h : Together d (Alike p) left right) :
    Together d (HandedOne d p) (operand left) (operand right) := by
  refine h.bind ?_
  rintro ⟨k, ty⟩ ⟨k', ty'⟩ alike
  obtain rfl : ty = ty' := alike.ty
  have same := alike.code p (.refl p)
  split
  · rename_i x ty' eq
    cases eq
    cases k' with
    | op o =>
        cases o with
        | var y => exact .pure (.name (Pairing.plain_of_passes alike.code) alike.code)
        | _ => cases same
    | _ => cases same
  · rename_i k₀ ty' other eq
    cases eq
    split
    · rename_i y ty' eq
      cases eq
      cases k with
      | op o =>
          cases o with
          | var x => exact absurd rfl (other x)
          | _ => cases same
      | _ => cases same
    · rename_i k₀ ty' other eq
      cases eq
      exact (Together.temporary ty).bind fun x y names => .pure (.code alike names)

theorem Together.operands {steps steps' : List (Lower Lowered)}
    (h : List.Forall₂ (Together d (Alike p)) steps steps') :
    Together d (Handed d p) (operands steps) (operands steps') := by
  induction h with
  | nil => exact .pure .nil
  | cons head _ ih =>
      exact head.operand.bind fun _ _ first => ih.bind fun _ _ others => .pure (first.append others)

/-- Code that uses the names of operands. -/
theorem Handed.alike (h : Handed d p (xs, m) (ys, n)) {k k' : Knf}
    (body : ∀ q, p.Passes q → List.Forall₂ (fun x y => q.same x y = true) xs ys →
      k.alphaEqIn q k' = true) (ty : Mono) : Alike p (wrap m k, ty) (wrap n k', ty) := by
  refine ⟨rfl, fun q passes => ?_⟩
  obtain ⟨q', passes', -, same, wraps⟩ := h.wraps q passes
  exact wraps k k' (body q' passes' same)

theorem Together.truth (b : Bool) : Together d (Alike p) (truth b) (truth b) :=
  .pure ⟨rfl, fun _ _ => by simp [Knf.alphaEqIn, Pairing.sameOp]⟩

theorem Together.unary (h : Together d (Alike p) left left') {build : Name → Op}
    (finish : ∀ q x y, q.same x y = true → Pairing.sameOp q (build x) (build y) = true)
    (ty : Mono) :
    Together d (Alike p) (unary left build ty) (unary left' build ty) := by
  refine h.operand.bind fun a b handed => .pure (handed.alike ?_ ty)
  rintro q - same
  rcases same with _ | ⟨same, -⟩
  exact finish q a.1 b.1 same

theorem Together.binary (hl : Together d (Alike p) left left')
    (hr : Together d (Alike p) right right') {build : Name → Name → Op}
    (finish : ∀ q x y x' y', q.same x x' = true → q.same y y' = true →
      Pairing.sameOp q (build x y) (build x' y') = true) (ty : Mono) :
    Together d (Alike p) (binary left right build ty) (binary left' right' build ty) := by
  refine hl.operand.bind fun a b first => hr.operand.bind fun a' b' second => .pure ?_
  refine (first.append second).alike ?_ ty
  rintro q - same
  rcases same with _ | ⟨same, _ | ⟨same', -⟩⟩
  exact finish q _ _ _ _ same same'

theorem alphaEqIn_comparison {q : Pairing} {x x' y y' : Name} {k₁ k₁' k₂ k₂' : Knf}
    (op : Comparison) (same : q.same x x' = true) (same' : q.same y y' = true)
    (h₁ : k₁.alphaEqIn q k₁' = true) (h₂ : k₂.alphaEqIn q k₂' = true) :
    (comparison op x y k₁ k₂).alphaEqIn q (comparison op x' y' k₁' k₂') = true := by
  cases op <;> simp [comparison, Knf.alphaEqIn, same, same', h₁, h₂]

theorem Together.compareThen (hl : Together d (Alike p) left left')
    (hr : Together d (Alike p) right right') (hy : Together d (Alike p) yes yes')
    (hn : Together d (Alike p) no no') (op : Comparison) :
    Together d (Alike p) (compareThen op left right yes no)
      (compareThen op left' right' yes' no') := by
  refine hl.operand.bind fun a b first => hr.operand.bind fun a' b' second => ?_
  refine hy.bind fun r r' yes => hn.bind fun s s' no => .pure ?_
  obtain ⟨k, ty⟩ := r
  obtain ⟨k', ty'⟩ := r'
  obtain rfl : ty = ty' := yes.ty
  refine (first.append second).alike ?_ ty
  intro q passes same
  rcases same with _ | ⟨same, _ | ⟨same', -⟩⟩
  exact alphaEqIn_comparison op same same' (yes.code q passes) (no.code q passes)

theorem Together.testThen (h : Together d (Alike p) left left')
    (hy : Together d (Alike p) yes yes') (hn : Together d (Alike p) no no') :
    Together d (Alike p) (testThen left yes no) (testThen left' yes' no') := by
  refine h.operand.bind fun a b cond => ?_
  refine hy.bind fun r r' yes => hn.bind fun s s' no => ?_
  refine (Together.temporary .bool).bind fun z z' names => .pure ?_
  obtain ⟨k, ty⟩ := r
  obtain ⟨k', ty'⟩ := r'
  obtain rfl : ty = ty' := yes.ty
  refine cond.alike ?_ ty
  intro q passes same
  have passes' := passes.shifted names
  rcases (Pairing.retains_shifted names).each cond.stable same with _ | ⟨same, -⟩
  simp [Knf.alphaEqIn, Pairing.sameOp, same, Pairing.same_bound, yes.code _ passes',
    no.code _ passes']

end

/-! ## Scopes of two terms -/

/-- Names that go together have the same type in the scopes or are one external name, and no
    name of an intermediate result is in a scope. -/
structure Matched (p : Pairing) (scope scope' : Scope Mono) : Prop where
  types : ∀ x y, p.same x y = true → scope.get? x = scope'.get? y
  free : ∀ x y, p.same x y = true → scope.get? x = none → x = y
  left : ∀ x ty, scope.get? x = some ty → x.isTemporary = false
  right : ∀ y ty, scope'.get? y = some ty → y.isTemporary = false

section
variable {p : Pairing} {scope scope' : Scope Mono} {x y : Name}

theorem Matched.empty : Matched .empty .empty .empty :=
  ⟨fun _ _ _ => rfl, fun _ _ same _ => eq_of_beq same, nofun, nofun⟩

theorem plain_bind {s : Scope Mono} (h : ∀ y ty, s.get? y = some ty → y.isTemporary = false)
    (hx : x.isTemporary = false) (bound : Mono) :
    ∀ y ty, (s.bind x bound).get? y = some ty → y.isTemporary = false := by
  intro y ty found
  rw [Scope.get?_bind] at found
  split at found
  · rename_i eq
    rw [eq, hx]
  · exact h y ty found

theorem Matched.bind (h : Matched p scope scope') (hx : x.isTemporary = false)
    (hy : y.isTemporary = false) (ty : Mono) :
    Matched (p.bind x y) (scope.bind x ty) (scope'.bind y ty) := by
  refine ⟨?_, ?_, plain_bind h.left hx ty, plain_bind h.right hy ty⟩
  all_goals
    intro u v same
    rw [Pairing.same_bind] at same
    rw [Scope.get?_bind]
    by_cases eq : u = x
  · rw [if_pos eq] at same
    rw [Scope.get?_bind, if_pos eq, if_pos (of_decide_eq_true same)]
  · rw [if_neg eq, Bool.and_eq_true, Bool.not_eq_true', decide_eq_false_iff_not] at same
    rw [Scope.get?_bind, if_neg eq, if_neg same.1, h.types u v same.2]
  · rw [if_pos eq]
    nofun
  · rw [if_neg eq, Bool.and_eq_true] at same
    rw [if_neg eq]
    exact h.free u v same.2

theorem Matched.bindAll (h : Matched p scope scope') {xs ys : List (Name × Mono)}
    (types : xs.map (·.2) = ys.map (·.2)) (hxs : ∀ x ∈ xs.map (·.1), x.isTemporary = false)
    (hys : ∀ y ∈ ys.map (·.1), y.isTemporary = false) :
    Matched (p.bindAll (xs.map (·.1)) (ys.map (·.1))) (scope.bindAll xs) (scope'.bindAll ys) := by
  have each : Matched (p.bindEach ((xs.map (·.1)).zip (ys.map (·.1)))) (scope.bindEach xs)
      (scope'.bindEach ys) := by
    induction xs generalizing p scope scope' ys with
    | nil =>
        obtain rfl := List.map_eq_nil_iff.mp types.symm
        exact h
    | cons x xs ih =>
        obtain ⟨x, ty⟩ := x
        obtain ⟨⟨y, _⟩, ys, rfl, rfl, tail⟩ := List.map_eq_cons_iff.mp types.symm
        rw [List.map_cons, List.forall_mem_cons] at hxs hys
        exact ih (h.bind hxs.1 hys.1 _) tail.symm hxs.2 hys.2
  obtain ⟨types, free, left, right⟩ := each
  rw [← Pairing.same_bindAll] at types free
  rw [Scope.get?_bindEach] at free left types
  rw [Scope.get?_bindEach] at right types
  exact ⟨types, free, left, right⟩

end

/-! ## Terms from two supplies -/

section
variable {externals : Signature} {p : Pairing} {scope scope' : Scope Mono}
  {e e' e1 e1' e2 e2' : Typed} {es es' : List Typed}

theorem note_eq_of_renames (h : Typed.Renames p e e') : e.note = e'.note := by
  cases h <;> rfl

theorem externalCallee_of_renames (h : Typed.Renames p e e') (matched : Matched p scope scope') :
    externalCallee externals scope e = externalCallee externals scope' e' := by
  cases h with
  | @var _ _ x y same =>
      have types := matched.types x y same
      rw [externalCallee, externalCallee, Scope.contains, Scope.contains, ← types]
      cases found : scope.get? x with
      | some ty => rfl
      | none => rw [matched.free x y same found]
  | _ => rfl

/-- The terms are lowered together, wherever the names around them go together. -/
abbrev Follows (externals : Signature) (d : Nat) (p : Pairing) (e e' : Typed) : Prop :=
  ∀ ⦃scope scope'⦄, Matched p scope scope' →
    Together d (Alike p) (lower externals scope e) (lower externals scope' e')

/-- So are choices by the terms. -/
abbrev FollowsChoosing (externals : Signature) (d : Nat) (p : Pairing) (e e' : Typed) : Prop :=
  ∀ ⦃scope scope' yes yes' no no'⦄, Matched p scope scope' → Together d (Alike p) yes yes' →
    Together d (Alike p) no no' →
      Together d (Alike p) (branch externals scope e (lower externals scope e) yes no)
        (branch externals scope' e' (lower externals scope' e') yes' no')

theorem Follows.and_chooses (h : Follows externals d p e e') (tested : isTested e = true)
    (tested' : isTested e' = true) :
    Follows externals d p e e' ∧ FollowsChoosing externals d p e e' := by
  refine ⟨h, ?_⟩
  intro scope scope' yes yes' no no' matched hy hn
  rw [branch_eq_testThen tested, branch_eq_testThen tested']
  exact (h matched).testThen hy hn

theorem Follows.list (full : es.length = es'.length)
    (h : ∀ b ∈ es.zip es', Follows externals d p b.1 b.2) (matched : Matched p scope scope') :
    Together d (Handed d p) (lowerList externals scope es) (lowerList externals scope' es') := by
  rw [lowerList_eq, lowerList_eq]
  refine .operands (List.forall₂_map_left_iff.mpr (List.forall₂_map_right_iff.mpr ?_))
  exact List.forall₂_iff_zip.mpr ⟨full, fun mem => h _ mem matched⟩

theorem Follows.var {x y : Name} (same : p.same x y = true) (ty : Ty) :
    Follows externals d p (.var ty x) (.var ty y) := by
  intro scope scope' matched
  have types := matched.types x y same
  rw [lower, lower, ← types]
  cases found : scope.get? x with
  | some τ =>
      have plain := matched.left x τ found
      have plain' := matched.right y τ (types.symm.trans found)
      exact .pure ⟨rfl, fun q passes => passes x y plain plain' same⟩
  | none =>
      obtain rfl := matched.free x y same found
      dsimp only
      split
      · exact .pure ⟨rfl, fun q _ => by simp [Knf.alphaEqIn, Pairing.sameOp]⟩
      · exact .throw _

theorem Follows.letIn {x y : Name} (h1 : Follows externals d p e1 e1')
    (h2 : Follows externals d (p.bind x y) e2 e2') (hx : x.isTemporary = false)
    (hy : y.isTemporary = false) (ty bound : Ty) :
    Follows externals d p (.letIn ty (x, bound) e1 e2) (.letIn ty (y, bound) e1' e2') := by
  intro scope scope' matched
  rw [lower, lower]
  refine (h1 matched).bind fun a b first => ?_
  refine (h2 (matched.bind hx hy bound.mono)).bind fun a' b' second => .pure ⟨second.ty, ?_⟩
  intro q passes
  simp [Knf.alphaEqIn, first.code q passes, second.code _ (passes.bind x y)]

theorem Follows.letRec {f g : Name} {xs ys : List (Name × Ty)} {body body' rest rest' : Typed}
    (types : xs.map (·.2) = ys.map (·.2))
    (hbody : Follows externals d ((p.bind f g).bindAll (xs.map (·.1)) (ys.map (·.1))) body body')
    (hrest : Follows externals d (p.bind f g) rest rest')
    (hf : ∀ x ∈ f :: xs.map (·.1), x.isTemporary = false)
    (hg : ∀ y ∈ g :: ys.map (·.1), y.isTemporary = false) (ty fn : Ty) :
    Follows externals d p (.letRec ty (f, fn) xs body rest)
      (.letRec ty (g, fn) ys body' rest') := by
  intro scope scope' matched
  rw [List.forall_mem_cons] at hf hg
  have types : (binders xs).map (·.2) = (binders ys).map (·.2) := by
    rw [binders_types, binders_types, types]
  rw [← binders_names xs] at hbody hf
  rw [← binders_names ys] at hbody hg
  have outer := matched.bind hf.1 hg.1 fn.mono
  rw [lower, lower]
  refine (hbody (outer.bindAll types hf.2 hg.2)).bind fun a b first => ?_
  refine (hrest outer).bind fun a' b' second => .pure ⟨second.ty, ?_⟩
  intro q passes
  have inner := passes.bind f g
  simp [Knf.alphaEqIn, types, first.code _ (inner.bindAll _ _), second.code _ inner]

theorem Follows.letTuple {xs ys : List (Name × Ty)} (types : xs.map (·.2) = ys.map (·.2))
    (h1 : Follows externals d p e1 e1')
    (h2 : Follows externals d (p.bindAll (xs.map (·.1)) (ys.map (·.1))) e2 e2')
    (hxs : ∀ x ∈ xs.map (·.1), x.isTemporary = false)
    (hys : ∀ y ∈ ys.map (·.1), y.isTemporary = false) (ty : Ty) :
    Follows externals d p (.letTuple ty xs e1 e2) (.letTuple ty ys e1' e2') := by
  intro scope scope' matched
  have types : (binders xs).map (·.2) = (binders ys).map (·.2) := by
    rw [binders_types, binders_types, types]
  rw [← binders_names xs] at h2 hxs
  rw [← binders_names ys] at h2 hys
  rw [lower, lower]
  refine (h1 matched).operand.bind fun a b first => ?_
  refine (h2 (matched.bindAll types hxs hys)).bind fun a' b' second => .pure ?_
  obtain ⟨k, τ⟩ := a'
  obtain ⟨k', τ'⟩ := b'
  obtain rfl : τ = τ' := second.ty
  refine first.alike ?_ τ
  intro q passes same
  rcases same with _ | ⟨same, -⟩
  have body : k.alphaEqIn (q.bindAll _ _) k' = true := second.code _ (passes.bindAll _ _)
  simp [Knf.alphaEqIn, types, same, body]

theorem Follows.app (renamed : Typed.Renames p e e') (he : Follows externals d p e e')
    (full : es.length = es'.length) (hes : ∀ b ∈ es.zip es', Follows externals d p b.1 b.2)
    (ty : Ty) : Follows externals d p (.app ty e es) (.app ty e' es') := by
  intro scope scope' matched
  rw [lower, lower, externalCallee_of_renames renamed matched]
  cases externalCallee externals scope' e' with
  | error err => exact .throw err
  | ok callee =>
      cases callee with
      | some f =>
          refine (Follows.list full hes matched).bind fun a b args => .pure ?_
          refine args.alike ?_ ty.mono
          intro q passes same
          simp [Knf.alphaEqIn, Pairing.sameAll_iff.mpr same]
      | none =>
          refine (he matched).operand.bind fun a b first => ?_
          refine (Follows.list full hes matched).bind fun a' b' args => .pure ?_
          refine (first.append args).alike ?_ ty.mono
          intro q passes same
          rcases same with _ | ⟨same, others⟩
          have others : q.sameAll a'.1 b'.1 = true := Pairing.sameAll_iff.mpr others
          simp [Knf.alphaEqIn, same, others]

theorem Follows.seq (h1 : Follows externals d p e1 e1') (h2 : Follows externals d p e2 e2')
    (ty : Ty) : Follows externals d p (.seq ty e1 e2) (.seq ty e1' e2') := by
  intro scope scope' matched
  rw [lower, lower]
  refine (h1 matched).bind fun a b first => (Together.temporary .unit).bind fun x y names => ?_
  refine (h2 matched).bind fun a' b' second => .pure ⟨second.ty, fun q passes => ?_⟩
  simp [Knf.alphaEqIn, first.code q passes, second.code _ (passes.shifted names)]

theorem Follows.array (h1 : Follows externals d p e1 e1') (h2 : Follows externals d p e2 e2')
    (note : e2.note = e2'.note) (ty : Ty) :
    Follows externals d p (.array ty e1 e2) (.array ty e1' e2') := by
  intro scope scope' matched
  rw [lower, lower, note]
  refine (h1 matched).operand.bind fun a b first => ?_
  refine (h2 matched).operand.bind fun a' b' second => .pure ?_
  refine (first.append second).alike ?_ ty.mono
  intro q passes same
  have same : q.sameAll [a.1, a'.1] [b.1, b'.1] = true := Pairing.sameAll_iff.mpr same
  simp [Knf.alphaEqIn, same]

theorem Follows.put {v v' : Typed} (h1 : Follows externals d p e1 e1')
    (h2 : Follows externals d p e2 e2') (h3 : Follows externals d p v v') (ty : Ty) :
    Follows externals d p (.put ty e1 e2 v) (.put ty e1' e2' v') := by
  intro scope scope' matched
  rw [lower, lower]
  refine (h1 matched).operand.bind fun a b first => ?_
  refine (h2 matched).operand.bind fun a' b' second => ?_
  refine (h3 matched).operand.bind fun a'' b'' third => .pure ?_
  refine ((first.append second).append third).alike ?_ .unit
  intro q passes same
  rcases same with _ | ⟨same, _ | ⟨same', _ | ⟨same'', -⟩⟩⟩
  simp [Knf.alphaEqIn, Pairing.sameOp, same, same', same'']

/-- Terms that differ in the choice of bound names are lowered together, as values and as
    conditions. -/
theorem follows_and_chooses (renamed : Typed.Renames p e e')
    (plain : ∀ x ∈ Typed.boundNames e, x.isTemporary = false)
    (plain' : ∀ x ∈ Typed.boundNames e', x.isTemporary = false) :
    Follows externals d p e e' ∧ FollowsChoosing externals d p e e' := by
  induction renamed with
  | unit | int | float =>
      refine Follows.and_chooses ?_ rfl rfl
      intro scope scope' _
      rw [lower, lower]
      exact .pure ⟨rfl, fun q _ => by simp [Knf.alphaEqIn, Pairing.sameOp]⟩
  | bool =>
      refine Follows.and_chooses ?_ rfl rfl
      intro scope scope' _
      rw [lower, lower]
      exact .truth _
  | var same => exact Follows.and_chooses (Follows.var same _) rfl rfl
  | not _ ih =>
      rw [Typed.boundNames] at plain plain'
      have choice := (ih plain plain').2
      constructor
      · intro scope scope' matched
        rw [lower, lower]
        exact choice matched (.truth false) (.truth true)
      · intro scope scope' yes yes' no no' matched hy hn
        simp only [branch]
        exact choice matched hn hy
  | negate _ ih =>
      rw [Typed.boundNames] at plain plain'
      refine Follows.and_chooses ?_ rfl rfl
      intro scope scope' matched
      rw [lower, lower]
      refine ((ih plain plain').1 matched).unary ?_ _
      intro q x y same
      simp [Pairing.sameOp, same]
  | arith _ _ ihl ihr =>
      rw [Typed.boundNames, List.forall_mem_append] at plain plain'
      refine Follows.and_chooses ?_ rfl rfl
      intro scope scope' matched
      rw [lower, lower]
      refine ((ihl plain.1 plain'.1).1 matched).binary ((ihr plain.2 plain'.2).1 matched) ?_ _
      intro q x y x' y' same same'
      simp [Pairing.sameOp, same, same']
  | compare _ _ ihl ihr =>
      rw [Typed.boundNames, List.forall_mem_append] at plain plain'
      have hl := (ihl plain.1 plain'.1).1
      have hr := (ihr plain.2 plain'.2).1
      constructor
      · intro scope scope' matched
        rw [lower, lower]
        exact (hl matched).compareThen (hr matched) (.truth true) (.truth false) _
      · intro scope scope' yes yes' no no' matched hy hn
        simp only [branch]
        exact (hl matched).compareThen (hr matched) hy hn _
  | ifThenElse _ _ _ ihc iht ihe =>
      rw [Typed.boundNames, List.forall_mem_append, List.forall_mem_append] at plain plain'
      refine Follows.and_chooses ?_ rfl rfl
      intro scope scope' matched
      rw [lower, lower]
      exact (ihc plain.1 plain'.1).2 matched ((iht plain.2.1 plain'.2.1).1 matched)
        ((ihe plain.2.2 plain'.2.2).1 matched)
  | letIn _ _ ih1 ih2 =>
      rw [Typed.boundNames, List.forall_mem_cons, List.forall_mem_append] at plain plain'
      have h1 := (ih1 plain.2.1 plain'.2.1).1
      have h2 := (ih2 plain.2.2 plain'.2.2).1
      exact Follows.and_chooses (Follows.letIn h1 h2 plain.1 plain'.1 _ _) rfl rfl
  | letRec types _ _ ihbody ihrest =>
      rw [Typed.boundNames, ← List.append_assoc, ← List.cons_append,
        List.forall_mem_append, ← List.cons_append, List.forall_mem_append] at plain plain'
      have hbody := (ihbody plain.1.2 plain'.1.2).1
      have hrest := (ihrest plain.2 plain'.2).1
      exact Follows.and_chooses (Follows.letRec types hbody hrest plain.1.1 plain'.1.1 _ _) rfl rfl
  | app renamed full _ ih ihs =>
      rw [Typed.forall_boundNames_app] at plain plain'
      have hes := fun b mem => (ihs b mem (plain.2 _ (List.of_mem_zip mem).1)
        (plain'.2 _ (List.of_mem_zip mem).2)).1
      have he := (ih plain.1 plain'.1).1
      exact Follows.and_chooses (Follows.app renamed he full hes _) rfl rfl
  | tuple full _ ihs =>
      rw [Typed.boundNames, Typed.forall_boundNamesList] at plain plain'
      have hes := fun b mem => (ihs b mem (plain _ (List.of_mem_zip mem).1)
        (plain' _ (List.of_mem_zip mem).2)).1
      refine Follows.and_chooses ?_ rfl rfl
      intro scope scope' matched
      rw [lower, lower]
      refine (Follows.list full hes matched).bind fun a b elems => .pure ?_
      refine elems.alike ?_ _
      intro q passes same
      exact Pairing.sameAll_iff.mpr same
  | letTuple types _ _ ih1 ih2 =>
      rw [Typed.boundNames, List.forall_mem_append, List.forall_mem_append] at plain plain'
      have h1 := (ih1 plain.2.1 plain'.2.1).1
      have h2 := (ih2 plain.2.2 plain'.2.2).1
      exact Follows.and_chooses (Follows.letTuple types h1 h2 plain.1 plain'.1 _) rfl rfl
  | array _ init ihl ihi =>
      rw [Typed.boundNames, List.forall_mem_append] at plain plain'
      have h1 := (ihl plain.1 plain'.1).1
      have h2 := (ihi plain.2 plain'.2).1
      exact Follows.and_chooses (Follows.array h1 h2 (note_eq_of_renames init) _) rfl rfl
  | get _ _ iha ihi =>
      rw [Typed.boundNames, List.forall_mem_append] at plain plain'
      refine Follows.and_chooses ?_ rfl rfl
      intro scope scope' matched
      rw [lower, lower]
      refine ((iha plain.1 plain'.1).1 matched).binary ((ihi plain.2 plain'.2).1 matched) ?_ _
      intro q x y x' y' same same'
      simp [Pairing.sameOp, same, same']
  | put _ _ _ iha ihi ihv =>
      rw [Typed.boundNames, List.forall_mem_append, List.forall_mem_append] at plain plain'
      have h1 := (iha plain.1 plain'.1).1
      have h2 := (ihi plain.2.1 plain'.2.1).1
      have h3 := (ihv plain.2.2 plain'.2.2).1
      exact Follows.and_chooses (Follows.put h1 h2 h3 _) rfl rfl
  | seq _ _ ih1 ih2 =>
      rw [Typed.boundNames, List.forall_mem_append] at plain plain'
      have h1 := (ih1 plain.1 plain'.1).1
      have h2 := (ih2 plain.2 plain'.2).1
      exact Follows.and_chooses (Follows.seq h1 h2 _) rfl rfl

end

/-! ## Programs -/

/-- Lowering does not depend on the spelling of bound names, as long as none of them is
    spelled like an intermediate result.  For programs that differ in the choice of bound names
    only, and from any two supplies, it fails with the same error or gives code that is the
    same up to bound names, of the same type. -/
theorem program_independent_of_names (externals : Signature) (e e' : Typed)
    (renamed : Typed.Renames .empty e e')
    (plain : ∀ x ∈ Typed.boundNames e, x.isTemporary = false)
    (plain' : ∀ x ∈ Typed.boundNames e', x.isTemporary = false) (c c' : Supply) :
    (∃ err, ((program externals e).run.run c).1 = .error err ∧
        ((program externals e').run.run c').1 = .error err) ∨
      ∃ k k' ty, ((program externals e).run.run c).1 = .ok (k, ty) ∧
        ((program externals e').run.run c').1 = .ok (k', ty) ∧ k.alphaEq k' = true := by
  obtain ⟨d, rfl⟩ := exists_skip c c'
  have together : Together d (Alike .empty) (program externals e) (program externals e') :=
    (follows_and_chooses renamed plain plain').1 .empty
  rcases together c with ⟨⟨k, ty⟩, ⟨k', ty'⟩, c₁, first, second, alike⟩ | failed
  · obtain rfl : ty = ty' := alike.ty
    have code := alike.code .empty (.refl _)
    exact .inr ⟨k, k', ty, congrArg Prod.fst first, congrArg Prod.fst second, code⟩
  · obtain ⟨err, c₁, c₂, first, second⟩ := failed
    exact .inl ⟨err, congrArg Prod.fst first, congrArg Prod.fst second⟩

/-- A program that prints a sum, and the same program with other names; the names of the
    pattern are swapped. -/
def addingDoubled : Typed :=
  .letRec .unit ("double", .fn [.int] .int) [("n", .int)]
    (.arith .int (.int .add) (.var .int "n") (.var .int "n"))
    (.letTuple .unit [("a", .int), ("b", .int)]
      (.tuple (.tuple [.int, .int])
        [.int .int 3, .app .int (.var (.fn [.int] .int) "double") [.int .int 4]])
      (.app .unit (.var (.fn [.int] .unit) "print_int")
        [.arith .int (.int .add) (.var .int "a") (.int .int 1)]))

def addingTwice : Typed :=
  .letRec .unit ("twice", .fn [.int] .int) [("double", .int)]
    (.arith .int (.int .add) (.var .int "double") (.var .int "double"))
    (.letTuple .unit [("b", .int), ("a", .int)]
      (.tuple (.tuple [.int, .int])
        [.int .int 3, .app .int (.var (.fn [.int] .int) "twice") [.int .int 4]])
      (.app .unit (.var (.fn [.int] .unit) "print_int")
        [.arith .int (.int .add) (.var .int "b") (.int .int 1)]))

theorem renames_addingDoubled : Typed.Renames .empty addingDoubled addingTwice := by
  refine .letRec rfl (.arith (.var rfl) (.var rfl)) (.letTuple rfl (.tuple rfl ?_) ?_)
  · intro b mem
    fin_cases mem
    · exact .int
    · refine .app (.var rfl) rfl fun b mem => ?_
      fin_cases mem
      exact .int
  · refine .app (.var rfl) rfl fun b mem => ?_
    fin_cases mem
    exact .arith (.var rfl) .int

theorem program_addingDoubled :
    let externals : Signature := [("print_int", .fn [.int] .unit)]
    Typed.Renames .empty addingDoubled addingTwice ∧
      (∀ x ∈ Typed.boundNames addingDoubled, x.isTemporary = false) ∧
      (∀ x ∈ Typed.boundNames addingTwice, x.isTemporary = false) ∧
      ((∃ err, ((program externals addingDoubled).run.run ⟨4294967294⟩).1 = .error err ∧
          ((program externals addingTwice).run.run ⟨7⟩).1 = .error err) ∨
        ∃ k k' ty, ((program externals addingDoubled).run.run ⟨4294967294⟩).1 = .ok (k, ty) ∧
          ((program externals addingTwice).run.run ⟨7⟩).1 = .ok (k', ty) ∧
          k.alphaEq k' = true) :=
  ⟨renames_addingDoubled, by decide, by decide,
    program_independent_of_names _ addingDoubled addingTwice renames_addingDoubled (by decide)
      (by decide) ⟨4294967294⟩ ⟨7⟩⟩

/-- A program that adds to a number with a name. -/
def addingTo (x : Name) : Typed :=
  .letIn .unit (x, .int) (.int .int 5)
    (.app .unit (.var (.fn [.int] .unit) "print_int")
      [.arith .int (.int .add) (.var .int x) (.int .int 2)])

/-- Its code, where the intermediate results have the first names of a supply. -/
def addingToCode (x : Name) : Knf :=
  .letIn x .int (.op (.int 5))
    (.letIn "Ti2" .int
      (.letIn "Ti1" .int (.op (.int 2)) (.op (.arith (.int .add) x "Ti1")))
      (.externApp "print_int" ["Ti2"]))

/-- A name that is spelled like an intermediate result is captured by it: one program adds
    5 and 2 and the other adds 2 and 2. -/
theorem program_addingTo_captured :
    let externals : Signature := [("print_int", .fn [.int] .unit)]
    Typed.Renames .empty (addingTo "x") (addingTo "Ti1") ∧
      ((program externals (addingTo "x")).run.run .new).1 = .ok (addingToCode "x", .unit) ∧
      ((program externals (addingTo "Ti1")).run.run .new).1 = .ok (addingToCode "Ti1", .unit) ∧
      (addingToCode "x").alphaEq (addingToCode "Ti1") = false := by
  refine ⟨.letIn .int (.app (.var rfl) rfl fun b mem => ?_), rfl, rfl, by decide⟩
  fin_cases mem
  exact .arith (.var rfl) .int

end Lowering

end MiddleEnd
