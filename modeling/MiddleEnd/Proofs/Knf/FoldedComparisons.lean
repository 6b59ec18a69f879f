import Mathlib
import MiddleEnd.Knf.Folding
import MiddleEnd.Proofs.Double.Numbers
import MiddleEnd.Proofs.Knf.LoweringErrors
import MiddleEnd.Proofs.Knf.LoweringNames

/-! # Comparisons of known floats

A conditional whose condition compares two float literals, under any number of negations, is lowered
to two bindings and one test, and folding decides the test.  The arm that is left is the one that
the standard's comparison chooses, except that strict comparisons with a NaN count as true: they are
compiled as opposites of comparisons that are false.
-/

namespace MiddleEnd

namespace Knf

def letFloats (x : Name) (a : Double) (y : Name) (b : Double) (body : Knf) : Knf :=
  .letIn x .float (.op (.float a)) (.letIn y .float (.op (.float b)) body)

def Knowns.withFloats (s : Knowns) (x : Name) (a : Double) (y : Name) (b : Double) : Knowns :=
  (s.bind x (.float a)).bind y (.float b)

section
variable {s : Knowns} {x y : Name} {a b : Double}

theorem foldConstantsIn_letFloats (body : Knf) :
    (letFloats x a y b body).foldConstantsIn s =
      letFloats x a y b (body.foldConstantsIn (s.withFloats x a y b)) := rfl

theorem test?_of_floats (hx : s.get? x = some (.float a)) (hy : s.get? y = some (.float b))
    (test : Test) : s.test? test x y = some (test.floats a b) := by
  simp [Knowns.test?, Knowns.int?, Knowns.float?, hx, hy]

theorem foldConstantsIn_branch (hx : s.get? x = some (.float a)) (hy : s.get? y = some (.float b))
    (test : Test) (yes no : Knf) : (branch test x y yes no).foldConstantsIn s =
      if test.floats a b then yes.foldConstantsIn s else no.foldConstantsIn s := by
  rw [foldConstantsIn, test?_of_floats hx hy]
  cases test.floats a b <;> rfl

theorem ite_swap (test : Bool) (e1 e2 : Knf) :
    (if test then e1 else e2) = if !test then e2 else e1 := by
  cases test <;> rfl

/-- Folding decides a comparison of known floats. -/
theorem foldConstantsIn_comparison (hx : s.get? x = some (.float a))
    (hy : s.get? y = some (.float b)) (op : Comparison) (yes no : Knf) :
    (Lowering.comparison op x y yes no).foldConstantsIn s =
      if op.floats a b then yes.foldConstantsIn s else no.foldConstantsIn s := by
  cases op with
  | eq | le => exact foldConstantsIn_branch hx hy _ yes no
  | ge => exact foldConstantsIn_branch hy hx _ yes no
  | ne | gt => exact (foldConstantsIn_branch hx hy _ no yes).trans (ite_swap _ _ _)
  | lt => exact (foldConstantsIn_branch hy hx _ no yes).trans (ite_swap _ _ _)

theorem foldConstantsIn_known (ne : x ≠ y) (op : Comparison) (yes no : Knf) :
    (letFloats x a y b (Lowering.comparison op x y yes no)).foldConstantsIn s =
      letFloats x a y b ((if op.floats a b then yes else no).foldConstantsIn
        (s.withFloats x a y b)) := by
  have hx : (s.withFloats x a y b).get? x = some (.float a) := by
    simp [Knowns.withFloats, ne]
  have hy : (s.withFloats x a y b).get? y = some (.float b) := by
    simp [Knowns.withFloats]
  rw [foldConstantsIn_letFloats, foldConstantsIn_comparison hx hy]
  cases op.floats a b <;> rfl

end

end Knf

namespace Lowering

variable {externals : Signature} {scope : Scope Mono} {a b : Double} {c c' : Supply}
  {yes no : Lower Lowered}

/-- The term under negations, with these notes. -/
def negated (notes : List Ty) (e : Typed) : Typed :=
  notes.foldr .not e

/-- Each negation swaps the arms. -/
theorem branch_negated (notes : List Ty) (ty : Ty) (op : Comparison) (l r : Typed)
    (yes no : Lower Lowered) :
    branch externals scope (negated notes (.compare ty op l r))
        (lower externals scope (negated notes (.compare ty op l r))) yes no =
      compareThen op (lower externals scope l) (lower externals scope r)
        (if Even notes.length then yes else no) (if Even notes.length then no else yes) := by
  induction notes generalizing yes no with
  | nil => rfl
  | cons note notes ih =>
      rw [List.length_cons]
      simp only [negated, List.foldr_cons, branch, Nat.even_add_one, ite_not]
      exact ih no yes

/-- A literal is bound to a new name. -/
theorem gives_operand_float (externals : Signature) (scope : Scope Mono) (ty : Ty) (a : Double)
    (c : Supply) :
    Gives (operand (lower externals scope (.float ty a))) c
      (c.temp .float, [((c.temp .float, .float), .op (.float a))]) (c.skip 1) := rfl

/-- Code for a comparison of two literals. -/
theorem gives_compareThen_iff {tyA tyB : Ty} {op : Comparison} {k : Knf} {ty : Mono} :
    Gives (compareThen op (lower externals scope (.float tyA a))
        (lower externals scope (.float tyB b)) yes no) c (k, ty) c' ↔
      ∃ k₁ k₂ ty₂ c₁, Gives yes (c.skip 2) (k₁, ty) c₁ ∧ Gives no c₁ (k₂, ty₂) c' ∧
        k = Knf.letFloats (c.temp .float) a ((c.skip 1).temp .float) b
          (comparison op (c.temp .float) ((c.skip 1).temp .float) k₁ k₂) := by
  have first := gives_operand_float externals scope tyA a c
  have second := gives_operand_float externals scope tyB b (c.skip 1)
  rw [Supply.skip_skip] at second
  constructor
  · intro given
    obtain ⟨x, y, p, c₁, k₁, c₂, k₂, ty₂, named, hy, hn, rfl⟩ := given.of_compareThen
    cases (first.operands_cons second.operands_one).symm.trans named
    exact ⟨k₁, k₂, ty₂, c₂, hy, hn, rfl⟩
  · rintro ⟨k₁, k₂, ty₂, c₁, hy, hn, rfl⟩
    rw [compareThen]
    exact first.bind (second.bind (hy.bind (hn.bind (.pure _ _))))

/-! ## Arms -/

/-- The code is what the term is lowered to, with names from some supply. -/
def HasCode (externals : Signature) (scope : Scope Mono) (e : Typed) (k : Knf) : Prop :=
  ∃ c ty c', Gives (lower externals scope e) c (k, ty) c'

/-- A term that has code from one supply has code from every other. -/
theorem HasCode.gives {e : Typed} {k : Knf} (h : HasCode externals scope e k) (c : Supply) :
    ∃ k' ty c', Gives (lower externals scope e) c (k', ty) c' := by
  obtain ⟨c₀, ty₀, c₁, given⟩ := h
  have fails : FailsAt externals (e.looseIn scope) (lower externals scope e) :=
    (fails_and_chooses e).1 scope
  cases run : (lower externals scope e).run.run c with
  | mk result c' =>
      cases result with
      | ok r => exact ⟨r.1, r.2, c', run⟩
      | error err =>
          obtain ⟨o, mem, wrong⟩ := fails.error run
          rw [fails.fine given o mem] at wrong
          cases wrong

section
variable {notes : List Ty} {ty tyC tyA tyB : Ty} {op : Comparison} {t e : Typed}

theorem lower_conditional : lower externals scope
      (.ifThenElse ty (negated notes (.compare tyC op (.float tyA a) (.float tyB b))) t e) =
    compareThen op (lower externals scope (.float tyA a)) (lower externals scope (.float tyB b))
      (lower externals scope (if Even notes.length then t else e))
      (lower externals scope (if Even notes.length then e else t)) := by
  conv_lhs => rw [lower]
  rw [branch_negated, apply_ite (lower externals scope), apply_ite (lower externals scope)]

/-- Code for the conditional has code for both arms in it. -/
theorem of_conditional {k : Knf} {τ : Mono}
    (given : Gives (lower externals scope
      (.ifThenElse ty (negated notes (.compare tyC op (.float tyA a) (.float tyB b))) t e))
      c (k, τ) c') :
    ∃ k₁ k₂, HasCode externals scope t k₁ ∧ HasCode externals scope e k₂ ∧
      k = Knf.letFloats (c.temp .float) a ((c.skip 1).temp .float) b
        (comparison op (c.temp .float) ((c.skip 1).temp .float)
          (if Even notes.length then k₁ else k₂) (if Even notes.length then k₂ else k₁)) := by
  rw [lower_conditional] at given
  obtain ⟨k₁, k₂, ty₂, c₁, hy, hn, rfl⟩ := gives_compareThen_iff.mp given
  split at hy
  case isTrue even =>
    rw [if_pos even] at hn
    refine ⟨k₁, k₂, ⟨_, _, _, hy⟩, ⟨_, _, _, hn⟩, ?_⟩
    rw [if_pos even, if_pos even]
  case isFalse odd =>
    rw [if_neg odd] at hn
    refine ⟨k₂, k₁, ⟨_, _, _, hn⟩, ⟨_, _, _, hy⟩, ?_⟩
    rw [if_neg odd, if_neg odd]

/-- If the arms have code, then so has the conditional. -/
theorem exists_conditional {k₁ k₂ : Knf} (ht : HasCode externals scope t k₁)
    (he : HasCode externals scope e k₂) (c : Supply) : ∃ k τ c', Gives (lower externals scope
      (.ifThenElse ty (negated notes (.compare tyC op (.float tyA a) (.float tyB b))) t e))
      c (k, τ) c' := by
  have either (p : Prop) [Decidable p] {e1 e2 : Typed} {k k' : Knf}
      (h1 : HasCode externals scope e1 k) (h2 : HasCode externals scope e2 k') (c : Supply) :
      ∃ k τ c', Gives (lower externals scope (if p then e1 else e2)) c (k, τ) c' := by
    split
    · exact h1.gives c
    · exact h2.gives c
  obtain ⟨kf, τ, c₁, first⟩ := either (Even notes.length) ht he (c.skip 2)
  obtain ⟨ks, υ, c₂, second⟩ := either (Even notes.length) he ht c₁
  rw [lower_conditional]
  exact ⟨_, τ, c₂, gives_compareThen_iff.mpr ⟨kf, ks, υ, c₁, first, second, rfl⟩⟩

theorem temp_ne_next (c : Supply) (ty : Mono) : c.temp ty ≠ (c.skip 1).temp ty := by
  intro same
  obtain ⟨eq, -⟩ := Supply.temp_inj.mp same
  exact c.count_skip_ne (j := 0) (k := 1) (by decide) (by decide) (by rw [c.skip_zero, ← eq])

theorem folded_conditional (known : Knf.Knowns) {k : Knf} {τ : Mono}
    (given : Gives (lower externals scope
      (.ifThenElse ty (negated notes (.compare tyC op (.float tyA a) (.float tyB b))) t e))
      c (k, τ) c') :
    ∃ x y k₁ k₂, x ≠ y ∧ HasCode externals scope t k₁ ∧ HasCode externals scope e k₂ ∧
      k.foldConstantsIn known = Knf.letFloats x a y b
        ((if Even notes.length ↔ op.floats a b = true then k₁ else k₂).foldConstantsIn
          (known.withFloats x a y b)) := by
  obtain ⟨k₁, k₂, ht, he, rfl⟩ := of_conditional given
  have ne := temp_ne_next c .float
  refine ⟨_, _, k₁, k₂, ne, ht, he, ?_⟩
  rw [Knf.foldConstantsIn_known ne]
  by_cases even : Even notes.length
  · simp only [even, if_true, true_iff]
  · simp only [even, if_false, false_iff, ite_not]

end

/-- Conditions that compare float literals, under any number of negations.  The conditional has code
    exactly if its arms have, and folding leaves the first arm if the condition is true and the
    second one if it is not.  Here a comparison of numbers, with the infinities, has the meaning of
    the standard, and so have the comparisons with a NaN except for the strict ones, which are
    true. -/
theorem folding_chooses_arm (externals : Signature) (scope : Scope Mono) (known : Knf.Knowns)
    (notes : List Ty) (ty tyC tyA tyB : Ty) (op : Comparison) (a b : Double) (t e : Typed)
    (c : Supply) :
    let condition := negated notes (.compare tyC op (.float tyA a) (.float tyB b))
    let lowering := (lower externals scope (.ifThenElse ty condition t e)).run.run c
    let holds := op.Holds a b ∨ ((op = .lt ∨ op = .gt) ∧ (a.isNaN = true ∨ b.isNaN = true))
    ((∃ k τ, lowering.1 = .ok (k, τ)) ↔
        (∃ k, HasCode externals scope t k) ∧ ∃ k, HasCode externals scope e k) ∧
      ∀ k τ, lowering.1 = .ok (k, τ) →
        ∃ x y k₁ k₂, x ≠ y ∧ HasCode externals scope t k₁ ∧ HasCode externals scope e k₂ ∧
          ((Even notes.length ↔ holds) → k.foldConstantsIn known =
            Knf.letFloats x a y b (k₁.foldConstantsIn (known.withFloats x a y b))) ∧
          (¬ (Even notes.length ↔ holds) → k.foldConstantsIn known =
            Knf.letFloats x a y b (k₂.foldConstantsIn (known.withFloats x a y b))) := by
  intro condition lowering holds
  have gives {k : Knf} {τ : Mono} (lowered : lowering.1 = .ok (k, τ)) :
      Gives (lower externals scope (.ifThenElse ty condition t e)) c (k, τ) lowering.2 :=
    Prod.ext lowered rfl
  refine ⟨⟨?_, ?_⟩, ?_⟩
  · rintro ⟨k, τ, lowered⟩
    obtain ⟨k₁, k₂, ht, he, -⟩ := of_conditional (gives lowered)
    exact ⟨⟨k₁, ht⟩, k₂, he⟩
  · rintro ⟨⟨k₁, ht⟩, k₂, he⟩
    obtain ⟨k, τ, c', given⟩ := exists_conditional ht he c
    exact ⟨k, τ, congrArg Prod.fst given⟩
  · intro k τ lowered
    obtain ⟨x, y, k₁, k₂, ne, ht, he, folded⟩ := folded_conditional known (gives lowered)
    have same : (Even notes.length ↔ op.floats a b = true) ↔ (Even notes.length ↔ holds) := by
      rw [Comparison.floats_iff]
    refine ⟨x, y, k₁, k₂, ne, ht, he, ?_, ?_⟩
    · intro isTrue
      rw [folded, if_pos (same.mpr isTrue)]
    · intro isFalse
      rw [folded, if_neg (mt same.mp isFalse)]

/-- The zeros are equal, so a threefold negation of `-0.0 >= 0.0` chooses the second arm. -/
theorem folding_equal_zeros :
    let a : Double := ⟨0x8000000000000000⟩
    let b : Double := ⟨0⟩
    let condition := negated [.bool, .bool, .bool]
      (.compare .bool .ge (.float .float a) (.float .float b))
    let k := Knf.letFloats "Td1" a "Td2" b (.branch .le "Td2" "Td1" (.op (.int 2)) (.op (.int 1)))
    ((lower [] .empty (.ifThenElse .int condition (.int .int 1) (.int .int 2))).run.run .new).1 =
        .ok (k, .int) ∧
      ∃ x y k₂, HasCode [] .empty (.int .int 2) k₂ ∧ k.foldConstantsIn .empty =
        Knf.letFloats x a y b (k₂.foldConstantsIn (Knf.Knowns.withFloats .empty x a y b)) := by
  intro a b condition k
  have lowered : ((lower [] .empty
      (.ifThenElse .int condition (.int .int 1) (.int .int 2))).run.run .new).1 =
        .ok (k, .int) := rfl
  have outcome : Comparison.ge.floats a b = true := by decide
  have holds := Comparison.floats_iff.mp outcome
  obtain ⟨x, y, k₁, k₂, -, -, he, -, folded⟩ :=
    (folding_chooses_arm [] .empty .empty [.bool, .bool, .bool] .int .bool .float .float .ge a b
      (.int .int 1) (.int .int 2) .new).2 k .int lowered
  refine ⟨lowered, x, y, k₂, he, folded ?_⟩
  intro isTrue
  exact absurd (isTrue.mpr holds) (by decide)

/-- A NaN is not less than zero, but the arm for numbers that are less is left. -/
theorem folding_nan_less :
    let a : Double := ⟨0x7ff8000000000000⟩
    let b : Double := ⟨0⟩
    let condition : Typed := .compare .bool .lt (.float .float a) (.float .float b)
    let k := Knf.letFloats "Td1" a "Td2" b (.branch .le "Td2" "Td1" (.op (.int 2)) (.op (.int 1)))
    ¬ Comparison.lt.Holds a b ∧
      ((lower [] .empty (.ifThenElse .int condition (.int .int 1) (.int .int 2))).run.run .new).1 =
        .ok (k, .int) ∧
      k.foldConstants = Knf.letFloats "Td1" a "Td2" b (.op (.int 1)) := by
  intro a b condition k
  refine ⟨?_, rfl, ?_⟩
  · rw [Comparison.holds_of_isNaN (.inl (by decide))]
    decide
  · have ne : "Td1" ≠ "Td2" := by decide
    have outcome : Comparison.lt.floats a b = true := by decide
    have folded := Knf.foldConstantsIn_known (s := .empty) (a := a) (b := b) ne .lt (.op (.int 1))
      (.op (.int 2))
    rw [if_pos outcome] at folded
    exact folded

end Lowering

end MiddleEnd
