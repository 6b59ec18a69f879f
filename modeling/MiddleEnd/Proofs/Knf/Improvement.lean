import Mathlib
import MiddleEnd.Knf.Flattening
import MiddleEnd.Knf.Folding
import MiddleEnd.Proofs.Knf.Evaluation

/-! # Improvement of K-normal code, as a relation

`Improves` has a rule for every change that the rewrites of K-normal code make:
names are replaced, copies and dead bindings go, bindings are moved outward,
operations and tests on known values are carried out, and calls are replaced by
the bodies of functions.  What makes a change right where it happens is a
`Context`, which relates the names in force before the change to those after it.
The relation says nothing about how a rewrite finds its changes.
-/

namespace MiddleEnd.Knf

/-- What is known at a place of the code about the values of names there, before
    and after the change of the code. -/
structure Context where
  /-- The names that may be bound before the change. -/
  before : Name → Prop
  /-- The names that may be bound after the change. -/
  after : Name → Prop
  /-- The value of the name, before, is what the operation yields, after. -/
  fact : Name → Op → Prop
  /-- The name, before, is bound to the function with these formals and this body,
      which was defined where the given names were bound; none of these has been
      bound again. -/
  function : Name → List Name → Knf → (Name → Prop) → Prop

namespace Context

def start : Context :=
  ⟨fun _ => False, fun _ => False, fun _ _ => False, fun _ _ _ _ => False⟩

/-- An occurrence of the name may be replaced by the operation.  Nothing is asked
    of a name that is not bound, since to use it is to be stuck. -/
def Means (Φ : Context) (x : Name) (o : Op) : Prop :=
  Φ.before x → Φ.fact x o

def bindBefore (Φ : Context) (x : Name) : Context where
  before a := a = x ∨ Φ.before a
  after := Φ.after
  fact a o := a ≠ x ∧ Φ.fact a o
  function f formals body bound := Φ.function f formals body bound ∧ f ≠ x ∧ ¬ bound x

def bindAfter (Φ : Context) (x : Name) : Context where
  before := Φ.before
  after a := a = x ∨ Φ.after a
  fact a o := Φ.fact a o ∧ (x ∈ o.names → ¬ Φ.after x)
  function := Φ.function

def learn (Φ : Context) (x : Name) (o : Op) : Context :=
  { Φ with fact := fun a p => Φ.fact a p ∨ (a = x ∧ p = o) }

/-- What the code bound to a name tells about its value. -/
def learnCode (Φ : Context) (x : Name) : Knf → Context
  | .op o => if o.isKnown then Φ.learn x o else Φ
  | _ => Φ

/-- A binder `x` becomes a binder `y`. -/
def bind (Φ : Context) (x y : Name) : Context :=
  ((Φ.bindBefore x).bindAfter y).learn x (.var y)

/-- A binder `x` of code becomes a binder `y` of the code `e`. -/
def bindTo (Φ : Context) (x y : Name) (e : Knf) : Context :=
  (((Φ.bindBefore x).learnCode x e).bindAfter y).learn x (.var y)

/-- A binder `x` goes, and `y` is used in its place. -/
def replace (Φ : Context) (x y : Name) : Context :=
  (Φ.bindBefore x).learn x (.var y)

def bindEach (Φ : Context) (pairs : List (Name × Name)) : Context :=
  pairs.foldl (fun Φ p => Φ.bind p.1 p.2) Φ

def replaceEach (Φ : Context) (pairs : List (Name × Name)) : Context :=
  pairs.foldl (fun Φ p => Φ.replace p.1 p.2) Φ

def bindAfterEach (Φ : Context) (xs : List Name) : Context :=
  xs.foldl bindAfter Φ

/-- A function definition, whose name `f` becomes `g`. -/
def define (Φ : Context) (f g : Name) (formals : List Name) (body : Knf) : Context :=
  { Φ.bind f g with
    function := fun h fs e bound => (Φ.bind f g).function h fs e bound ∨
      (h = f ∧ fs = formals ∧ e = body ∧ bound = (Φ.bind f g).before) }

/-- The context of a function body, when the body is copied to another place: only
    the names bound at its definition count. -/
def only (Φ : Context) (bound : Name → Prop) : Context :=
  { Φ with before := bound, function := fun _ _ _ _ => False }

def Decides (Φ : Context) (test : Test) (x y : Name) (b : Bool) : Prop :=
  (∃ m n, Φ.Means x (.int m) ∧ Φ.Means y (.int n) ∧ test.ints m n = b) ∨
    (∃ c d, Φ.Means x (.float c) ∧ Φ.Means y (.float d) ∧ test.floats c d = b)

end Context

/-- The name bound by each binder that code starts with. -/
def leading : Knf → List Name
  | .letIn x _ _ e => x :: e.leading
  | .letRec f _ _ _ e => f :: e.leading
  | .letTuple pattern _ e => pattern.map (·.1) ++ e.leading
  | .op _ | .branch .. | .app .. | .externApp .. => []

inductive OpImproves (Φ : Context) : Op → Op → Prop where
  | renamed {o : Op} {ρ : Name → Name} (h : ∀ x ∈ o.names, Φ.Means x (.var (ρ x))) :
      OpImproves Φ o (o.map ρ)
  | known {x o} : Φ.Means x o → OpImproves Φ (.var x) o
  | negateInt {x n} : Φ.Means x (.int n) → OpImproves Φ (.negate .int x) (.int (-n))
  | negateFloat {x d} : Φ.Means x (.float d) → OpImproves Φ (.negate .float x) (.float d.neg)
  | arithInt {op x y m n} : Φ.Means x (.int m) → Φ.Means y (.int n) →
      OpImproves Φ (.arith (.int op) x y) (.int (op.apply m n))
  | arithFloat {op x y c d} : Φ.Means x (.float c) → Φ.Means y (.float d) →
      OpImproves Φ (.arith (.float op) x y) (.float (op.apply c d))

/-- Code may be replaced by other code.  Binders keep their types.  The flag tells whether calls may have been
    expanded; a body that takes the place of a call has no expanded calls in it,
    except in the functions that it defines. -/
inductive Improves : Bool → Context → Knf → Knf → Prop where
  | op {i Φ o o'} : OpImproves Φ o o' → Improves i Φ (.op o) (.op o')
  | branch {i Φ test x x' y y' e1 e1' e2 e2'} :
      Φ.Means x (.var x') → Φ.Means y (.var y') → Improves i Φ e1 e1' → Improves i Φ e2 e2' →
      Improves i Φ (.branch test x y e1 e2) (.branch test x' y' e1' e2')
  | decided {i Φ test x y e1 e2 e'} (b : Bool) : Φ.Decides test x y b →
      Improves i Φ (if b then e1 else e2) e' → Improves i Φ (.branch test x y e1 e2) e'
  | letIn {i Φ x x' ty e1 e1' e2 e2'} :
      Improves i Φ e1 e1' → Improves i (Φ.bindTo x x' e1') e2 e2' →
      Improves i Φ (.letIn x ty e1 e2) (.letIn x' ty e1' e2')
  | copy {i Φ x y ty e1 e2 e2'} :
      Improves i Φ e1 (.op (.var y)) → Improves i (Φ.replace x y) e2 e2' →
      Improves i Φ (.letIn x ty e1 e2) e2'
  | dropLet {i Φ x ty e1 e2 e2'} :
      e1.isEffectful = false → Improves i (Φ.bindBefore x) e2 e2' →
      Improves i Φ (.letIn x ty e1 e2) e2'
  | hoist {i Φ x x' ty e1 e1' e2 e2'} :
      Improves i Φ e1 e1' → Improves i ((Φ.bindAfterEach e1'.leading).bind x x') e2 e2' →
      Improves i Φ (.letIn x ty e1 e2) (hoist x' ty e2' e1')
  | letRec {i Φ f f' ty formals formals' body body' rest rest'} :
      formals.map (·.2) = formals'.map (·.2) →
      Improves true ((Φ.define f f' (formals.map (·.1)) body).bindEach
        ((formals.map (·.1)).zip (formals'.map (·.1)))) body body' →
      Improves i (Φ.define f f' (formals.map (·.1)) body) rest rest' →
      Improves i Φ (.letRec f ty formals body rest) (.letRec f' ty formals' body' rest')
  | dropRec {i Φ f ty formals body rest rest'} :
      Improves i (Φ.bindBefore f) rest rest' →
      Improves i Φ (.letRec f ty formals body rest) rest'
  | app {i Φ f f' xs xs'} :
      Φ.Means f (.var f') → List.Forall₂ (fun x x' => Φ.Means x (.var x')) xs xs' →
      Improves i Φ (.app f xs) (.app f' xs')
  | expand {Φ f formals body bound xs xs' e'} :
      Φ.function f formals body bound →
      List.Forall₂ (fun x x' => Φ.Means x (.var x')) xs xs' →
      Improves false ((Φ.only bound).replaceEach (formals.zip xs')) body e' →
      Improves true Φ (.app f xs) e'
  | letTuple {i Φ pattern pattern' y y' e e'} :
      pattern.map (·.2) = pattern'.map (·.2) → Φ.Means y (.var y') →
      Improves i (Φ.bindEach ((pattern.map (·.1)).zip (pattern'.map (·.1)))) e e' →
      Improves i Φ (.letTuple pattern y e) (.letTuple pattern' y' e')
  | split {i Φ pattern y zs e e'} :
      zs.length = pattern.length → Φ.Means y (.tuple zs) → (∀ b ∈ pattern, ¬ Φ.after b.1) →
      Improves i (Φ.bindEach ((pattern.map (·.1)).zip (pattern.map (·.1)))) e e' →
      Improves i Φ (.letTuple pattern y e) (letEach (pattern.zip zs) e')
  | dropTuple {i Φ pattern y e e'} :
      Improves i ((pattern.map (·.1)).foldl Context.bindBefore Φ) e e' →
      Improves i Φ (.letTuple pattern y e) e'
  | externApp {i Φ f xs xs'} :
      List.Forall₂ (fun x x' => Φ.Means x (.var x')) xs xs' →
      Improves i Φ (.externApp f xs) (.externApp f xs')

mutual
/-- A function value after the change of the code. -/
inductive Closure.Rel : Closure → Closure → Prop where
  | mk {Φ : Context} {env env' : Env} {f f' formals formals' body body'}
      (length : formals.length = formals'.length)
      (holds : Context.Holds Φ env env')
      (improves : Improves true
        ((Φ.define f f' formals body).bindEach (formals.zip formals')) body body') :
      Closure.Rel (.mk env f formals body) (.mk env' f' formals' body')

/-- The context describes the values of names before and after the change. -/
inductive Context.Holds : Context → Env → Env → Prop where
  | mk {Φ : Context} {env env' : Env}
      (before : ∀ x v, env.get? x = some v → Φ.before x)
      (after : ∀ x v, env'.get? x = some v → Φ.after x)
      (present : ∀ x o, Φ.fact x o → ∀ v, env.get? x = some v →
        (o.value? env'.get?).isSome)
      (related : ∀ x o, Φ.fact x o → ∀ v, env.get? x = some v →
        ∀ v', o.value? env'.get? = some v' → Value.Rel Closure.Rel v v')
      (function : ∀ f formals body bound, Φ.function f formals body bound →
        ∀ v, env.get? f = some v → ∃ outer, v = .fn (.mk outer f formals body) ∧ bound f ∧
          ∀ a w, outer.get? a = some w → bound a ∧ (a ≠ f → env.get? a = some w)) :
      Context.Holds Φ env env'
end

end MiddleEnd.Knf
