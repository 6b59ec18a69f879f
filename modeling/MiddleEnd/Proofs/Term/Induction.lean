import Mathlib
import MiddleEnd.Term

/-! # Induction on terms

A term holds lists of terms where it is an application or a tuple; there the
hypothesis of the induction is about every member of the list.
-/

namespace MiddleEnd.Term

@[elab_as_elim]
theorem induct {Note Ann : Type} {P : Term Note Ann → Prop}
    (unit : ∀ n, P (.unit n)) (bool : ∀ n b, P (.bool n b)) (int : ∀ n i, P (.int n i))
    (float : ∀ n d, P (.float n d)) (not : ∀ n e, P e → P (.not n e))
    (negate : ∀ n op e, P e → P (.negate n op e))
    (arith : ∀ n op l r, P l → P r → P (.arith n op l r))
    (compare : ∀ n op l r, P l → P r → P (.compare n op l r))
    (ifThenElse : ∀ n c t e, P c → P t → P e → P (.ifThenElse n c t e))
    (letIn : ∀ n x e1 e2, P e1 → P e2 → P (.letIn n x e1 e2)) (var : ∀ n x, P (.var n x))
    (letRec : ∀ n f formals body rest, P body → P rest → P (.letRec n f formals body rest))
    (app : ∀ n e es, P e → (∀ a ∈ es, P a) → P (.app n e es))
    (tuple : ∀ n es, (∀ a ∈ es, P a) → P (.tuple n es))
    (letTuple : ∀ n pattern e1 e2, P e1 → P e2 → P (.letTuple n pattern e1 e2))
    (array : ∀ n len init, P len → P init → P (.array n len init))
    (get : ∀ n a i, P a → P i → P (.get n a i))
    (put : ∀ n a i v, P a → P i → P v → P (.put n a i v))
    (seq : ∀ n e1 e2, P e1 → P e2 → P (.seq n e1 e2)) (e : Term Note Ann) : P e :=
  @Term.rec Note Ann P (fun es => ∀ a ∈ es, P a) unit bool int float not negate arith compare
    ifThenElse letIn var letRec app tuple letTuple array get put seq
    nofun (fun _ _ head tail => List.forall_mem_cons.mpr ⟨head, tail⟩) e

end MiddleEnd.Term
