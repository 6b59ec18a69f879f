import Mathlib
import MiddleEnd.Proofs.Knf.Evaluation

/-! # Code that only reads

Code that is not effectful reads names and arrays and does nothing else.  That it makes no
call is said by comparing evaluations: calls of functions may do anything, and the world
may answer calls of external functions in any way or refuse them; the outcome is the same.
A call that was made would show, since the two evaluations could go on differently there.
-/

namespace MiddleEnd

def Outcome.result? {α β : Type} (o : Outcome (α × β)) : Option α :=
  match o.ending with
  | .done (a, _) => some a
  | .stuck | .unfinished => none

/-- A computation that leaves no trace: it gets stuck, or it ends with the memory
    as it was. -/
def Run.Traceless {W : Outside} {F α : Type} (x : Run W F α) : Prop :=
  ∀ m, x m = ⟨[], .stuck⟩ ∨ ∃ a, x m = ⟨[], .done (a, m)⟩

/-- Computations that only read, possibly in different worlds: from memories with the same
    arrays both get stuck, or both end with the same value.  No effect is shown, and each
    memory is left as it was. -/
def Run.ReadAlike {W W' : Outside} {F α : Type} (x : Run W F α) (y : Run W' F α) : Prop :=
  ∀ m m', m.arrays = m'.arrays →
    x m = ⟨[], .stuck⟩ ∧ y m' = ⟨[], .stuck⟩ ∨
      ∃ a, x m = ⟨[], .done (a, m)⟩ ∧ y m' = ⟨[], .done (a, m')⟩

namespace Run.ReadAlike

variable {W W' : Outside} {F α β : Type}

theorem pure (a : α) : ReadAlike (Pure.pure a : Run W F α) (Pure.pure a : Run W' F α) :=
  fun _ _ _ => .inr ⟨a, rfl, rfl⟩

theorem stuck : ReadAlike (Run.stuck : Run W F α) (Run.stuck : Run W' F α) :=
  fun _ _ _ => .inl ⟨rfl, rfl⟩

theorem ofOption (a : Option α) :
    ReadAlike (Run.ofOption a : Run W F α) (Run.ofOption a : Run W' F α) := by
  cases a with
  | none => exact stuck
  | some a => exact pure a

theorem load (place : Nat × Nat) :
    ReadAlike (Run.load place : Run W F (Value F)) (Run.load place : Run W' F (Value F)) := by
  intro m m' arrays
  simp only [Run.load, arrays]
  cases m'.arrays.load? place with
  | none => exact .inl ⟨rfl, rfl⟩
  | some v => exact .inr ⟨v, rfl, rfl⟩

theorem bind {x : Run W F α} {y : Run W' F α} {f : α → Run W F β} {g : α → Run W' F β}
    (h : ReadAlike x y) (hf : ∀ a, ReadAlike (f a) (g a)) : ReadAlike (x >>= f) (y >>= g) := by
  intro m m' arrays
  rw [Run.bind_apply, Run.bind_apply]
  rcases h m m' arrays with ⟨hx, hy⟩ | ⟨a, hx, hy⟩
  · exact .inl ⟨by rw [hx]; rfl, by rw [hy]; rfl⟩
  · rw [hx, hy]
    exact hf a m m' arrays

end Run.ReadAlike

/-- Of all operations only a store is noticed. -/
theorem Op.readAlike {W W' : Outside} {F : Type} (same : W.external = W'.external)
    (look : Name → Option (Value F)) {o : Op} (quiet : o.isEffectful = false) :
    Run.ReadAlike (o.eval look : Run W F (Value F)) (o.eval look : Run W' F (Value F)) := by
  cases o with
  | unit | int | float => exact .pure _
  | negate => exact .bind (.ofOption _) fun _ => .ofOption _
  | arith => exact .bind (.ofOption _) fun _ => .bind (.ofOption _) fun _ => .ofOption _
  | var => exact .ofOption _
  | tuple => exact .bind (.ofOption _) fun _ => .pure _
  | get =>
      exact .bind (.ofOption _) fun _ => .bind (.ofOption _) fun _ =>
        .bind (.ofOption _) fun _ => .load _
  | put => cases quiet
  | externArray =>
      simp only [eval, same]
      exact .bind (.ofOption _) fun _ => .pure _

namespace Knf

/-- The body of a function is not looked at: it runs in a call, and there is none. -/
theorem readAlike {W W' : Outside} (same : W.external = W'.external)
    (call : Closure → List (Value Closure) → Run W Closure (Value Closure))
    (call' : Closure → List (Value Closure) → Run W' Closure (Value Closure)) {e : Knf}
    (quiet : e.isEffectful = false) (env : Env) :
    Run.ReadAlike (e.evalWith call env) (e.evalWith call' env) := by
  induction e generalizing env with
  | op o => exact Op.readAlike same _ quiet
  | branch test x y e1 e2 ih1 ih2 =>
      simp only [isEffectful, Bool.or_eq_false_iff] at quiet
      refine .bind (.ofOption _) fun v => .bind (.ofOption _) fun w => .bind (.ofOption _) ?_
      rintro (- | -)
      · exact ih2 quiet.2 env
      · exact ih1 quiet.1 env
  | letIn x ty e1 e2 ih1 ih2 =>
      simp only [isEffectful, Bool.or_eq_false_iff] at quiet
      exact .bind (ih1 quiet.1 env) fun v => ih2 quiet.2 (env.bind x v)
  | letRec f ty formals body rest _ ih => exact ih quiet _
  | app => cases quiet
  | letTuple pattern y e ih =>
      refine .bind (.ofOption _) fun v => .bind (.ofOption _) fun vs => ?_
      split
      · exact ih quiet _
      · exact .stuck
  | externApp => cases quiet

/-- Code that is not effectful leaves no trace. -/
theorem traceless {W : Outside}
    {call : Closure → List (Value Closure) → Run W Closure (Value Closure)} {e : Knf}
    (quiet : e.isEffectful = false) (env : Env) : (e.evalWith call env).Traceless := by
  intro m
  rcases readAlike rfl call call quiet env m m rfl with ⟨stuck, -⟩ | ⟨v, done, -⟩
  · exact .inl stuck
  · exact .inr ⟨v, done⟩

/-- Code that is not effectful only reads, in every environment and from every memory.  With
    every bound on the depth of calls, also if none is allowed, it ends or gets stuck, without
    an effect and with the memory as it was.  It calls no function: what calls do makes no
    difference.  It calls no external function, whether that would answer or not: the result is
    the same in all worlds that have the same external arrays. -/
theorem quiet_only_reads {e : Knf} (quiet : e.isEffectful = false) (W : Outside) (env : Env)
    (m : Memory W Closure) :
    (∀ depth, e.runsIn W env m depth = ⟨[], .stuck⟩ ∨
      ∃ v, e.runsIn W env m depth = ⟨[], .done (v, m)⟩) ∧
    (∀ call call', e.evalWith call env m = e.evalWith call' env m) ∧
    ∀ (W' : Outside) (m' : Memory W' Closure), W.external = W'.external → m.arrays = m'.arrays →
      ∀ depth, (e.runsIn W env m depth).result? = (e.runsIn W' env m' depth).result? := by
  refine ⟨fun depth => traceless quiet env m, fun call call' => ?_,
    fun W' m' same arrays depth => ?_⟩
  · rcases readAlike rfl call call' quiet env m m rfl with ⟨left, right⟩ | ⟨v, left, right⟩
    · rw [left, right]
    · rw [left, right]
  · rw [runsIn, runsIn]
    rcases readAlike same (call W depth) (call W' depth) quiet env m m' arrays with
      ⟨left, right⟩ | ⟨v, left, right⟩
    · rw [left, right]
      rfl
    · rw [left, right]
      rfl

/-- Code that defines a function which would run forever and one which would be noticed, and
    then reads an array at a place that comes out of a tuple. -/
def peek : Knf :=
  .letRec "loop" (.fn [.int] .int) [("n", .int)] (.app "loop" ["n"])
    (.letRec "log" (.fn [.int] .unit) [("n", .int)] (.externApp "print_int" ["n"])
      (.letTuple [("a", .array .int), ("i", .int)] "t"
        (.letIn "v" .int (.op (.get "a" "i"))
          (.branch .eq "v" "i" (.op (.var "log")) (.op (.tuple ["v", "loop", "i"]))))))

def peekEnv : Env :=
  Scope.empty.bindAll [("t", .tuple [.array 0, .int 1])]

def peekMemory : Memory .accepting Closure :=
  ⟨[[.int 5, .int 7]], ()⟩

/-- The functions are passed on, and with every bound the code ends. -/
theorem peek_only_reads :
    peek.isEffectful = false ∧
    ∃ loop, ∀ depth, peek.runsIn .accepting peekEnv peekMemory depth =
      ⟨[], .done (.tuple [.int 7, .fn loop, .int 1], peekMemory)⟩ := by
  obtain ⟨-, uncalled, -⟩ := quiet_only_reads (e := peek) rfl .accepting peekEnv peekMemory
  exact ⟨rfl, _, fun depth => (uncalled (call .accepting depth) (call .accepting 0)).trans rfl⟩

end Knf

end MiddleEnd
