import Mathlib

/-! # Steps with a state

The passes of the middle end are put together from steps that may change a state
and may fail.  A proof about a composed step takes it apart here, at its results.
-/

namespace MiddleEnd

namespace Step

variable {σ α β : Type}

theorem run_pure (a : α) (s : σ) : (pure a : StateM σ α).run s = (a, s) := rfl

theorem run_get (s : σ) : (get : StateM σ σ).run s = (s, s) := rfl

theorem run_bind (x : StateM σ α) (f : α → StateM σ β) (s : σ) :
    (x >>= f).run s = (f (x.run s).1).run (x.run s).2 := rfl

theorem run_bind_except {ε : Type} (x : ExceptT ε (StateM σ) α) (f : α → ExceptT ε (StateM σ) β)
    (s : σ) :
    (x >>= f).run.run s =
      match x.run.run s with
      | (.ok a, s₁) => (f a).run.run s₁
      | (.error e, s₁) => (.error e, s₁) := by
  cases eq : x.run.run s with
  | mk r s₁ => cases r <;> simp [ExceptT.run_bind, StateT.run_bind, eq] <;> rfl

end Step

/-- From every state that satisfies the condition the step returns this result, and the
    condition still holds. -/
def Returns {σ α : Type} (I : σ → Prop) (x : StateM σ α) (a : α) : Prop :=
  ∀ s, I s → (x.run s).1 = a ∧ I (x.run s).2

namespace Returns

variable {σ α β : Type} {I : σ → Prop}

theorem pure (a : α) : Returns I (Pure.pure a) a :=
  fun _ h => ⟨rfl, h⟩

theorem bind {x : StateM σ α} {f : α → StateM σ β} {a : α} {b : β} (hx : Returns I x a)
    (hf : Returns I (f a) b) : Returns I (x >>= f) b := by
  intro s hs
  obtain ⟨eq, hs'⟩ := hx s hs
  rw [Step.run_bind, eq]
  exact hf _ hs'

theorem mapM {f : α → StateM σ β} {g : α → β} {as : List α}
    (h : ∀ a ∈ as, Returns I (f a) (g a)) : Returns I (as.mapM f) (as.map g) := by
  induction as with
  | nil => exact .pure _
  | cons a as ih =>
      rw [List.mapM_cons]
      rw [List.forall_mem_cons] at h
      exact h.1.bind ((ih h.2).bind (.pure _))

end Returns

def Preserves {σ α : Type} (I : σ → Prop) (x : StateM σ α) : Prop :=
  ∀ s, I s → I (x.run s).2

namespace Preserves

variable {σ α β : Type} {I : σ → Prop}

theorem pure (a : α) : Preserves I (Pure.pure a) :=
  fun _ h => h

theorem bind {x : StateM σ α} {f : α → StateM σ β} (hx : Preserves I x)
    (hf : ∀ a, Preserves I (f a)) : Preserves I (x >>= f) :=
  fun s hs => hf _ _ (hx s hs)

end Preserves

theorem Returns.and {σ α : Type} {I J : σ → Prop} {x : StateM σ α} {a : α} (h : Returns I x a)
    (keeps : Preserves J x) : Returns (fun s => I s ∧ J s) x a := by
  rintro s ⟨hI, hJ⟩
  exact ⟨(h s hI).1, (h s hI).2, keeps s hJ⟩

/-- The step succeeds with this result and leaves this state. -/
def Gives {ε σ α : Type} (x : ExceptT ε (StateM σ) α) (s : σ) (a : α) (s' : σ) : Prop :=
  x.run.run s = (.ok a, s')

namespace Gives

variable {ε σ α β : Type} {s s' : σ}

theorem of_pure {a b : α} (h : Gives (pure a : ExceptT ε (StateM σ) α) s b s') :
    b = a ∧ s' = s := by
  cases h
  exact ⟨rfl, rfl⟩

theorem of_lift {x : StateM σ α} {a : α} (h : Gives (liftM x : ExceptT ε (StateM σ) α) s a s') :
    a = (x.run s).1 ∧ s' = (x.run s).2 := by
  cases h
  exact ⟨rfl, rfl⟩

theorem of_bind {x : ExceptT ε (StateM σ) α} {f : α → ExceptT ε (StateM σ) β} {b : β}
    (h : Gives (x >>= f) s b s') : ∃ a s₁, Gives x s a s₁ ∧ Gives (f a) s₁ b s' := by
  rw [Gives, Step.run_bind_except] at h
  split at h
  · rename_i a s₁ eq
    exact ⟨a, s₁, eq, h⟩
  · cases h

theorem pure (a : α) (s : σ) : Gives (Pure.pure a : ExceptT ε (StateM σ) α) s a s := rfl

theorem lift {x : StateM σ α} {a : α} (run : x.run s = (a, s')) :
    Gives (liftM x : ExceptT ε (StateM σ) α) s a s' := by
  show (Except.ok (x.run s).1, (x.run s).2) = _
  rw [run]

theorem bind {x : ExceptT ε (StateM σ) α} {f : α → ExceptT ε (StateM σ) β} {a : α} {b : β}
    {s₁ : σ} (hx : Gives x s a s₁) (hf : Gives (f a) s₁ b s') : Gives (x >>= f) s b s' := by
  rw [Gives] at hx
  rw [Gives, Step.run_bind_except, hx]
  exact hf

end Gives

end MiddleEnd
