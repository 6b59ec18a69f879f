import Mathlib
import MiddleEnd.Proofs.Semantics.Run

/-! # Behaviour

A program is observed through all its runs, one for each bound on the depth of
calls.  Programs behave the same when they end with the same effects, the same
visible result and the same visible memory, and when they show the same effects
on the way, also if they never end.  `Refines` is what a change of code has to
achieve: a program that never gets stuck still never does, and behaves the same.
-/

namespace MiddleEnd

/-- What can be seen of an outcome without calling functions. -/
def Outcome.observe {W : Outside} {F : Type} (o : Outcome (Value F × Memory W F)) :
    Outcome (Value Unit × Memory W Unit) :=
  ⟨o.effects, match o.ending with
    | .done (v, m) => .done (v.erase, m.erase)
    | .stuck => .stuck
    | .unfinished => .unfinished⟩

/-- The runs of a program by the depth of calls they are allowed. -/
abbrev Runs (W : Outside) (F : Type) := Nat → Outcome (Value F × Memory W F)

namespace Runs

variable {W : Outside} {F G H : Type}

def Safe (r : Runs W F) : Prop :=
  ∀ n, (r n).ending ≠ .stuck

def Ends (r : Runs W F) (t : List Effect) (v : Value Unit) (m : Memory W Unit) : Prop :=
  ∃ n, (r n).observe = ⟨t, .done (v, m)⟩

/-- The program comes to show these effects, whether it ends or not. -/
def Shows (r : Runs W F) (t : List Effect) : Prop :=
  ∃ n, t <+: (r n).effects

/-- Programs that cannot be told apart from outside. -/
structure SameBehaviour (r : Runs W F) (r' : Runs W G) : Prop where
  ends : ∀ t v m, r.Ends t v m ↔ r'.Ends t v m
  shows : ∀ t, r.Shows t ↔ r'.Shows t

/-- The second program can take the place of the first one if that is safe. -/
def Refines (r : Runs W F) (r' : Runs W G) : Prop :=
  r.Safe → r'.Safe ∧ r.SameBehaviour r'

theorem SameBehaviour.trans {r : Runs W F} {r' : Runs W G} {r'' : Runs W H}
    (h : r.SameBehaviour r') (h' : r'.SameBehaviour r'') : r.SameBehaviour r'' :=
  ⟨fun t v m => (h.ends t v m).trans (h'.ends t v m), fun t => (h.shows t).trans (h'.shows t)⟩

theorem Refines.refl (r : Runs W F) : r.Refines r :=
  fun safe => ⟨safe, fun _ _ _ => .rfl, fun _ => .rfl⟩

theorem Refines.trans {r : Runs W F} {r' : Runs W G} {r'' : Runs W H} (h : r.Refines r')
    (h' : r'.Refines r'') : r.Refines r'' := by
  intro safe
  obtain ⟨safe', same⟩ := h safe
  obtain ⟨safe'', same'⟩ := h' safe'
  exact ⟨safe'', same.trans same'⟩

abbrev Related (R : F → G → Prop) (r : Value F × Memory W F) (r' : Value G × Memory W G) : Prop :=
  Value.Rel R r.1 r'.1 ∧ Memory.Rel R r.2 r'.2

section
variable {R : F → G → Prop} {o : Outcome (Value F × Memory W F)}
  {o' : Outcome (Value G × Memory W G)} {t : List Effect} {v : Value Unit} {m : Memory W Unit}

theorem observe_done (h : o.observe = ⟨t, .done (v, m)⟩) :
    ∃ w n, o = ⟨t, .done (w, n)⟩ ∧ v = w.erase ∧ m = n.erase := by
  obtain ⟨u, ⟨w, n⟩ | - | -⟩ := o
  · simp only [Outcome.observe, Outcome.mk.injEq, Ending.done.injEq, Prod.mk.injEq] at h
    obtain ⟨rfl, rfl, rfl⟩ := h
    exact ⟨w, n, rfl, rfl, rfl⟩
  · simp [Outcome.observe] at h
  · simp [Outcome.observe] at h

theorem observe_forth (h : Outcome.Sim (Related R) .forth o o')
    (ends : o.observe = ⟨t, .done (v, m)⟩) : o'.observe = ⟨t, .done (v, m)⟩ := by
  obtain ⟨w, n, rfl, rfl, rfl⟩ := observe_done ends
  cases h with
  | done h => simp only [Outcome.observe, h.1.erase_eq, h.2.erase_eq]

theorem observe_back (h : Outcome.Sim (Related R) .back o o') (safe : o.ending ≠ .stuck)
    (ends : o'.observe = ⟨t, .done (v, m)⟩) : o.observe = ⟨t, .done (v, m)⟩ := by
  obtain ⟨w, n, rfl, rfl, rfl⟩ := observe_done ends
  cases h with
  | done h => simp only [Outcome.observe, h.1.erase_eq, h.2.erase_eq]
  | free => exact absurd rfl safe

theorem effects_forth (h : Outcome.Sim (Related R) .forth o o') (safe : o.ending ≠ .stuck) :
    o.effects <+: o'.effects := by
  cases h with
  | done | unfinished => exact List.prefix_rfl
  | stuck | free => exact absurd rfl safe
  | ahead h => exact h

theorem effects_back (h : Outcome.Sim (Related R) .back o o') (safe : o.ending ≠ .stuck) :
    o'.effects <+: o.effects := by
  cases h with
  | done | unfinished => exact List.prefix_rfl
  | stuck | free => exact absurd rfl safe
  | behind h => exact h

theorem safe_back (h : Outcome.Sim (Related R) .back o o') (safe : o.ending ≠ .stuck) :
    o'.ending ≠ .stuck := by
  cases h with
  | done | unfinished | behind => exact nofun
  | stuck | free => exact absurd rfl safe

end

/-- Runs that follow each other both ways, possibly with other bounds, have the
    same behaviour. -/
theorem Refines.of_sim {R : F → G → Prop} {r : Runs W F} {r' : Runs W G}
    (forth : ∀ n, ∃ m, Outcome.Sim (Related R) .forth (r n) (r' m))
    (back : ∀ m, ∃ n, Outcome.Sim (Related R) .back (r n) (r' m)) : r.Refines r' := by
  intro safe
  refine ⟨?_, ?_, ?_⟩
  · intro m
    obtain ⟨n, h⟩ := back m
    exact safe_back h (safe n)
  · intro t v mem
    constructor
    · rintro ⟨n, ends⟩
      obtain ⟨m, h⟩ := forth n
      exact ⟨m, observe_forth h ends⟩
    · rintro ⟨m, ends⟩
      obtain ⟨n, h⟩ := back m
      exact ⟨n, observe_back h (safe n) ends⟩
  · intro t
    constructor
    · rintro ⟨n, before⟩
      obtain ⟨m, h⟩ := forth n
      exact ⟨m, before.trans (effects_forth h (safe n))⟩
    · rintro ⟨m, before⟩
      obtain ⟨n, h⟩ := back m
      exact ⟨n, before.trans (effects_back h (safe n))⟩

/-- Programs whose runs look the same bound by bound, also where they get stuck. -/
def Matches (r : Runs W F) (r' : Runs W G) : Prop :=
  ∀ n, (r n).observe = (r' n).observe

namespace Matches

variable {r : Runs W F} {r' : Runs W G}

theorem of_sim {R : F → G → Prop} (h : ∀ n, Outcome.Sim (Related R) .same (r n) (r' n)) :
    r.Matches r' := by
  intro n
  generalize r n = o, r' n = o', h n = same
  cases same with
  | done h => simp only [Outcome.observe, h.1.erase_eq, h.2.erase_eq]
  | stuck => rfl
  | unfinished => rfl
  | free h => exact absurd rfl h

theorem effects_eq (h : r.Matches r') (n : Nat) : (r n).effects = (r' n).effects :=
  congrArg Outcome.effects (h n)

theorem stuck_iff (h : r.Matches r') (n : Nat) :
    (r n).ending = .stuck ↔ (r' n).ending = .stuck := by
  have same := congrArg Outcome.ending (h n)
  generalize r n = o at same ⊢
  generalize r' n = o' at same ⊢
  obtain ⟨t, ⟨v, m⟩ | - | -⟩ := o <;> obtain ⟨t', ⟨v', m'⟩ | - | -⟩ := o' <;>
    simp [Outcome.observe] at same ⊢

theorem safe_iff (h : r.Matches r') : r.Safe ↔ r'.Safe :=
  forall_congr' fun n => not_congr (h.stuck_iff n)

theorem sameBehaviour (h : r.Matches r') : r.SameBehaviour r' := by
  constructor
  · intro t v m
    exact exists_congr fun n => by rw [h n]
  · intro t
    exact exists_congr fun n => by rw [h.effects_eq n]

theorem refines (h : r.Matches r') : r.Refines r' :=
  fun safe => ⟨h.safe_iff.mp safe, h.sameBehaviour⟩

end Matches

end Runs

end MiddleEnd
