import Mathlib
import MiddleEnd.Proofs.Knf.DeadBindings

/-! # Normal forms of the rewrites

Dropping copies, flattening and dropping dead bindings each do all their work at once.
What each of them leaves is said on its own, of all code inside the result: no `let` binds
a bare name, no `let` binds code that starts with a binder, nothing is bound in vain.  Code
of this form is not changed any more.  Nothing is asked of names, which may hide each other.
-/

namespace MiddleEnd.Knf

def isName : Knf → Bool
  | .op (.var _) => true
  | _ => false

/-- Whether the first thing that the code does is to bind names. -/
def startsWithBinder : Knf → Bool
  | .letIn .. | .letRec .. | .letTuple .. => true
  | .op _ | .branch .. | .app .. | .externApp .. => false

/-- If the code is a `let`, then what it binds is not of this kind. -/
def BindsNo (kind : Knf → Bool) : Knf → Prop
  | .letIn _ _ bound _ => kind bound = false
  | .op _ | .branch .. | .letRec .. | .app .. | .letTuple .. | .externApp .. => True

instance (kind : Knf → Bool) : DecidablePred (BindsNo kind)
  | .letIn _ _ bound _ => inferInstanceAs (Decidable (kind bound = false))
  | .op _ | .branch .. | .letRec .. | .app .. | .letTuple .. | .externApp .. => .isTrue trivial

/-! ## Copies -/

/-- No copy is left, whatever names were replaced on the way. -/
theorem bindsNo_dropCopiesIn (e : Knf) (s : Scope Name) :
    ∀ part ∈ (e.dropCopiesIn s).parts, part.BindsNo isName := by
  induction e generalizing s with
  | op | app | externApp => exact List.forall_mem_singleton.mpr trivial
  | branch test x y e1 e2 ih1 ih2 =>
      rw [dropCopiesIn, parts, List.forall_mem_cons, List.forall_mem_append]
      exact ⟨trivial, ih1 s, ih2 s⟩
  | letIn x ty e1 e2 ih1 ih2 =>
      rw [dropCopiesIn]
      split
      case h_1 y copy => exact ih2 (s.bind x y)
      case h_2 other =>
        have kept : (e1.dropCopiesIn s).isName = false := by
          unfold isName
          split
          case h_1 y copy => exact absurd copy (other y)
          case h_2 => rfl
        rw [parts, List.forall_mem_cons, List.forall_mem_append]
        exact ⟨kept, ih1 s, ih2 s⟩
  | letRec f ty formals body rest ih1 ih2 =>
      rw [dropCopiesIn, parts, List.forall_mem_cons, List.forall_mem_append]
      exact ⟨trivial, ih1 s, ih2 s⟩
  | letTuple pattern y e ih =>
      rw [dropCopiesIn, parts, List.forall_mem_cons]
      exact ⟨trivial, ih s⟩

theorem target_empty : (Scope.empty : Scope Name).target = id := rfl

/-- Where there is no copy, no name is ever replaced. -/
theorem dropCopies_of_bindsNo {e : Knf} (h : ∀ part ∈ e.parts, part.BindsNo isName) :
    e.dropCopies = e := by
  unfold dropCopies
  induction e with
  | op o => rw [dropCopiesIn, target_empty, Op.map_id]
  | app f xs | externApp f xs => simp [dropCopiesIn, target_empty]
  | branch test x y e1 e2 ih1 ih2 =>
      rw [parts, List.forall_mem_cons, List.forall_mem_append] at h
      simp [dropCopiesIn, target_empty, ih1 h.2.1, ih2 h.2.2]
  | letIn x ty e1 e2 ih1 ih2 =>
      rw [parts, List.forall_mem_cons, List.forall_mem_append] at h
      obtain ⟨kept, h1, h2⟩ := h
      rw [dropCopiesIn, ih1 h1]
      split
      case h_1 y => cases kept
      case h_2 => rw [ih2 h2]
  | letRec f ty formals body rest ih1 ih2 =>
      rw [parts, List.forall_mem_cons, List.forall_mem_append] at h
      simp [dropCopiesIn, ih1 h.2.1, ih2 h.2.2]
  | letTuple pattern y e ih =>
      rw [parts, List.forall_mem_cons] at h
      simp [dropCopiesIn, target_empty, ih h.2]

/-! ## Nested binders -/

/-- The binders that are moved outward bind what they bound before. -/
theorem bindsNo_hoist {x : Name} {ty : Mono} {body bound : Knf}
    (hbody : ∀ part ∈ body.parts, part.BindsNo startsWithBinder)
    (hbound : ∀ part ∈ bound.parts, part.BindsNo startsWithBinder) :
    ∀ part ∈ (hoist x ty body bound).parts, part.BindsNo startsWithBinder := by
  induction bound with
  | op | app | externApp | branch =>
      rw [hoist, parts, List.forall_mem_cons, List.forall_mem_append]
      exact ⟨rfl, hbound, hbody⟩
  | letIn y u e1 e2 _ ih =>
      rw [parts, List.forall_mem_cons, List.forall_mem_append] at hbound
      rw [hoist, parts, List.forall_mem_cons, List.forall_mem_append]
      exact ⟨hbound.1, hbound.2.1, ih hbound.2.2⟩
  | letRec f u formals e1 e2 _ ih =>
      rw [parts, List.forall_mem_cons, List.forall_mem_append] at hbound
      rw [hoist, parts, List.forall_mem_cons, List.forall_mem_append]
      exact ⟨trivial, hbound.2.1, ih hbound.2.2⟩
  | letTuple pattern z e ih =>
      rw [parts, List.forall_mem_cons] at hbound
      rw [hoist, parts, List.forall_mem_cons]
      exact ⟨trivial, ih hbound.2⟩

/-- No binder is left right inside bound code. -/
theorem bindsNo_flatten (e : Knf) :
    ∀ part ∈ e.flatten.parts, part.BindsNo startsWithBinder := by
  induction e with
  | op | app | externApp => exact List.forall_mem_singleton.mpr trivial
  | branch test x y e1 e2 ih1 ih2 =>
      rw [flatten, parts, List.forall_mem_cons, List.forall_mem_append]
      exact ⟨trivial, ih1, ih2⟩
  | letIn x ty e1 e2 ih1 ih2 => exact bindsNo_hoist ih2 ih1
  | letRec f ty formals body rest ih1 ih2 =>
      rw [flatten, parts, List.forall_mem_cons, List.forall_mem_append]
      exact ⟨trivial, ih1, ih2⟩
  | letTuple pattern y e ih =>
      rw [flatten, parts, List.forall_mem_cons]
      exact ⟨trivial, ih⟩

theorem hoist_of_startsWithBinder_eq_false {bound : Knf} (h : bound.startsWithBinder = false)
    (x : Name) (ty : Mono) (body : Knf) : hoist x ty body bound = .letIn x ty bound body := by
  cases bound with
  | letIn | letRec | letTuple => cases h
  | op | branch | app | externApp => rfl

theorem flatten_of_bindsNo {e : Knf} (h : ∀ part ∈ e.parts, part.BindsNo startsWithBinder) :
    e.flatten = e := by
  induction e with
  | op | app | externApp => rfl
  | branch test x y e1 e2 ih1 ih2 | letRec _ _ _ e1 e2 ih1 ih2 =>
      rw [parts, List.forall_mem_cons, List.forall_mem_append] at h
      rw [flatten, ih1 h.2.1, ih2 h.2.2]
  | letIn x ty e1 e2 ih1 ih2 =>
      rw [parts, List.forall_mem_cons, List.forall_mem_append] at h
      rw [flatten, ih1 h.2.1, ih2 h.2.2, hoist_of_startsWithBinder_eq_false h.1]
  | letTuple pattern y e ih =>
      rw [parts, List.forall_mem_cons] at h
      rw [flatten, ih h.2]

/-! ## Dead bindings -/

theorem dropDead_of_bindsLive {e : Knf} (h : ∀ part ∈ e.parts, part.BindsLive) :
    e.dropDead = e := by
  induction e with
  | op | app | externApp => rfl
  | branch test x y e1 e2 ih1 ih2 =>
      rw [parts, List.forall_mem_cons, List.forall_mem_append] at h
      rw [dropDead, ih1 h.2.1, ih2 h.2.2]
  | letIn x ty e1 e2 ih1 ih2 =>
      rw [parts, List.forall_mem_cons, List.forall_mem_append] at h
      rw [dropDead, ih1 h.2.1, ih2 h.2.2]
      exact if_pos (isLive_iff.mpr h.1)
  | letRec f ty formals body rest ih1 ih2 =>
      rw [parts, List.forall_mem_cons, List.forall_mem_append] at h
      rw [dropDead, ih1 h.2.1, ih2 h.2.2]
      exact if_pos h.1
  | letTuple pattern y e ih =>
      rw [parts, List.forall_mem_cons] at h
      rw [dropDead, ih h.2]
      exact if_pos (usesAny_iff.mpr h.1)

/-- Dropping copies, flattening and dropping dead bindings reach their normal forms at once, for
    all code.  What is left has, at any depth, no `let` that binds a bare name, no `let` that binds
    code starting with a binder, and no binding that is dead, and a second application changes
    nothing. -/
theorem normal_forms_reached (e : Knf) :
    (e.dropCopies.dropCopies = e.dropCopies ∧
      ∀ part ∈ e.dropCopies.parts, part.BindsNo isName) ∧
    (e.flatten.flatten = e.flatten ∧
      ∀ part ∈ e.flatten.parts, part.BindsNo startsWithBinder) ∧
    (e.dropDead.dropDead = e.dropDead ∧ ∀ part ∈ e.dropDead.parts, part.BindsLive) := by
  have copies : ∀ part ∈ e.dropCopies.parts, part.BindsNo isName := bindsNo_dropCopiesIn e .empty
  have flat := bindsNo_flatten e
  have live := bindsLive_dropDead e
  exact ⟨⟨dropCopies_of_bindsNo copies, copies⟩, ⟨flatten_of_bindsNo flat, flat⟩,
    ⟨dropDead_of_bindsLive live, live⟩⟩

end MiddleEnd.Knf
