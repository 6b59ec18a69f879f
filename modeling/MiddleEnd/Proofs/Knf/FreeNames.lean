import Mathlib
import MiddleEnd.Proofs.Knf.Passes
import MiddleEnd.Proofs.Knf.Relabelling

/-! # Rewrites free no names

None of the rewrites makes a name free that was not, whatever names the code has: it may
bind a name twice or hide one by another.  Hence closed code stays closed.
-/

namespace MiddleEnd.Knf

/-- Every free name of the code is one of those in `P`. -/
def Uses : Knf → (Name → Prop) → Prop
  | .op o, P => ∀ x ∈ o.names, P x
  | .branch _ x y e1 e2, P => P x ∧ P y ∧ e1.Uses P ∧ e2.Uses P
  | .letIn x _ e1 e2, P => e1.Uses P ∧ e2.Uses fun u => u = x ∨ P u
  | .letRec f _ formals body rest, P =>
      (body.Uses fun u => u ∈ formals.map (·.1) ∨ u = f ∨ P u) ∧ rest.Uses fun u => u = f ∨ P u
  | .app f xs, P => P f ∧ ∀ x ∈ xs, P x
  | .letTuple pattern y e, P => P y ∧ e.Uses fun u => u ∈ pattern.map (·.1) ∨ P u
  | .externApp _ xs, P => ∀ x ∈ xs, P x

theorem uses_iff {e : Knf} {P : Name → Prop} : e.Uses P ↔ ∀ x ∈ e.freeVars, P x := by
  induction e generalizing P with
  | op o => rfl
  | branch test x y e1 e2 ih1 ih2 =>
      simp only [Uses, freeVars, List.forall_mem_cons, List.forall_mem_append, ih1, ih2]
  | letIn x ty e1 e2 ih1 ih2 =>
      simp only [Uses, freeVars, List.forall_mem_append, List.mem_filter, decide_eq_true_eq, and_imp,
        ih1, ih2, or_iff_not_imp_left]
  | letRec f ty formals body rest ih1 ih2 =>
      simp only [Uses, freeVars, List.filter_append, List.forall_mem_append, List.mem_filter,
        decide_eq_true_eq, and_imp, ih1, ih2, or_iff_not_imp_left]
  | app f xs => simp only [Uses, freeVars, List.forall_mem_cons]
  | letTuple pattern y e ih =>
      simp only [Uses, freeVars, List.forall_mem_cons, List.mem_filter, decide_eq_true_eq, and_imp, ih,
        or_iff_not_imp_left]
  | externApp f xs => rfl

theorem closed_iff {e : Knf} : e.freeVars = [] ↔ e.Uses fun _ => False := by
  rw [uses_iff, List.eq_nil_iff_forall_not_mem]

section
variable {P Q : Name → Prop} {e : Knf}

theorem Uses.mono (h : e.Uses P) (sub : ∀ x, P x → Q x) : e.Uses Q :=
  uses_iff.mpr fun x hx => sub x (uses_iff.mp h x hx)

/-- A name that is not used need not be bound. -/
theorem Uses.of_notMem {bound : Name → Prop} (h : e.Uses fun u => bound u ∨ P u)
    (unused : ∀ x ∈ e.freeVars, ¬ bound x) : e.Uses P :=
  uses_iff.mpr fun x hx => (uses_iff.mp h x hx).resolve_left (unused x hx)

theorem target_bind_or {s : Scope Name} {u x x' : Name} (h : u = x ∨ P (s.target u)) :
    (s.bind x x').target u = x' ∨ P ((s.bind x x').target u) := by
  rw [Scope.target, Scope.get?_bind]
  split
  case isTrue => exact .inl rfl
  case isFalse ne => exact .inr (h.resolve_left ne)

theorem target_bindAll_or {s : Scope Name} {u : Name} {xs ys : List Name}
    (full : ys.length = xs.length) (h : u ∈ xs ∨ P (s.target u)) :
    (s.bindAll (xs.zip ys)).target u ∈ ys ∨ P ((s.bindAll (xs.zip ys)).target u) := by
  rw [← Scope.target_bindEach, Scope.target]
  by_cases hu : u ∈ xs
  · obtain ⟨v, hv, found⟩ := Scope.get?_bindEach_of_mem (s := s) full hu
    rw [found]
    exact .inl (List.of_mem_zip hv).2
  · rw [Scope.get?_bindEach_of_notMem hu]
    exact .inr (h.resolve_left hu)

theorem uses_freshened {s : Scope Name} {c : Supply} (h : e.Uses fun x => P (s.target x)) :
    (e.freshened s c).Uses P := by
  induction e generalizing P s c with
  | op o =>
      simp only [freshened, Uses, Op.names_map, List.forall_mem_map]
      exact h
  | branch test x y e1 e2 ih1 ih2 => exact ⟨h.1, h.2.1, ih1 h.2.2.1, ih2 h.2.2.2⟩
  | letIn x ty e1 e2 ih1 ih2 => exact ⟨ih1 h.1, ih2 (h.2.mono fun u hu => target_bind_or hu)⟩
  | letRec f ty formals body rest ih1 ih2 =>
      refine ⟨ih1 (h.1.mono fun u hu => ?_), ih2 (h.2.mono fun u hu => target_bind_or hu)⟩
      rw [renamed, drawEach_names]
      have inner : u ∈ formals.map (·.1) ∨ (s.bind f (c.name f)).target u = c.name f ∨
          P ((s.bind f (c.name f)).target u) := hu.imp_right target_bind_or
      exact target_bindAll_or (P := fun v => v = c.name f ∨ P v) (by simp) inner
  | app f xs =>
      simp only [freshened, Uses, List.forall_mem_map]
      exact h
  | letTuple pattern y e ih =>
      refine ⟨h.1, ih (h.2.mono fun u hu => ?_)⟩
      rw [renamed, drawEach_names]
      exact target_bindAll_or (by simp) hu
  | externApp f xs =>
      simp only [freshened, Uses, List.forall_mem_map]
      exact h

/-- A name that a binder hides may be replaced by one that is used. -/
theorem or_target {s : Scope Name} (bound : Name → Prop) (values : ∀ x y, s.get? x = some y → P y)
    {u : Name} (h : bound u ∨ P (s.target u)) : bound (s.target u) ∨ P (s.target u) := by
  rcases h with h | h
  · cases found : s.get? u with
    | none => exact .inl (by rwa [Scope.target, found])
    | some y => exact .inr (by rw [Scope.target, found]; exact values u y found)
  · exact .inr h

theorem uses_dropCopiesIn {s : Scope Name} (values : ∀ x y, s.get? x = some y → P y)
    (h : e.Uses fun x => P (s.target x)) : (e.dropCopiesIn s).Uses P := by
  induction e generalizing P s with
  | op o =>
      simp only [dropCopiesIn, Uses, Op.names_map, List.forall_mem_map]
      exact h
  | branch test x y e1 e2 ih1 ih2 => exact ⟨h.1, h.2.1, ih1 values h.2.2.1, ih2 values h.2.2.2⟩
  | letIn x ty e1 e2 ih1 ih2 =>
      have bound := ih1 values h.1
      simp only [dropCopiesIn]
      split
      case h_1 y copy =>
        rw [copy] at bound
        have hy : P y := bound y List.mem_cons_self
        refine ih2 (fun u v found => ?_) (h.2.mono fun u hu => ?_)
        · rw [Scope.get?_bind] at found
          split at found
          case isTrue => exact Option.some.inj found ▸ hy
          case isFalse => exact values u v found
        · exact (target_bind_or hu).elim (fun eq => eq ▸ hy) id
      case h_2 =>
        exact ⟨bound, ih2 (fun u v found => .inr (values u v found))
          (h.2.mono fun u hu => or_target (· = x) values hu)⟩
  | letRec f ty formals body rest ih1 ih2 =>
      refine ⟨ih1 (fun u v found => .inr (.inr (values u v found))) (h.1.mono fun u hu => ?_),
        ih2 (fun u v found => .inr (values u v found))
          (h.2.mono fun u hu => or_target (· = f) values hu)⟩
      rw [← or_assoc] at hu ⊢
      exact or_target (fun v => v ∈ formals.map (·.1) ∨ v = f) values hu
  | app f xs =>
      simp only [dropCopiesIn, Uses, List.forall_mem_map]
      exact h
  | letTuple pattern y e ih =>
      exact ⟨h.1, ih (fun u v found => .inr (values u v found))
        (h.2.mono fun u hu => or_target (· ∈ pattern.map (·.1)) values hu)⟩
  | externApp f xs =>
      simp only [dropCopiesIn, Uses, List.forall_mem_map]
      exact h

theorem uses_hoist {x : Name} (ty : Mono) {body : Knf} (inBody : body.Uses fun u => u = x ∨ P u)
    (h : e.Uses P) : (hoist x ty body e).Uses P := by
  induction e generalizing P with
  | op | branch | app | externApp => exact ⟨h, inBody⟩
  | letIn y u e1 e2 _ ih => exact ⟨h.1, ih (inBody.mono fun _ hu => hu.imp_right .inr) h.2⟩
  | letRec f u formals e1 e2 _ ih =>
      exact ⟨h.1, ih (inBody.mono fun _ hu => hu.imp_right .inr) h.2⟩
  | letTuple pattern z e ih => exact ⟨h.1, ih (inBody.mono fun _ hu => hu.imp_right .inr) h.2⟩

theorem uses_flatten (h : e.Uses P) : e.flatten.Uses P := by
  induction e generalizing P with
  | op | app | externApp => exact h
  | branch test x y e1 e2 ih1 ih2 => exact ⟨h.1, h.2.1, ih1 h.2.2.1, ih2 h.2.2.2⟩
  | letIn x ty e1 e2 ih1 ih2 => exact uses_hoist ty (ih2 h.2) (ih1 h.1)
  | letRec f ty formals body rest ih1 ih2 => exact ⟨ih1 h.1, ih2 h.2⟩
  | letTuple pattern y e ih => exact ⟨h.1, ih h.2⟩

theorem names_foldOp {s : Knowns} (values : ∀ x o, s.get? x = some o → ∀ z ∈ o.names, P z) {o : Op}
    (h : ∀ x ∈ o.names, P x) : ∀ x ∈ (s.foldOp o).names, P x := by
  cases o with
  | var x =>
      rw [Knowns.foldOp]
      cases found : s.get? x with
      | none => exact h
      | some o => exact values x o found
  | negate op x =>
      cases op <;> simp only [Knowns.foldOp] <;> split <;> first | exact h | exact List.forall_mem_nil P
  | arith op x y =>
      cases op <;> simp only [Knowns.foldOp] <;> split <;> first | exact h | exact List.forall_mem_nil P
  | _ => exact h

theorem names_learn {s : Knowns} (values : ∀ x o, s.get? x = some o → ∀ z ∈ o.names, P z)
    {x : Name} (h : e.Uses P) : ∀ u o, (s.learn x e).get? u = some o → ∀ z ∈ o.names, P z := by
  intro u o found
  cases e with
  | op o' =>
      simp only [Knowns.learn] at found
      split at found
      case isTrue =>
        rw [Scope.get?_bind] at found
        split at found
        case isTrue => exact Option.some.inj found ▸ h
        case isFalse => exact values u o found
      case isFalse => exact values u o found
  | _ => exact values u o found

theorem uses_letEach {pattern : List (Name × Mono)} {zs : List Name}
    (full : zs.length = pattern.length) (hzs : ∀ z ∈ zs, P z)
    (h : e.Uses fun u => u ∈ pattern.map (·.1) ∨ P u) : (letEach (pattern.zip zs) e).Uses P := by
  induction pattern generalizing zs P with
  | nil => exact h.of_notMem fun x _ => List.not_mem_nil
  | cons b pattern ih =>
      obtain ⟨z, zs, rfl⟩ := List.exists_cons_of_length_eq_add_one full
      rw [List.forall_mem_cons] at hzs
      refine ⟨fun x hx => List.mem_singleton.mp hx ▸ hzs.1, ih (Nat.succ.inj full) ?_ ?_⟩
      · exact fun z hz => .inr (hzs.2 z hz)
      · refine h.mono fun u hu => ?_
        rw [List.map_cons, List.mem_cons] at hu
        tauto

theorem uses_foldConstantsIn {s : Knowns}
    (values : ∀ x o, s.get? x = some o → ∀ z ∈ o.names, P z) (h : e.Uses P) :
    (e.foldConstantsIn s).Uses P := by
  induction e generalizing P s with
  | op o => exact names_foldOp values h
  | branch test x y e1 e2 ih1 ih2 =>
      simp only [foldConstantsIn]
      split
      · exact ih1 values h.2.2.1
      · exact ih2 values h.2.2.2
      · exact ⟨h.1, h.2.1, ih1 values h.2.2.1, ih2 values h.2.2.2⟩
  | letIn x ty e1 e2 ih1 ih2 =>
      have bound := ih1 values h.1
      refine ⟨bound, ih2 (fun u o found z hz => .inr ?_) h.2⟩
      exact names_learn values bound u o found z hz
  | letRec f ty formals body rest ih1 ih2 =>
      exact ⟨ih1 (fun u o found z hz => .inr (.inr (values u o found z hz))) h.1,
        ih2 (fun u o found z hz => .inr (values u o found z hz)) h.2⟩
  | app f xs => exact h
  | letTuple pattern y e ih =>
      have body := ih (fun u o found z hz => .inr (values u o found z hz)) h.2
      simp only [foldConstantsIn]
      split
      case h_1 zs known =>
        split
        case isTrue full =>
          refine uses_letEach full (fun z hz => ?_) body
          rw [Knowns.tuple?] at known
          split at known
          case h_1 found => exact values y _ found z (Option.some.inj known ▸ hz)
          case h_2 => cases known
        case isFalse => exact ⟨h.1, body⟩
      case h_2 => exact ⟨h.1, body⟩
  | externApp f xs => exact h

theorem uses_dropDead (h : e.Uses P) : e.dropDead.Uses P := by
  induction e generalizing P with
  | op | app | externApp => exact h
  | branch test x y e1 e2 ih1 ih2 => exact ⟨h.1, h.2.1, ih1 h.2.2.1, ih2 h.2.2.2⟩
  | letIn x ty e1 e2 ih1 ih2 =>
      simp only [dropDead]
      split
      case isTrue => exact ⟨ih1 h.1, ih2 h.2⟩
      case isFalse dead =>
        exact (ih2 h.2).of_notMem fun u hu eq => dead (isLive_iff.mpr (.inr (eq ▸ hu)))
  | letRec f ty formals body rest ih1 ih2 =>
      simp only [dropDead]
      split
      case isTrue => exact ⟨ih1 h.1, ih2 h.2⟩
      case isFalse dead => exact (ih2 h.2).of_notMem fun u hu eq => dead (eq ▸ hu)
  | letTuple pattern y e ih =>
      simp only [dropDead]
      split
      case isTrue => exact ⟨h.1, ih h.2⟩
      case isFalse dead =>
        exact (ih h.2).of_notMem fun u hu bound => dead (usesAny_iff.mpr ⟨u, bound, hu⟩)

end

end MiddleEnd.Knf
