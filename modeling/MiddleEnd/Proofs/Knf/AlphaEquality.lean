import Mathlib
import MiddleEnd.Knf.AlphaEq
import MiddleEnd.Proofs.Knf.Passes
import MiddleEnd.Proofs.Knf.Relabelling

/-! # Equality up to bound names and new names

Code that is equal up to bound names has the same shape, and renaming its binders
gives code in which equal places have names that go together: the two results differ
by a change of all names.  Conversely a change of names that leaves the free names
apart is not seen by the equality.
-/

namespace MiddleEnd.Knf

namespace Pairing

variable {p q : Pairing} {σ τ : Name → Name} {x y u v : Name} {xs ys : List Name}

/-! ## Binders that go together -/

theorem same_empty : empty.same x y = (x == y) := rfl

theorem same_bind :
    (p.bind x y).same u v = if u = x then decide (v = y) else !decide (v = y) && p.same u v := by
  simp only [same, bind, Scope.get?_bind]
  by_cases hu : u = x <;> by_cases hv : v = y
  · simp [hu, hv]
  · simp only [hu, hv, if_true, if_false, decide_false]
    cases p.right.get? v <;> simp [Ne.symm hv]
  · simp only [hu, hv, if_true, if_false, decide_true, Bool.not_true, Bool.false_and]
    cases p.left.get? u <;> simp [Ne.symm hu]
  · simp [hu, hv]

def bindEach (p : Pairing) (pairs : List (Name × Name)) : Pairing :=
  pairs.foldl (fun p b => p.bind b.1 b.2) p

theorem bindEach_eq (pairs : List (Name × Name)) :
    p.bindEach pairs = ⟨p.left.bindEach pairs, p.right.bindEach (pairs.map Prod.swap)⟩ := by
  induction pairs generalizing p with
  | nil => rfl
  | cons b pairs ih => exact ih

theorem same_bindAll : (p.bindAll xs ys).same = (p.bindEach (xs.zip ys)).same := by
  funext u v
  rw [bindEach_eq, List.zip_swap]
  simp only [same, bindAll, Scope.get?_bindEach]

theorem map_eq_of_sameAll {f g : Name → Name} (same : p.sameAll xs ys = true)
    (h : ∀ x ∈ xs, ∀ y, p.same x y = true → f x = g y) : xs.map f = ys.map g := by
  induction xs generalizing ys with
  | nil =>
      cases ys with
      | nil => rfl
      | cons => cases same
  | cons x xs ih =>
      cases ys with
      | nil => cases same
      | cons y ys =>
          simp only [sameAll, Bool.and_eq_true] at same
          rw [List.forall_mem_cons] at h
          rw [List.map_cons, List.map_cons, h.1 y same.1, ih same.2 h.2]

theorem map_eq_of_sameOp {f g : Name → Name} {o o' : Op} (same : p.sameOp o o' = true)
    (h : ∀ x ∈ o.names, ∀ y, p.same x y = true → f x = g y) : o.map f = o'.map g := by
  cases o <;> cases o' <;>
    simp only [sameOp, Bool.false_eq_true, Bool.and_eq_true, beq_iff_eq] at same
  case tuple.tuple xs ys => exact congrArg Op.tuple (map_eq_of_sameAll same h)
  case float.float c d => exact congrArg Op.float (congrArg Double.mk same)
  all_goals grind [Op.map, Op.names]

end Pairing

/-! ## Shapes -/

def shape (e : Knf) : Knf :=
  e.relabel fun _ => ""

theorem length_map_fst_eq {bs bs' : List (Name × Mono)} (types : bs.map (·.2) = bs'.map (·.2)) :
    (bs.map (·.1)).length = (bs'.map (·.1)).length := by
  simpa using congrArg List.length types

theorem map_const_eq {bs bs' : List (Name × Mono)} (types : bs.map (·.2) = bs'.map (·.2)) :
    bs.map (Prod.map (fun _ => "") id) = bs'.map (Prod.map (fun _ => "") id) := by
  have pairs : ∀ bs : List (Name × Mono),
      bs.map (Prod.map (fun _ => "") id) = (bs.map (·.2)).map fun ty => ("", ty) := by
    intro bs
    simp [Function.comp_def, Prod.map]
  rw [pairs, pairs, types]

theorem shape_eq {a b : Knf} {p : Pairing} (same : a.alphaEqIn p b = true) : a.shape = b.shape := by
  induction a generalizing b p with
  | op o =>
      cases b with
      | op o' => exact congrArg Knf.op (Pairing.map_eq_of_sameOp same fun _ _ _ _ => rfl)
      | _ => cases same
  | branch test x1 x2 a1 a2 ih1 ih2 =>
      cases b with
      | branch test' y1 y2 b1 b2 =>
          simp only [alphaEqIn, Bool.and_eq_true, beq_iff_eq] at same
          obtain ⟨⟨⟨⟨rfl, -⟩, -⟩, yes⟩, no⟩ := same
          exact congrArg₂ (Knf.branch test "" "") (ih1 yes) (ih2 no)
      | _ => cases same
  | letIn x ty a1 a2 ih1 ih2 =>
      cases b with
      | letIn y ty' b1 b2 =>
          simp only [alphaEqIn, Bool.and_eq_true, beq_iff_eq] at same
          obtain ⟨⟨rfl, bound⟩, body⟩ := same
          exact congrArg₂ (Knf.letIn "" ty) (ih1 bound) (ih2 body)
      | _ => cases same
  | letRec f ty xs a1 a2 ih1 ih2 =>
      cases b with
      | letRec g ty' ys b1 b2 =>
          simp only [alphaEqIn, Bool.and_eq_true, beq_iff_eq] at same
          obtain ⟨⟨⟨rfl, types⟩, body⟩, rest⟩ := same
          have formals := map_const_eq types
          have body := ih1 body
          have rest := ih2 rest
          simp only [shape, relabel] at body rest ⊢
          rw [formals, body, rest]
      | _ => cases same
  | app f xs =>
      cases b with
      | app g ys =>
          simp only [alphaEqIn, Bool.and_eq_true] at same
          exact congrArg (Knf.app "") (Pairing.map_eq_of_sameAll same.2 fun _ _ _ _ => rfl)
      | _ => cases same
  | letTuple xs x a ih =>
      cases b with
      | letTuple ys y b =>
          simp only [alphaEqIn, Bool.and_eq_true, beq_iff_eq] at same
          obtain ⟨⟨types, -⟩, body⟩ := same
          have body := ih body
          simp only [shape, relabel] at body ⊢
          rw [map_const_eq types, body]
      | _ => cases same
  | externApp f xs =>
      cases b with
      | externApp g ys =>
          simp only [alphaEqIn, Bool.and_eq_true, beq_iff_eq] at same
          obtain ⟨rfl, args⟩ := same
          exact congrArg (Knf.externApp f) (Pairing.map_eq_of_sameAll args fun _ _ _ _ => rfl)
      | _ => cases same

theorem length_binders_eq {a b : Knf} {p : Pairing} (same : a.alphaEqIn p b = true) :
    a.binders.length = b.binders.length := by
  have lengths := congrArg (fun e => e.binders.length) (shape_eq same)
  simpa only [shape, binders_relabel, List.length_map] using lengths

/-! ## New names for code that is equal -/

namespace Pairing

variable {p : Pairing} {σ : Name → Name} {s s' : Scope Name} {x y x' y' u : Name}

/-- What goes with the name is replaced by what `σ` makes of its replacement. -/
def Carries (p : Pairing) (σ : Name → Name) (s s' : Scope Name) (x : Name) : Prop :=
  ∀ y, p.same x y = true → σ (s.target x) = s'.target y

theorem Carries.bind (h : u ≠ x → p.Carries σ s s' u) (drawn : σ x' = y') :
    (p.bind x y).Carries σ (s.bind x x') (s'.bind y y') u := by
  intro v same
  rw [same_bind] at same
  rw [Scope.target, Scope.target, Scope.get?_bind, Scope.get?_bind]
  split at same
  case isTrue eq =>
      rw [if_pos eq, if_pos (of_decide_eq_true same)]
      exact drawn
  case isFalse ne =>
      simp only [Bool.and_eq_true, Bool.not_eq_true', decide_eq_false_iff_not] at same
      rw [if_neg ne, if_neg same.1]
      exact h ne v same.2

theorem Carries.bindAll {xs ys xs' ys' : List Name} (h : u ∉ xs → p.Carries σ s s' u)
    (full : xs.length = ys.length) (fullX : xs'.length = xs.length) (drawn : xs'.map σ = ys') :
    (p.bindAll xs ys).Carries σ (s.bindAll (xs.zip xs')) (s'.bindAll (ys.zip ys')) u := by
  rw [Carries, same_bindAll, ← Scope.target_bindEach, ← Scope.target_bindEach, ← Carries]
  induction xs generalizing p s s' ys xs' ys' with
  | nil =>
      obtain rfl := List.length_eq_zero_iff.mp full.symm
      exact h List.not_mem_nil
  | cons x xs ih =>
      obtain ⟨y, ys, rfl⟩ := List.exists_cons_of_length_eq_add_one full.symm
      obtain ⟨x', xs', rfl⟩ := List.exists_cons_of_length_eq_add_one fullX
      obtain rfl := drawn
      refine ih (fun notin => ?_) (Nat.succ.inj full) (Nat.succ.inj fullX) rfl
      exact .bind (fun ne => h (List.not_mem_cons_of_ne_of_not_mem ne notin)) rfl

end Pairing

section
variable {σ : Name → Name}

theorem relabel_drawEach {bs bs' : List (Name × Mono)} {c d : Supply}
    (drawn : (c.names (bs.map (·.1))).map σ = d.names (bs'.map (·.1)))
    (types : bs.map (·.2) = bs'.map (·.2)) :
    (drawEach c bs).map (Prod.map σ id) = drawEach d bs' := by
  rw [drawEach, drawEach, ← List.zip_map, drawn, List.map_id, types]

/-- New names for two pieces of code that are equal up to bound names: if `σ` takes the
    names drawn for the one to those drawn for the other, it takes the code to the code. -/
theorem relabel_freshened {a b : Knf} {p : Pairing} {s s' : Scope Name} {c d : Supply}
    (same : a.alphaEqIn p b = true) (drawn : (c.names a.binders).map σ = d.names b.binders)
    (carries : ∀ x ∈ a.freeVars, p.Carries σ s s' x) :
    (a.freshened s c).relabel σ = b.freshened s' d := by
  induction a generalizing b p s s' c d with
  | op o =>
      cases b with
      | op o' =>
          rw [freshened, freshened, relabel, Op.map_map]
          exact congrArg Knf.op (Pairing.map_eq_of_sameOp same carries)
      | _ => cases same
  | branch test x1 x2 a1 a2 ih1 ih2 =>
      cases b with
      | branch test' y1 y2 b1 b2 =>
          simp only [alphaEqIn, Bool.and_eq_true, beq_iff_eq] at same
          obtain ⟨⟨⟨⟨rfl, left⟩, right⟩, yes⟩, no⟩ := same
          simp only [freeVars, List.forall_mem_cons, List.forall_mem_append] at carries
          obtain ⟨first, second, inYes, inNo⟩ := carries
          simp only [binders, Supply.names_append, List.map_append] at drawn
          obtain ⟨drawnYes, drawnNo⟩ := List.append_inj drawn (by simp [length_binders_eq yes])
          simp only [freshened, relabel, first _ left, second _ right, ih1 yes drawnYes inYes,
            ih2 no drawnNo inNo]
      | _ => cases same
  | letIn x ty a1 a2 ih1 ih2 =>
      cases b with
      | letIn y ty' b1 b2 =>
          simp only [alphaEqIn, Bool.and_eq_true, beq_iff_eq] at same
          obtain ⟨⟨rfl, bound⟩, body⟩ := same
          simp only [freeVars, List.forall_mem_append, List.mem_filter, decide_eq_true_eq]
            at carries
          simp only [binders, Supply.names, Supply.names_append, Supply.skip_skip, List.map_cons,
            List.map_append] at drawn
          obtain ⟨drawn, rest⟩ := List.cons.inj drawn
          obtain ⟨drawnBound, drawnBody⟩ := List.append_inj rest (by simp [length_binders_eq bound])
          have inBody : ∀ u ∈ a2.freeVars,
              (p.bind x y).Carries σ (s.bind x (c.name x)) (s'.bind y (d.name y)) u :=
            fun u hu => .bind (fun ne => carries.2 u ⟨hu, ne⟩) drawn
          simp only [freshened, relabel, drawn, ih1 bound drawnBound carries.1,
            ih2 body drawnBody inBody]
      | _ => cases same
  | letRec f ty xs a1 a2 ih1 ih2 =>
      cases b with
      | letRec g ty' ys b1 b2 =>
          simp only [alphaEqIn, Bool.and_eq_true, beq_iff_eq] at same
          obtain ⟨⟨⟨rfl, types⟩, body⟩, rest⟩ := same
          have full := length_map_fst_eq types
          simp only [freeVars, List.mem_filter, List.mem_append, decide_eq_true_eq] at carries
          simp only [binders, Supply.names, Supply.names_append, Supply.skip_skip, List.map_cons,
            List.map_append] at drawn
          obtain ⟨drawnF, drawn⟩ := List.cons.inj drawn
          obtain ⟨drawnXs, drawn⟩ := List.append_inj drawn (by simpa using full)
          obtain ⟨drawnBody, drawnRest⟩ := List.append_inj drawn (by simp [length_binders_eq body])
          have outer : ∀ u, (u ∈ a1.freeVars ∧ u ∉ xs.map (·.1) ∨ u ∈ a2.freeVars) →
              (p.bind f g).Carries σ (s.bind f (c.name f)) (s'.bind g (d.name g)) u :=
            fun u hu => .bind (fun ne => carries u ⟨hu, ne⟩) drawnF
          have inBody := fun u hu =>
            Pairing.Carries.bindAll (fun notin => outer u (.inl ⟨hu, notin⟩)) full (by simp) drawnXs
          have formals := relabel_drawEach drawnXs types
          simp only [List.length_map] at drawnBody drawnRest
          simp only [freshened, relabel, renamed, drawEach_names, drawnF, formals,
            ih1 body drawnBody inBody, ih2 rest drawnRest fun u hu => outer u (.inr hu)]
      | _ => cases same
  | app f xs =>
      cases b with
      | app g ys =>
          simp only [alphaEqIn, Bool.and_eq_true] at same
          simp only [freeVars, List.forall_mem_cons] at carries
          rw [freshened, freshened, relabel, carries.1 g same.1, List.map_map]
          exact congrArg (Knf.app _) (Pairing.map_eq_of_sameAll same.2 carries.2)
      | _ => cases same
  | letTuple xs x a ih =>
      cases b with
      | letTuple ys y b =>
          simp only [alphaEqIn, Bool.and_eq_true, beq_iff_eq] at same
          obtain ⟨⟨types, left⟩, body⟩ := same
          have full := length_map_fst_eq types
          simp only [freeVars, List.forall_mem_cons, List.mem_filter, decide_eq_true_eq] at carries
          simp only [binders, Supply.names_append, List.map_append] at drawn
          obtain ⟨drawnXs, drawnBody⟩ := List.append_inj drawn (by simpa using full)
          have inBody := fun u hu => Pairing.Carries.bindAll (fun notin => carries.2 u ⟨hu, notin⟩)
            full (by simp) drawnXs
          have pattern := relabel_drawEach drawnXs types
          simp only [List.length_map] at drawnBody
          simp only [freshened, relabel, renamed, drawEach_names, pattern, carries.1 y left,
            ih body drawnBody inBody]
      | _ => cases same
  | externApp f xs =>
      cases b with
      | externApp g ys =>
          simp only [alphaEqIn, Bool.and_eq_true, beq_iff_eq] at same
          obtain ⟨rfl, args⟩ := same
          rw [freshened, freshened, relabel, List.map_map]
          exact congrArg (Knf.externApp f) (Pairing.map_eq_of_sameAll args carries)
      | _ => cases same

end

/-! ## Equality of relabelled code -/

namespace Pairing

variable {p q : Pairing} {σ τ : Name → Name} {x y u v : Name}

/-- What goes with what is the same once both sides are relabelled. -/
def Mirrors (p q : Pairing) (σ τ : Name → Name) (u v : Name) : Prop :=
  q.same (σ u) (τ v) = p.same u v

theorem Mirrors.bind (hσ : σ.Injective) (hτ : τ.Injective)
    (h : u ≠ x → v ≠ y → p.Mirrors q σ τ u v) :
    (p.bind x y).Mirrors (q.bind (σ x) (τ y)) σ τ u v := by
  simp only [Mirrors, same_bind, hσ.eq_iff, hτ.eq_iff]
  by_cases first : u = x
  · rw [if_pos first, if_pos first]
  · rw [if_neg first, if_neg first]
    by_cases second : v = y
    · simp only [second, decide_true, Bool.not_true, Bool.false_and]
    · rw [h first second]

theorem Mirrors.bindAll (hσ : σ.Injective) (hτ : τ.Injective) {xs ys : List Name}
    (full : xs.length = ys.length) (h : u ∉ xs → v ∉ ys → p.Mirrors q σ τ u v) :
    (p.bindAll xs ys).Mirrors (q.bindAll (xs.map σ) (ys.map τ)) σ τ u v := by
  rw [Mirrors, same_bindAll, same_bindAll, ← Mirrors]
  induction xs generalizing p q ys with
  | nil =>
      obtain rfl := List.length_eq_zero_iff.mp full.symm
      exact h List.not_mem_nil List.not_mem_nil
  | cons x xs ih =>
      obtain ⟨y, ys, rfl⟩ := List.exists_cons_of_length_eq_add_one full.symm
      refine ih (Nat.succ.inj full) fun first second => .bind hσ hτ fun ne ne' => ?_
      exact h (List.not_mem_cons_of_ne_of_not_mem ne first)
        (List.not_mem_cons_of_ne_of_not_mem ne' second)

theorem sameAll_map {xs ys : List Name} (h : ∀ u ∈ xs, ∀ v ∈ ys, p.Mirrors q σ τ u v) :
    q.sameAll (xs.map σ) (ys.map τ) = p.sameAll xs ys := by
  induction xs generalizing ys with
  | nil => cases ys <;> rfl
  | cons x xs ih =>
      cases ys with
      | nil => rfl
      | cons y ys =>
          simp only [List.forall_mem_cons] at h
          have first : q.same (σ x) (τ y) = p.same x y := h.1.1
          rw [List.map_cons, List.map_cons, sameAll, sameAll, first, ih fun u hu => (h.2 u hu).2]

theorem sameOp_map {o o' : Op} (h : ∀ u ∈ o.names, ∀ v ∈ o'.names, p.Mirrors q σ τ u v) :
    q.sameOp (o.map σ) (o'.map τ) = p.sameOp o o' := by
  cases o <;> cases o'
  case tuple.tuple xs ys => exact sameAll_map h
  all_goals simp_all [Op.map, Op.names, sameOp, Mirrors]

end Pairing

theorem alphaEqIn_relabel {σ τ : Name → Name} (hσ : σ.Injective) (hτ : τ.Injective) {a b : Knf}
    {p q : Pairing} (h : ∀ u ∈ a.freeVars, ∀ v ∈ b.freeVars, p.Mirrors q σ τ u v) :
    (a.relabel σ).alphaEqIn q (b.relabel τ) = a.alphaEqIn p b := by
  induction a generalizing b p q with
  | op o =>
      cases b with
      | op o' => exact Pairing.sameOp_map h
      | _ => rfl
  | branch test x1 x2 a1 a2 ih1 ih2 =>
      cases b with
      | branch test' y1 y2 b1 b2 =>
          simp only [freeVars, List.forall_mem_cons, List.forall_mem_append] at h
          have first : q.same (σ x1) (τ y1) = p.same x1 y1 := h.1.1
          have second : q.same (σ x2) (τ y2) = p.same x2 y2 := h.2.1.2.1
          have yes := ih1 fun u hu => (h.2.2.1 u hu).2.2.1
          have no := ih2 fun u hu => (h.2.2.2 u hu).2.2.2
          simp only [relabel, alphaEqIn, first, second, yes, no]
      | _ => rfl
  | letIn x ty a1 a2 ih1 ih2 =>
      cases b with
      | letIn y ty' b1 b2 =>
          simp only [freeVars, List.mem_append, List.mem_filter, decide_eq_true_eq] at h
          have bound := ih1 fun u hu v hv => h u (.inl hu) v (.inl hv)
          have body := ih2 fun u hu v hv =>
            Pairing.Mirrors.bind hσ hτ fun ne ne' => h u (.inr ⟨hu, ne⟩) v (.inr ⟨hv, ne'⟩)
          simp only [relabel, alphaEqIn, bound, body]
      | _ => rfl
  | letRec f ty xs a1 a2 ih1 ih2 =>
      cases b with
      | letRec g ty' ys b1 b2 =>
          simp only [freeVars, List.mem_append, List.mem_filter, decide_eq_true_eq] at h
          simp only [relabel, alphaEqIn, map_fst_map, map_snd_map]
          by_cases types : xs.map (·.2) = ys.map (·.2)
          · have full := length_map_fst_eq types
            have body := ih1 fun u hu v hv =>
              Pairing.Mirrors.bindAll hσ hτ full fun first second =>
                Pairing.Mirrors.bind hσ hτ fun ne ne' =>
                  h u ⟨.inl ⟨hu, first⟩, ne⟩ v ⟨.inl ⟨hv, second⟩, ne'⟩
            have rest := ih2 fun u hu v hv =>
              Pairing.Mirrors.bind hσ hτ fun ne ne' => h u ⟨.inr hu, ne⟩ v ⟨.inr hv, ne'⟩
            rw [body, rest]
          · simp only [beq_eq_false_iff_ne.mpr types, Bool.and_false, Bool.false_and]
      | _ => rfl
  | app f xs =>
      cases b with
      | app g ys =>
          simp only [freeVars, List.forall_mem_cons] at h
          have first : q.same (σ f) (τ g) = p.same f g := h.1.1
          simp only [relabel, alphaEqIn, first, Pairing.sameAll_map fun u hu => (h.2 u hu).2]
      | _ => rfl
  | letTuple xs x a ih =>
      cases b with
      | letTuple ys y b =>
          simp only [freeVars, List.forall_mem_cons, List.mem_filter, decide_eq_true_eq] at h
          simp only [relabel, alphaEqIn, map_fst_map, map_snd_map]
          by_cases types : xs.map (·.2) = ys.map (·.2)
          · have full := length_map_fst_eq types
            have first : q.same (σ x) (τ y) = p.same x y := h.1.1
            have body := ih fun u hu v hv =>
              Pairing.Mirrors.bindAll hσ hτ full fun ne ne' => (h.2 u ⟨hu, ne⟩).2 v ⟨hv, ne'⟩
            rw [first, body]
          · simp only [beq_eq_false_iff_ne.mpr types, Bool.false_and]
      | _ => rfl
  | externApp f xs =>
      cases b with
      | externApp g ys =>
          rw [relabel, relabel, alphaEqIn, alphaEqIn]
          exact congrArg (f == g && ·) (Pairing.sameAll_map h)
      | _ => rfl

namespace Pairing

variable {p : Pairing} {u x : Name} {xs : List Name}

theorem same_bind_self (h : u ≠ x → p.same u u = true) : (p.bind x x).same u u = true := by
  rw [same_bind]
  split
  case isTrue eq => exact decide_eq_true eq
  case isFalse ne => rw [h ne, Bool.and_true, decide_eq_false ne, Bool.not_false]

theorem same_bindAll_self (h : u ∉ xs → p.same u u = true) :
    (p.bindAll xs xs).same u u = true := by
  rw [same_bindAll]
  induction xs generalizing p with
  | nil => exact h List.not_mem_nil
  | cons x xs ih =>
      refine ih fun notin => same_bind_self fun ne => ?_
      exact h (List.not_mem_cons_of_ne_of_not_mem ne notin)

theorem sameAll_self (h : ∀ x ∈ xs, p.same x x = true) : p.sameAll xs xs = true := by
  induction xs with
  | nil => rfl
  | cons x xs ih =>
      rw [List.forall_mem_cons] at h
      rw [sameAll, h.1, ih h.2, Bool.and_true]

theorem sameOp_self {o : Op} (h : ∀ x ∈ o.names, p.same x x = true) : p.sameOp o o = true := by
  cases o
  case tuple xs => exact sameAll_self h
  all_goals simp_all [sameOp, Op.names]

end Pairing

theorem alphaEqIn_self {e : Knf} {p : Pairing} (h : ∀ x ∈ e.freeVars, p.same x x = true) :
    e.alphaEqIn p e = true := by
  induction e generalizing p with
  | op o => exact Pairing.sameOp_self h
  | branch test x y e1 e2 ih1 ih2 =>
      simp only [freeVars, List.forall_mem_cons, List.forall_mem_append] at h
      obtain ⟨first, second, yes, no⟩ := h
      simp only [alphaEqIn, beq_self_eq_true, first, second, ih1 yes, ih2 no, Bool.and_self]
  | letIn x ty e1 e2 ih1 ih2 =>
      simp only [freeVars, List.forall_mem_append, List.mem_filter, decide_eq_true_eq] at h
      have body := ih2 fun u hu => Pairing.same_bind_self fun ne => h.2 u ⟨hu, ne⟩
      simp only [alphaEqIn, beq_self_eq_true, ih1 h.1, body, Bool.and_self]
  | letRec f ty xs e1 e2 ih1 ih2 =>
      simp only [freeVars, List.mem_append, List.mem_filter, decide_eq_true_eq] at h
      have body := ih1 fun u hu => Pairing.same_bindAll_self fun notin =>
        Pairing.same_bind_self fun ne => h u ⟨.inl ⟨hu, notin⟩, ne⟩
      have rest := ih2 fun u hu => Pairing.same_bind_self fun ne => h u ⟨.inr hu, ne⟩
      simp only [alphaEqIn, beq_self_eq_true, body, rest, Bool.and_self]
  | app f xs =>
      simp only [freeVars, List.forall_mem_cons] at h
      simp only [alphaEqIn, h.1, Pairing.sameAll_self h.2, Bool.and_self]
  | letTuple xs x e ih =>
      simp only [freeVars, List.forall_mem_cons, List.mem_filter, decide_eq_true_eq] at h
      have body := ih fun u hu => Pairing.same_bindAll_self fun notin => h.2 u ⟨hu, notin⟩
      simp only [alphaEqIn, beq_self_eq_true, h.1, body, Bool.and_self]
  | externApp f xs =>
      rw [alphaEqIn, beq_self_eq_true, Bool.true_and]
      exact Pairing.sameAll_self h

theorem alphaEq_self (e : Knf) : e.alphaEq e = true :=
  alphaEqIn_self fun x _ => by rw [Pairing.same_empty, beq_self_eq_true]

/-- The names of closed code can be changed on either side. -/
theorem alphaEq_relabel {σ τ : Name → Name} (hσ : σ.Injective) (hτ : τ.Injective) {a : Knf}
    (closed : a.freeVars = []) (b : Knf) : (a.relabel σ).alphaEq (b.relabel τ) = a.alphaEq b :=
  alphaEqIn_relabel hσ hτ fun u hu => by simp [closed] at hu

theorem alphaEq_relabel_left {σ : Name → Name} (hσ : σ.Injective) {a : Knf}
    (closed : a.freeVars = []) (b : Knf) : (a.relabel σ).alphaEq b = a.alphaEq b := by
  have both := alphaEq_relabel hσ Function.injective_id closed b
  rwa [relabel_id] at both

theorem alphaEq_relabel_self {τ : Name → Name} (hτ : τ.Injective) {e : Knf}
    (closed : e.freeVars = []) : e.alphaEq (e.relabel τ) = true := by
  have both := alphaEq_relabel Function.injective_id hτ closed e
  rwa [relabel_id, alphaEq_self] at both

/-! ## New names as a change of names -/

section
variable {τ : Name → Name} {s : Scope Name}

theorem target_bind_eq {u x : Name} (h : u ≠ x → s.target u = τ u) :
    (s.bind x (τ x)).target u = τ u := by
  rw [Scope.target, Scope.get?_bind]
  split
  case isTrue eq => rw [eq, Option.getD_some]
  case isFalse ne => exact h ne

theorem target_bindAll_eq {u : Name} {xs : List Name} (h : u ∉ xs → s.target u = τ u) :
    (s.bindAll (xs.zip (xs.map τ))).target u = τ u := by
  rw [← Scope.target_bindEach]
  induction xs generalizing s with
  | nil => exact h List.not_mem_nil
  | cons x xs ih =>
      exact ih fun notin => target_bind_eq fun ne => h (List.not_mem_cons_of_ne_of_not_mem ne notin)

theorem drawEach_eq_map {bs : List (Name × Mono)} {c : Supply}
    (drawn : (bs.map (·.1)).map τ = c.names (bs.map (·.1))) :
    drawEach c bs = bs.map (Prod.map τ id) := by
  rw [drawEach, ← drawn, List.map_map, List.zip_map']
  rfl

/-- If the names drawn for code repeat where its binders do, renaming it is a change of
    names. -/
theorem freshened_eq_relabel {e : Knf} {c : Supply} (drawn : e.binders.map τ = c.names e.binders)
    (free : ∀ x ∈ e.freeVars, s.target x = τ x) : e.freshened s c = e.relabel τ := by
  induction e generalizing s c with
  | op o => exact congrArg Knf.op (Op.map_congr free)
  | branch test x y e1 e2 ih1 ih2 =>
      simp only [freeVars, List.forall_mem_cons, List.forall_mem_append] at free
      obtain ⟨first, second, yes, no⟩ := free
      simp only [binders, Supply.names_append, List.map_append] at drawn
      obtain ⟨drawnYes, drawnNo⟩ := List.append_inj drawn (by simp)
      simp only [freshened, relabel, first, second, ih1 drawnYes yes, ih2 drawnNo no]
  | letIn x ty e1 e2 ih1 ih2 =>
      simp only [freeVars, List.forall_mem_append, List.mem_filter, decide_eq_true_eq] at free
      simp only [binders, Supply.names, Supply.names_append, Supply.skip_skip, List.map_cons,
        List.map_append] at drawn
      obtain ⟨drawn, rest⟩ := List.cons.inj drawn
      obtain ⟨drawnBound, drawnBody⟩ := List.append_inj rest (by simp)
      have body := ih2 drawnBody fun u hu => target_bind_eq fun ne => free.2 u ⟨hu, ne⟩
      simp only [freshened, relabel, ← drawn, ih1 drawnBound free.1, body]
  | letRec f ty formals body rest ih1 ih2 =>
      simp only [freeVars, List.mem_append, List.mem_filter, decide_eq_true_eq] at free
      simp only [binders, Supply.names, Supply.names_append, Supply.skip_skip, List.map_cons,
        List.map_append, List.length_map] at drawn
      obtain ⟨drawnF, drawn⟩ := List.cons.inj drawn
      obtain ⟨drawnFormals, drawn⟩ := List.append_inj drawn (by simp)
      obtain ⟨drawnBody, drawnRest⟩ := List.append_inj drawn (by simp)
      have inBody := ih1 drawnBody fun u hu => target_bindAll_eq fun notin =>
        target_bind_eq fun ne => free u ⟨.inl ⟨hu, notin⟩, ne⟩
      have inRest := ih2 drawnRest fun u hu => target_bind_eq fun ne => free u ⟨.inr hu, ne⟩
      simp only [freshened, relabel, renamed, ← drawnF, drawEach_eq_map drawnFormals, map_fst_map,
        inBody, inRest]
  | app f xs =>
      simp only [freeVars, List.forall_mem_cons] at free
      rw [freshened, relabel, free.1, List.map_congr_left free.2]
  | letTuple pattern y e ih =>
      simp only [freeVars, List.forall_mem_cons, List.mem_filter, decide_eq_true_eq] at free
      simp only [binders, Supply.names_append, List.map_append, List.length_map] at drawn
      obtain ⟨drawnPattern, drawnBody⟩ := List.append_inj drawn (by simp)
      have body := ih drawnBody fun u hu => target_bindAll_eq fun notin => free.2 u ⟨hu, notin⟩
      simp only [freshened, relabel, renamed, drawEach_eq_map drawnPattern, map_fst_map, free.1,
        body]
  | externApp f xs => exact congrArg (Knf.externApp f) (List.map_congr_left free)

end

/-- Pairs names with what a change of names makes of them. -/
def Pairing.linking (σ : Name → Name) (xs : List Name) : Pairing :=
  Pairing.empty.bindAll xs (xs.map σ)

section
variable {σ : Name → Name} {xs : List Name}

theorem Pairing.eq_of_same_linking {x y : Name} (hx : x ∈ xs)
    (same : (linking σ xs).same x y = true) : y = σ x := by
  obtain ⟨v, hv, found⟩ :=
    Scope.get?_bindEach_of_mem (s := Scope.empty) (xs.length_map σ) hx
  obtain rfl : v = σ x := by
    rw [← List.map_prod_left_eq_zip, List.mem_map] at hv
    obtain ⟨_, _, eq⟩ := hv
    cases eq
    rfl
  rw [Scope.get?_bindEach] at found
  simp only [Pairing.same, linking, bindAll, empty, found] at same
  split at same
  case h_1 eq _ =>
    cases eq
    simp_all
  case h_2 eq _ => cases eq
  case h_3 => cases same

theorem alphaEqIn_linking (hσ : σ.Injective) {e : Knf} (free : ∀ x ∈ e.freeVars, x ∈ xs) :
    e.alphaEqIn (.linking σ xs) (e.relabel σ) = true := by
  have same : ∀ u ∈ e.freeVars, ∀ v ∈ e.freeVars,
      (Pairing.empty.bindAll xs xs).Mirrors (.linking σ xs) id σ u v := by
    intro u hu v hv
    have mirrors := @Pairing.Mirrors.bindAll .empty .empty id σ u v Function.injective_id hσ xs xs
      rfl fun notin => absurd (free u hu) notin
    rwa [List.map_id] at mirrors
  have equal := alphaEqIn_relabel Function.injective_id hσ same
  rw [relabel_id] at equal
  rw [equal]
  exact alphaEqIn_self fun x hx => Pairing.same_bindAll_self fun notin => absurd (free x hx) notin

end

end MiddleEnd.Knf
