import Mathlib
import MiddleEnd.Knf.Copies
import MiddleEnd.Knf.DeadBindings
import MiddleEnd.Knf.Expansion
import MiddleEnd.Knf.Flattening
import MiddleEnd.Knf.Folding
import MiddleEnd.Proofs.Names
import MiddleEnd.Proofs.Steps

/-! # Names that rewrites draw

Renaming and the expansion of calls draw names.  How many they draw, and for
which binders, depends on the code alone and not on the supply; so both can be
described without state, with the supply that each part of the code meets.
-/

namespace MiddleEnd.Knf

/-- The names that code binds, in the order in which they stand in it. -/
def binders : Knf → List Name
  | .op _ | .app .. | .externApp .. => []
  | .branch _ _ _ e1 e2 => e1.binders ++ e2.binders
  | .letIn x _ e1 e2 => x :: (e1.binders ++ e2.binders)
  | .letRec f _ formals body rest => f :: (formals.map (·.1) ++ (body.binders ++ rest.binders))
  | .letTuple pattern _ e => pattern.map (·.1) ++ e.binders

/-! ## Renaming -/

/-- A group of binders with the names drawn for them. -/
def drawEach (c : Supply) (bs : List (Name × Mono)) : List (Name × Mono) :=
  (c.names (bs.map (·.1))).zip (bs.map (·.2))

theorem drawEach_names (c : Supply) (bs : List (Name × Mono)) :
    (drawEach c bs).map (·.1) = c.names (bs.map (·.1)) := by
  rw [drawEach, List.map_fst_zip]
  simp

theorem drawEach_types (c : Supply) (bs : List (Name × Mono)) :
    (drawEach c bs).map (·.2) = bs.map (·.2) := by
  rw [drawEach, List.map_snd_zip]
  simp

theorem freshenBinders_run (bs : List (Name × Mono)) (c : Supply) :
    (freshenBinders bs).run c = (drawEach c bs, c.skip bs.length) := by
  induction bs generalizing c with
  | nil =>
      rw [List.length_nil, Supply.skip_zero]
      rfl
  | cons b bs ih =>
      obtain ⟨x, ty⟩ := b
      have step : (freshenBinders ((x, ty) :: bs)).run c =
          ((c.name x, ty) :: ((freshenBinders bs).run (c.skip 1)).1,
            ((freshenBinders bs).run (c.skip 1)).2) := rfl
      rw [step, ih, Supply.skip_skip, List.length_cons, Nat.add_comm]
      rfl

/-- Code with new names for all binders, drawn from the supply `c`. -/
def freshened (s : Scope Name) (c : Supply) : Knf → Knf
  | .op o => .op (o.map s.target)
  | .branch test x y e1 e2 =>
      .branch test (s.target x) (s.target y) (e1.freshened s c)
        (e2.freshened s (c.skip e1.binders.length))
  | .letIn x ty e1 e2 =>
      .letIn (c.name x) ty (e1.freshened s (c.skip 1))
        (e2.freshened (s.bind x (c.name x)) (c.skip (1 + e1.binders.length)))
  | .letRec f ty formals body rest =>
      .letRec (c.name f) ty (drawEach (c.skip 1) formals)
        (body.freshened
          ((s.bind f (c.name f)).bindAll (renamed formals (drawEach (c.skip 1) formals)))
          (c.skip (1 + formals.length)))
        (rest.freshened (s.bind f (c.name f))
          (c.skip (1 + formals.length + body.binders.length)))
  | .app f xs => .app (s.target f) (xs.map s.target)
  | .letTuple pattern y e =>
      .letTuple (drawEach c pattern) (s.target y)
        (e.freshened (s.bindAll (renamed pattern (drawEach c pattern))) (c.skip pattern.length))
  | .externApp f xs => .externApp f (xs.map s.target)

theorem freshenIn_run (s : Scope Name) (e : Knf) (c : Supply) :
    (e.freshenIn s).run c = (e.freshened s c, c.skip e.binders.length) := by
  induction e generalizing s c with
  | op | app | externApp =>
      simp only [freshenIn, Step.run_pure, freshened, binders, List.length_nil,
        Supply.skip_zero]
  | branch test x y e1 e2 ih1 ih2 =>
      simp only [freshenIn, Step.run_bind, Step.run_pure, ih1, ih2, Supply.skip_skip,
        freshened, binders, List.length_append]
  | letIn x ty e1 e2 ih1 ih2 =>
      simp only [freshenIn, Step.run_bind, Step.run_pure, Supply.numbered_run, ih1, ih2,
        Supply.skip_skip, freshened, binders, List.length_cons, List.length_append,
        Nat.add_assoc, Nat.add_comm _ 1]
  | letRec f ty formals body rest ih1 ih2 =>
      simp only [freshenIn, Step.run_bind, Step.run_pure, Supply.numbered_run,
        freshenBinders_run, ih1, ih2, Supply.skip_skip, freshened, binders, List.length_cons,
        List.length_append, List.length_map, Nat.add_assoc, Nat.add_comm _ 1]
  | letTuple pattern y e ih =>
      simp only [freshenIn, Step.run_bind, Step.run_pure, freshenBinders_run, ih,
        Supply.skip_skip, freshened, binders, List.length_append, List.length_map]

theorem binders_freshened (s : Scope Name) (e : Knf) (c : Supply) :
    (e.freshened s c).binders = c.names e.binders := by
  induction e generalizing s c with
  | op | app | externApp => rfl
  | branch test x y e1 e2 ih1 ih2 =>
      simp only [freshened, binders, ih1, ih2, Supply.names_append]
  | letIn x ty e1 e2 ih1 ih2 =>
      simp only [freshened, binders, ih1, ih2, Supply.names, Supply.names_append,
        Supply.skip_skip]
  | letRec f ty formals body rest ih1 ih2 =>
      simp only [freshened, binders, ih1, ih2, drawEach_names, Supply.names, Supply.names_append,
        Supply.skip_skip, List.length_map]
  | letTuple pattern y e ih =>
      simp only [freshened, binders, ih, drawEach_names, Supply.names_append, List.length_map]

/-! ## Expansion of calls -/

/-- The binders of the copies that the expansion of calls makes, in order. -/
def copiedBinders (threshold : Nat) (s : Scope Candidate) : Knf → List Name
  | .branch _ _ _ e1 e2 => e1.copiedBinders threshold s ++ e2.copiedBinders threshold s
  | .letIn _ _ e1 e2 => e1.copiedBinders threshold s ++ e2.copiedBinders threshold s
  | .letRec f _ formals body rest =>
      body.copiedBinders threshold (candidates threshold s f formals body) ++
        rest.copiedBinders threshold (candidates threshold s f formals body)
  | .app f _ =>
      match s.get? f with
      | some k => k.body.binders
      | none => []
  | .letTuple _ _ e => e.copiedBinders threshold s
  | .op _ | .externApp .. => []

/-- Code with expanded calls, where names are drawn from the supply `c`. -/
def expanded (threshold : Nat) (s : Scope Candidate) (c : Supply) : Knf → Knf
  | .branch test x y e1 e2 =>
      .branch test x y (e1.expanded threshold s c)
        (e2.expanded threshold s (c.skip (e1.copiedBinders threshold s).length))
  | .letIn x ty e1 e2 =>
      .letIn x ty (e1.expanded threshold s c)
        (e2.expanded threshold s (c.skip (e1.copiedBinders threshold s).length))
  | .letRec f ty formals body rest =>
      let inner := candidates threshold s f formals body
      .letRec f ty formals (body.expanded threshold inner c)
        (rest.expanded threshold inner (c.skip (body.copiedBinders threshold inner).length))
  | .app f xs =>
      match s.get? f with
      | some k => k.body.freshened (Scope.empty.bindAll (k.formals.zip xs)) c
      | none => .app f xs
  | .letTuple pattern y e => .letTuple pattern y (e.expanded threshold s c)
  | .op o => .op o
  | .externApp f xs => .externApp f xs

theorem expandCallsIn_run (threshold : Nat) (s : Scope Candidate) (e : Knf) (c : Supply) :
    (e.expandCallsIn threshold s).run c =
      (e.expanded threshold s c, c.skip (e.copiedBinders threshold s).length) := by
  induction e generalizing s c with
  | op | externApp =>
      simp only [expandCallsIn, Step.run_pure, expanded, copiedBinders, List.length_nil,
        Supply.skip_zero]
  | branch test x y e1 e2 ih1 ih2 =>
      simp only [expandCallsIn, Step.run_bind, Step.run_pure, ih1, ih2, Supply.skip_skip,
        expanded, copiedBinders, List.length_append]
  | letIn x ty e1 e2 ih1 ih2 =>
      simp only [expandCallsIn, Step.run_bind, Step.run_pure, ih1, ih2, Supply.skip_skip,
        expanded, copiedBinders, List.length_append]
  | letRec f ty formals body rest ih1 ih2 =>
      simp only [expandCallsIn, Step.run_bind, Step.run_pure, ih1, ih2, Supply.skip_skip,
        expanded, copiedBinders, List.length_append]
  | app f xs =>
      simp only [expandCallsIn, expanded, copiedBinders]
      cases s.get? f with
      | some k => exact freshenIn_run _ _ _
      | none => simp only [Step.run_pure, List.length_nil, Supply.skip_zero]
  | letTuple pattern y e ih =>
      simp only [expandCallsIn, Step.run_bind, Step.run_pure, ih, expanded, copiedBinders]

/-- Expanded code binds what the code binds and the names drawn for the copies. -/
theorem binders_expanded (threshold : Nat) (s : Scope Candidate) (e : Knf) (c : Supply) :
    (e.expanded threshold s c).binders.Perm
      (e.binders ++ c.names (e.copiedBinders threshold s)) := by
  induction e generalizing s c with
  | op | externApp => exact .refl _
  | branch test x y e1 e2 ih1 ih2 | letIn x ty e1 e2 ih1 ih2 =>
      have both := (ih1 s c).append (ih2 s (c.skip (e1.copiedBinders threshold s).length))
      simp only [expanded, binders, copiedBinders, Supply.names_append]
      grind
  | letRec f ty formals body rest ih1 ih2 =>
      have both := (ih1 (candidates threshold s f formals body) c).append
        (ih2 (candidates threshold s f formals body)
          (c.skip (body.copiedBinders threshold (candidates threshold s f formals body)).length))
      simp only [expanded, binders, copiedBinders, Supply.names_append]
      grind
  | app f xs =>
      simp only [expanded, copiedBinders, binders, List.nil_append]
      cases s.get? f with
      | some k => exact .of_eq (binders_freshened _ _ _)
      | none => exact .refl _
  | letTuple pattern y e ih =>
      simp only [expanded, binders, copiedBinders, List.append_assoc]
      exact (ih s c).append_left _

/-! ## Rewrites that draw no names -/

theorem binders_dropCopiesIn (s : Scope Name) (e : Knf) :
    (e.dropCopiesIn s).binders.Sublist e.binders := by
  induction e generalizing s with
  | op | app | externApp => exact .refl _
  | branch test x y e1 e2 ih1 ih2 => exact (ih1 s).append (ih2 s)
  | letIn x ty e1 e2 ih1 ih2 =>
      simp only [dropCopiesIn]
      split
      · exact .cons _ ((ih2 _).trans (List.sublist_append_right _ _))
      · exact .cons_cons _ ((ih1 s).append (ih2 s))
  | letRec f ty formals body rest ih1 ih2 =>
      exact .cons_cons _ (List.Sublist.append_left ((ih1 s).append (ih2 s)) _)
  | letTuple pattern y e ih => exact List.Sublist.append_left (ih s) _

theorem binders_hoist (x : Name) (ty : Mono) (body e : Knf) :
    (hoist x ty body e).binders.Perm (x :: (e.binders ++ body.binders)) := by
  induction e with
  | op | app | externApp | branch => exact .refl _
  | letIn y u e1 e2 _ ih =>
      simp only [hoist, binders]
      grind
  | letRec f u formals e1 e2 _ ih =>
      simp only [hoist, binders]
      grind
  | letTuple pattern z e ih =>
      simp only [hoist, binders]
      grind

theorem binders_flatten (e : Knf) : e.flatten.binders.Perm e.binders := by
  induction e with
  | op | app | externApp => exact .refl _
  | branch test x y e1 e2 ih1 ih2 => exact ih1.append ih2
  | letIn x ty e1 e2 ih1 ih2 =>
      exact (binders_hoist x ty e2.flatten e1.flatten).trans ((ih1.append ih2).cons x)
  | letRec f ty formals body rest ih1 ih2 => exact ((ih1.append ih2).append_left _).cons f
  | letTuple pattern y e ih => exact ih.append_left _

theorem binders_letEach (pattern : List (Name × Mono)) (zs : List Name) (body : Knf)
    (full : zs.length = pattern.length) :
    (letEach (pattern.zip zs) body).binders = pattern.map (·.1) ++ body.binders := by
  induction pattern generalizing zs with
  | nil => rfl
  | cons b pattern ih =>
      obtain ⟨z, zs, rfl⟩ := List.exists_cons_of_length_eq_add_one full
      simp only [List.zip_cons_cons, letEach, binders, ih zs (Nat.succ.inj full), List.nil_append,
        List.map_cons, List.cons_append]

/-- Folding forgets the arm that a test does not choose, and binds the names of a pattern
    one by one. -/
theorem binders_foldConstantsIn (s : Knowns) (e : Knf) :
    (e.foldConstantsIn s).binders.Sublist e.binders := by
  induction e generalizing s with
  | op | app | externApp => exact .refl _
  | branch test x y e1 e2 ih1 ih2 =>
      simp only [foldConstantsIn]
      split
      · exact (ih1 s).trans (List.sublist_append_left _ _)
      · exact (ih2 s).trans (List.sublist_append_right _ _)
      · exact (ih1 s).append (ih2 s)
  | letIn x ty e1 e2 ih1 ih2 => exact .cons_cons _ ((ih1 s).append (ih2 _))
  | letRec f ty formals body rest ih1 ih2 =>
      exact .cons_cons _ (List.Sublist.append_left ((ih1 s).append (ih2 s)) _)
  | letTuple pattern y e ih =>
      have whole := List.Sublist.append_left (ih s) (pattern.map (·.1))
      simp only [foldConstantsIn]
      split
      · split
        · rw [binders_letEach _ _ _ ‹_›]
          exact whole
        · exact whole
      · exact whole

theorem binders_dropDead (e : Knf) : e.dropDead.binders.Sublist e.binders := by
  induction e with
  | op | app | externApp => exact .refl _
  | branch test x y e1 e2 ih1 ih2 => exact ih1.append ih2
  | letIn x ty e1 e2 ih1 ih2 =>
      simp only [dropDead]
      split
      · exact .cons_cons _ (ih1.append ih2)
      · exact .cons _ (ih2.trans (List.sublist_append_right _ _))
  | letRec f ty formals body rest ih1 ih2 =>
      simp only [dropDead]
      split
      · exact .cons_cons _ (List.Sublist.append_left (ih1.append ih2) _)
      · have inside := List.sublist_append_right body.binders rest.binders
        exact .cons _ (ih2.trans (inside.trans (List.sublist_append_right _ _)))
  | letTuple pattern y e ih =>
      simp only [dropDead]
      split
      · exact List.Sublist.append_left ih _
      · exact ih.trans (List.sublist_append_right _ _)

end MiddleEnd.Knf
