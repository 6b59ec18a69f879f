import Mathlib
import MiddleEnd.Op
import MiddleEnd.Proofs.Semantics.Value

/-! # Runs and how they compare

A run is given a bound on the depth of calls and ends in one of three ways: with
a result, stuck, or unfinished because the bound was met.  Its effects are kept
in each case.  `Outcome.Sim` compares a run with the run of changed code, in one
of three directions: as long as the first run is not stuck, either everything it
does is done by the second as well, or the other way round; or both runs do
exactly the same.
-/

namespace MiddleEnd

/-- How a run ends. -/
inductive Ending (α : Type) where
  | done (a : α)
  | stuck
  | unfinished

/-- What a run has done and how it ended. -/
structure Outcome (α : Type) where
  effects : List Effect
  ending : Ending α

/-- Which of two runs is followed by the other. -/
inductive Direction where
  /-- The second run does what the first one does. -/
  | forth
  /-- The first run does what the second one does. -/
  | back
  /-- The runs do the same, also when they get stuck. -/
  | same
deriving DecidableEq

namespace Outcome

variable {α β γ δ : Type}

/-- Go on with the result, if there is one. -/
def bind (o : Outcome α) (k : α → Outcome β) : Outcome β :=
  match o.ending with
  | .done a => ⟨o.effects ++ (k a).effects, (k a).ending⟩
  | .stuck => ⟨o.effects, .stuck⟩
  | .unfinished => ⟨o.effects, .unfinished⟩

@[simp] theorem bind_done (t : List Effect) (a : α) (k : α → Outcome β) :
    bind ⟨t, .done a⟩ k = ⟨t ++ (k a).effects, (k a).ending⟩ := rfl

@[simp] theorem bind_stuck (t : List Effect) (k : α → Outcome β) :
    bind ⟨t, .stuck⟩ k = ⟨t, .stuck⟩ := rfl

@[simp] theorem bind_unfinished (t : List Effect) (k : α → Outcome β) :
    bind ⟨t, .unfinished⟩ k = ⟨t, .unfinished⟩ := rfl

theorem bind_assoc (o : Outcome α) (k : α → Outcome β) (l : β → Outcome γ) :
    (o.bind k).bind l = o.bind fun a => (k a).bind l := by
  obtain ⟨t, a | - | -⟩ := o
  · simp only [bind_done]
    obtain ⟨u, b | - | -⟩ := k a <;> simp
  · rfl
  · rfl

theorem effects_le_bind (o : Outcome α) (k : α → Outcome β) :
    o.effects <+: (o.bind k).effects := by
  obtain ⟨t, a | - | -⟩ := o
  · exact List.prefix_append _ _
  · exact List.prefix_rfl
  · exact List.prefix_rfl

/-- The second outcome goes with the first one; results are related by `R`. -/
inductive Sim (R : α → β → Prop) : Direction → Outcome α → Outcome β → Prop where
  | done {d t a b} : R a b → Sim R d ⟨t, .done a⟩ ⟨t, .done b⟩
  | stuck {d t} : Sim R d ⟨t, .stuck⟩ ⟨t, .stuck⟩
  | unfinished {d t} : Sim R d ⟨t, .unfinished⟩ ⟨t, .unfinished⟩
  /-- Nothing is asked of code that replaces code which gets stuck. -/
  | free {d t o} : d ≠ .same → Sim R d ⟨t, .stuck⟩ o
  | ahead {t o} : t <+: o.effects → Sim R .forth ⟨t, .unfinished⟩ o
  | behind {t o} : t <+: o.effects → Sim R .back o ⟨t, .unfinished⟩

namespace Sim

variable {R : α → β → Prop} {S : γ → δ → Prop} {d : Direction}

theorem bind {o : Outcome α} {o' : Outcome β} {k : α → Outcome γ} {k' : β → Outcome δ}
    (h : Sim R d o o') (hk : ∀ a b, R a b → Sim S d (k a) (k' b)) :
    Sim S d (o.bind k) (o'.bind k') := by
  cases h with
  | @done d t a b hab =>
      have next := hk a b hab
      simp only [bind_done]
      generalize k a = p at next ⊢
      generalize k' b = p' at next ⊢
      cases next with
      | done h => exact .done h
      | stuck => exact .stuck
      | unfinished => exact .unfinished
      | free h => exact .free h
      | ahead h => exact .ahead ((List.prefix_append_right_inj t).mpr h)
      | behind h => exact .behind ((List.prefix_append_right_inj t).mpr h)
  | stuck => exact .stuck
  | unfinished => exact .unfinished
  | free h => exact .free h
  | ahead h => exact .ahead (h.trans (effects_le_bind _ _))
  | behind h => exact .behind (h.trans (effects_le_bind _ _))

theorem mono {S : α → β → Prop} {o : Outcome α} {o' : Outcome β} (h : Sim R d o o')
    (hRS : ∀ a b, R a b → S a b) : Sim S d o o' := by
  cases h with
  | done h => exact .done (hRS _ _ h)
  | stuck => exact .stuck
  | unfinished => exact .unfinished
  | free h => exact .free h
  | ahead h => exact .ahead h
  | behind h => exact .behind h

/-- Results of the second outcome may be refined by what is known of them. -/
theorem refine {o : Outcome α} {o' : Outcome γ} {g : γ → β} {P : γ → Prop}
    (h : Sim R d o (o'.bind fun c => ⟨[], .done (g c)⟩))
    (hP : ∀ t c, o' = ⟨t, .done c⟩ → P c) : Sim (fun a c => R a (g c) ∧ P c) d o o' := by
  obtain ⟨t, c | - | -⟩ := o'
  · simp only [bind_done, List.append_nil] at h
    cases h with
    | done h => exact .done ⟨h, hP _ _ rfl⟩
    | free h => exact .free h
    | ahead h => exact .ahead h
  · cases h with
    | stuck => exact .stuck
    | free h => exact .free h
    | ahead h => exact .ahead h
  · cases h with
    | unfinished => exact .unfinished
    | free h => exact .free h
    | ahead h => exact .ahead h
    | behind h => exact .behind h

/-- Code that only follows code which is stuck at once never runs. -/
theorem bind_of_stuck {o : Outcome α} {o' : Outcome δ} {k : α → Outcome γ} (hd : d ≠ .same)
    (h : Sim R d o (⟨[], .stuck⟩ : Outcome β)) : Sim S d (o.bind k) o' := by
  cases h with
  | stuck => exact .free hd
  | free h => exact .free h
  | ahead h =>
      obtain rfl := List.prefix_nil.mp h
      exact .ahead (List.nil_prefix)

end Sim

end Outcome

/-- A computation of a program that runs in the world `W`. -/
def Run (W : Outside) (F α : Type) : Type :=
  Memory W F → Outcome (α × Memory W F)

namespace Run

variable {W : Outside} {F G α β γ δ : Type}

instance : Monad (Run W F) where
  pure a := fun m => ⟨[], .done (a, m)⟩
  bind x f := fun m => (x m).bind fun r => f r.1 r.2

@[simp] theorem pure_apply (a : α) (m : Memory W F) :
    (pure a : Run W F α) m = ⟨[], .done (a, m)⟩ := rfl

theorem bind_apply (x : Run W F α) (f : α → Run W F β) (m : Memory W F) :
    (x >>= f) m = (x m).bind fun r => f r.1 r.2 := rfl

theorem pure_bind (a : α) (f : α → Run W F β) : (pure a >>= f) = f a := by
  funext m
  simp only [bind_apply, pure_apply, Outcome.bind_done, List.nil_append]

theorem bind_assoc (x : Run W F α) (f : α → Run W F β) (g : β → Run W F γ) :
    (x >>= f) >>= g = x >>= fun a => f a >>= g := by
  funext m
  exact Outcome.bind_assoc _ _ _

theorem bind_pure (x : Run W F α) : (x >>= fun a => pure a) = x := by
  funext m
  rw [bind_apply]
  obtain ⟨t, r | - | -⟩ := x m
  · simp only [Outcome.bind_done, pure_apply, List.append_nil]
  · rfl
  · rfl

/-- A composed computation that ends has ended in its first part as well. -/
theorem bind_eq_done {x : Run W F α} {f : α → Run W F β} {m m' : Memory W F} {t : List Effect}
    {b : β} (h : (x >>= f) m = ⟨t, .done (b, m')⟩) :
    ∃ t₁ a m₁ t₂, x m = ⟨t₁, .done (a, m₁)⟩ ∧ f a m₁ = ⟨t₂, .done (b, m')⟩ := by
  rw [bind_apply] at h
  generalize x m = o at h ⊢
  obtain ⟨t₁, ⟨a, m₁⟩ | - | -⟩ := o
  · rw [Outcome.bind_done, Outcome.mk.injEq] at h
    exact ⟨t₁, a, m₁, (f a m₁).effects, rfl, by rw [← h.2]⟩
  · cases h
  · cases h

/-- There is no rule for what comes next. -/
def stuck : Run W F α := fun _ => ⟨[], .stuck⟩

@[simp] theorem stuck_bind (f : α → Run W F β) : (stuck >>= f) = stuck := rfl

/-- The bound on the depth of calls is met. -/
def unfinished : Run W F α := fun _ => ⟨[], .unfinished⟩

/-- A value that has to exist. -/
def ofOption : Option α → Run W F α
  | some a => pure a
  | none => stuck

@[simp] theorem ofOption_some (a : α) : (ofOption (some a) : Run W F α) = pure a := rfl

@[simp] theorem ofOption_none : (ofOption none : Run W F α) = stuck := rfl

def load (place : Nat × Nat) : Run W F (Value F) := fun m =>
  match m.arrays.load? place with
  | some v => ⟨[], .done (v, m)⟩
  | none => ⟨[], .stuck⟩

def store (place : Nat × Nat) (v : Value F) : Run W F (Value F) := fun m =>
  match m.arrays.store? place v with
  | some arrays => ⟨[.store place.1 place.2 v.erase], .done (.unit, { m with arrays })⟩
  | none => ⟨[], .stuck⟩

def external (label : Name) (args : List (Value F)) : Run W F (Value F) := fun m =>
  match W.answer m.world label args m.arrays with
  | some (v, arrays, world) =>
      ⟨[.call label (args.map Value.erase) v.erase], .done (v, ⟨arrays, world⟩)⟩
  | none => ⟨[], .stuck⟩

/-- Computations that go together from related memories on. -/
def Sim (d : Direction) (R : F → G → Prop) (S : α → β → Prop) (x : Run W F α)
    (y : Run W G β) : Prop :=
  ∀ m m', Memory.Rel R m m' →
    Outcome.Sim (fun r r' => S r.1 r'.1 ∧ Memory.Rel R r.2 r'.2) d (x m) (y m')

end Run

/-- What is read on the first side is read on the second side as well; where the
    runs have to do the same, the two sides have it or miss it together. -/
def Direction.Carries {α β : Type} (d : Direction) (S : α → β → Prop) (a : Option α)
    (b : Option β) : Prop :=
  match d with
  | .same => Option.Rel S a b
  | .forth | .back => ∀ v, a = some v → ∃ w, b = some w ∧ S v w

theorem Direction.Carries.of_rel {α β : Type} {S : α → β → Prop} {a : Option α} {b : Option β}
    (d : Direction) (h : Option.Rel S a b) : d.Carries S a b := by
  cases d with
  | same => exact h
  | forth | back =>
      rintro v rfl
      cases h with
      | some h => exact ⟨_, rfl, h⟩

theorem Direction.Carries.refl {α : Type} (d : Direction) (a : Option α) : d.Carries Eq a a := by
  refine .of_rel d ?_
  cases a with
  | none => exact .none
  | some a => exact .some rfl

theorem Direction.Carries.of_forall {α β : Type} {S : α → β → Prop} {a : Option α} {b : Option β}
    {d : Direction} (hd : d ≠ .same) (h : ∀ v, a = some v → ∃ w, b = some w ∧ S v w) :
    d.Carries S a b := by
  cases d with
  | same => exact absurd rfl hd
  | forth | back => exact h

def lookAll {α : Type} (look : Name → Option α) : List Name → Option (List α)
  | [] => some []
  | x :: xs =>
      match look x, lookAll look xs with
      | some v, some vs => some (v :: vs)
      | _, _ => none

theorem forall₂_of_lookAll {α : Type} {look : Name → Option α} {xs : List Name} {vs : List α}
    (h : lookAll look xs = some vs) : List.Forall₂ (fun x v => look x = some v) xs vs := by
  induction xs generalizing vs with
  | nil =>
      cases h
      exact .nil
  | cons x xs ih =>
      simp only [lookAll] at h
      split at h
      · rename_i v vs' hv hvs
        cases h
        exact .cons hv (ih hvs)
      · cases h

theorem lookAll_length {α : Type} {look : Name → Option α} {xs : List Name} {vs : List α}
    (h : lookAll look xs = some vs) : vs.length = xs.length :=
  (forall₂_of_lookAll h).length_eq.symm

theorem lookAll_of_mem_zip {α : Type} {look : Name → Option α} {xs : List Name} {vs : List α}
    (h : lookAll look xs = some vs) {x : Name} {v : α} (hx : (x, v) ∈ xs.zip vs) :
    look x = some v :=
  (List.forall₂_iff_zip.mp (forall₂_of_lookAll h)).2 hx

theorem lookAll_map {α : Type} (look : Name → Option α) (ρ : Name → Name) (xs : List Name) :
    lookAll look (xs.map ρ) = lookAll (fun x => look (ρ x)) xs := by
  induction xs with
  | nil => rfl
  | cons x xs ih => simp only [List.map_cons, lookAll, ih]

theorem lookAll_congr {α : Type} {look look' : Name → Option α} {xs : List Name}
    (h : ∀ x ∈ xs, look x = look' x) : lookAll look xs = lookAll look' xs := by
  induction xs with
  | nil => rfl
  | cons x xs ih =>
      simp only [lookAll, h x (List.mem_cons_self ..),
        ih fun y hy => h y (List.mem_cons_of_mem _ hy)]

theorem Direction.Carries.lookAll {α β : Type} {S : α → β → Prop} {d : Direction}
    {look : Name → Option α} {look' : Name → Option β} {xs xs' : List Name}
    (h : List.Forall₂ (fun x x' => d.Carries S (look x) (look' x')) xs xs') :
    d.Carries (List.Forall₂ S) (lookAll look xs) (lookAll look' xs') := by
  induction h with
  | nil => exact .of_rel d (.some .nil)
  | @cons x x' xs xs' head _ ih =>
      simp only [MiddleEnd.lookAll]
      cases d with
      | same =>
          simp only [Carries] at head ih ⊢
          generalize look x = a at head ⊢
          generalize look' x' = a' at head ⊢
          generalize MiddleEnd.lookAll look xs = as at ih ⊢
          generalize MiddleEnd.lookAll look' xs' = as' at ih ⊢
          cases head with
          | none => exact .none
          | some ha =>
              cases ih with
              | none => exact .none
              | some has => exact .some (.cons ha has)
      | forth | back =>
          intro vs hvs
          split at hvs
          · rename_i v vs' hv hvs'
            obtain rfl := Option.some.inj hvs
            obtain ⟨w, hw, hvw⟩ := head v hv
            obtain ⟨ws, hws, hvws⟩ := ih vs' hvs'
            exact ⟨w :: ws, by simp only [hw, hws], .cons hvw hvws⟩
          · cases hvs

namespace Run.Sim

variable {W : Outside} {F G α β γ δ : Type} {d : Direction} {R : F → G → Prop}
  {S : α → β → Prop} {T : γ → δ → Prop}

theorem pure {a : α} {b : β} (h : S a b) :
    Sim d R S (Pure.pure a : Run W F α) (Pure.pure b : Run W G β) :=
  fun _ _ hm => .done ⟨h, hm⟩

theorem bind {x : Run W F α} {y : Run W G β} {f : α → Run W F γ} {g : β → Run W G δ}
    (h : Sim d R S x y) (hf : ∀ a b, S a b → Sim d R T (f a) (g b)) :
    Sim d R T (x >>= f) (y >>= g) :=
  fun m m' hm => (h m m' hm).bind fun r r' hr => hf r.1 r'.1 hr.1 r.2 r'.2 hr.2

theorem stuck : Sim d R S (Run.stuck : Run W F α) (Run.stuck : Run W G β) :=
  fun _ _ _ => .stuck

theorem unfinished : Sim d R S (Run.unfinished : Run W F α) (Run.unfinished : Run W G β) :=
  fun _ _ _ => .unfinished

theorem free (hd : d ≠ .same) (y : Run W G β) : Sim d R S (Run.stuck : Run W F α) y :=
  fun _ _ _ => .free hd

/-- What starts with a value that may be missing is followed where the value is there. -/
theorem ofOption_bind (hd : d ≠ .same) {a : Option α} {f : α → Run W F γ} {y : Run W G δ}
    (h : ∀ v, a = some v → Sim d R T (f v) y) : Sim d R T (Run.ofOption a >>= f) y := by
  cases a with
  | none => exact free hd y
  | some v => exact h v rfl

theorem ahead (y : Run W G β) : Sim .forth R S (Run.unfinished : Run W F α) y :=
  fun _ _ _ => .ahead List.nil_prefix

theorem behind (x : Run W F α) : Sim .back R S x (Run.unfinished : Run W G β) :=
  fun _ _ _ => .behind List.nil_prefix

theorem bind_of_stuck {x : Run W F α} {f : α → Run W F γ} {z : Run W G δ} (hd : d ≠ .same)
    (h : Sim d R S x (Run.stuck : Run W G β)) : Sim d R T (x >>= f) z :=
  fun m m' hm => (h m m' hm).bind_of_stuck hd

theorem refine {x : Run W F α} {y : Run W G γ} {g : γ → β} {P : γ → Prop}
    (h : Sim d R S x (y >>= fun c => Pure.pure (g c)))
    (hP : ∀ m t c m', y m = ⟨t, .done (c, m')⟩ → P c) :
    Sim d R (fun a c => S a (g c) ∧ P c) x y := by
  intro m m' hm
  have step : Outcome.Sim (fun r r' => S r.1 r'.1 ∧ Memory.Rel R r.2 r'.2) d (x m)
      ((y m').bind fun c => ⟨[], .done (g c.1, c.2)⟩) := h m m' hm
  refine (step.refine (P := fun c => P c.1) fun t c hc => hP m' t c.1 c.2 hc).mono ?_
  exact fun a c hr => ⟨⟨hr.1.1, hr.2⟩, hr.1.2⟩

/-- A value that is there is the one found. -/
theorem eq_pure {x : Run W F α} {b : β} (h : Sim d R S x (Pure.pure b : Run W G β)) :
    Sim d R (fun a b' => S a b' ∧ b' = b) x (Pure.pure b : Run W G β) := by
  refine refine (g := id) (by rwa [Run.pure_bind]) ?_
  intro m t c m' hc
  rw [Run.pure_apply] at hc
  cases hc
  rfl

theorem ofOption {a : Option α} {b : Option β} (h : d.Carries S a b) :
    Sim d R S (Run.ofOption a : Run W F α) (Run.ofOption b : Run W G β) := by
  cases d with
  | same =>
      cases h with
      | some h => exact pure h
      | none => exact stuck
  | forth | back =>
      cases a with
      | none => exact free (by decide) _
      | some v =>
          obtain ⟨w, rfl, hvw⟩ := h v rfl
          exact pure hvw

theorem load (place : Nat × Nat) :
    Sim d R (Value.Rel R) (Run.load place : Run W F (Value F)) (Run.load place) := by
  intro m m' hm
  have same := hm.arrays.load? place
  simp only [Run.load]
  generalize m.arrays.load? place = v at same ⊢
  generalize m'.arrays.load? place = v' at same ⊢
  cases same with
  | some h => exact .done ⟨h, hm⟩
  | none => exact .stuck

theorem store (place : Nat × Nat) {v : Value F} {v' : Value G} (hv : Value.Rel R v v') :
    Sim d R (Value.Rel R) (Run.store place v : Run W F (Value F)) (Run.store place v') := by
  intro m m' hm
  have same := hm.arrays.store? place hv
  simp only [Run.store, hv.erase_eq]
  generalize m.arrays.store? place v = arrays at same ⊢
  generalize m'.arrays.store? place v' = arrays' at same ⊢
  cases same with
  | some h => exact .done ⟨.unit, h, hm.world⟩
  | none => exact .stuck

theorem external (label : Name) {args : List (Value F)} {args' : List (Value G)}
    (h : List.Forall₂ (Value.Rel R) args args') :
    Sim d R (Value.Rel R) (Run.external label args : Run W F (Value F))
      (Run.external label args') := by
  intro m m' hm
  have same := W.natural R m.world label h hm.arrays
  simp only [Run.external, Value.Rel.map_erase_eq h, ← hm.world]
  generalize W.answer m.world label args m.arrays = r at same ⊢
  generalize W.answer m.world label args' m'.arrays = r' at same ⊢
  cases same with
  | @some r r' h =>
      obtain ⟨v, arrays, world⟩ := r
      obtain ⟨v', arrays', world'⟩ := r'
      obtain ⟨hv, harrays, rfl⟩ := h
      simp only [hv.erase_eq]
      exact .done ⟨hv, harrays, rfl⟩
  | none => exact .stuck

end Run.Sim

namespace Op

variable {W : Outside} {F G : Type}

/-- What an operation does, where `look` has the values of names. -/
def eval (look : Name → Option (Value F)) : Op → Run W F (Value F)
  | .unit => return .unit
  | .int n => return .int n
  | .float d => return .float d
  | .negate op x => do
      let v ← Run.ofOption (look x)
      Run.ofOption (v.negate op)
  | .arith op x y => do
      let v ← Run.ofOption (look x)
      let w ← Run.ofOption (look y)
      Run.ofOption (v.arith op w)
  | .var x => Run.ofOption (look x)
  | .tuple xs => do
      let vs ← Run.ofOption (lookAll look xs)
      return .tuple vs
  | .get x y => do
      let v ← Run.ofOption (look x)
      let w ← Run.ofOption (look y)
      let place ← Run.ofOption (v.place? w)
      Run.load place
  | .put x y z => do
      let v ← Run.ofOption (look x)
      let w ← Run.ofOption (look y)
      let u ← Run.ofOption (look z)
      let place ← Run.ofOption (v.place? w)
      Run.store place u
  | .externArray x => do
      let a ← Run.ofOption (W.external x)
      return .array a

/-- The value of an operation that neither computes nor touches the memory. -/
def value? (look : Name → Option (Value F)) : Op → Option (Value F)
  | .int n => some (.int n)
  | .float d => some (.float d)
  | .var x => look x
  | .tuple xs => (lookAll look xs).map .tuple
  | .unit | .negate .. | .arith .. | .get .. | .put .. | .externArray _ => none

theorem eval_of_value? {look : Name → Option (Value F)} {o : Op} {v : Value F}
    (h : o.value? look = some v) : (o.eval look : Run W F (Value F)) = pure v := by
  cases o <;> simp only [value?, Option.some.injEq, reduceCtorEq] at h
  case int | float => simp only [eval, h]
  case var x => simp only [eval, h, Run.ofOption]
  case tuple xs =>
      obtain ⟨vs, hvs, rfl⟩ := Option.map_eq_some_iff.mp h
      simp only [eval, hvs, Run.ofOption, Run.pure_bind]

theorem value?_congr {look look' : Name → Option (Value F)} {o : Op}
    (h : ∀ x ∈ o.names, look x = look' x) : o.value? look = o.value? look' := by
  cases o with
  | var x => exact h x (by simp [names])
  | tuple xs => exact congrArg (Option.map Value.tuple) (lookAll_congr h)
  | _ => rfl

theorem eval_map (look : Name → Option (Value F)) (ρ : Name → Name) (o : Op) :
    ((o.map ρ).eval look : Run W F (Value F)) = o.eval fun x => look (ρ x) := by
  cases o <;> simp only [map, eval, lookAll_map]

/-- Operations on names with related values go together. -/
theorem eval_sim {d : Direction} {R : F → G → Prop} {look : Name → Option (Value F)}
    {look' : Name → Option (Value G)} (o : Op)
    (h : ∀ x ∈ o.names, d.Carries (Value.Rel R) (look x) (look' x)) :
    Run.Sim d R (Value.Rel R) (o.eval look : Run W F (Value F)) (o.eval look') := by
  cases o with
  | unit => exact .pure .unit
  | int n => exact .pure (.int n)
  | float d => exact .pure (.float d)
  | negate op x =>
      refine .bind (.ofOption (h x (by simp [names]))) fun v v' hv => ?_
      exact .ofOption (.of_rel d (hv.negate op))
  | arith op x y =>
      refine .bind (.ofOption (h x (by simp [names]))) fun v v' hv => ?_
      refine .bind (.ofOption (h y (by simp [names]))) fun w w' hw => ?_
      exact .ofOption (.of_rel d (hv.arith op hw))
  | var x => exact .ofOption (h x (by simp [names]))
  | tuple xs =>
      have all : List.Forall₂ (fun x x' => d.Carries (Value.Rel R) (look x) (look' x')) xs xs :=
        List.forall₂_same.mpr h
      exact .bind (.ofOption (.lookAll all)) fun vs vs' hvs => .pure (.tuple hvs)
  | get x y =>
      refine .bind (.ofOption (h x (by simp [names]))) fun v v' hv => ?_
      refine .bind (.ofOption (h y (by simp [names]))) fun w w' hw => ?_
      rw [hv.place? hw]
      exact .bind (.ofOption (.refl d (v'.place? w'))) fun p p' hp => hp ▸ .load p
  | put x y z =>
      refine .bind (.ofOption (h x (by simp [names]))) fun v v' hv => ?_
      refine .bind (.ofOption (h y (by simp [names]))) fun w w' hw => ?_
      refine .bind (.ofOption (h z (by simp [names]))) fun u u' hu => ?_
      rw [hv.place? hw]
      exact .bind (.ofOption (.refl d (v'.place? w'))) fun p p' hp => hp ▸ .store p hu
  | externArray x =>
      exact .bind (.ofOption (.refl d (W.external x))) fun a a' ha => .pure (ha ▸ .array a)

end Op

end MiddleEnd
