import Mathlib
import MiddleEnd.Name
import MiddleEnd.Operator

/-! # Values and the outside world

What a running program works on: values, arrays that can be changed, and the
external functions it may call.  The languages of the middle end differ in what
a function value is, so the type of function values is a parameter.  Everything
that can be noticed from outside is an `Effect`; a function value is never
noticed itself, only what calls of it do.
-/

namespace MiddleEnd

/-- A value of a running program, with function values `F`.  Truth values are the
    integers 1 and 0. -/
inductive Value (F : Type) where
  | unit
  | int (n : Int64)
  | float (d : Double)
  | tuple (vs : List (Value F))
  | array (a : Nat)
  | fn (f : F)
deriving Inhabited

namespace Value

variable {F G : Type}

mutual
def map (g : F → G) : Value F → Value G
  | .unit => .unit
  | .int n => .int n
  | .float d => .float d
  | .tuple vs => .tuple (mapList g vs)
  | .array a => .array a
  | .fn f => .fn (g f)

def mapList (g : F → G) : List (Value F) → List (Value G)
  | [] => []
  | v :: vs => v.map g :: mapList g vs
end

/-- What can be seen of a value without calling functions. -/
def erase (v : Value F) : Value Unit :=
  v.map fun _ => ()

/-- Change of sign; only a number of the right kind has one. -/
def negate : Negation → Value F → Option (Value F)
  | .int, .int n => some (.int (-n))
  | .float, .float d => some (.float d.neg)
  | _, _ => none

/-- Arithmetic on two numbers of the right kind. -/
def arith : Arith → Value F → Value F → Option (Value F)
  | .int op, .int m, .int n => some (.int (op.apply m n))
  | .float op, .float a, .float b => some (.float (op.apply a b))
  | _, _, _ => none

/-- A test on two numbers of one kind or on two units.  Tuples, arrays and
    functions cannot be compared. -/
def test (t : Test) : Value F → Value F → Option Bool
  | .unit, .unit => some true
  | .int m, .int n => some (t.ints m n)
  | .float a, .float b => some (t.floats a b)
  | _, _ => none

def components? : Value F → Option (List (Value F))
  | .tuple vs => some vs
  | _ => none

def function? : Value F → Option F
  | .fn f => some f
  | _ => none

/-- The place that an array and an index name: the number of the array and the
    position in it. -/
def place? : Value F → Value F → Option (Nat × Nat)
  | .array a, .int i => if 0 ≤ i.toInt then some (a, i.toInt.toNat) else none
  | _, _ => none

/-- Values that differ in their function values only, which are related by `R`. -/
inductive Rel (R : F → G → Prop) : Value F → Value G → Prop where
  | unit : Rel R .unit .unit
  | int (n) : Rel R (.int n) (.int n)
  | float (d) : Rel R (.float d) (.float d)
  | tuple {vs ws} : List.Forall₂ (Rel R) vs ws → Rel R (.tuple vs) (.tuple ws)
  | array (a) : Rel R (.array a) (.array a)
  | fn {f g} : R f g → Rel R (.fn f) (.fn g)

mutual
/-- Related values look the same. -/
theorem Rel.erase_eq {R : F → G → Prop} :
    ∀ {v : Value F} {w : Value G}, Rel R v w → v.erase = w.erase
  | _, _, .unit => rfl
  | _, _, .int _ => rfl
  | _, _, .float _ => rfl
  | _, _, .tuple h => congrArg Value.tuple (Rel.eraseList_eq h)
  | _, _, .array _ => rfl
  | _, _, .fn _ => rfl

theorem Rel.eraseList_eq {R : F → G → Prop} :
    ∀ {vs : List (Value F)} {ws : List (Value G)}, List.Forall₂ (Rel R) vs ws →
      mapList (fun _ => ()) vs = mapList (fun _ => ()) ws
  | _, _, .nil => rfl
  | _, _, .cons h t => congrArg₂ List.cons (Rel.erase_eq h) (Rel.eraseList_eq t)
end

theorem Rel.map_erase_eq {R : F → G → Prop} {vs : List (Value F)} {ws : List (Value G)}
    (h : List.Forall₂ (Rel R) vs ws) : vs.map erase = ws.map erase := by
  induction h with
  | nil => rfl
  | cons head _ ih => rw [List.map_cons, List.map_cons, head.erase_eq, ih]

mutual
/-- A value without functions stands for related values on both sides. -/
theorem rel_map_empty (R : F → G → Prop) :
    ∀ v : Value Empty, Rel R (v.map Empty.elim) (v.map Empty.elim)
  | .unit => .unit
  | .int n => .int n
  | .float d => .float d
  | .tuple vs => .tuple (rel_mapList_empty R vs)
  | .array a => .array a

theorem rel_mapList_empty (R : F → G → Prop) :
    ∀ vs : List (Value Empty),
      List.Forall₂ (Rel R) (mapList Empty.elim vs) (mapList Empty.elim vs)
  | [] => .nil
  | v :: vs => .cons (rel_map_empty R v) (rel_mapList_empty R vs)
end

section
variable {R : F → G → Prop} {v w : Value F} {v' w' : Value G}

theorem Rel.negate (op : Negation) (h : Rel R v v') :
    Option.Rel (Rel R) (v.negate op) (v'.negate op) := by
  cases op <;> cases h
  case int.int n => exact .some (.int (-n))
  case float.float d => exact .some (.float d.neg)
  all_goals exact .none

theorem Rel.arith (op : Arith) (hv : Rel R v v') (hw : Rel R w w') :
    Option.Rel (Rel R) (v.arith op w) (v'.arith op w') := by
  cases op <;> cases hv <;> cases hw
  case int.int.int op m n => exact .some (.int (op.apply m n))
  case float.float.float op a b => exact .some (.float (op.apply a b))
  all_goals exact .none

theorem Rel.test (t : Test) (hv : Rel R v v') (hw : Rel R w w') : v.test t w = v'.test t w' := by
  cases hv <;> cases hw <;> rfl

theorem Rel.components? (h : Rel R v v') :
    Option.Rel (List.Forall₂ (Rel R)) v.components? v'.components? := by
  cases h
  case tuple h => exact .some h
  all_goals exact .none

theorem Rel.of_tuple {vs' : List (Value G)} (h : Rel R v (.tuple vs')) :
    ∃ vs, v = .tuple vs ∧ List.Forall₂ (Rel R) vs vs' := by
  cases h with
  | tuple h => exact ⟨_, rfl, h⟩

theorem Rel.function? (h : Rel R v v') : Option.Rel R v.function? v'.function? := by
  cases h
  case fn h => exact .some h
  all_goals exact .none

theorem Rel.place? (hv : Rel R v v') (hw : Rel R w w') : v.place? w = v'.place? w' := by
  cases hv <;> cases hw <;> rfl

end

end Value

/-- Something that can be noticed from outside while a program runs. -/
inductive Effect where
  /-- An external function was called and has answered. -/
  | call (label : Name) (args : List (Value Unit)) (answer : Value Unit)
  /-- A value was stored into an array. -/
  | store (array index : Nat) (value : Value Unit)

/-- The contents of all arrays, by the numbers of the arrays. -/
abbrev Arrays (F : Type) := List (List (Value F))

abbrev Arrays.Rel {F G : Type} (R : F → G → Prop) : Arrays F → Arrays G → Prop :=
  List.Forall₂ (List.Forall₂ (Value.Rel R))

namespace Arrays

variable {F G : Type}

def load? (arrays : Arrays F) (place : Nat × Nat) : Option (Value F) :=
  arrays[place.1]?.bind (·[place.2]?)

/-- The arrays with a new value at a place, which has to exist. -/
def store? (arrays : Arrays F) (place : Nat × Nat) (v : Value F) : Option (Arrays F) :=
  match arrays[place.1]? with
  | some cells =>
      if place.2 < cells.length then some (arrays.set place.1 (cells.set place.2 v)) else none
  | none => none

private theorem forall₂_getElem? {α β : Type} {r : α → β → Prop} {as : List α} {bs : List β}
    (h : List.Forall₂ r as bs) (i : Nat) : Option.Rel r as[i]? bs[i]? := by
  induction h generalizing i with
  | nil => exact .none
  | cons head _ ih =>
      cases i with
      | zero => exact .some head
      | succ i => exact ih i

private theorem forall₂_set {α β : Type} {r : α → β → Prop} {as : List α} {bs : List β} {a : α}
    {b : β} (h : List.Forall₂ r as bs) (hab : r a b) (i : Nat) :
    List.Forall₂ r (as.set i a) (bs.set i b) := by
  induction h generalizing i with
  | nil => exact .nil
  | cons head tail ih =>
      cases i with
      | zero => exact .cons hab tail
      | succ i => exact .cons head (ih i)

variable {R : F → G → Prop} {arrays : Arrays F} {arrays' : Arrays G}

theorem Rel.load? (h : Rel R arrays arrays') (place : Nat × Nat) :
    Option.Rel (Value.Rel R) (arrays.load? place) (arrays'.load? place) := by
  unfold Arrays.load?
  generalize hc : arrays[place.1]? = cells
  generalize hc' : arrays'[place.1]? = cells'
  have same := forall₂_getElem? h place.1
  rw [hc, hc'] at same
  cases same with
  | none => exact .none
  | some rows => exact forall₂_getElem? rows place.2

theorem Rel.store? {v : Value F} {v' : Value G} (h : Rel R arrays arrays') (place : Nat × Nat)
    (hv : Value.Rel R v v') :
    Option.Rel (Rel R) (arrays.store? place v) (arrays'.store? place v') := by
  unfold Arrays.store?
  generalize hc : arrays[place.1]? = cells
  generalize hc' : arrays'[place.1]? = cells'
  have same := forall₂_getElem? h place.1
  rw [hc, hc'] at same
  cases same with
  | none => exact .none
  | some rows =>
      simp only [← rows.length_eq]
      split
      · exact .some (forall₂_set h (forall₂_set rows hv place.2) place.1)
      · exact .none

theorem Rel.erase_eq (h : Rel R arrays arrays') :
    arrays.map (·.map Value.erase) = arrays'.map (·.map Value.erase) := by
  induction h with
  | nil => rfl
  | cons head _ ih => rw [List.map_cons, List.map_cons, Value.Rel.map_erase_eq head, ih]

end Arrays

/-- The world outside of a program: its state, the external arrays, and how it
    answers calls of external functions.  An answer may depend on everything but
    the function values among the arguments and in the arrays: these can be
    passed on, stored and returned, and never be looked into (`natural`).  The
    world may refuse a call. -/
structure Outside where
  World : Type
  /-- The state of the world when the program starts. -/
  start : World
  /-- The arrays that exist when the program starts. -/
  arrays : Arrays Empty
  /-- The number of an external array. -/
  external : Name → Option Nat
  /-- The answer to a call, the arrays after it and the new state of the world. -/
  answer : {F : Type} → World → Name → List (Value F) → Arrays F →
    Option (Value F × Arrays F × World)
  natural : ∀ {F G : Type} (R : F → G → Prop) (world : World) (label : Name)
    {args : List (Value F)} {args' : List (Value G)} {arrays : Arrays F} {arrays' : Arrays G},
    List.Forall₂ (Value.Rel R) args args' → Arrays.Rel R arrays arrays' →
      Option.Rel (fun r r' => Value.Rel R r.1 r'.1 ∧ Arrays.Rel R r.2.1 r'.2.1 ∧ r.2.2 = r'.2.2)
        (answer world label args arrays) (answer world label args' arrays')

/-- The world that accepts every call, answers with the unit and changes nothing. -/
def Outside.accepting : Outside where
  World := Unit
  start := ()
  arrays := []
  external _ := none
  answer world _ _ arrays := some (.unit, arrays, world)
  natural _ _ _ _ _ _ _ _ harrays := .some ⟨.unit, harrays, rfl⟩

/-- What a program can change. -/
structure Memory (W : Outside) (F : Type) where
  arrays : Arrays F
  world : W.World

namespace Memory

variable {W : Outside} {F G : Type}

/-- The memory with which every program starts. -/
def start (W : Outside) (F : Type) : Memory W F :=
  ⟨W.arrays.map (Value.mapList Empty.elim), W.start⟩

/-- What can be seen of the memory without calling functions. -/
def erase (m : Memory W F) : Memory W Unit :=
  ⟨m.arrays.map (·.map Value.erase), m.world⟩

/-- Memories with related contents. -/
structure Rel (R : F → G → Prop) (m : Memory W F) (m' : Memory W G) : Prop where
  arrays : Arrays.Rel R m.arrays m'.arrays
  world : m.world = m'.world

theorem Rel.erase_eq {R : F → G → Prop} {m : Memory W F} {m' : Memory W G} (h : Rel R m m') :
    m.erase = m'.erase := by
  simp only [erase, h.arrays.erase_eq, h.world]

theorem rel_start (W : Outside) (R : F → G → Prop) : Rel R (start W F) (start W G) := by
  refine ⟨?_, rfl⟩
  simp only [start, Arrays.Rel, List.forall₂_map_left_iff, List.forall₂_map_right_iff]
  exact List.forall₂_same.mpr fun row _ => Value.rel_mapList_empty R row

end Memory

end MiddleEnd
