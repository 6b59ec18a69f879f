import Mathlib
import MiddleEnd.Closure.Text
import MiddleEnd.Knf.Text
import MiddleEnd.Proofs.Mono.Text

/-! # Types in printed code

Code is printed with the types of its binders.  Take two pieces of code that differ in these
types only.  Their texts go along with each other up to the first type; it can be read back
from both, as what follows a type in code never continues it; and so on up to the end.  So
the texts are the same just if the types are alike, one by one.
-/

namespace MiddleEnd

/-! ## Comparing texts -/

/-- What stands behind a type in code. -/
def closers : List String :=
  [", ", ")", ") = ", "]", " =", " = ", " =\n", " =\n  "]

theorem closing_of_mem {c : String} (h : c ∈ closers) (rest : List Char) :
    Mono.Closing (c.toList ++ rest) := by
  simp only [closers, List.mem_cons, List.not_mem_nil, or_false] at h
  obtain rfl | rfl | rfl | rfl | rfl | rfl | rfl | rfl := h <;> simp [Mono.Closing]

/-- Comparing the two texts tells whether `P` holds, and where they end, whatever follows. -/
def Tells (P : Prop) (a b : String) : Prop :=
  ∀ rest rest' : List Char, a.toList ++ rest = b.toList ++ rest' ↔ P ∧ rest = rest'

namespace Tells

variable {P Q : Prop} {a b a' b' c : String}

theorem same (a : String) : Tells True a a := by
  intro rest rest'
  rw [List.append_right_inj, true_and]

theorem congr (h : Tells P a b) (iff : P ↔ Q) : Tells Q a b := by
  intro rest rest'
  rw [h, iff]

theorem append (h : Tells P a b) (h' : Tells Q a' b') : Tells (P ∧ Q) (a ++ a') (b ++ b') := by
  intro rest rest'
  rw [String.toList_append, String.toList_append, List.append_assoc, List.append_assoc, h, h',
    and_assoc]

theorem before (h : Tells P a b) (c : String) : Tells P (a ++ c) (b ++ c) :=
  (h.append (same c)).congr (and_iff_left trivial)

theorem behind (h : Tells P a b) (c : String) : Tells P (c ++ a) (c ++ b) :=
  ((same c).append h).congr (and_iff_right trivial)

/-- Texts may need what closes them to be told, and stand behind others all the same. -/
theorem append_between (h : Tells P a b) (h' : Tells Q (a' ++ c) (b' ++ c)) :
    Tells (P ∧ Q) (a ++ a' ++ c) (b ++ b' ++ c) := by
  rw [String.append_assoc, String.append_assoc]
  exact h.append h'

theorem between (h : Tells P (a ++ c) (b ++ c)) (d : String) :
    Tells P (d ++ a ++ c) (d ++ b ++ c) :=
  ((same d).append_between h).congr (and_iff_right trivial)

theorem eq_iff (h : Tells P a b) : a = b ↔ P := by
  have all := h [] []
  rwa [List.append_nil, List.append_nil, String.toList_inj, and_iff_left rfl] at all

theorem join {α : Type} {S T : α → α → Prop} {f : α → String} {xs ys : List α}
    (h : List.Forall₂ S xs ys) (each : ∀ x y, S x y → Tells (T x y) (f x) (f y)) :
    Tells (List.Forall₂ T xs ys) (String.join (xs.map f)) (String.join (ys.map f)) := by
  induction h with
  | nil => exact (same _).congr (iff_of_true trivial .nil)
  | cons head _ ih =>
      simp only [List.map_cons, String.join_cons, List.forall₂_cons]
      exact (each _ _ head).append ih

/-- A type is told from others where it is followed by something that does not continue it. -/
theorem type (s t : Mono) (h : c ∈ closers) :
    Tells (s.Alike t) (s.text ++ c) (t.text ++ c) := by
  intro rest rest'
  rw [String.toList_append, String.toList_append, List.append_assoc, List.append_assoc]
  constructor
  · intro texts
    obtain ⟨alike, ends⟩ := s.readable (closing_of_mem h rest) (closing_of_mem h rest') texts
    exact ⟨alike, List.append_cancel_left ends⟩
  · rintro ⟨alike, rfl⟩
    rw [Mono.text_eq_iff.mpr alike]

end Tells

/-! ## Binders -/

abbrev BindersRetyped (R : Mono → Mono → Prop) : List (Name × Mono) → List (Name × Mono) → Prop :=
  List.Forall₂ fun b c => b.1 = c.1 ∧ R b.2 c.2

namespace Layout

theorem tells_binder (x : Name) (s t : Mono) {c : String} (h : c ∈ closers) :
    Tells (s.Alike t) (binder x s ++ c) (binder x t ++ c) :=
  (Tells.type s t h).between (x ++ ": ")

theorem tells_binders {xs ys : List (Name × Mono)} (h : BindersRetyped (fun _ _ => True) xs ys)
    {c : String} (close : c ∈ closers) :
    Tells (BindersRetyped Mono.Alike xs ys) (binders xs ++ c) (binders ys ++ c) := by
  induction h with
  | nil => exact (Tells.same _).congr (iff_of_true trivial .nil)
  | @cons b d _ _ names tail ih =>
      obtain ⟨x, s⟩ := b
      obtain ⟨y, t⟩ := d
      obtain ⟨rfl : x = y, -⟩ := names
      -- a binder ends before a comma, and the last one before the bracket
      cases tail with
      | nil => exact (tells_binder x s t close).congr (by simp)
      | cons _ _ =>
          have both := (tells_binder x s t (c := ", ") (by decide)).append ih
          simp only [binders, List.map_cons, String.intercalate_cons_cons] at both ⊢
          rw [← String.append_assoc, ← String.append_assoc] at both
          exact both.congr (by simp)

/-- Binders in brackets of their own. -/
theorem tells_formals {xs ys : List (Name × Mono)} (h : BindersRetyped (fun _ _ => True) xs ys) :
    Tells (BindersRetyped Mono.Alike xs ys)
      (String.join (xs.map fun b => " (" ++ binder b.1 b.2 ++ ")"))
      (String.join (ys.map fun b => " (" ++ binder b.1 b.2 ++ ")")) := by
  refine Tells.join h fun b c same => ?_
  rw [← same.1]
  exact ((tells_binder b.1 b.2 c.2 (by decide)).between " (").congr (by simp)

/-- What a function returns, behind a sign; nothing if the type is not that of a function. -/
theorem tells_result {r r' : Option Mono} (h : Option.Rel (fun _ _ => True) r r') (sign : String)
    {c : String} (close : c ∈ closers) :
    Tells (Option.Rel Mono.Alike r r')
      (r.elim "" (sign ++ ·.text) ++ c) (r'.elim "" (sign ++ ·.text) ++ c) := by
  cases h with
  | none => exact (Tells.same _).congr (iff_of_true trivial .none)
  | some _ =>
      rw [Option.rel_some_some]
      exact (Tells.type _ _ close).between sign

/-- A sign that neither end has is the last of its kind in both lists: they split there alike. -/
theorem append_cons_inj_of_notMem_right {α : Type} {a : α} {xs ys zs ws : List α} (hz : a ∉ zs)
    (hw : a ∉ ws) (h : xs ++ a :: zs = ys ++ a :: ws) : xs = ys ∧ zs = ws := by
  obtain ⟨as, rfl, later⟩ | ⟨as, rfl, later⟩ := List.append_eq_append_iff.mp h
  · cases as with
    | nil => simpa using later
    | cons b as => simp_all
  · cases as with
    | nil => simpa [eq_comm] using later
    | cons b as => simp_all

/-- A type has no colon, so in a binder it begins after the last one, whatever the name is. -/
theorem binder_eq_iff {x y : Name} {s t : Mono} :
    binder x s = binder y t ↔ x = y ∧ s.Alike t := by
  constructor
  · intro h
    have texts :
        x.toList ++ ':' :: ' ' :: s.text.toList = y.toList ++ ':' :: ' ' :: t.text.toList := by
      simpa [binder] using congrArg String.toList h
    obtain ⟨names, types⟩ := append_cons_inj_of_notMem_right
      (by simp [s.colon_notMem_text]) (by simp [t.colon_notMem_text]) texts
    exact ⟨String.toList_inj.mp names,
      Mono.text_eq_iff.mp (String.toList_inj.mp (List.cons.inj types).2)⟩
  · rintro ⟨rfl, alike⟩
    rw [binder, Mono.text_eq_iff.mpr alike, binder]

/-! ## Layouts -/

variable {P Q : Prop} {a b a' b' : String}

theorem tells_branch (column : Nat) (test : Test) (x y : Name) (yes : Tells P a b)
    (no : Tells Q a' b') :
    Tells (P ∧ Q) (branch column test x y a a') (branch column test x y b b') :=
  (((((yes.behind _).before "\n").before (pad column)).before "else\n").before
    (pad (column + 2))).append no

theorem tells_shortLet (column : Nat) (x : Name) (s t : Mono) (bound : Tells P a b)
    (body : Tells Q a' b') :
    Tells (s.Alike t ∧ P ∧ Q) (shortLet column x s a a') (shortLet column x t b b') := by
  have head := (tells_binder x s t (c := " = ") (by decide)).between "let "
  exact ((((head.append bound).before " in\n").before (pad column)).append body).congr and_assoc

theorem tells_longLet (column : Nat) (x : Name) (s t : Mono) (bound : Tells P a b)
    (body : Tells Q a' b') :
    Tells (s.Alike t ∧ P ∧ Q) (longLet column x s a a') (longLet column x t b b') := by
  have head := (tells_binder x s t (c := " =\n") (by decide)).between "let "
  have bound := (head.before (pad (column + 2))).append bound
  exact ((((((bound.before "\n").before (pad column)).before "in\n").before
    (pad column))).append body).congr and_assoc

theorem tells_letTuple (column : Nat) {xs ys : List (Name × Mono)} (y : Name)
    (pattern : BindersRetyped (fun _ _ => True) xs ys) (body : Tells P a b) :
    Tells (BindersRetyped Mono.Alike xs ys ∧ P)
      (letTuple column xs y a) (letTuple column ys y b) := by
  have head := (tells_binders pattern (c := ") = ") (by decide)).between "let ("
  exact (((head.before y).before " in\n").before (pad column)).append body

end Layout

/-! ## K-normal code -/

namespace Knf

/-- The same code with other types on its binders, one by one related.  Of the type of a
    function, only the result is its own: its parameters have the types of the formals. -/
inductive Retyped (R : Mono → Mono → Prop) : Knf → Knf → Prop where
  | op {o} : Retyped R (.op o) (.op o)
  | branch {test x y e1 e2 d1 d2} :
      Retyped R e1 d1 → Retyped R e2 d2 →
      Retyped R (.branch test x y e1 e2) (.branch test x y d1 d2)
  | letIn {x s t e1 e2 d1 d2} :
      R s t → Retyped R e1 d1 → Retyped R e2 d2 →
      Retyped R (.letIn x s e1 e2) (.letIn x t d1 d2)
  | letRec {f s t xs ys e1 e2 d1 d2} :
      BindersRetyped R xs ys → Option.Rel R s.result? t.result? →
      Retyped R e1 d1 → Retyped R e2 d2 →
      Retyped R (.letRec f s xs e1 e2) (.letRec f t ys d1 d2)
  | app {f xs} : Retyped R (.app f xs) (.app f xs)
  | letTuple {xs ys y e d} :
      BindersRetyped R xs ys → Retyped R e d →
      Retyped R (.letTuple xs y e) (.letTuple ys y d)
  | externApp {f xs} : Retyped R (.externApp f xs) (.externApp f xs)

namespace Retyped

variable {R : Mono → Mono → Prop} {e1 e2 d1 d2 : Knf}

theorem isCompound_eq (h : e1.Retyped R d1) : e1.isCompound = d1.isCompound := by
  cases h <;> rfl

theorem branch_iff {test : Test} {x y : Name} :
    Retyped R (.branch test x y e1 e2) (.branch test x y d1 d2) ↔
      e1.Retyped R d1 ∧ e2.Retyped R d2 := by
  constructor
  · intro h
    cases h with
    | branch h1 h2 => exact ⟨h1, h2⟩
  · rintro ⟨h1, h2⟩
    exact .branch h1 h2

theorem letIn_iff {x : Name} {s t : Mono} :
    Retyped R (.letIn x s e1 e2) (.letIn x t d1 d2) ↔
      R s t ∧ e1.Retyped R d1 ∧ e2.Retyped R d2 := by
  constructor
  · intro h
    cases h with
    | letIn ty h1 h2 => exact ⟨ty, h1, h2⟩
  · rintro ⟨ty, h1, h2⟩
    exact .letIn ty h1 h2

theorem letRec_iff {f : Name} {s t : Mono} {xs ys : List (Name × Mono)} :
    Retyped R (.letRec f s xs e1 e2) (.letRec f t ys d1 d2) ↔
      ((BindersRetyped R xs ys ∧ Option.Rel R s.result? t.result?) ∧ e1.Retyped R d1) ∧
        e2.Retyped R d2 := by
  constructor
  · intro h
    cases h with
    | letRec formals result h1 h2 => exact ⟨⟨⟨formals, result⟩, h1⟩, h2⟩
  · rintro ⟨⟨⟨formals, result⟩, h1⟩, h2⟩
    exact .letRec formals result h1 h2

theorem letTuple_iff {y : Name} {xs ys : List (Name × Mono)} :
    Retyped R (.letTuple xs y e1) (.letTuple ys y d1) ↔
      BindersRetyped R xs ys ∧ e1.Retyped R d1 := by
  constructor
  · intro h
    cases h with
    | letTuple pattern h => exact ⟨pattern, h⟩
  · rintro ⟨pattern, h⟩
    exact .letTuple pattern h

end Retyped

theorem functionHead_eq (f : Name) (ty : Mono) (formals : List (Name × Mono)) :
    functionHead f ty formals =
      "let rec " ++ f ++ String.join (formals.map fun b => " (" ++ Layout.binder b.1 b.2 ++ ")") ++
        ty.result?.elim "" (": " ++ ·.text) ++ " =" := by
  rw [functionHead]
  cases ty.result? <;> rfl

theorem tells_functionHead (f : Name) {s t : Mono} {xs ys : List (Name × Mono)}
    (formals : BindersRetyped (fun _ _ => True) xs ys)
    (result : Option.Rel (fun _ _ => True) s.result? t.result?) :
    Tells (BindersRetyped Mono.Alike xs ys ∧ Option.Rel Mono.Alike s.result? t.result?)
      (functionHead f s xs) (functionHead f t ys) := by
  rw [functionHead_eq, functionHead_eq]
  have formals := (Layout.tells_formals formals).behind ("let rec " ++ f)
  exact formals.append_between (Layout.tells_result result ": " (by decide))

theorem layout_letIn (column : Nat) (x : Name) (ty : Mono) (e1 e2 : Knf) :
    (letIn x ty e1 e2).layout column =
      if e1.isCompound then
        Layout.longLet column x ty (e1.layout (column + 2)) (e2.layout column)
      else Layout.shortLet column x ty (e1.layout column) (e2.layout column) :=
  rfl

theorem tells_layout {e d : Knf} (h : e.Retyped (fun _ _ => True) d) (column : Nat) :
    Tells (e.Retyped Mono.Alike d) (e.layout column) (d.layout column) := by
  induction h generalizing column with
  | op => exact (Tells.same _).congr (iff_of_true trivial .op)
  | branch _ _ ih1 ih2 =>
      exact (Layout.tells_branch column _ _ _ (ih1 _) (ih2 _)).congr Retyped.branch_iff.symm
  | app => exact (Tells.same _).congr (iff_of_true trivial .app)
  | externApp => exact (Tells.same _).congr (iff_of_true trivial .externApp)
  | letTuple pattern _ ih =>
      exact (Layout.tells_letTuple column _ pattern (ih _)).congr Retyped.letTuple_iff.symm
  | letIn _ bound _ ih1 ih2 =>
      rw [layout_letIn, layout_letIn, ← bound.isCompound_eq]
      split
      · exact (Layout.tells_longLet column _ _ _ (ih1 _) (ih2 _)).congr Retyped.letIn_iff.symm
      · exact (Layout.tells_shortLet column _ _ _ (ih1 _) (ih2 _)).congr Retyped.letIn_iff.symm
  | @letRec f _ _ _ _ _ _ _ _ formals result _ _ ih1 ih2 =>
      have head := ((tells_functionHead f formals result).before "\n").before
        (Layout.pad (column + 2))
      have body := ((((head.append (ih1 (column + 2))).before "\n").before
        (Layout.pad column)).before "in\n").before (Layout.pad column)
      exact (body.append (ih2 _)).congr Retyped.letRec_iff.symm

end Knf

/-! ## Code with closures -/

namespace Code

/-- The same code with other types on its binders, one by one related. -/
inductive Retyped (R : Mono → Mono → Prop) : Code → Code → Prop where
  | op {o} : Retyped R (.op o) (.op o)
  | branch {test x y e1 e2 d1 d2} :
      Retyped R e1 d1 → Retyped R e2 d2 →
      Retyped R (.branch test x y e1 e2) (.branch test x y d1 d2)
  | letIn {x s t e1 e2 d1 d2} :
      R s t → Retyped R e1 d1 → Retyped R e2 d2 →
      Retyped R (.letIn x s e1 e2) (.letIn x t d1 d2)
  | makeClosure {x s t entry captured e d} :
      R s t → Retyped R e d →
      Retyped R (.makeClosure x s entry captured e) (.makeClosure x t entry captured d)
  | callClosure {f xs} : Retyped R (.callClosure f xs) (.callClosure f xs)
  | callDirect {f xs} : Retyped R (.callDirect f xs) (.callDirect f xs)
  | letTuple {xs ys y e d} :
      BindersRetyped R xs ys → Retyped R e d →
      Retyped R (.letTuple xs y e) (.letTuple ys y d)

namespace Retyped

variable {R : Mono → Mono → Prop} {e1 e2 d1 d2 : Code}

theorem isCompound_eq (h : e1.Retyped R d1) : e1.isCompound = d1.isCompound := by
  cases h <;> rfl

theorem branch_iff {test : Test} {x y : Name} :
    Retyped R (.branch test x y e1 e2) (.branch test x y d1 d2) ↔
      e1.Retyped R d1 ∧ e2.Retyped R d2 := by
  constructor
  · intro h
    cases h with
    | branch h1 h2 => exact ⟨h1, h2⟩
  · rintro ⟨h1, h2⟩
    exact .branch h1 h2

theorem letIn_iff {x : Name} {s t : Mono} :
    Retyped R (.letIn x s e1 e2) (.letIn x t d1 d2) ↔
      R s t ∧ e1.Retyped R d1 ∧ e2.Retyped R d2 := by
  constructor
  · intro h
    cases h with
    | letIn ty h1 h2 => exact ⟨ty, h1, h2⟩
  · rintro ⟨ty, h1, h2⟩
    exact .letIn ty h1 h2

theorem makeClosure_iff {x entry : Name} {s t : Mono} {captured : List Name} :
    Retyped R (.makeClosure x s entry captured e1) (.makeClosure x t entry captured d1) ↔
      R s t ∧ True ∧ e1.Retyped R d1 := by
  constructor
  · intro h
    cases h with
    | makeClosure ty h => exact ⟨ty, trivial, h⟩
  · rintro ⟨ty, -, h⟩
    exact .makeClosure ty h

theorem letTuple_iff {y : Name} {xs ys : List (Name × Mono)} :
    Retyped R (.letTuple xs y e1) (.letTuple ys y d1) ↔
      BindersRetyped R xs ys ∧ e1.Retyped R d1 := by
  constructor
  · intro h
    cases h with
    | letTuple pattern h => exact ⟨pattern, h⟩
  · rintro ⟨pattern, h⟩
    exact .letTuple pattern h

end Retyped

theorem layout_letIn (column : Nat) (x : Name) (ty : Mono) (e1 e2 : Code) :
    (letIn x ty e1 e2).layout column =
      if e1.isCompound then
        Layout.longLet column x ty (e1.layout (column + 2)) (e2.layout column)
      else Layout.shortLet column x ty (e1.layout column) (e2.layout column) :=
  rfl

theorem tells_layout {e d : Code} (h : e.Retyped (fun _ _ => True) d) (column : Nat) :
    Tells (e.Retyped Mono.Alike d) (e.layout column) (d.layout column) := by
  induction h generalizing column with
  | op => exact (Tells.same _).congr (iff_of_true trivial .op)
  | branch _ _ ih1 ih2 =>
      exact (Layout.tells_branch column _ _ _ (ih1 _) (ih2 _)).congr Retyped.branch_iff.symm
  | letIn _ bound _ ih1 ih2 =>
      rw [layout_letIn, layout_letIn, ← bound.isCompound_eq]
      split
      · exact (Layout.tells_longLet column _ _ _ (ih1 _) (ih2 _)).congr Retyped.letIn_iff.symm
      · exact (Layout.tells_shortLet column _ _ _ (ih1 _) (ih2 _)).congr Retyped.letIn_iff.symm
  | makeClosure _ _ ih =>
      exact (Layout.tells_shortLet column _ _ _ (.same _) (ih _)).congr
        Retyped.makeClosure_iff.symm
  | callClosure => exact (Tells.same _).congr (iff_of_true trivial .callClosure)
  | callDirect => exact (Tells.same _).congr (iff_of_true trivial .callDirect)
  | letTuple pattern _ ih =>
      exact (Layout.tells_letTuple column _ pattern (ih _)).congr Retyped.letTuple_iff.symm

end Code

structure Function.Retyped (R : Mono → Mono → Prop) (f g : Function) : Prop where
  name : f.name = g.name
  formals : BindersRetyped R f.formals g.formals
  captured : BindersRetyped R f.captured g.captured
  result : Option.Rel R f.ty.result? g.ty.result?
  body : f.body.Retyped R g.body

theorem Function.text_eq (f : Function) :
    f.text = "fn " ++ f.name ++ "(" ++ Layout.binders f.formals ++ ")" ++
      (if f.captured.isEmpty then "" else " [" ++ Layout.binders f.captured ++ "]") ++
      f.ty.result?.elim "" (" -> " ++ ·.text) ++ " =\n  " ++ f.body.layout 2 := by
  rw [Function.text]
  cases f.ty.result? <;> rfl

/-- The brackets of captured names are left out if there are none. -/
theorem Layout.tells_captured {xs ys : List (Name × Mono)}
    (h : BindersRetyped (fun _ _ => True) xs ys) :
    Tells (BindersRetyped Mono.Alike xs ys)
      (if xs.isEmpty then "" else " [" ++ binders xs ++ "]")
      (if ys.isEmpty then "" else " [" ++ binders ys ++ "]") := by
  cases h with
  | nil => exact (Tells.same _).congr (iff_of_true trivial .nil)
  | cons names tail => exact (tells_binders (.cons names tail) (by decide)).between " ["

theorem Function.tells_text {f g : Function} (h : f.Retyped (fun _ _ => True) g) :
    Tells (f.Retyped Mono.Alike g) f.text g.text := by
  have formals := (Layout.tells_binders h.formals (c := ")") (by decide)).between
    ("fn " ++ f.name ++ "(")
  have head := (formals.append (Layout.tells_captured h.captured)).append_between
    (Layout.tells_result h.result " -> " (c := " =\n  ") (by decide))
  have text := head.append (Code.tells_layout h.body 2)
  rw [Function.text_eq, Function.text_eq, ← h.name]
  refine text.congr ⟨?_, ?_⟩
  · rintro ⟨⟨⟨formals, captured⟩, result⟩, body⟩
    exact ⟨h.name, formals, captured, result, body⟩
  · rintro ⟨-, formals, captured, result, body⟩
    exact ⟨⟨⟨formals, captured⟩, result⟩, body⟩

structure Program.Retyped (R : Mono → Mono → Prop) (p q : Program) : Prop where
  functions : List.Forall₂ (Function.Retyped R) p.functions q.functions
  main : p.main.Retyped R q.main

theorem Program.tells_text {p q : Program} (h : p.Retyped (fun _ _ => True) q) :
    Tells (p.Retyped Mono.Alike q) p.text q.text := by
  have functions := Tells.join h.functions
    fun f g types => (Function.tells_text types).before "\n\n"
  have text := (functions.before "main =\n  ").append (Code.tells_layout h.main 2)
  refine text.congr ⟨?_, ?_⟩
  · rintro ⟨functions, main⟩
    exact ⟨functions, main⟩
  · rintro ⟨functions, main⟩
    exact ⟨functions, main⟩

/-! ## What texts tell -/

/-- Two types have one text just if they are the same but for arrays of functions, which are
    written like functions that return arrays; without such arrays they are the same.  A
    binder shows its type as exactly, and its name.  So does printed code: two pieces of
    K-normal code, or two programs, that differ in the types of binders only have one text
    just if the types are alike, one by one. -/
theorem texts_tell_types (s t : Mono) (x y : Name) (e d : Knf) (p q : Program) :
    (s.text = t.text ↔ s.Alike t) ∧
    (s.hasFunctionArrays = false → t.hasFunctionArrays = false → (s.text = t.text ↔ s = t)) ∧
    (Layout.binder x s = Layout.binder y t ↔ x = y ∧ s.Alike t) ∧
    (e.Retyped (fun _ _ => True) d → (e.text = d.text ↔ e.Retyped Mono.Alike d)) ∧
    (p.Retyped (fun _ _ => True) q → (p.text = q.text ↔ p.Retyped Mono.Alike q)) := by
  refine ⟨Mono.text_eq_iff, fun hs ht => ?_, Layout.binder_eq_iff, fun h => ?_, fun h => ?_⟩
  · rw [Mono.text_eq_iff, Mono.alike_iff_eq hs ht]
  · exact (Knf.tells_layout h 0).eq_iff
  · exact (Program.tells_text h).eq_iff

/-- Functions that are kept in an array. -/
def keptSteps : Mono :=
  .array (.fn [.int] .int)

/-- A function that makes an array. -/
def arrayMaker : Mono :=
  .fn [.int] (.array .int)

/-- The array is around the arrow in one type and behind it in the other; the texts are one. -/
theorem text_keptSteps :
    keptSteps.text = "(int) -> int array" ∧ arrayMaker.text = "(int) -> int array" ∧
      keptSteps ≠ arrayMaker := by
  exact ⟨rfl, rfl, by decide⟩

/-- A function is called and its result taken apart, with values of one type everywhere. -/
def handedOver (ty : Mono) : Knf :=
  .letRec "f" (.fn [ty] ty) [("x", ty)] (.op (.var "x"))
    (.letIn "y" ty (.app "f" ["z"]) (.letTuple [("v", ty), ("w", ty)] "p" (.op (.var "v"))))

theorem retyped_handedOver {R : Mono → Mono → Prop} {s t : Mono} (h : R s t) :
    (handedOver s).Retyped R (handedOver t) :=
  .letRec (.cons ⟨rfl, h⟩ .nil) (.some h) .op
    (.letIn h .app (.letTuple (.cons ⟨rfl, h⟩ (.cons ⟨rfl, h⟩ .nil)) .op))

/-- A closure is made with a value of this type, and called with another. -/
def handedOn (ty : Mono) : Program where
  functions := [⟨"f", .fn [ty] ty, [("x", ty)], [("y", ty)], .op (.var "x")⟩]
  main := .makeClosure "f" (.fn [ty] ty) "f" ["y"] (.callClosure "f" ["z"])

theorem retyped_handedOn {R : Mono → Mono → Prop} {s t : Mono} (h : R s t)
    (function : R (.fn [s] s) (.fn [t] t)) : (handedOn s).Retyped R (handedOn t) where
  functions := .cons ⟨rfl, .cons ⟨rfl, h⟩ .nil, .cons ⟨rfl, h⟩ .nil, .some h, .op⟩ .nil
  main := .makeClosure function .callClosure

theorem texts_handedOver :
    arrayMaker.text ≠ (Mono.fn [.array .int] .int).text ∧
      (handedOver keptSteps).text = (handedOver arrayMaker).text ∧
      (handedOn keptSteps).text = (handedOn arrayMaker).text := by
  obtain ⟨-, plain, -, code, program⟩ := texts_tell_types arrayMaker (.fn [.array .int] .int)
    "x" "x" (handedOver keptSteps) (handedOver arrayMaker) (handedOn keptSteps)
    (handedOn arrayMaker)
  refine ⟨?_, ?_, ?_⟩
  · exact (plain (by decide) (by decide)).not.mpr (by decide)
  · exact (code (retyped_handedOver trivial)).mpr (retyped_handedOver (by decide))
  · exact (program (retyped_handedOn trivial trivial)).mpr
      (retyped_handedOn (by decide) (by decide))

end MiddleEnd
