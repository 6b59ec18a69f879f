import Mathlib
import MiddleEnd.Proofs.Term.Induction
import MiddleEnd.Scope
import MiddleEnd.Signature

/-! # The type system

The typing rules of the language, for terms that carry their types.  They say
which types are right, and not how types are found.
-/

namespace MiddleEnd

namespace Term

section
variable {Note Ann Note' Ann' : Type} (f : Note → Note') (g : Ann → Ann')

def mapBinder (x : Name × Ann) : Name × Ann' :=
  (x.1, g x.2)

theorem mapBinder_mapBinder {Ann'' : Type} (h : Ann' → Ann'') (x : Name × Ann) :
    mapBinder h (mapBinder g x) = mapBinder (fun a => h (g a)) x := rfl

mutual
/-- Change the notes on all nodes and on all binders. -/
def map : Term Note Ann → Term Note' Ann'
  | .unit n => .unit (f n)
  | .bool n b => .bool (f n) b
  | .int n i => .int (f n) i
  | .float n d => .float (f n) d
  | .not n e => .not (f n) (map e)
  | .negate n op e => .negate (f n) op (map e)
  | .arith n op l r => .arith (f n) op (map l) (map r)
  | .compare n op l r => .compare (f n) op (map l) (map r)
  | .ifThenElse n c t e => .ifThenElse (f n) (map c) (map t) (map e)
  | .letIn n x e1 e2 => .letIn (f n) (mapBinder g x) (map e1) (map e2)
  | .var n x => .var (f n) x
  | .letRec n h formals body rest =>
      .letRec (f n) (mapBinder g h) (formals.map (mapBinder g)) (map body) (map rest)
  | .app n e es => .app (f n) (map e) (mapList es)
  | .tuple n es => .tuple (f n) (mapList es)
  | .letTuple n pattern e1 e2 =>
      .letTuple (f n) (pattern.map (mapBinder g)) (map e1) (map e2)
  | .array n len init => .array (f n) (map len) (map init)
  | .get n a i => .get (f n) (map a) (map i)
  | .put n a i v => .put (f n) (map a) (map i) (map v)
  | .seq n e1 e2 => .seq (f n) (map e1) (map e2)

def mapList : List (Term Note Ann) → List (Term Note' Ann')
  | [] => []
  | e :: es => map e :: mapList es
end

theorem mapList_eq (es : List (Term Note Ann)) : mapList f g es = es.map (map f g) := by
  induction es with
  | nil => rfl
  | cons e es ih => rw [mapList, ih, List.map_cons]

@[simp] theorem note_map (e : Term Note Ann) : (e.map f g).note = f e.note := by
  cases e <;> rfl

theorem map_map {Note'' Ann'' : Type} (f' : Note' → Note'') (g' : Ann' → Ann'')
    (e : Term Note Ann) :
    (e.map f g).map f' g' = e.map (fun n => f' (f n)) (fun a => g' (g a)) := by
  have same : ∀ es : List (Term Note Ann),
      (∀ a ∈ es, (a.map f g).map f' g' = a.map (fun n => f' (f n)) (fun a => g' (g a))) →
      mapList f' g' (mapList f g es) = mapList (fun n => f' (f n)) (fun a => g' (g a)) es := by
    intro es h
    rw [mapList_eq, mapList_eq, mapList_eq, List.map_map]
    exact List.map_congr_left h
  induction e using Term.induct with
  | app n e es he hes => simp only [map, he, same es hes]
  | tuple n es hes => simp only [map, same es hes]
  | _ => simp only [map, mapBinder_mapBinder, List.map_map, Function.comp_def, *]

end

variable {Note Ann : Type}

/-- The bare term, without any notes. -/
def erase (e : Term Note Ann) : Term Unit Unit :=
  e.map (fun _ => ()) (fun _ => ())

mutual
def notes : Term Note Ann → List Note
  | .unit n | .bool n _ | .int n _ | .float n _ | .var n _ => [n]
  | .not n e | .negate n _ e => n :: notes e
  | .arith n _ l r | .compare n _ l r | .array n l r | .get n l r | .seq n l r =>
      n :: (notes l ++ notes r)
  | .letIn n _ l r | .letTuple n _ l r | .letRec n _ _ l r => n :: (notes l ++ notes r)
  | .ifThenElse n c t e | .put n c t e => n :: (notes c ++ (notes t ++ notes e))
  | .app n e es => n :: (notes e ++ notesList es)
  | .tuple n es => n :: notesList es

def notesList : List (Term Note Ann) → List Note
  | [] => []
  | e :: es => notes e ++ notesList es
end

mutual
/-- All binders with their notes, those of a node before those of its parts. -/
def binders : Term Note Ann → List (Name × Ann)
  | .unit _ | .bool .. | .int .. | .float .. | .var .. => []
  | .not _ e | .negate _ _ e => binders e
  | .arith _ _ l r | .compare _ _ l r | .array _ l r | .get _ l r | .seq _ l r =>
      binders l ++ binders r
  | .letIn _ x l r => x :: (binders l ++ binders r)
  | .letTuple _ pattern l r => pattern ++ (binders l ++ binders r)
  | .letRec _ f formals l r => f :: (formals ++ (binders l ++ binders r))
  | .ifThenElse _ c t e | .put _ c t e => binders c ++ (binders t ++ binders e)
  | .app _ e es => binders e ++ bindersList es
  | .tuple _ es => bindersList es

def bindersList : List (Term Note Ann) → List (Name × Ann)
  | [] => []
  | e :: es => binders e ++ bindersList es
end

section
variable {Note' Ann' : Type} (f : Note → Note') (g : Ann → Ann')

theorem erase_map (e : Term Note Ann) : (e.map f g).erase = e.erase :=
  map_map f g (fun _ => ()) (fun _ => ()) e

theorem notes_map (e : Term Note Ann) : (e.map f g).notes = e.notes.map f := by
  have same : ∀ es : List (Term Note Ann), (∀ a ∈ es, (a.map f g).notes = a.notes.map f) →
      notesList (mapList f g es) = (notesList es).map f := by
    intro es h
    induction es with
    | nil => rfl
    | cons a es ih =>
        rw [List.forall_mem_cons] at h
        rw [mapList, notesList, notesList, List.map_append, h.1, ih h.2]
  induction e using Term.induct with
  | app n e es he hes => simp only [map, notes, he, same es hes, List.map_cons, List.map_append]
  | tuple n es hes => simp only [map, notes, same es hes, List.map_cons]
  | _ => simp only [map, notes, List.map_cons, List.map_append, List.map_nil, *]

theorem binders_map (e : Term Note Ann) :
    (e.map f g).binders = e.binders.map (mapBinder g) := by
  have same : ∀ es : List (Term Note Ann),
      (∀ a ∈ es, (a.map f g).binders = a.binders.map (mapBinder g)) →
      bindersList (mapList f g es) = (bindersList es).map (mapBinder g) := by
    intro es h
    induction es with
    | nil => rfl
    | cons a es ih =>
        rw [List.forall_mem_cons] at h
        rw [mapList, bindersList, bindersList, List.map_append, h.1, ih h.2]
  induction e using Term.induct with
  | app n e es he hes => simp only [map, binders, he, same es hes, List.map_append]
  | tuple n es hes => simp only [map, binders, same es hes]
  | _ => simp only [map, binders, List.map_cons, List.map_append, List.map_nil, *]

end

end Term

namespace Typing

/-- The term has this type where the scope has the types of bound names and the signature
    those of all others.  The notes of the term are the types of its parts. -/
inductive HasType (externals : Signature) : Scope Ty → Typed → Ty → Prop where
  | unit {Γ} : HasType externals Γ (.unit .unit) .unit
  | bool {Γ b} : HasType externals Γ (.bool .bool b) .bool
  | int {Γ n} : HasType externals Γ (.int .int n) .int
  | float {Γ d} : HasType externals Γ (.float .float d) .float
  | not {Γ e} : HasType externals Γ e .bool → HasType externals Γ (.not .bool e) .bool
  | negate {Γ op e} :
      HasType externals Γ e op.ty → HasType externals Γ (.negate op.ty op e) op.ty
  | arith {Γ op l r} :
      HasType externals Γ l op.ty → HasType externals Γ r op.ty →
      HasType externals Γ (.arith op.ty op l r) op.ty
  | compare {Γ op l r τ} :
      HasType externals Γ l τ → HasType externals Γ r τ →
      HasType externals Γ (.compare .bool op l r) .bool
  | ifThenElse {Γ c t e τ} :
      HasType externals Γ c .bool → HasType externals Γ t τ → HasType externals Γ e τ →
      HasType externals Γ (.ifThenElse τ c t e) τ
  | letIn {Γ x e1 e2 τ υ} :
      HasType externals Γ e1 τ → HasType externals (Γ.bind x τ) e2 υ →
      HasType externals Γ (.letIn υ (x, τ) e1 e2) υ
  | var {Γ x τ} : Γ.get? x = some τ → HasType externals Γ (.var τ x) τ
  | external {Γ x τ} :
      Γ.get? x = none → externals.find? x = some τ → HasType externals Γ (.var τ x) τ
  /-- A function may call itself; it has one type in its body and afterwards. -/
  | letRec {Γ f formals body rest τ υ} :
      HasType externals ((Γ.bind f (.fn (formals.map (·.2)) τ)).bindAll formals) body τ →
      HasType externals (Γ.bind f (.fn (formals.map (·.2)) τ)) rest υ →
      HasType externals Γ (.letRec υ (f, .fn (formals.map (·.2)) τ) formals body rest) υ
  | app {Γ e es τ} :
      HasType externals Γ e (.fn (es.map Typed.ty) τ) →
      (∀ a ∈ es, HasType externals Γ a (Typed.ty a)) →
      HasType externals Γ (.app τ e es) τ
  | tuple {Γ es} :
      (∀ a ∈ es, HasType externals Γ a (Typed.ty a)) →
      HasType externals Γ (.tuple (.tuple (es.map Typed.ty)) es) (.tuple (es.map Typed.ty))
  | letTuple {Γ pattern e1 e2 υ} :
      HasType externals Γ e1 (.tuple (pattern.map (·.2))) →
      HasType externals (Γ.bindAll pattern) e2 υ →
      HasType externals Γ (.letTuple υ pattern e1 e2) υ
  | array {Γ len init τ} :
      HasType externals Γ len .int → HasType externals Γ init τ →
      HasType externals Γ (.array (.array τ) len init) (.array τ)
  | get {Γ a i τ} :
      HasType externals Γ a (.array τ) → HasType externals Γ i .int →
      HasType externals Γ (.get τ a i) τ
  | put {Γ a i v τ} :
      HasType externals Γ a (.array τ) → HasType externals Γ i .int →
      HasType externals Γ v τ → HasType externals Γ (.put .unit a i v) .unit
  | seq {Γ e1 e2 τ} :
      HasType externals Γ e1 .unit → HasType externals Γ e2 τ →
      HasType externals Γ (.seq τ e1 e2) τ

/-- The type of a term is the note on its root. -/
theorem HasType.ty_eq {externals : Signature} {Γ : Scope Ty} {e : Typed} {τ : Ty}
    (h : HasType externals Γ e τ) : e.ty = τ := by
  cases h <;> rfl

end Typing

end MiddleEnd
