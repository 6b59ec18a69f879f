import Mathlib
import MiddleEnd.Proofs.Names
import MiddleEnd.Proofs.Text.Listing
import MiddleEnd.Proofs.Ty.Variables

/-! # Texts of types

The parameters of a function are written like the components of a tuple, and no bracket
shows where the result of a function ends.  Still a text is the text of one type only.  To
see this a type is read together with what follows it: inside a larger type that is a
comma or a closing bracket, and none of these continues the text of a type.
-/

namespace MiddleEnd.Ty

/-- What may follow a type: nothing, a comma, or a bracket that closes. -/
def Closing (rest : List Char) : Prop :=
  ∀ c ∈ rest.head?, c = ',' ∨ c = ')' ∨ c = '>'

theorem closing_nil : Closing [] :=
  nofun

theorem closing_cons {c : Char} (h : c = ',' ∨ c = ')' ∨ c = '>') (rest : List Char) :
    Closing (c :: rest) := by
  intro d hd
  obtain rfl := Option.some.inj hd
  exact h

theorem not_closing_arrow {rest : List Char} : ¬ Closing (" -> ".toList ++ rest) := by
  intro closing
  exact absurd (closing ' ' rfl) (by decide)

/-- The number of a variable ends where something follows that is no digit. -/
theorem takeWhile_repr_append (n : Nat) {rest : List Char} (closing : Closing rest) :
    (n.repr.toList ++ rest).takeWhile Char.isDigit = n.repr.toList := by
  have none : rest.takeWhile Char.isDigit = [] := by
    cases rest with
    | nil => rfl
    | cons c rest => obtain rfl | rfl | rfl := closing c rfl <;> rfl
  rw [List.takeWhile_append_of_pos fun d hd => Name.isDigit_of_mem_repr hd, none, List.append_nil]

theorem repr_append_inj {m n : Nat} {rest rest' : List Char} (closing : Closing rest)
    (closing' : Closing rest') (h : m.repr.toList ++ rest = n.repr.toList ++ rest') :
    m = n ∧ rest = rest' := by
  have same : m.repr.toList = n.repr.toList := by
    rw [← takeWhile_repr_append m closing, h, takeWhile_repr_append n closing']
  rw [same] at h
  exact ⟨Nat.repr_injective (String.toList_inj.mp same), List.append_cancel_left h⟩

/-! ## Letters -/

def initial : Ty → Char
  | .unit => 'U'
  | .bool => 'B'
  | .int => 'I'
  | .float => 'F'
  | .fn .. | .tuple _ => '('
  | .array _ => 'A'
  | .var _ => '?'

@[simp] theorem initial_unit : unit.initial = 'U' := rfl
@[simp] theorem initial_bool : bool.initial = 'B' := rfl
@[simp] theorem initial_int : int.initial = 'I' := rfl
@[simp] theorem initial_float : float.initial = 'F' := rfl
@[simp] theorem initial_fn (ps : List Ty) (r : Ty) : (fn ps r).initial = '(' := rfl
@[simp] theorem initial_tuple (es : List Ty) : (tuple es).initial = '(' := rfl
@[simp] theorem initial_array (e : Ty) : (array e).initial = 'A' := rfl
@[simp] theorem initial_var (n : Nat) : (var n).initial = '?' := rfl

theorem text_fn (ps : List Ty) (r : Ty) :
    (fn ps r).text = "(" ++ textList ps ++ ") -> " ++ r.text :=
  rfl

theorem text_tuple (es : List Ty) : (tuple es).text = "(" ++ textList es ++ ")" :=
  rfl

theorem text_array (e : Ty) : (array e).text = "Array<" ++ e.text ++ ">" :=
  rfl

theorem text_var (n : Nat) : (var n).text = "?" ++ n.repr :=
  rfl

theorem head?_text (t : Ty) : t.text.toList.head? = some t.initial := by
  cases t with
  | unit | bool | int | float => rfl
  | fn ps r => simp [text_fn]
  | tuple es => simp [text_tuple]
  | array e => simp [text_array]
  | var n => simp [text_var]

/-! ## Texts with what follows them -/

theorem text_fn_append (ps : List Ty) (r : Ty) (rest : List Char) :
    (fn ps r).text.toList ++ rest =
      '(' :: ((textList ps).toList ++ ')' :: (" -> ".toList ++ (r.text.toList ++ rest))) := by
  simp [text_fn]

theorem text_tuple_append (es : List Ty) (rest : List Char) :
    (tuple es).text.toList ++ rest = '(' :: ((textList es).toList ++ ')' :: rest) := by
  simp [text_tuple]

theorem text_array_append (e : Ty) (rest : List Char) :
    (array e).text.toList ++ rest = "Array<".toList ++ (e.text.toList ++ '>' :: rest) := by
  simp [text_array]

theorem text_var_append (n : Nat) (rest : List Char) :
    (var n).text.toList ++ rest = '?' :: (n.repr.toList ++ rest) := by
  simp [text_var]

/-! ## Reading -/

/-- Types in brackets, separated by commas. -/
def listing : Listing Ty where
  text := text
  initial := initial
  Closing := Closing
  separators := [", "]
  head?_text := head?_text
  initial_ne_close t := by cases t <;> simp
  closing_close := closing_cons (.inr (.inl rfl))
  closing_separator := List.forall_mem_singleton.mpr fun _ => closing_cons (.inl rfl) _
  separator_ne_close := List.forall_mem_singleton.mpr fun _ _ => by simp
  separator_inj := by simp

theorem textList_eq (ts : List Ty) : textList ts = listing.textList ", " ts := by
  induction ts with
  | nil => rfl
  | cons t ts ih =>
      cases ts with
      | nil => rfl
      | cons u ts => exact congrArg (t.text ++ ", " ++ ·) ih

/-- From the text of the type and what follows it, both can be read back. -/
def Readable (s : Ty) : Prop :=
  ∀ {t : Ty} {rest rest' : List Char}, Closing rest → Closing rest' →
    s.text.toList ++ rest = t.text.toList ++ rest' → s = t ∧ rest = rest'

theorem initial_eq {s t : Ty} {rest rest' : List Char}
    (h : s.text.toList ++ rest = t.text.toList ++ rest') : s.initial = t.initial :=
  listing.initial_eq h

theorem readable_list {ss ts : List Ty} (each : ∀ s ∈ ss, s.Readable) {rest rest' : List Char}
    (h : (textList ss).toList ++ ')' :: rest = (textList ts).toList ++ ')' :: rest') :
    ss = ts ∧ rest = rest' := by
  rw [textList_eq, textList_eq] at h
  have comma : ", " ∈ listing.separators := List.mem_singleton_self _
  have read := listing.readable_list comma comma each h
  rwa [List.forall₂_eq_eq_eq] at read

/-- A type that is told from all others by its first letter. -/
theorem readable_of_initial {s : Ty} (own : ∀ t : Ty, s.initial = t.initial → s = t) :
    s.Readable := by
  intro t rest rest' _ _ h
  obtain rfl := own t (initial_eq h)
  exact ⟨rfl, List.append_cancel_left h⟩

theorem readable (s : Ty) : s.Readable := by
  induction s using Ty.induct with
  | unit | bool | int | float =>
      refine readable_of_initial fun t letter => ?_
      cases t <;> simp at letter ⊢
  | fn ps r ihps ihr =>
      intro t rest rest' closing closing' h
      have letter := initial_eq h
      cases t with
      | fn qs u =>
          rw [text_fn_append, text_fn_append] at h
          obtain ⟨rfl, arrow⟩ := readable_list ihps (List.cons.inj h).2
          obtain ⟨rfl, same⟩ := ihr closing closing' (List.append_cancel_left arrow)
          exact ⟨rfl, same⟩
      | tuple es =>
          rw [text_fn_append, text_tuple_append] at h
          obtain ⟨-, rfl⟩ := readable_list ihps (List.cons.inj h).2
          exact absurd closing' not_closing_arrow
      | _ => simp at letter
  | tuple es ih =>
      intro t rest rest' closing closing' h
      have letter := initial_eq h
      cases t with
      | fn ps r =>
          rw [text_fn_append, text_tuple_append] at h
          obtain ⟨-, rfl⟩ := readable_list ih (List.cons.inj h).2
          exact absurd closing not_closing_arrow
      | tuple fs =>
          rw [text_tuple_append, text_tuple_append] at h
          obtain ⟨rfl, same⟩ := readable_list ih (List.cons.inj h).2
          exact ⟨rfl, same⟩
      | _ => simp at letter
  | array e ih =>
      intro t rest rest' closing closing' h
      have letter := initial_eq h
      cases t with
      | array e' =>
          rw [text_array_append, text_array_append] at h
          obtain ⟨rfl, same⟩ := ih (closing_cons (.inr (.inr rfl)) rest)
            (closing_cons (.inr (.inr rfl)) rest') (List.append_cancel_left h)
          exact ⟨rfl, (List.cons.inj same).2⟩
      | _ => simp at letter
  | var m =>
      intro t rest rest' closing closing' h
      have letter := initial_eq h
      cases t with
      | var n =>
          rw [text_var_append, text_var_append] at h
          obtain ⟨rfl, same⟩ := repr_append_inj closing closing' (List.cons.inj h).2
          exact ⟨rfl, same⟩
      | _ => simp at letter

/-- A text is the text of one type only, of whatever functions, tuples, arrays and variables
    the type is made. -/
theorem text_unambiguous (s t : Ty) : s.text = t.text ↔ s = t := by
  constructor
  · intro h
    exact listing.same_of_text_eq s.readable closing_nil h
  · rintro rfl
    rfl

end MiddleEnd.Ty
