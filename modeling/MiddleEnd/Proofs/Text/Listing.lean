import Mathlib

/-! # Lists of texts in brackets

A list of values is written with a separator between neighbours and a closing bracket behind
the last one.  It can be read back if each value can be read together with what follows it:
no value starts like the bracket, and neither a separator nor the bracket continues a value.
Different lists may have different separators.  A value may be read up to some relation,
where two values can have one text.
-/

namespace MiddleEnd

/-- How values are written in lists. -/
structure Listing (α : Type) where
  text : α → String
  /-- The first letter of the text. -/
  initial : α → Char
  /-- What may follow a value and does not continue it. -/
  Closing : List Char → Prop
  separators : List String
  head?_text : ∀ a, (text a).toList.head? = some (initial a)
  initial_ne_close : ∀ a, initial a ≠ ')'
  closing_close : ∀ rest, Closing (')' :: rest)
  closing_separator : ∀ sep ∈ separators, ∀ rest, Closing (sep.toList ++ rest)
  separator_ne_close : ∀ sep ∈ separators, ∀ rest rest', sep.toList ++ rest ≠ ')' :: rest'
  separator_inj : ∀ sep ∈ separators, ∀ sep' ∈ separators, ∀ {rest rest'},
    sep.toList ++ rest = sep'.toList ++ rest' → sep = sep' ∧ rest = rest'

namespace Listing

variable {α : Type} (L : Listing α)

theorem head?_text_append (a : α) (rest : List Char) :
    ((L.text a).toList ++ rest).head? = some (L.initial a) := by
  rw [List.head?_append, L.head?_text, Option.some_or]

theorem initial_eq {a b : α} {rest rest' : List Char}
    (h : (L.text a).toList ++ rest = (L.text b).toList ++ rest') : L.initial a = L.initial b := by
  have first := congrArg List.head? h
  rw [head?_text_append, head?_text_append] at first
  exact Option.some.inj first

/-- No value starts with a bracket that closes, so an empty list is told from all others. -/
theorem text_append_ne_close (a : α) (rest rest' : List Char) :
    (L.text a).toList ++ rest ≠ ')' :: rest' := by
  intro h
  have first := congrArg List.head? h
  rw [head?_text_append] at first
  exact L.initial_ne_close a (Option.some.inj first)

def textList (sep : String) : List α → String
  | [] => ""
  | [a] => L.text a
  | a :: b :: as => L.text a ++ sep ++ textList sep (b :: as)

/-- The rest of a list, behind its first value. -/
def textTail (sep : String) : List α → List Char
  | [] => []
  | a :: as => sep.toList ++ (L.textList sep (a :: as)).toList

theorem textList_cons_append (sep : String) (a : α) (as : List α) (rest : List Char) :
    (L.textList sep (a :: as)).toList ++ rest =
      (L.text a).toList ++ (L.textTail sep as ++ rest) := by
  cases as with
  | nil => rfl
  | cons b as => simp [textList, textTail]

theorem closing_textTail {sep : String} (hs : sep ∈ L.separators) (as : List α)
    (rest : List Char) : L.Closing (L.textTail sep as ++ ')' :: rest) := by
  cases as with
  | nil => exact L.closing_close rest
  | cons a as =>
      rw [textTail, List.append_assoc]
      exact L.closing_separator sep hs _

/-- From the text of the value and what follows it, both can be read back, the value up to the
    relation. -/
def Readable (Same : α → α → Prop) (a : α) : Prop :=
  ∀ {b : α} {rest rest' : List Char}, L.Closing rest → L.Closing rest' →
    (L.text a).toList ++ rest = (L.text b).toList ++ rest' → Same a b ∧ rest = rest'

/-- The separators may differ: a list of one value shows none. -/
theorem readable_list {Same : α → α → Prop} {sep sep' : String} (hs : sep ∈ L.separators)
    (hs' : sep' ∈ L.separators) {as bs : List α} (each : ∀ a ∈ as, L.Readable Same a)
    {rest rest' : List Char}
    (h : (L.textList sep as).toList ++ ')' :: rest =
      (L.textList sep' bs).toList ++ ')' :: rest') :
    List.Forall₂ Same as bs ∧ rest = rest' := by
  induction as generalizing bs with
  | nil =>
      cases bs with
      | nil => exact ⟨.nil, (List.cons.inj h).2⟩
      | cons b bs =>
          rw [textList_cons_append] at h
          exact absurd h.symm (L.text_append_ne_close b _ _)
  | cons a as ih =>
      cases bs with
      | nil =>
          rw [textList_cons_append] at h
          exact absurd h (L.text_append_ne_close a _ _)
      | cons b bs =>
          rw [textList_cons_append, textList_cons_append] at h
          obtain ⟨first, others⟩ := List.forall_mem_cons.mp each
          obtain ⟨same, later⟩ :=
            first (L.closing_textTail hs as rest) (L.closing_textTail hs' bs rest') h
          -- a separator or the bracket: both lists go on here, or both end
          cases as <;> cases bs
          case nil.nil => exact ⟨.cons same .nil, (List.cons.inj later).2⟩
          case nil.cons =>
            rw [textTail, textTail, List.append_assoc] at later
            exact absurd later.symm (L.separator_ne_close sep' hs' _ _)
          case cons.nil =>
            rw [textTail, textTail, List.append_assoc] at later
            exact absurd later (L.separator_ne_close sep hs _ _)
          case cons.cons =>
            rw [textTail, textTail, List.append_assoc, List.append_assoc] at later
            obtain ⟨rfl, later⟩ := L.separator_inj sep hs sep' hs' later
            obtain ⟨sames, ends⟩ := ih others later
            exact ⟨.cons same sames, ends⟩

/-- Where nothing follows, the text alone is read back. -/
theorem same_of_text_eq {Same : α → α → Prop} {a b : α} (readable : L.Readable Same a)
    (nothing : L.Closing []) (h : L.text a = L.text b) : Same a b := by
  have texts : (L.text a).toList ++ [] = (L.text b).toList ++ [] := by rw [h]
  exact (readable nothing nothing texts).1

end Listing

end MiddleEnd
