import Mathlib
import MiddleEnd.Mono
import MiddleEnd.Proofs.Text.Listing

/-! # Texts of ground types

An array is written behind the type of its elements, and no bracket shows where the result of
a function ends.  So an array of functions and a function that returns arrays have the same
text: it ends in `array` in both cases, and nothing says how much of it is the element.  This
is the only way in which two types can have one text.  To state it, all arrays of functions
in a type are made functions that return arrays; what is left can be read back.
-/

namespace MiddleEnd.Mono

@[elab_as_elim]
theorem induct {P : Mono → Prop} (unit : P .unit) (bool : P .bool) (int : P .int)
    (float : P .float) (fn : ∀ ps r, (∀ p ∈ ps, P p) → P r → P (.fn ps r))
    (tuple : ∀ es, (∀ e ∈ es, P e) → P (.tuple es)) (array : ∀ e, P e → P (.array e))
    (t : Mono) : P t :=
  @Mono.rec P (fun ts => ∀ t ∈ ts, P t) unit bool int float fn tuple array
    nofun (fun _ _ head tail => List.forall_mem_cons.mpr ⟨head, tail⟩) t

theorem text_fn (ps : List Mono) (r : Mono) :
    (fn ps r).text = "(" ++ textList ", " ps ++ ") -> " ++ r.text :=
  rfl

theorem text_tuple (es : List Mono) : (tuple es).text = "(" ++ textList " * " es ++ ")" :=
  rfl

theorem text_array (e : Mono) : (array e).text = e.text ++ " array" :=
  rfl

theorem textList_cons_cons (sep : String) (t u : Mono) (ts : List Mono) :
    textList sep (t :: u :: ts) = t.text ++ sep ++ textList sep (u :: ts) :=
  rfl

/-! ## Arrays of functions -/

mutual
def hasFunctionArrays : Mono → Bool
  | .fn ps r => hasFunctionArraysList ps || r.hasFunctionArrays
  | .tuple es => hasFunctionArraysList es
  | .array e => e.result?.isSome || e.hasFunctionArrays
  | .unit | .bool | .int | .float => false

def hasFunctionArraysList : List Mono → Bool
  | [] => false
  | t :: ts => t.hasFunctionArrays || hasFunctionArraysList ts
end

/-- An array of elements of this type, moved to what they return if they are functions. -/
def arrayInside : Mono → Mono
  | .fn ps r => .fn ps r.arrayInside
  | t => .array t

mutual
/-- The type with every array of functions made a function that returns arrays. -/
def inward : Mono → Mono
  | .unit => .unit
  | .bool => .bool
  | .int => .int
  | .float => .float
  | .fn ps r => .fn (inwardList ps) r.inward
  | .tuple es => .tuple (inwardList es)
  | .array e => e.inward.arrayInside

def inwardList : List Mono → List Mono
  | [] => []
  | t :: ts => t.inward :: inwardList ts
end

/-- The same type but for the place of arrays: an array of functions counts as a function that
    returns arrays. -/
def Alike (s t : Mono) : Prop :=
  s.inward = t.inward

instance : DecidableRel Alike :=
  fun s t => decEq s.inward t.inward

theorem hasFunctionArraysList_eq_any (ts : List Mono) :
    hasFunctionArraysList ts = ts.any hasFunctionArrays := by
  induction ts with
  | nil => rfl
  | cons t ts ih => exact congrArg (t.hasFunctionArrays || ·) ih

theorem hasFunctionArrays_fn (ps : List Mono) (r : Mono) :
    (fn ps r).hasFunctionArrays = (ps.any hasFunctionArrays || r.hasFunctionArrays) :=
  congrArg (· || r.hasFunctionArrays) (hasFunctionArraysList_eq_any ps)

theorem hasFunctionArrays_tuple (es : List Mono) :
    (tuple es).hasFunctionArrays = es.any hasFunctionArrays :=
  hasFunctionArraysList_eq_any es

theorem hasFunctionArrays_array (e : Mono) :
    (array e).hasFunctionArrays = (e.result?.isSome || e.hasFunctionArrays) :=
  rfl

theorem inwardList_eq_map (ts : List Mono) : inwardList ts = ts.map inward := by
  induction ts with
  | nil => rfl
  | cons t ts ih => exact congrArg (t.inward :: ·) ih

theorem inward_fn (ps : List Mono) (r : Mono) :
    (fn ps r).inward = fn (ps.map inward) r.inward :=
  congrArg (fn · r.inward) (inwardList_eq_map ps)

theorem inward_tuple (es : List Mono) : (tuple es).inward = tuple (es.map inward) :=
  congrArg tuple (inwardList_eq_map es)

theorem inward_array (e : Mono) : (array e).inward = e.inward.arrayInside :=
  rfl

theorem arrayInside_fn (ps : List Mono) (r : Mono) :
    (fn ps r).arrayInside = fn ps r.arrayInside :=
  rfl

theorem arrayInside_of_result? {t : Mono} (h : t.result? = none) : t.arrayInside = .array t := by
  cases t with
  | fn ps r => cases h
  | _ => rfl

theorem inward_eq_self {t : Mono} (h : t.hasFunctionArrays = false) : t.inward = t := by
  induction t using Mono.induct with
  | unit | bool | int | float => rfl
  | fn ps r ihps ihr =>
      simp only [hasFunctionArrays_fn, Bool.or_eq_false_iff, List.any_eq_false,
        Bool.not_eq_true] at h
      rw [inward_fn, ihr h.2, List.map_congr_left fun p hp => ihps p hp (h.1 p hp), List.map_id']
  | tuple es ih =>
      simp only [hasFunctionArrays_tuple, List.any_eq_false, Bool.not_eq_true] at h
      rw [inward_tuple, List.map_congr_left fun e he => ih e he (h e he),
        List.map_id']
  | array e ih =>
      rw [hasFunctionArrays_array, Bool.or_eq_false_iff, Option.isSome_eq_false_iff,
        Option.isNone_iff_eq_none] at h
      rw [inward_array, ih h.2, arrayInside_of_result? h.1]

theorem alike_iff_eq {s t : Mono} (hs : s.hasFunctionArrays = false)
    (ht : t.hasFunctionArrays = false) : s.Alike t ↔ s = t := by
  rw [Alike, inward_eq_self hs, inward_eq_self ht]

theorem text_arrayInside (t : Mono) : t.arrayInside.text = t.text ++ " array" := by
  induction t using Mono.induct with
  | fn ps r _ ih => rw [arrayInside_fn, text_fn, text_fn, ih, ← String.append_assoc]
  | _ => rfl

theorem textList_congr (sep : String) {ts : List Mono} {f : Mono → Mono}
    (h : ∀ t ∈ ts, (f t).text = t.text) : textList sep (ts.map f) = textList sep ts := by
  induction ts with
  | nil => rfl
  | cons t ts ih =>
      rw [List.forall_mem_cons] at h
      cases ts with
      | nil => exact h.1
      | cons u ts =>
          have later := ih h.2
          simp only [List.map_cons, textList_cons_cons] at later ⊢
          rw [h.1, later]

/-- Where an array of functions becomes a function that returns arrays, the text stays. -/
theorem text_inward (t : Mono) : t.inward.text = t.text := by
  induction t using Mono.induct with
  | unit | bool | int | float => rfl
  | fn ps r ihps ihr => rw [inward_fn, text_fn, text_fn, textList_congr _ ihps, ihr]
  | tuple es ih => rw [inward_tuple, text_tuple, text_tuple, textList_congr _ ih]
  | array e ih => rw [inward_array, text_arrayInside, ih, text_array]

/-! ## What follows a type -/

/-- What follows a type and does not continue it. -/
def Closing (rest : List Char) : Prop :=
  ¬ " array".toList <+: rest ∧ ¬ " -> ".toList <+: rest

theorem closing_nil : Closing [] := by
  simp [Closing]

theorem closing_cons {c : Char} (h : c ≠ ' ') (rest : List Char) : Closing (c :: rest) := by
  simp [Closing, h.symm]

theorem closing_blank {c : Char} (ha : c ≠ 'a') (hd : c ≠ '-') (rest : List Char) :
    Closing (' ' :: c :: rest) := by
  simp [Closing, ha.symm, hd.symm]

/-- The end of the text of an array of arrays, this many times. -/
def arrayEnds (n : Nat) : List Char :=
  (List.replicate n " array".toList).flatten

theorem arrayEnds_succ_append (n : Nat) (rest : List Char) :
    arrayEnds (n + 1) ++ rest = " array".toList ++ (arrayEnds n ++ rest) := by
  simp [arrayEnds, List.replicate_succ]

theorem arrayEnds_inj {m n : Nat} {rest rest' : List Char} (closing : Closing rest)
    (closing' : Closing rest') (h : arrayEnds m ++ rest = arrayEnds n ++ rest') :
    m = n ∧ rest = rest' := by
  induction m generalizing n with
  | zero =>
      cases n with
      | zero => exact ⟨rfl, h⟩
      | succ n =>
          rw [arrayEnds_succ_append] at h
          exact absurd ⟨_, h.symm⟩ closing.1
  | succ m ih =>
      rw [arrayEnds_succ_append] at h
      cases n with
      | zero => exact absurd ⟨_, h⟩ closing'.1
      | succ n =>
          rw [arrayEnds_succ_append] at h
          obtain ⟨rfl, same⟩ := ih (List.append_cancel_left h)
          exact ⟨rfl, same⟩

theorem arrayEnds_ne_arrow {n : Nat} {rest : List Char} (closing : Closing rest)
    (rest' : List Char) : arrayEnds n ++ rest ≠ " -> ".toList ++ rest' := by
  intro h
  cases n with
  | zero => exact closing.2 ⟨_, h.symm⟩
  | succ n => simp [arrayEnds_succ_append] at h

/-! ## Texts with what follows them -/

theorem text_arrays_append (n : Nat) (t : Mono) (rest : List Char) :
    (array^[n] t).text.toList ++ rest = t.text.toList ++ (arrayEnds n ++ rest) := by
  induction n generalizing t with
  | zero => rfl
  | succ n ih => simp [ih, text_array, arrayEnds_succ_append]

/-- Arrays of functions end like functions that return arrays. -/
theorem text_arrays_fn_append (n : Nat) (ps : List Mono) (r : Mono) (rest : List Char) :
    (array^[n] (fn ps r)).text.toList ++ rest =
      '(' :: ((textList ", " ps).toList ++
        ')' :: (" -> ".toList ++ ((array^[n] r).text.toList ++ rest))) := by
  rw [text_arrays_append, text_arrays_append]
  simp [text_fn]

theorem text_arrays_tuple_append (n : Nat) (es : List Mono) (rest : List Char) :
    (array^[n] (tuple es)).text.toList ++ rest =
      '(' :: ((textList " * " es).toList ++ ')' :: (arrayEnds n ++ rest)) := by
  rw [text_arrays_append]
  simp [text_tuple]

/-- Around a function all arrays move to its result. -/
theorem inward_arrays_fn (n : Nat) (ps : List Mono) (r : Mono) :
    (array^[n] (fn ps r)).inward = fn (ps.map inward) (array^[n] r).inward := by
  induction n with
  | zero => exact inward_fn ps r
  | succ n ih =>
      rw [Function.iterate_succ_apply', Function.iterate_succ_apply', inward_array, ih,
        arrayInside_fn, inward_array]

theorem Alike.arrays {s t : Mono} (h : s.Alike t) (n : Nat) : (array^[n] s).Alike (array^[n] t) := by
  induction n with
  | zero => exact h
  | succ n ih =>
      rw [Function.iterate_succ_apply', Function.iterate_succ_apply', Alike, inward_array, ih,
        inward_array]

/-! ## Letters -/

def initial : Mono → Char
  | .unit => 'u'
  | .bool => 'b'
  | .int => 'i'
  | .float => 'f'
  | .fn .. | .tuple _ => '('
  | .array e => e.initial

@[simp] theorem initial_unit : unit.initial = 'u' := rfl
@[simp] theorem initial_bool : bool.initial = 'b' := rfl
@[simp] theorem initial_int : int.initial = 'i' := rfl
@[simp] theorem initial_float : float.initial = 'f' := rfl
@[simp] theorem initial_fn (ps : List Mono) (r : Mono) : (fn ps r).initial = '(' := rfl
@[simp] theorem initial_tuple (es : List Mono) : (tuple es).initial = '(' := rfl
@[simp] theorem initial_array (e : Mono) : (array e).initial = e.initial := rfl

theorem head?_text (t : Mono) : t.text.toList.head? = some t.initial := by
  induction t using Mono.induct with
  | unit | bool | int | float => rfl
  | fn ps r => simp [text_fn]
  | tuple es => simp [text_tuple]
  | array e ih =>
      rw [text_array, String.toList_append, List.head?_append, ih, initial_array, Option.some_or]

theorem initial_arrays (n : Nat) (t : Mono) : (array^[n] t).initial = t.initial := by
  induction n with
  | zero => rfl
  | succ n ih => rw [Function.iterate_succ_apply', initial_array, ih]

theorem initial_ne_close (t : Mono) : t.initial ≠ ')' := by
  induction t using Mono.induct with
  | array e ih => exact ih
  | _ => simp

theorem notMem_textList {c : Char} (sep : String) (hs : c ∉ sep.toList) {ts : List Mono}
    (each : ∀ t ∈ ts, c ∉ t.text.toList) : c ∉ (textList sep ts).toList := by
  induction ts with
  | nil => exact List.not_mem_nil
  | cons t ts ih =>
      rw [List.forall_mem_cons] at each
      cases ts with
      | nil => exact each.1
      | cons u ts => simp [textList_cons_cons, each.1, hs, ih each.2]

theorem colon_notMem_text (t : Mono) : ':' ∉ t.text.toList := by
  induction t using Mono.induct with
  | unit | bool | int | float => decide
  | fn ps r ihps ihr => simp [text_fn, notMem_textList ", " (by decide) ihps, ihr]
  | tuple es ih => simp [text_tuple, notMem_textList " * " (by decide) ih]
  | array e ih => simp [text_array, ih]

/-! ## Reading -/

/-- Types in brackets, separated by commas as parameters or by stars as components. -/
def listing : Listing Mono where
  text := text
  initial := initial
  Closing := Closing
  separators := [", ", " * "]
  head?_text := head?_text
  initial_ne_close := initial_ne_close
  closing_close := closing_cons (by decide)
  closing_separator := by
    intro sep hs rest
    fin_cases hs
    · exact closing_cons (c := ',') (by decide) _
    · exact closing_blank (c := '*') (by decide) (by decide) _
  separator_ne_close := by simp
  separator_inj := by simp

theorem textList_eq (sep : String) (ts : List Mono) :
    textList sep ts = listing.textList sep ts := by
  induction ts with
  | nil => rfl
  | cons t ts ih =>
      cases ts with
      | nil => rfl
      | cons u ts => exact congrArg (t.text ++ sep ++ ·) ih

theorem comma_mem : ", " ∈ listing.separators :=
  List.mem_cons_self

theorem star_mem : " * " ∈ listing.separators :=
  List.mem_cons_of_mem _ (List.mem_singleton_self _)

/-- From the text of the type and what follows it, both can be read back, the type up to the
    place of its arrays. -/
def Readable (s : Mono) : Prop :=
  ∀ {t : Mono} {rest rest' : List Char}, Closing rest → Closing rest' →
    s.text.toList ++ rest = t.text.toList ++ rest' → s.Alike t ∧ rest = rest'

/-- The separators may differ: a single parameter is written like a single component. -/
theorem readable_list {sep sep' : String} (hs : sep ∈ listing.separators)
    (hs' : sep' ∈ listing.separators) {ss ts : List Mono} (each : ∀ s ∈ ss, s.Readable)
    {rest rest' : List Char}
    (h : (textList sep ss).toList ++ ')' :: rest = (textList sep' ts).toList ++ ')' :: rest') :
    ss.map inward = ts.map inward ∧ rest = rest' := by
  rw [textList_eq, textList_eq] at h
  obtain ⟨alike, ends⟩ := listing.readable_list hs hs' each h
  refine ⟨?_, ends⟩
  rwa [← List.forall₂_eq_eq_eq, List.forall₂_map_left_iff, List.forall₂_map_right_iff]

/-- Every type is made of arrays around a type that is no array. -/
theorem exists_arrays (t : Mono) : ∃ n s, t = array^[n] s ∧ ∀ e, s ≠ array e := by
  induction t using Mono.induct with
  | array e ih =>
      obtain ⟨n, s, rfl, other⟩ := ih
      exact ⟨n + 1, s, (Function.iterate_succ_apply' array n s).symm, other⟩
  | _ => exact ⟨0, _, rfl, nofun⟩

/-- The other type is made of arrays around a type that is no array and has the same first
    letter. -/
theorem readable_of_cores {s : Mono} {m : Nat}
    (cores : ∀ {n t rest rest'}, (∀ e, t ≠ array e) → s.initial = t.initial →
      Closing rest → Closing rest' →
      (array^[m] s).text.toList ++ rest = (array^[n] t).text.toList ++ rest' →
      (array^[m] s).Alike (array^[n] t) ∧ rest = rest') :
    (array^[m] s).Readable := by
  intro t rest rest' closing closing' h
  obtain ⟨n, t, rfl, other⟩ := exists_arrays t
  have letter : (array^[m] s).initial = (array^[n] t).initial := listing.initial_eq h
  rw [initial_arrays, initial_arrays] at letter
  exact cores other letter closing closing' h

/-- A type that is told by its first letter from all others that are no arrays. -/
theorem readable_of_initial {s : Mono}
    (own : ∀ t : Mono, (∀ e, t ≠ array e) → s.initial = t.initial → s = t) (m : Nat) :
    (array^[m] s).Readable := by
  refine readable_of_cores fun {n t _ _} other letter closing closing' h => ?_
  obtain rfl := own t other letter
  rw [text_arrays_append, text_arrays_append] at h
  obtain ⟨rfl, same⟩ := arrayEnds_inj closing closing' (List.append_cancel_left h)
  exact ⟨rfl, same⟩

/-- The arrays around a type belong to the induction: around a function they can only be read
    as arrays around its result. -/
theorem readable_arrays (s : Mono) (m : Nat) : (array^[m] s).Readable := by
  induction s using Mono.induct generalizing m with
  | unit | bool | int | float =>
      refine readable_of_initial (fun t other letter => ?_) m
      cases t <;> simp at letter other ⊢
  | array e ih => exact ih (m + 1)
  | fn ps r ihps ihr =>
      refine readable_of_cores fun {n t _ _} other letter closing closing' h => ?_
      cases t with
      | fn qs u =>
          rw [text_arrays_fn_append, text_arrays_fn_append] at h
          obtain ⟨params, arrow⟩ :=
            readable_list comma_mem comma_mem (fun p hp => ihps p hp 0) (List.cons.inj h).2
          obtain ⟨result, same⟩ := ihr m closing closing' (List.append_cancel_left arrow)
          exact ⟨by rw [Alike, inward_arrays_fn, inward_arrays_fn, params, result], same⟩
      | tuple es =>
          rw [text_arrays_fn_append, text_arrays_tuple_append] at h
          obtain ⟨-, arrow⟩ :=
            readable_list comma_mem star_mem (fun p hp => ihps p hp 0) (List.cons.inj h).2
          exact absurd arrow.symm (arrayEnds_ne_arrow closing' _)
      | array e => exact absurd rfl (other e)
      | _ => simp at letter
  | tuple es ih =>
      refine readable_of_cores fun {n t _ _} other letter closing closing' h => ?_
      cases t with
      | fn ps r =>
          rw [text_arrays_fn_append, text_arrays_tuple_append] at h
          obtain ⟨-, arrow⟩ :=
            readable_list star_mem comma_mem (fun e he => ih e he 0) (List.cons.inj h).2
          exact absurd arrow (arrayEnds_ne_arrow closing _)
      | tuple fs =>
          rw [text_arrays_tuple_append, text_arrays_tuple_append] at h
          obtain ⟨elems, ends⟩ :=
            readable_list star_mem star_mem (fun e he => ih e he 0) (List.cons.inj h).2
          obtain ⟨rfl, same⟩ := arrayEnds_inj closing closing' ends
          have tuples : (tuple es).Alike (tuple fs) := by
            rw [Alike, inward_tuple, inward_tuple, elems]
          exact ⟨tuples.arrays m, same⟩
      | array e => exact absurd rfl (other e)
      | _ => simp at letter

theorem readable (s : Mono) : s.Readable :=
  s.readable_arrays 0

/-- Two types have one text just if they differ in nothing but in which of their arrays are
    arrays of functions and which are what functions return. -/
theorem text_eq_iff {s t : Mono} : s.text = t.text ↔ s.Alike t := by
  constructor
  · intro h
    exact listing.same_of_text_eq s.readable closing_nil h
  · intro h
    rw [← text_inward s, h, text_inward]

end MiddleEnd.Mono
