import Mathlib
import MiddleEnd.Mono
import MiddleEnd.Name

/-! # Drawn names are different

A supply counts modulo `2 ^ 32`, and from a name of either kind its number can
be read back, so a name comes again only after that many others.  What is said
here about a run of draws holds from every state of the supply, also where the
count starts again from zero on the way.
-/

namespace MiddleEnd

/-- The digits at the end of a name, the last first. -/
def Name.number (x : Name) : List Char :=
  x.toList.reverse.takeWhile Char.isDigit

theorem Name.isDigit_of_mem_repr {n : Nat} {d : Char} (h : d ∈ n.repr.toList) :
    d.isDigit = true := by
  rw [Nat.toList_repr] at h
  exact Nat.isDigit_of_mem_toDigits (by decide) (by decide) h

theorem Name.number_append {stem : String} {c : Char} (hc : c.isDigit = false) (n : Nat) :
    Name.number (stem ++ c.toString ++ n.repr) = n.repr.toList.reverse := by
  have digits : ∀ d ∈ n.repr.toList.reverse, d.isDigit = true := by
    intro d hd
    exact isDigit_of_mem_repr (List.mem_reverse.mp hd)
  simp only [number, String.toList_append, List.reverse_append]
  rw [List.takeWhile_append_of_pos digits]
  simp [Char.toString, hc]

/-- The number of a numbered name: the digits behind its last dot. -/
def Name.number? (x : Name) : Option Nat :=
  if x.number ≠ [] ∧ (x.toList.reverse.dropWhile Char.isDigit).head? = some '.' then
    some (Nat.ofDigitChars 10 x.number.reverse 0)
  else none

theorem Name.number?_append (stem : String) (n : Nat) :
    Name.number? (stem ++ "." ++ n.repr) = some n := by
  have digits : ∀ d ∈ n.repr.toList.reverse, d.isDigit = true := by
    intro d hd
    exact isDigit_of_mem_repr (List.mem_reverse.mp hd)
  have number : Name.number (stem ++ "." ++ n.repr) = n.repr.toList.reverse :=
    number_append (c := '.') rfl n
  have dot : ((stem ++ "." ++ n.repr).toList.reverse.dropWhile Char.isDigit).head? = some '.' := by
    rw [String.toList_append, List.reverse_append, List.dropWhile_append_of_pos digits]
    simp
  rw [number?, number, List.reverse_reverse, Nat.toList_repr,
    Nat.ofDigitChars_toDigits (by decide) (by decide), if_pos ⟨by simp, dot⟩]

/-- The number at the end of a name can be read back. -/
theorem Name.eq_of_append_repr_eq {a b : String} {c d : Char} (hc : c.isDigit = false)
    (hd : d.isDigit = false) {m n : Nat}
    (h : a ++ c.toString ++ m.repr = b ++ d.toString ++ n.repr) : m = n := by
  have same := congrArg Name.number h
  rw [number_append hc, number_append hd, List.reverse_inj, String.toList_inj] at same
  exact Nat.repr_injective same

/-- A name for a binder and a name for an intermediate result are the same only if their
    numbers are.  Any character may stand for the letter of the type. -/
theorem Name.eq_of_numbered_eq_temporary {stem : String} {tag : Char} {m n : Nat}
    (h : stem ++ "." ++ m.repr = "T" ++ tag.toString ++ n.repr) : m = n := by
  by_cases digit : tag.isDigit = true
  -- the number may seem to start one digit earlier, but then the second name has no dot
  · have dot : '.' ∈ ("T" ++ tag.toString ++ n.repr).toList := by
      rw [← h]
      simp
    have numeral : '.' = tag ∨ '.' ∈ n.repr.toList := by
      simpa [Char.toString] using dot
    obtain rfl | inside := numeral
    · cases digit
    · cases isDigit_of_mem_repr inside
  · exact eq_of_append_repr_eq (c := '.') rfl (by simpa using digit) h

namespace Supply

/-- The supply after a number of draws. -/
def skip (c : Supply) (k : Nat) : Supply :=
  ⟨c.count + UInt32.ofNat k⟩

@[simp] theorem skip_zero (c : Supply) : c.skip 0 = c := by
  simp [skip]

theorem skip_skip (c : Supply) (j k : Nat) : (c.skip j).skip k = c.skip (j + k) := by
  simp [skip, UInt32.add_assoc]

/-- The draws before a supply has counted once around give different numbers. -/
theorem count_skip_ne (c : Supply) {j k : Nat} (hjk : j < k) (hk : k < j + 2 ^ 32) :
    (c.skip j).count.toNat ≠ (c.skip k).count.toNat := by
  simp only [skip, UInt32.toNat_add, UInt32.toNat_ofNat']
  omega

/-! ## Requests of both kinds -/

/-- What a supply can be asked for. -/
inductive Request where
  /-- A numbered name on the base of a name. -/
  | numbered (x : Name)
  /-- A name for an intermediate result, with the letter of its type. -/
  | temporary (tag : Char)

namespace Request

def draw : Request → StateM Supply Name
  | .numbered x => Supply.numbered x
  | .temporary tag => Supply.temporary tag

/-- The name that a request gets with a number. -/
def name (n : Nat) : Request → Name
  | .numbered x => x.base ++ "." ++ n.repr
  | .temporary tag => "T" ++ tag.toString ++ n.repr

theorem run_draw (r : Request) (c : Supply) :
    r.draw.run c = (r.name (c.skip 1).count.toNat, c.skip 1) := by
  cases r <;> rfl

/-- The number can be read back from a name of either kind, whatever stands before it. -/
theorem number_eq {r s : Request} {m n : Nat} (h : r.name m = s.name n) : m = n := by
  cases r with
  | numbered x =>
      cases s with
      | numbered y => exact Name.eq_of_append_repr_eq (c := '.') (d := '.') rfl rfl h
      | temporary tag => exact Name.eq_of_numbered_eq_temporary h
  | temporary tag =>
      cases s with
      | numbered y => exact (Name.eq_of_numbered_eq_temporary h.symm).symm
      | temporary tag' =>
          have letters : 'T' :: tag :: m.repr.toList = 'T' :: tag' :: n.repr.toList := by
            simpa [name, Char.toString] using congrArg String.toList h
          rw [List.cons.injEq, List.cons.injEq, String.toList_inj] at letters
          exact Nat.repr_injective letters.2.2

end Request

def drawn (c : Supply) : List Request → List Name
  | [] => []
  | r :: rs => r.name (c.skip 1).count.toNat :: (c.skip 1).drawn rs

theorem run_mapM_draw (rs : List Request) (c : Supply) :
    (rs.mapM Request.draw).run c = (c.drawn rs, c.skip rs.length) := by
  induction rs generalizing c with
  | nil =>
      rw [List.length_nil, skip_zero]
      rfl
  | cons r rs ih =>
      have later := ih (c.skip 1)
      rw [skip_skip, Nat.add_comm 1] at later
      rw [List.mapM_cons, StateT.run_bind, Request.run_draw]
      exact congrArg (fun run => (r.name (c.skip 1).count.toNat :: run.1, run.2)) later

@[simp] theorem length_drawn (c : Supply) (rs : List Request) :
    (c.drawn rs).length = rs.length := by
  induction rs generalizing c with
  | nil => rfl
  | cons r rs ih => simp only [drawn, List.length_cons, ih]

theorem exists_of_mem_drawn {c : Supply} {rs : List Request} {y : Name} (h : y ∈ c.drawn rs) :
    ∃ (k : Nat) (r : Request), r ∈ rs ∧ 1 ≤ k ∧ k ≤ rs.length ∧
      y = r.name (c.skip k).count.toNat := by
  induction rs generalizing c with
  | nil => cases h
  | cons r rs ih =>
      rcases List.mem_cons.mp h with rfl | h
      · exact ⟨1, r, List.mem_cons_self .., le_rfl, by simp, rfl⟩
      · obtain ⟨k, s, mem, low, high, rfl⟩ := ih h
        refine ⟨1 + k, s, List.mem_cons_of_mem _ mem, by omega, ?_, ?_⟩
        · simpa [Nat.add_comm] using high
        · rw [skip_skip]

/-- A supply gives `2 ^ 32` names before one of them comes again. -/
theorem nodup_drawn (c : Supply) {rs : List Request} (few : rs.length ≤ 2 ^ 32) :
    (c.drawn rs).Nodup := by
  induction rs generalizing c with
  | nil => exact List.nodup_nil
  | cons r rs ih =>
      rw [List.length_cons] at few
      refine List.nodup_cons.mpr ⟨fun again => ?_, ih _ (Nat.le_of_succ_le few)⟩
      obtain ⟨k, s, -, low, high, eq⟩ := exists_of_mem_drawn again
      rw [skip_skip] at eq
      exact count_skip_ne c (by omega) (by omega) (Request.number_eq eq)

/-- A supply that is asked for names of both kinds, in any order and for any texts and
    characters, answers every request, and all its answers are different.  It may be in any
    state; the count comes back to where it was only after `2 ^ 32` requests, so this holds of
    every sequence in which the count does not start again from zero. -/
theorem draws_never_collide (c : Supply) (rs : List Request) (few : rs.length ≤ 2 ^ 32) :
    ((rs.mapM Request.draw).run c).1.length = rs.length ∧
      ((rs.mapM Request.draw).run c).1.Nodup := by
  rw [run_mapM_draw]
  exact ⟨length_drawn c rs, nodup_drawn c few⟩

/-- Requests for texts that end like names drawn before, or hold only a number, and for
    letters that are a dot or a digit. -/
def traps : List Request :=
  [.numbered "T", .temporary '.', .numbered "T.1", .temporary '1', .numbered "", .numbered ".5",
    .temporary '.', .temporary '1']

theorem draws_traps :
    ((traps.mapM Request.draw).run .new).1 =
        ["T.1", "T.2", "T.3", "T14", ".5", ".5.6", "T.7", "T18"] ∧
      ((traps.mapM Request.draw).run .new).1.Nodup :=
  ⟨by decide +kernel, (draws_never_collide .new traps (by decide)).2⟩

/-! ## Names for binders -/

/-- The name that is drawn next for a binder. -/
def name (c : Supply) (x : Name) : Name :=
  x.base ++ "." ++ (c.skip 1).count.toNat.repr

theorem numbered_run (x : Name) (c : Supply) : (numbered x).run c = (c.name x, c.skip 1) := rfl

def names (c : Supply) : List Name → List Name
  | [] => []
  | x :: xs => c.name x :: (c.skip 1).names xs

theorem names_eq_drawn (c : Supply) (xs : List Name) : c.names xs = c.drawn (xs.map .numbered) := by
  induction xs generalizing c with
  | nil => rfl
  | cons x xs ih =>
      rw [List.map_cons, names, drawn, ← ih]
      rfl

@[simp] theorem length_names (c : Supply) (xs : List Name) : (c.names xs).length = xs.length := by
  rw [names_eq_drawn, length_drawn, List.length_map]

theorem names_append (c : Supply) (xs ys : List Name) :
    c.names (xs ++ ys) = c.names xs ++ (c.skip xs.length).names ys := by
  induction xs generalizing c with
  | nil => simp [names]
  | cons x xs ih =>
      simp only [List.cons_append, names, ih, skip_skip, List.length_cons, Nat.add_comm 1]

/-- The name ends with a dot and the number of one of the next `n` names of the supply. -/
def Ahead (c : Supply) (n : Nat) (y : Name) : Prop :=
  ∃ (k : Nat) (stem : String), 1 ≤ k ∧ k ≤ n ∧ y = stem ++ "." ++ (c.skip k).count.toNat.repr

theorem ahead_of_mem_names {c : Supply} {xs : List Name} {y : Name} (h : y ∈ c.names xs) :
    c.Ahead xs.length y := by
  rw [names_eq_drawn] at h
  obtain ⟨k, r, mem, low, high, rfl⟩ := exists_of_mem_drawn h
  obtain ⟨x, -, rfl⟩ := List.mem_map.mp mem
  exact ⟨k, x.base, low, by simpa using high, rfl⟩

theorem ahead_iff {c : Supply} {n : Nat} {y : Name} :
    c.Ahead n y ↔
      ∃ k ∈ List.range n, '.' :: (c.skip (k + 1)).count.toNat.repr.toList <:+ y.toList := by
  constructor
  · rintro ⟨k, stem, low, high, rfl⟩
    refine ⟨k - 1, List.mem_range.mpr (by omega), stem.toList, ?_⟩
    rw [Nat.sub_add_cancel low]
    simp
  · rintro ⟨k, hk, stem, eq⟩
    refine ⟨k + 1, String.ofList stem, by omega, List.mem_range.mp hk, ?_⟩
    rw [← String.toList_inj, ← eq]
    simp

instance (c : Supply) (n : Nat) (y : Name) : Decidable (c.Ahead n y) :=
  decidable_of_iff' _ ahead_iff

/-- If the name has a number, the count of the supply has reached it. -/
def Reaches (c : Supply) (y : Name) : Prop :=
  ∀ n ∈ y.number?, n ≤ c.count.toNat

instance (c : Supply) (y : Name) : Decidable (c.Reaches y) :=
  inferInstanceAs (Decidable (∀ n ∈ y.number?, n ≤ c.count.toNat))

/-- A number that the count has reached comes again only where the count starts again from
    zero. -/
theorem Reaches.not_ahead {c : Supply} {n : Nat} {y : Name} (reached : c.Reaches y)
    (room : c.count.toNat + n < 2 ^ 32) : ¬ c.Ahead n y := by
  rintro ⟨k, stem, low, high, rfl⟩
  have behind := reached _ (Name.number?_append stem _)
  rw [skip, UInt32.toNat_add, UInt32.toNat_ofNat'] at behind
  omega

theorem nodup_names (c : Supply) {xs : List Name} (h : xs.length ≤ 2 ^ 32) :
    (c.names xs).Nodup := by
  rw [names_eq_drawn]
  exact c.nodup_drawn (by simpa using h)

end Supply

/-! ## Names of intermediate results -/

/-- Whether a name has the shape of the names of intermediate results: `T`, the letter of
    a type, and digits. -/
def Name.isTemporary (x : Name) : Bool :=
  match x.toList with
  | 'T' :: letter :: digit :: digits =>
      ['u', 'b', 'i', 'd', 'f', 't', 'a'].contains letter && (digit :: digits).all Char.isDigit
  | _ => false

namespace Supply

/-- The name that is drawn next for an intermediate result. -/
def temp (c : Supply) (ty : Mono) : Name :=
  "T" ++ ty.tag.toString ++ (c.skip 1).count.toNat.repr

theorem isTemporary_temp (c : Supply) (ty : Mono) : (c.temp ty).isTemporary = true := by
  obtain ⟨d, ds, hds⟩ := List.exists_cons_of_ne_nil
    (Nat.toList_repr (n := (c.skip 1).count.toNat) ▸ Nat.toDigits_ne_nil)
  have digits : ∀ e ∈ d :: ds, e.isDigit = true := by
    intro e he
    exact Name.isDigit_of_mem_repr (hds ▸ he)
  have letters : (c.temp ty).toList = 'T' :: ty.tag :: d :: ds := by
    simp [← hds, temp, Char.toString]
  have letter : ['u', 'b', 'i', 'd', 'f', 't', 'a'].contains ty.tag = true := by
    cases ty <;> rfl
  simp only [Name.isTemporary, letters, letter, Bool.true_and, List.all_eq_true]
  exact digits

/-- The name is drawn for an intermediate result in one of the next `n` draws. -/
def Draws (c : Supply) (n : Nat) (y : Name) : Prop :=
  ∃ j ty, j < n ∧ y = (c.skip j).temp ty

theorem Draws.isTemporary {c : Supply} {n : Nat} {y : Name} (h : c.Draws n y) :
    y.isTemporary = true := by
  obtain ⟨j, ty, -, rfl⟩ := h
  exact isTemporary_temp _ ty

theorem Draws.mono {c : Supply} {m n : Nat} {y : Name} (h : c.Draws m y) (le : m ≤ n) :
    c.Draws n y := by
  obtain ⟨j, ty, hj, rfl⟩ := h
  exact ⟨j, ty, by omega, rfl⟩

theorem Draws.of_skip {c : Supply} {m n : Nat} {y : Name} (h : (c.skip m).Draws n y) :
    c.Draws (m + n) y := by
  obtain ⟨j, ty, hj, rfl⟩ := h
  exact ⟨m + j, ty, by omega, by rw [skip_skip]⟩

/-- A name that was drawn does not come again in the draws that follow. -/
theorem Draws.not_again {c : Supply} {m n : Nat} {y : Name} (h : c.Draws m y)
    (few : m + n ≤ 2 ^ 32) : ¬ (c.skip m).Draws n y := by
  rintro ⟨j, ty, hj, eq⟩
  obtain ⟨i, u, hi, rfl⟩ := h
  rw [temp, temp, skip_skip, skip_skip, skip_skip] at eq
  have same := Request.number_eq (r := .temporary u.tag) (s := .temporary ty.tag) eq
  exact count_skip_ne c (by omega) (by omega) same

end Supply

end MiddleEnd
