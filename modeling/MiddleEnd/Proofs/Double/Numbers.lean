import Mathlib
import MiddleEnd.Double.Shortest
import MiddleEnd.Operator

/-! # The numbers that doubles stand for

A double that is no NaN stands for a rational number or for an infinity.  Equality and order of
doubles are read off their words; here they are shown to be those of the numbers.  Between one
magnitude and the next the number grows, also where the exponent changes, and so the order of the
words is the order of the numbers.
-/

namespace MiddleEnd

namespace Double

/-- Rational numbers and the two infinities. -/
abbrev Number := WithBot (WithTop ℚ)

def rational (d : Double) : ℚ :=
  if d.isNegative then -(d.significand * 2 ^ d.exponent) else d.significand * 2 ^ d.exponent

/-- The number that a double stands for; a NaN stands for none. -/
def number? (d : Double) : Option Number :=
  if d.isNaN then none
  else if d.isInfinite then some (if d.isNegative then ⊥ else ⊤)
  else some (d.rational : WithTop ℚ)

/-! ## The order of words -/

/-- A magnitude as a multiple of the least positive one. -/
def units (m : Nat) : Nat :=
  if m / 2 ^ 52 = 0 then m % 2 ^ 52 else (m % 2 ^ 52 + 2 ^ 52) * 2 ^ (m / 2 ^ 52 - 1)

theorem units_lt_succ (m : Nat) : units m < units (m + 1) := by
  have next : ((m + 1) / 2 ^ 52 = m / 2 ^ 52 ∧ (m + 1) % 2 ^ 52 = m % 2 ^ 52 + 1) ∨
      (m % 2 ^ 52 + 1 = 2 ^ 52 ∧ (m + 1) / 2 ^ 52 = m / 2 ^ 52 + 1 ∧ (m + 1) % 2 ^ 52 = 0) := by
    omega
  rw [units, units]
  obtain ⟨field, fraction⟩ | ⟨last, field, fraction⟩ := next
  · rw [field, fraction]
    split
    · exact Nat.lt_succ_self _
    · exact Nat.mul_lt_mul_of_pos_right (by omega) (Nat.two_pow_pos _)
  · -- The next magnitude is the least one with the next exponent.
    rw [field, fraction, if_neg (Nat.succ_ne_zero _), Nat.zero_add, Nat.add_sub_cancel]
    cases m / 2 ^ 52 with
    | zero =>
        rw [if_pos rfl, Nat.pow_zero]
        omega
    | succ e =>
        rw [if_neg (Nat.succ_ne_zero _), Nat.add_sub_cancel]
        calc (m % 2 ^ 52 + 2 ^ 52) * 2 ^ e
            < 2 ^ 52 * 2 * 2 ^ e := Nat.mul_lt_mul_of_pos_right (by omega) (Nat.two_pow_pos _)
          _ = 2 ^ 52 * 2 ^ (e + 1) := by ring

theorem strictMono_units : StrictMono units :=
  strictMono_nat_of_lt_succ units_lt_succ

theorem units_magnitude (d : Double) : units d.magnitude.toNat =
    if d.exponentField = 0 then d.fraction
    else (d.fraction + Nat.pow 2 52) * 2 ^ (d.exponentField - 1) := rfl

theorem significand_mul (d : Double) :
    (d.significand : ℚ) * 2 ^ d.exponent = units d.magnitude.toNat * 2 ^ (-1074 : ℤ) := by
  rw [significand, exponent, units_magnitude]
  split
  case isTrue => rfl
  case isFalse normal =>
    have power : (2 : ℚ) ^ ((d.exponentField : ℤ) - 1075) =
        2 ^ (d.exponentField - 1) * 2 ^ (-1074 : ℤ) := by
      rw [← zpow_natCast, ← zpow_add₀ two_ne_zero]
      congr 1
      omega
    rw [power, Nat.cast_mul, mul_assoc, Nat.cast_pow 2, Nat.cast_ofNat]

/-- The rational number at a place in the order of doubles. -/
def rationalAt (k : Int) : ℚ :=
  k.sign * (units k.natAbs * 2 ^ (-1074 : ℤ))

theorem rationalAt_natCast (n : Nat) : rationalAt n = units n * 2 ^ (-1074 : ℤ) := by
  cases n with
  | zero => simp [rationalAt, units]
  | succ n => rw [rationalAt, Int.natAbs_natCast, Int.sign_natCast_of_ne_zero n.succ_ne_zero,
      Int.cast_one, one_mul]

theorem rationalAt_neg (k : Int) : rationalAt (-k) = -rationalAt k := by
  rw [rationalAt, rationalAt, Int.sign_neg, Int.natAbs_neg, Int.cast_neg, neg_mul]

theorem strictMono_rationalAt : StrictMono rationalAt := by
  refine strictMono_of_odd_strictMonoOn_nonneg rationalAt_neg ?_
  intro k hk l hl less
  lift k to ℕ using hk
  lift l to ℕ using hl
  rw [rationalAt_natCast, rationalAt_natCast]
  have more : (units k : ℚ) < units l := Nat.cast_lt.mpr (strictMono_units (Int.ofNat_lt.mp less))
  exact mul_lt_mul_of_pos_right more (zpow_pos two_pos _)

theorem rational_eq (d : Double) : d.rational = rationalAt d.key := by
  rw [rational, key]
  split
  · rw [rationalAt_neg, rationalAt_natCast, significand_mul]
  · rw [rationalAt_natCast, significand_mul]

/-- The place of positive infinity. -/
abbrev limit : Int := infinityBits.toNat

/-- The number at a place in the order of doubles. -/
def numberAt (k : Int) : Number :=
  if k = limit then ⊤ else if k = -limit then ⊥ else (rationalAt k : WithTop ℚ)

theorem strictMonoOn_numberAt : StrictMonoOn numberAt (Set.Icc (-limit) limit) := by
  intro k hk l hl less
  have hk' : k ≠ limit := (less.trans_le hl.2).ne
  have hl' : l ≠ -limit := (hk.1.trans_lt less).ne'
  rw [numberAt, numberAt, if_neg hk', if_neg hl']
  split <;> split
  · exact bot_lt_top
  · exact WithBot.bot_lt_coe _
  · exact WithBot.coe_lt_coe.mpr (WithTop.coe_lt_top _)
  · exact WithBot.coe_lt_coe.mpr (WithTop.coe_lt_coe.mpr (strictMono_rationalAt less))

theorem key_mem {d : Double} (h : d.isNaN = false) : d.key ∈ Set.Icc (-limit) limit := by
  have small : d.magnitude.toNat ≤ infinityBits.toNat := by
    simpa [isNaN, UInt64.lt_iff_toNat_lt] using h
  rw [key, limit, Set.mem_Icc]
  split <;> omega

theorem number?_eq {d : Double} (h : d.isNaN = false) : d.number? = some (numberAt d.key) := by
  rw [number?, if_neg (ne_true_of_eq_false h), numberAt]
  split
  · rename_i infinite
    have magnitude : d.magnitude = infinityBits := beq_iff_eq.mp infinite
    rw [key, magnitude]
    split <;> rfl
  · rename_i finite
    have other : d.magnitude.toNat ≠ infinityBits.toNat := by
      intro same
      exact finite (beq_iff_eq.mpr (UInt64.toNat_inj.mp same))
    have positive : 0 < infinityBits.toNat := by decide
    rw [rational_eq, if_neg, if_neg]
    · rw [key, limit]
      split <;> omega
    · rw [key, limit]
      split <;> omega

theorem number?_eq_none_iff {d : Double} : d.number? = none ↔ d.isNaN = true := by
  cases nan : d.isNaN with
  | true => simp [number?, nan]
  | false => simp [number?_eq nan]

section
variable {a b : Double} {x y : Number}

theorem isNaN_of_number? (h : a.number? = some x) : a.isNaN = false := by
  rw [← Bool.not_eq_true, ← number?_eq_none_iff, h]
  exact Option.some_ne_none x

theorem numberAt_key (h : a.number? = some x) : numberAt a.key = x := by
  rw [number?_eq (isNaN_of_number? h)] at h
  exact Option.some.inj h

theorem eq_iff (ha : a.number? = some x) (hb : b.number? = some y) : a.eq b = true ↔ x = y := by
  have na := isNaN_of_number? ha
  have nb := isNaN_of_number? hb
  rw [← numberAt_key ha, ← numberAt_key hb,
    strictMonoOn_numberAt.injOn.eq_iff (key_mem na) (key_mem nb)]
  simp [eq, na, nb]

theorem le_iff (ha : a.number? = some x) (hb : b.number? = some y) : a.le b = true ↔ x ≤ y := by
  have na := isNaN_of_number? ha
  have nb := isNaN_of_number? hb
  rw [← numberAt_key ha, ← numberAt_key hb,
    strictMonoOn_numberAt.le_iff_le (key_mem na) (key_mem nb)]
  simp [le, na, nb]

end

end Double

/-! ## Comparisons -/

namespace Comparison

open Double

/-- What the comparison says of two numbers. -/
def Relates (op : Comparison) (x y : Number) : Prop :=
  match op with
  | .eq => x = y
  | .ne => x ≠ y
  | .le => x ≤ y
  | .ge => y ≤ x
  | .lt => x < y
  | .gt => y < x

/-- The predicate of the standard: numbers are compared, and a comparison with a NaN is false unless
    it asks for a difference. -/
def Holds (op : Comparison) (a b : Double) : Prop :=
  match a.number?, b.number? with
  | some x, some y => op.Relates x y
  | _, _ => op = .ne

/-- The outcome of a comparison that is made with one of the two tests. -/
def floats (op : Comparison) (a b : Double) : Bool :=
  match op with
  | .eq => a.eq b
  | .ne => !a.eq b
  | .le => a.le b
  | .ge => b.le a
  | .lt => !b.le a
  | .gt => !a.le b

section
variable {op : Comparison} {a b : Double}

theorem floats_iff_relates {x y : Number} (ha : a.number? = some x) (hb : b.number? = some y) :
    op.floats a b = true ↔ op.Relates x y := by
  cases op with
  | eq => exact eq_iff ha hb
  | ne => rw [floats, Bool.not_eq_true', ← Bool.not_eq_true, eq_iff ha hb, Relates]
  | le => exact le_iff ha hb
  | ge => exact le_iff hb ha
  | lt => rw [floats, Bool.not_eq_true', ← Bool.not_eq_true, le_iff hb ha, not_le, Relates]
  | gt => rw [floats, Bool.not_eq_true', ← Bool.not_eq_true, le_iff ha hb, not_le, Relates]

/-- Of the comparisons with a NaN also the strict ones come out true, since they are made as
    opposites. -/
theorem floats_of_isNaN (h : a.isNaN = true ∨ b.isNaN = true) :
    op.floats a b = true ↔ op = .ne ∨ op = .lt ∨ op = .gt := by
  have eq : a.eq b = false := by
    rcases h with h | h <;> simp [Double.eq, h]
  have le : a.le b = false := by
    rcases h with h | h <;> simp [Double.le, h]
  have ge : b.le a = false := by
    rcases h with h | h <;> simp [Double.le, h]
  cases op <;> simp [floats, eq, le, ge]

theorem holds_of_isNaN (h : a.isNaN = true ∨ b.isNaN = true) : op.Holds a b ↔ op = .ne := by
  rw [← number?_eq_none_iff, ← number?_eq_none_iff] at h
  rw [Holds]
  split
  · simp_all
  · rfl

/-- The outcome is that of the standard, except for strict comparisons with a NaN. -/
theorem floats_iff : op.floats a b = true ↔
    op.Holds a b ∨ ((op = .lt ∨ op = .gt) ∧ (a.isNaN = true ∨ b.isNaN = true)) := by
  by_cases nan : a.isNaN = true ∨ b.isNaN = true
  · rw [floats_of_isNaN nan, holds_of_isNaN nan, and_iff_left nan]
  · have numbers := not_or.mp nan
    have ha := number?_eq (Bool.eq_false_of_not_eq_true numbers.1)
    have hb := number?_eq (Bool.eq_false_of_not_eq_true numbers.2)
    rw [floats_iff_relates ha hb, Holds, ha, hb, or_iff_left fun h => nan h.2]

end

end Comparison

end MiddleEnd
