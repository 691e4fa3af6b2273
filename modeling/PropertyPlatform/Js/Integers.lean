import Mathlib.Algebra.Order.Floor.Div
import PropertyPlatform.Js.Double

/-!
# Integers as numbers

The operations on numbers, for non-negative integers. They are exact below `2 ^ 53`, and so is
the text of the result.
-/

namespace Js

open Binary

/-- The number nearest to an integer. -/
def nearestNat (n : ℕ) : ℕ :=
  binary64.mantissa n 1 * 2 ^ (binary64.exponent n 1).toNat / 2 ^ (-binary64.exponent n 1).toNat

/-- The multiple of `p` nearest to `n` among those that are read as the number `n`. -/
def readMultiple (n p : ℕ) : Option ℕ :=
  let near := divNearest n p * p
  let far := if near ≤ n then near + p else near - p
  if nearestNat near = n then some near
  else if nearestNat far = n then some far
  else none

def shortestFrom (n : ℕ) : ℕ → ℕ
  | 0 => n
  | k + 1 => (readMultiple n (10 ^ (k + 1))).getD (shortestFrom n k)

/-- The integer that `String(n)` names: it has as many zeros at its end as it can have. -/
def shortest (n : ℕ) : ℕ := shortestFrom n (Nat.toDigits 10 n).length

/-- `Math.ceil(a / b)`. -/
def ceilQuotient (a b : ℕ) : ℕ :=
  (binary64.mantissa a b * 2 ^ (binary64.exponent a b).toNat) ⌈/⌉
    2 ^ (-binary64.exponent a b).toNat

variable {a b k m n : ℕ}

section Nearest

theorem nearest_of_lt (h : n < 2 ^ 53) : binary64.nearest n 1 = n := by
  have hvalue : (n : ℚ) / (1 : ℕ) = n * 2 ^ (0 : ℤ) := by simp
  rw [Format.nearest_eq Nat.one_pos h (by decide) hvalue]
  simp

theorem exponent_pos (h : 2 ^ 53 ≤ n) : 0 < binary64.exponent n 1 := by
  have hpower : (2 : ℚ) ^ (53 : ℤ) ≤ (n : ℚ) / (1 : ℕ) := by
    rw [Nat.cast_one, div_one]
    exact_mod_cast h
  have hlt := hpower.trans_lt (lt_zpow_leadingExponent Nat.one_pos)
  have hleading := (zpow_lt_zpow_iff_right₀ (one_lt_two (α := ℚ))).mp hlt
  have hle : leadingExponent n 1 - 52 ≤ binary64.exponent n 1 := Format.leadingExponent_sub_le
  omega

theorem cast_nearestNat (n : ℕ) : (nearestNat n : ℚ) = binary64.nearest n 1 := by
  have hquotient : binary64.nearest n 1 =
      (binary64.mantissa n 1 * 2 ^ (binary64.exponent n 1).toNat : ℕ) /
        (2 ^ (-binary64.exponent n 1).toNat : ℕ) := by
    rw [Format.nearest, zpow_eq_div]
    push_cast
    exact (mul_div_assoc _ _ _).symm
  have hdvd : 2 ^ (-binary64.exponent n 1).toNat ∣
      binary64.mantissa n 1 * 2 ^ (binary64.exponent n 1).toNat := by
    rcases Nat.lt_or_ge n (2 ^ 53) with hlt | hge
    · rw [nearest_of_lt hlt, eq_div_iff (by positivity)] at hquotient
      exact Dvd.intro_left n (by exact_mod_cast hquotient)
    · have hpos := exponent_pos hge
      rw [Int.toNat_of_nonpos (by omega : -binary64.exponent n 1 ≤ 0)]
      exact one_dvd _
  rw [hquotient, nearestNat, Nat.cast_div hdvd (by positivity)]

theorem nearestNat_mono (h : m ≤ n) : nearestNat m ≤ nearestNat n := by
  have hquotient : (m : ℚ) / (1 : ℕ) ≤ (n : ℚ) / (1 : ℕ) := by gcongr
  have hnearest := Format.nearest_mono (F := binary64) Nat.one_pos Nat.one_pos hquotient
  rw [← cast_nearestNat, ← cast_nearestNat] at hnearest
  exact_mod_cast hnearest

theorem nearestNat_of_lt (h : n < 2 ^ 53) : nearestNat n = n := by
  have hcast := cast_nearestNat n
  rw [nearest_of_lt h] at hcast
  exact_mod_cast hcast

theorem nearestNat_of_le (h : n ≤ 2 ^ 53) : nearestNat n = n := by
  rcases h.lt_or_eq with hlt | rfl
  · exact nearestNat_of_lt hlt
  · decide

/-- Only the integer itself is read as one below `2 ^ 53`. -/
theorem eq_of_nearestNat_lt (h : nearestNat m < 2 ^ 53) : nearestNat m = m := by
  rcases Nat.lt_or_ge m (2 ^ 53) with hlt | hge
  · exact nearestNat_of_lt hlt
  · have hmono := nearestNat_mono hge
    rw [nearestNat_of_le le_rfl] at hmono
    omega

end Nearest

section Shortest

theorem nearestNat_readMultiple {p : ℕ} (h : readMultiple n p = some m) : nearestNat m = n := by
  simp only [readMultiple] at h
  split_ifs at h with hnear hle hfar hfar'
  all_goals
    cases h
    assumption

/-- What is printed is read as the number. -/
theorem nearestNat_shortestFrom (hn : nearestNat n = n) (k : ℕ) :
    nearestNat (shortestFrom n k) = n := by
  induction k with
  | zero => exact hn
  | succ k ih =>
    rw [shortestFrom]
    cases hread : readMultiple n (10 ^ (k + 1)) with
    | none => exact ih
    | some m => exact nearestNat_readMultiple hread

theorem shortest_of_lt (h : n < 2 ^ 53) : shortest n = n := by
  have hread := nearestNat_shortestFrom (nearestNat_of_lt h) (Nat.toDigits 10 n).length
  have hself := eq_of_nearestNat_lt (m := shortest n) (hread.trans_lt h)
  exact hself.symm.trans hread

end Shortest

section Quotients

theorem ceilQuotient_le_iff : ceilQuotient a b ≤ k ↔ binary64.nearest a b ≤ k := by
  have hpos : (0 : ℚ) < 2 ^ (-binary64.exponent a b).toNat := by positivity
  rw [ceilQuotient, ceilDiv_le_iff_le_mul (Nat.two_pow_pos _), Format.nearest, zpow_eq_div,
    ← mul_div_assoc, div_le_iff₀ hpos, mul_comm (k : ℚ)]
  exact_mod_cast Iff.rfl

theorem zpow_exponent_lt (ha : 0 < a) (ha' : a < 2 ^ 53) (hb : 0 < b) (hb' : b < 2 ^ 53) :
    (2 : ℚ) ^ binary64.exponent a b < 2 / b := by
  have hpos : (0 : ℚ) < b := by exact_mod_cast hb
  rw [Format.exponent]
  rcases max_choice (leadingExponent a b - (binary64.fraction : ℤ)) binary64.minExponent with h | h
  · have hlarge : (a : ℚ) < 2 ^ 53 := by exact_mod_cast ha'
    have hleading := zpow_leadingExponent_le ha hb
    have hsplit : (2 : ℚ) ^ (leadingExponent a b - (binary64.fraction : ℤ)) =
        2 ^ leadingExponent a b / 2 ^ 52 := zpow_sub₀ two_ne_zero _ _
    rw [h, hsplit, div_lt_div_iff₀ (by positivity) hpos]
    calc (2 : ℚ) ^ leadingExponent a b * b ≤ a := (le_div_iff₀ hpos).mp hleading
      _ < 2 * 2 ^ 52 := by linarith
  · have hlarge : (b : ℚ) < 2 ^ 53 := by exact_mod_cast hb'
    have hmin : (2 : ℚ) ^ binary64.minExponent ≤ 2 ^ (-52 : ℤ) :=
      zpow_le_zpow_right₀ one_le_two (by decide)
    rw [h, lt_div_iff₀ hpos]
    calc (2 : ℚ) ^ binary64.minExponent * b ≤ 2 ^ (-52 : ℤ) * b := by gcongr
      _ < 2 := by
          rw [zpow_neg, inv_mul_lt_iff₀ (by positivity)]
          norm_num
          linarith

/-- The quotient is rounded by less than it can differ from an integer. -/
theorem nearest_le_iff (ha : a < 2 ^ 53) (hb : 0 < b) (hb' : b < 2 ^ 53) :
    binary64.nearest a b ≤ k ↔ (a : ℚ) / b ≤ k := by
  have hpos : (0 : ℚ) < b := by exact_mod_cast hb
  constructor
  · intro h
    by_contra hlt
    rw [not_le, lt_div_iff₀ hpos] at hlt
    have hnext : (k : ℚ) * b + 1 ≤ a := by exact_mod_cast hlt
    have hstep : (k : ℚ) + 1 / b ≤ a / b := by
      rwa [le_div_iff₀ hpos, add_mul, div_mul_cancel₀ _ hpos.ne']
    have hpositive : 0 < a := by
      have hcast : (0 : ℚ) < a := lt_of_lt_of_le (by positivity) hnext
      exact_mod_cast hcast
    have herror := (abs_le.mp (Format.abs_nearest_sub_le (F := binary64) (a := a) hb)).1
    have hulp := zpow_exponent_lt hpositive ha hb hb'
    have hhalf : (2 : ℚ) / b / 2 = 1 / b := by ring
    linarith
  · intro h
    rcases Nat.lt_or_ge k (2 ^ 53) with hk | hk
    · rw [← nearest_of_lt hk]
      exact Format.nearest_mono hb Nat.one_pos (by simpa using h)
    · have hle : (a : ℚ) / b ≤ (a : ℚ) / (1 : ℕ) := by
        have hone : (1 : ℚ) ≤ b := by exact_mod_cast hb
        rw [Nat.cast_one, div_one]
        exact div_le_self (Nat.cast_nonneg a) hone
      have hbelow : (a : ℚ) ≤ k := by exact_mod_cast ha.le.trans hk
      have hround := Format.nearest_mono (F := binary64) hb Nat.one_pos hle
      rw [nearest_of_lt ha] at hround
      exact hround.trans hbelow

theorem ceilQuotient_eq (ha : a < 2 ^ 53) (hb : 0 < b) (hb' : b < 2 ^ 53) :
    ceilQuotient a b = a ⌈/⌉ b := by
  apply eq_of_forall_ge_iff
  intro k
  have hpos : (0 : ℚ) < b := by exact_mod_cast hb
  rw [ceilQuotient_le_iff, nearest_le_iff ha hb hb', ceilDiv_le_iff_le_mul hb, div_le_iff₀ hpos,
    mul_comm]
  exact_mod_cast Iff.rfl

end Quotients

end Js
