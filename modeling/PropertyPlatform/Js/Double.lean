import PropertyPlatform.Binary.Rounding

/-!
# Doubles

The finite numbers of the language, and how its operations round. A quotient of integers stands
for the exact result of an operation.
-/

namespace Js

open Binary

/-- The format of the numbers, up to its largest exponent. -/
def binary64 : Format := ⟨52, -1074⟩

section Quotients

/-- The double nearest to `a / b`, as long as there is no largest one. -/
def nearestDiv (a : ℤ) (b : ℕ) : ℚ := a.sign * binary64.nearest a.natAbs b

variable {a a' : ℤ} {b b' : ℕ}

theorem nearestDiv_neg (a : ℤ) (b : ℕ) : nearestDiv (-a) b = -nearestDiv a b := by
  simp [nearestDiv]

theorem nearestDiv_of_nonneg (h : 0 ≤ a) : nearestDiv a b = binary64.nearest a.natAbs b := by
  rcases h.lt_or_eq with hpos | rfl
  · simp [nearestDiv, Int.sign_eq_one_of_pos hpos]
  · simp [nearestDiv, Format.nearest, Format.mantissa, divNearest]

theorem nearestDiv_nonneg (h : 0 ≤ a) : 0 ≤ nearestDiv a b := by
  rw [nearestDiv_of_nonneg h]
  exact Format.nearest_nonneg

theorem natAbs_sign_le_one (a : ℤ) : a.sign.natAbs ≤ 1 := by
  rw [Int.natAbs_sign]
  split_ifs <;> omega

theorem cast_natAbs_of_nonneg (h : 0 ≤ a) : (a.natAbs : ℚ) = a := by
  rw [Nat.cast_natAbs, abs_of_nonneg h]

theorem nearestDiv_mono_nonneg (ha : 0 ≤ a) (ha' : 0 ≤ a') (hb : 0 < b) (hb' : 0 < b')
    (h : (a : ℚ) / b ≤ (a' : ℚ) / b') : nearestDiv a b ≤ nearestDiv a' b' := by
  rw [nearestDiv_of_nonneg ha, nearestDiv_of_nonneg ha']
  apply Format.nearest_mono hb hb'
  rwa [cast_natAbs_of_nonneg ha, cast_natAbs_of_nonneg ha']

/-- A larger quotient is not rounded to a smaller number. -/
theorem nearestDiv_mono (hb : 0 < b) (hb' : 0 < b') (h : (a : ℚ) / b ≤ (a' : ℚ) / b') :
    nearestDiv a b ≤ nearestDiv a' b' := by
  have hpos : (0 : ℚ) < b := by exact_mod_cast hb
  have hpos' : (0 : ℚ) < b' := by exact_mod_cast hb'
  rcases le_total 0 a with ha | ha
  · have ha' : 0 ≤ a' := by
      have hnonneg : (0 : ℚ) ≤ a' / b' := (div_nonneg (by exact_mod_cast ha) hpos.le).trans h
      rw [le_div_iff₀ hpos', zero_mul] at hnonneg
      exact_mod_cast hnonneg
    exact nearestDiv_mono_nonneg ha ha' hb hb' h
  · have hneg : nearestDiv a b = -nearestDiv (-a) b := by rw [nearestDiv_neg, neg_neg]
    have hle := nearestDiv_nonneg (a := -a) (b := b) (by omega)
    rcases le_total 0 a' with ha' | ha'
    · exact (by linarith : nearestDiv a b ≤ 0).trans (nearestDiv_nonneg ha')
    · have hneg' : nearestDiv a' b' = -nearestDiv (-a') b' := by rw [nearestDiv_neg, neg_neg]
      rw [hneg, hneg', neg_le_neg_iff]
      apply nearestDiv_mono_nonneg (by omega) (by omega) hb' hb
      push_cast
      rw [neg_div, neg_div]
      exact neg_le_neg h

end Quotients

/-- The finite number `mantissa * 2 ^ exponent`. -/
structure Double where
  mantissa : ℤ
  exponent : ℤ
  mantissa_lt : mantissa.natAbs < 2 ^ 53
  exponent_ge : -1074 ≤ exponent
  exponent_le : exponent ≤ 971
  deriving DecidableEq

namespace Double

variable (x y : Double)

def value : ℚ := x.mantissa * 2 ^ x.exponent

def num : ℤ := x.mantissa * 2 ^ x.exponent.toNat

def den : ℕ := 2 ^ (-x.exponent).toNat

theorem den_pos : 0 < x.den := Nat.two_pow_pos _

theorem value_eq : x.value = (x.num : ℚ) / x.den := by
  rw [value, num, den, zpow_eq_div]
  push_cast
  exact (mul_div_assoc _ _ _).symm

/-- Whether the quotient, as a double, is below the number. -/
def exceedsDiv (a : ℤ) (b : ℕ) : Bool :=
  let m := binary64.mantissa a.natAbs b
  let e := binary64.exponent a.natAbs b
  decide (a.sign * m * 2 ^ e.toNat * x.den < x.num * 2 ^ (-e).toNat)

variable {x y} {a : ℤ} {b : ℕ}

theorem exceedsDiv_iff : x.exceedsDiv a b = true ↔ nearestDiv a b < x.value := by
  have hden : (0 : ℚ) < x.den := by exact_mod_cast x.den_pos
  have hpow : (0 : ℚ) < 2 ^ (-binary64.exponent a.natAbs b).toNat := by positivity
  rw [exceedsDiv, decide_eq_true_eq, nearestDiv, Format.nearest, value_eq, zpow_eq_div,
    ← mul_div_assoc, ← mul_div_assoc, div_lt_div_iff₀ hpow hden, ← mul_assoc]
  exact_mod_cast Iff.rfl

/-- A double is the nearest to itself. -/
theorem nearestDiv_num_den (x : Double) : nearestDiv x.num x.den = x.value := by
  have habs : x.num.natAbs = x.mantissa.natAbs * 2 ^ x.exponent.toNat := by
    rw [num, Int.natAbs_mul, Int.natAbs_pow]
    rfl
  have hpos : (0 : ℤ) < 2 ^ x.exponent.toNat := by positivity
  have hsign : x.num.sign = x.mantissa.sign := by
    rw [num, Int.sign_mul, Int.sign_eq_one_of_pos hpos, mul_one]
  have hvalue : (x.num.natAbs : ℚ) / x.den = x.mantissa.natAbs * 2 ^ x.exponent := by
    rw [habs, den, zpow_eq_div]
    push_cast
    exact mul_div_assoc _ _ _
  rw [nearestDiv, Format.nearest_eq x.den_pos x.mantissa_lt x.exponent_ge hvalue, hsign, value,
    ← mul_assoc, Nat.cast_natAbs]
  congr 1
  exact_mod_cast Int.sign_mul_abs x.mantissa

/-- The finite numbers lie strictly between the powers that overflow. -/
theorem abs_value_lt (x : Double) : |x.value| < 2 ^ (1024 : ℤ) := by
  have hmantissa : ((x.mantissa.natAbs : ℕ) : ℚ) < 2 ^ 53 := by exact_mod_cast x.mantissa_lt
  calc |x.value| = x.mantissa.natAbs * 2 ^ x.exponent := by
        rw [value, abs_mul, Nat.cast_natAbs, Int.cast_abs, abs_zpow, abs_two]
    _ < 2 ^ 53 * 2 ^ x.exponent := mul_lt_mul_of_pos_right hmantissa (zpow_pos two_pos _)
    _ ≤ 2 ^ 53 * 2 ^ (971 : ℤ) :=
        mul_le_mul_of_nonneg_left (zpow_le_zpow_right₀ one_le_two x.exponent_le) (by positivity)
    _ = 2 ^ (1024 : ℤ) := by rw [← zpow_ofNat, ← zpow_add₀ two_ne_zero]; rfl

/-- The quotient as a finite number; `none` is overflow. -/
def ofDiv? (a : ℤ) (b : ℕ) : Option Double :=
  let m := binary64.mantissa a.natAbs b
  let e := binary64.exponent a.natAbs b
  if h : m < 2 ^ 53 ∧ e ≤ 971 then
    some ⟨a.sign * m, e, by
      rw [Int.natAbs_mul, Int.natAbs_natCast]
      exact (mul_le_of_le_one_left (Nat.zero_le m) (natAbs_sign_le_one a)).trans_lt h.1,
      le_max_right _ _, h.2⟩
  else if h : m = 2 ^ 53 ∧ e < 971 then
    some ⟨a.sign * 2 ^ 52, e + 1, by
      rw [Int.natAbs_mul]
      exact (mul_le_of_le_one_left (Nat.zero_le _) (natAbs_sign_le_one a)).trans_lt (by decide),
      (le_max_right _ _).trans (Int.le_add_one le_rfl), by omega⟩
  else none

theorem value_of_ofDiv? (h : ofDiv? a b = some x) : x.value = nearestDiv a b := by
  simp only [ofDiv?] at h
  split_ifs at h with hfits hcarry
  · cases h
    rw [value, nearestDiv, Format.nearest, ← mul_assoc]
    push_cast
    rfl
  · cases h
    rw [value, nearestDiv, Format.nearest, hcarry.1, zpow_add_one₀ two_ne_zero]
    push_cast
    ring

/-- What overflows is rounded to a power that no finite number reaches. -/
theorem le_abs_of_ofDiv?_eq_none (hb : 0 < b) (h : ofDiv? a b = none) :
    2 ^ (1024 : ℤ) ≤ |nearestDiv a b| := by
  have hdigits : binary64.mantissa a.natAbs b ≤ 2 ^ 53 := Format.mantissa_le_two_pow hb
  simp only [ofDiv?] at h
  split_ifs at h with hfits hcarry
  have hlarge : 971 ≤ binary64.exponent a.natAbs b := by omega
  have hne : a.natAbs ≠ 0 := by
    intro hzero
    rw [hzero] at hlarge
    exact absurd (hlarge.trans (Format.exponent_zero_le)) (by decide)
  have hdigits' : 2 ^ 52 ≤ binary64.mantissa a.natAbs b :=
    Format.two_pow_le_mantissa (Nat.pos_of_ne_zero hne) hb (lt_of_lt_of_le (by decide) hlarge)
  have hsign : |(a.sign : ℚ)| = 1 := by
    rw [← Int.cast_abs, Int.abs_sign_of_ne_zero (Int.natAbs_ne_zero.mp hne), Int.cast_one]
  rw [nearestDiv, abs_mul, hsign, one_mul, abs_of_nonneg Format.nearest_nonneg, Format.nearest]
  rcases hdigits.lt_or_eq with hlt | heq
  · have hexponent : 972 ≤ binary64.exponent a.natAbs b := by omega
    calc (2 : ℚ) ^ (1024 : ℤ) = (2 ^ 52 : ℕ) * 2 ^ (972 : ℤ) := by
          rw [Nat.cast_pow, Nat.cast_ofNat, ← zpow_ofNat, ← zpow_add₀ two_ne_zero]; rfl
      _ ≤ _ := mul_le_mul (Nat.cast_le.mpr hdigits')
          (zpow_le_zpow_right₀ one_le_two hexponent) (by positivity) (by positivity)
  · rw [heq]
    calc (2 : ℚ) ^ (1024 : ℤ) = (2 ^ 53 : ℕ) * 2 ^ (971 : ℤ) := by
          rw [Nat.cast_pow, Nat.cast_ofNat, ← zpow_ofNat, ← zpow_add₀ two_ne_zero]; rfl
      _ ≤ _ := mul_le_mul_of_nonneg_left (zpow_le_zpow_right₀ one_le_two hlarge) (by positivity)

/-- A quotient that is a finite number becomes that number. -/
theorem exists_ofDiv? (hb : 0 < b) (h : (a : ℚ) / b = x.value) :
    ∃ y, ofDiv? a b = some y ∧ y.value = x.value := by
  have hrounded : nearestDiv a b = x.value := by
    rw [← nearestDiv_num_den x]
    exact le_antisymm (nearestDiv_mono hb x.den_pos (by rw [h, value_eq]))
      (nearestDiv_mono x.den_pos hb (by rw [h, value_eq]))
  cases hdiv : ofDiv? a b with
  | some y => exact ⟨y, rfl, (value_of_ofDiv? hdiv).trans hrounded⟩
  | none =>
    have hlarge := le_abs_of_ofDiv?_eq_none hb hdiv
    rw [hrounded] at hlarge
    exact absurd x.abs_value_lt (not_lt.mpr hlarge)

end Double

end Js
