import Mathlib.Tactic

/-!
# Rounding quotients to binary numbers

A quotient of natural numbers is rounded to the nearest number that has as many binary digits
as a format allows, and of two nearest numbers to the one with an even mantissa. Everything is
computed on integers; the values are rational numbers.
-/

namespace Binary

section Integers

variable {a b a' b' n : ℕ}

/-- `a / b` rounded to the nearest integer, and to the even one of two. -/
def divNearest (a b : ℕ) : ℕ :=
  if 2 * (a % b) < b ∨ (2 * (a % b) = b ∧ a / b % 2 = 0) then a / b else a / b + 1

theorem div_le_divNearest (a b : ℕ) : a / b ≤ divNearest a b := by
  unfold divNearest
  split_ifs <;> omega

theorem divNearest_le_succ (a b : ℕ) : divNearest a b ≤ a / b + 1 := by
  unfold divNearest
  split_ifs <;> omega

@[simp] theorem divNearest_one (a : ℕ) : divNearest a 1 = a := by
  simp [divNearest, Nat.mod_one]

/-- A larger quotient is not rounded to a smaller integer. -/
theorem divNearest_mono (hb : 0 < b) (hb' : 0 < b') (h : a * b' ≤ a' * b) :
    divNearest a b ≤ divNearest a' b' := by
  have hquotient : a / b ≤ a' / b' := by
    rw [Nat.le_div_iff_mul_le hb']
    apply Nat.le_of_mul_le_mul_left _ hb
    calc b * (a / b * b') = b * (a / b) * b' := (mul_assoc _ _ _).symm
      _ ≤ a * b' := Nat.mul_le_mul_right _ (Nat.mul_div_le a b)
      _ ≤ b * a' := h.trans_eq (mul_comm _ _)
  rcases hquotient.lt_or_eq with hlt | heq
  · exact (divNearest_le_succ a b).trans (hlt.trans_le (div_le_divNearest a' b'))
  · -- With one quotient the remainders decide.
    have hrest : a % b * b' ≤ a' % b' * b := by
      have ha := Nat.div_add_mod a b
      have ha' := Nat.div_add_mod a' b'
      rw [heq] at ha
      have hexpand : (b * (a' / b') + a % b) * b' ≤ (b' * (a' / b') + a' % b') * b := by
        rwa [ha, ha']
      nlinarith
    unfold divNearest
    rw [heq]
    split_ifs with hup hup' hup'
    · exact le_rfl
    · exact Nat.le_succ _
    · rcases hup' with hlt | ⟨hhalf, heven⟩
      · exact absurd (Or.inl (by nlinarith)) hup
      · have hle : 2 * (a % b) ≤ b := by
          apply Nat.le_of_mul_le_mul_right _ hb'
          nlinarith
        rcases hle.lt_or_eq with hlt | hhalf'
        · exact absurd (Or.inl hlt) hup
        · exact absurd (Or.inr ⟨hhalf', heven⟩) hup
    · exact le_rfl

theorem divNearest_mono_div (hb : 0 < b) (hb' : 0 < b') (h : (a : ℚ) / b ≤ (a' : ℚ) / b') :
    divNearest a b ≤ divNearest a' b' := by
  apply divNearest_mono hb hb'
  rw [div_le_div_iff₀ (by exact_mod_cast hb) (by exact_mod_cast hb')] at h
  exact_mod_cast h

theorem divNearest_le (hb : 0 < b) (h : (a : ℚ) / b ≤ n) : divNearest a b ≤ n := by
  have hmono : divNearest a b ≤ divNearest n 1 :=
    divNearest_mono_div hb Nat.one_pos (by simpa using h)
  simpa using hmono

theorem le_divNearest (hb : 0 < b) (h : (n : ℚ) ≤ (a : ℚ) / b) : n ≤ divNearest a b := by
  have hmono : divNearest n 1 ≤ divNearest a b :=
    divNearest_mono_div Nat.one_pos hb (by simpa using h)
  simpa using hmono

theorem div_add_mod_div (hb : 0 < b) : (a : ℚ) / b = (a / b : ℕ) + (a % b : ℕ) / (b : ℚ) := by
  have hpos : (b : ℚ) ≠ 0 := by exact_mod_cast hb.ne'
  have hsplit : (b * (a / b : ℕ) + (a % b : ℕ) : ℚ) = a := by
    exact_mod_cast Nat.div_add_mod a b
  rw [← hsplit, add_div, mul_div_cancel_left₀ _ hpos]

/-- The nearest integer is at most one half away. -/
theorem abs_divNearest_sub_le (hb : 0 < b) : |(divNearest a b : ℚ) - (a : ℚ) / b| ≤ 1 / 2 := by
  have hpos : (0 : ℚ) < b := by exact_mod_cast hb
  have hlt : ((a % b : ℕ) : ℚ) < b := by exact_mod_cast Nat.mod_lt a hb
  have hnonneg : (0 : ℚ) ≤ (a % b : ℕ) / (b : ℚ) := by positivity
  rw [div_add_mod_div hb, abs_le]
  unfold divNearest
  split_ifs with hdown
  · have hle : ((a % b : ℕ) : ℚ) / b ≤ 1 / 2 := by
      rw [div_le_div_iff₀ hpos two_pos]
      have : a % b * 2 ≤ 1 * b := by omega
      exact_mod_cast this
    constructor <;> linarith
  · have hle : 1 / 2 ≤ ((a % b : ℕ) : ℚ) / b := by
      rw [div_le_div_iff₀ two_pos hpos]
      have : 1 * b ≤ a % b * 2 := by omega
      exact_mod_cast this
    have hone : ((a % b : ℕ) : ℚ) / b ≤ 1 := (div_le_one hpos).mpr hlt.le
    push_cast
    constructor <;> linarith

end Integers

section Exponents

variable {a b : ℕ}

theorem zpow_eq_div (e : ℤ) : (2 : ℚ) ^ e = 2 ^ e.toNat / 2 ^ (-e).toNat := by
  rw [← zpow_natCast, ← zpow_natCast, ← zpow_sub₀ two_ne_zero, Int.toNat_sub_toNat_neg]

/-- The exponent of the first binary digit of `a / b`. -/
def leadingExponent (a b : ℕ) : ℤ :=
  let k : ℤ := (Nat.log2 a : ℤ) - Nat.log2 b
  if b * 2 ^ k.toNat ≤ a * 2 ^ (-k).toNat then k else k - 1

theorem le_mul_iff_zpow_le (hb : 0 < b) (k : ℤ) :
    b * 2 ^ k.toNat ≤ a * 2 ^ (-k).toNat ↔ (2 : ℚ) ^ k ≤ (a : ℚ) / b := by
  have hpos : (0 : ℚ) < b := by exact_mod_cast hb
  rw [zpow_eq_div, div_le_div_iff₀ (by positivity) hpos, mul_comm (2 ^ k.toNat : ℚ)]
  exact_mod_cast Iff.rfl

theorem zpow_leadingExponent_le (ha : 0 < a) (hb : 0 < b) :
    (2 : ℚ) ^ leadingExponent a b ≤ (a : ℚ) / b := by
  have hpos : (0 : ℚ) < b := by exact_mod_cast hb
  unfold leadingExponent
  simp only
  split_ifs with hle
  · exact (le_mul_iff_zpow_le hb _).mp hle
  · have hlower : (2 : ℚ) ^ Nat.log2 a ≤ a := by exact_mod_cast Nat.log2_self_le ha.ne'
    have hupper : (b : ℚ) ≤ 2 ^ (Nat.log2 b + 1) := by exact_mod_cast Nat.lt_log2_self.le
    calc (2 : ℚ) ^ ((Nat.log2 a : ℤ) - Nat.log2 b - 1) = 2 ^ Nat.log2 a / 2 ^ (Nat.log2 b + 1) := by
          rw [sub_sub, zpow_sub₀ two_ne_zero, zpow_natCast]
          norm_cast
      _ ≤ a / b := div_le_div₀ (Nat.cast_nonneg a) hlower hpos hupper

theorem lt_zpow_leadingExponent (hb : 0 < b) :
    (a : ℚ) / b < 2 ^ (leadingExponent a b + 1) := by
  have hpos : (0 : ℚ) < b := by exact_mod_cast hb
  unfold leadingExponent
  simp only
  split_ifs with hle
  · have hupper : (a : ℚ) < 2 ^ (Nat.log2 a + 1) := by exact_mod_cast Nat.lt_log2_self
    have hlower : (2 : ℚ) ^ Nat.log2 b ≤ b := by exact_mod_cast Nat.log2_self_le hb.ne'
    calc (a : ℚ) / b < 2 ^ (Nat.log2 a + 1) / 2 ^ Nat.log2 b :=
          div_lt_div₀ hupper hlower (by positivity) (by positivity)
      _ = 2 ^ ((Nat.log2 a : ℤ) - Nat.log2 b + 1) := by
          rw [sub_add_eq_add_sub, zpow_sub₀ two_ne_zero, zpow_natCast]
          norm_cast
  · rw [sub_add_cancel]
    exact not_le.mp fun h => hle ((le_mul_iff_zpow_le hb _).mpr h)

end Exponents

/-- Binary numbers with a bound on their digits and on the exponent of the last one. -/
structure Format where
  /-- The digits after the first one. -/
  fraction : ℕ
  minExponent : ℤ

namespace Format

variable (F : Format) (a b : ℕ)

/-- The exponent of the last digit that a number as large as `a / b` has. -/
def exponent : ℤ := max (leadingExponent a b - F.fraction) F.minExponent

def mantissa : ℕ :=
  divNearest (a * 2 ^ (-F.exponent a b).toNat) (b * 2 ^ (F.exponent a b).toNat)

/-- The number of the format that is nearest to `a / b`. -/
def nearest : ℚ := F.mantissa a b * 2 ^ F.exponent a b

variable {F a b} {a' b' m : ℕ} {e : ℤ}

theorem scaled (a b : ℕ) (e : ℤ) : ((a * 2 ^ (-e).toNat : ℕ) : ℚ) / (b * 2 ^ e.toNat : ℕ) =
    (a : ℚ) / b / 2 ^ e := by
  push_cast
  rw [zpow_eq_div]
  field_simp

theorem scaled_pos (hb : 0 < b) (e : ℤ) : 0 < b * 2 ^ e.toNat := by positivity

theorem mantissa_mono (hb : 0 < b) (hb' : 0 < b') (he : F.exponent a b = F.exponent a' b')
    (h : (a : ℚ) / b ≤ (a' : ℚ) / b') : F.mantissa a b ≤ F.mantissa a' b' := by
  apply divNearest_mono_div (scaled_pos hb _) (scaled_pos hb' _)
  rw [scaled, scaled, he]
  gcongr

/-- A bound that is on the grid of the number is a bound on the nearest number. -/
theorem mantissa_le (hb : 0 < b) (h : (a : ℚ) / b ≤ m * 2 ^ F.exponent a b) :
    F.mantissa a b ≤ m := by
  apply divNearest_le (scaled_pos hb _)
  rw [scaled]
  exact (div_le_iff₀ (by positivity)).mpr h

theorem le_mantissa (hb : 0 < b) (h : (m : ℚ) * 2 ^ F.exponent a b ≤ (a : ℚ) / b) :
    m ≤ F.mantissa a b := by
  apply le_divNearest (scaled_pos hb _)
  rw [scaled]
  exact (le_div_iff₀ (by positivity)).mpr h

theorem leadingExponent_sub_le : leadingExponent a b - F.fraction ≤ F.exponent a b :=
  le_max_left _ _

/-- There are never more digits than the format has, but for a carry out of the first one. -/
theorem mantissa_le_two_pow (hb : 0 < b) : F.mantissa a b ≤ 2 ^ (F.fraction + 1) := by
  apply mantissa_le hb
  apply (lt_zpow_leadingExponent hb).le.trans
  push_cast
  rw [← zpow_natCast, ← zpow_add₀ two_ne_zero]
  have hle := leadingExponent_sub_le (F := F) (a := a) (b := b)
  apply zpow_le_zpow_right₀ one_le_two
  push_cast
  omega

@[simp] theorem mantissa_zero (hb : 0 < b) : F.mantissa 0 b = 0 :=
  Nat.le_zero.mp (mantissa_le hb (by simp))

theorem nearest_nonneg : 0 ≤ F.nearest a b := by
  unfold nearest
  positivity

theorem exponent_zero_le : F.exponent 0 b ≤ max (0 - (F.fraction : ℤ)) F.minExponent := by
  have hleading : leadingExponent 0 b ≤ 0 := by
    have hlog : Nat.log2 0 = 0 := rfl
    unfold leadingExponent
    simp only
    split_ifs <;> omega
  exact max_le_max_right _ (Int.sub_le_sub_right hleading _)

theorem leadingExponent_mono (ha : 0 < a) (hb : 0 < b) (hb' : 0 < b')
    (h : (a : ℚ) / b ≤ (a' : ℚ) / b') : leadingExponent a b ≤ leadingExponent a' b' := by
  have hlt := (zpow_leadingExponent_le ha hb).trans_lt (h.trans_lt (lt_zpow_leadingExponent hb'))
  exact Int.lt_add_one_iff.mp ((zpow_lt_zpow_iff_right₀ one_lt_two).mp hlt)

/-- Where the exponent is not the least, all digits are used. -/
theorem two_pow_le_mantissa (ha : 0 < a) (hb : 0 < b) (h : F.minExponent < F.exponent a b) :
    2 ^ F.fraction ≤ F.mantissa a b := by
  have hnormal : F.exponent a b = leadingExponent a b - F.fraction := by
    have hmax : F.exponent a b = max _ F.minExponent := rfl
    omega
  apply le_mantissa hb
  refine le_trans (le_of_eq ?_) (zpow_leadingExponent_le ha hb)
  push_cast
  rw [← zpow_natCast, ← zpow_add₀ two_ne_zero, hnormal]
  congr 1
  omega

/-- Rounding keeps the order. -/
theorem nearest_mono (hb : 0 < b) (hb' : 0 < b') (h : (a : ℚ) / b ≤ (a' : ℚ) / b') :
    F.nearest a b ≤ F.nearest a' b' := by
  rcases Nat.eq_zero_or_pos a with rfl | ha
  · rw [nearest, mantissa_zero hb, Nat.cast_zero, zero_mul]
    exact nearest_nonneg
  have hleading := leadingExponent_mono ha hb hb' h
  have hexponent : F.exponent a b ≤ F.exponent a' b' :=
    max_le_max_right _ (Int.sub_le_sub_right hleading _)
  rcases hexponent.lt_or_eq with hlt | heq
  · -- The power of two that leads the larger number lies between the two.
    have ha' : 0 < a' := by
      rcases Nat.eq_zero_or_pos a' with rfl | ha'
      · have hpos : (0 : ℚ) < (a : ℚ) / b := by positivity
        rw [Nat.cast_zero, zero_div] at h
        exact absurd h (not_le.mpr hpos)
      · exact ha'
    have hmin : F.minExponent ≤ F.exponent a b := le_max_right _ _
    have hnormal : F.exponent a' b' = leadingExponent a' b' - F.fraction := by
      have hmax : F.exponent a' b' = max _ F.minExponent := rfl
      omega
    have hleading' : leadingExponent a b + 1 ≤ leadingExponent a' b' := by
      have hle := leadingExponent_sub_le (F := F) (a := a) (b := b)
      omega
    obtain ⟨k, hk⟩ : ∃ k : ℕ, leadingExponent a' b' = F.exponent a b + k :=
      Int.le.dest (by omega) |>.imp fun _ hk => hk.symm
    have hbelow : F.mantissa a b ≤ 2 ^ k := by
      apply mantissa_le hb
      apply (lt_zpow_leadingExponent hb).le.trans
      push_cast
      rw [← zpow_natCast, ← zpow_add₀ two_ne_zero]
      exact zpow_le_zpow_right₀ one_le_two (by omega)
    have habove : 2 ^ F.fraction ≤ F.mantissa a' b' :=
      two_pow_le_mantissa ha' hb' (hmin.trans_lt hlt)
    calc F.nearest a b ≤ (2 ^ k : ℕ) * 2 ^ F.exponent a b := by
          unfold nearest
          gcongr
      _ = (2 ^ F.fraction : ℕ) * 2 ^ F.exponent a' b' := by
          push_cast
          rw [← zpow_natCast, ← zpow_natCast, ← zpow_add₀ two_ne_zero, ← zpow_add₀ two_ne_zero]
          congr 1
          omega
      _ ≤ F.nearest a' b' := by
          unfold nearest
          gcongr
  · have hmantissa := mantissa_mono hb hb' heq h
    unfold nearest
    rw [heq]
    gcongr

/-- A number of the format is not changed. -/
theorem nearest_eq (hb : 0 < b) (hm : m < 2 ^ (F.fraction + 1)) (he : F.minExponent ≤ e)
    (h : (a : ℚ) / b = m * 2 ^ e) : F.nearest a b = m * 2 ^ e := by
  have hexponent : 0 < m → F.exponent a b ≤ e := by
    intro hpos
    have ha : 0 < a := by
      rcases Nat.eq_zero_or_pos a with rfl | ha
      · have hvalue : (0 : ℚ) < m * 2 ^ e := by positivity
        rw [← h] at hvalue
        simp at hvalue
      · exact ha
    have hlt : (2 : ℚ) ^ leadingExponent a b < 2 ^ (F.fraction + 1 + e) := by
      calc (2 : ℚ) ^ leadingExponent a b ≤ m * 2 ^ e := h ▸ zpow_leadingExponent_le ha hb
        _ < 2 ^ (F.fraction + 1) * 2 ^ e := by
            have hm' : (m : ℚ) < 2 ^ (F.fraction + 1) := by exact_mod_cast hm
            gcongr
        _ = 2 ^ (F.fraction + 1 + e) := by
            rw [zpow_add₀ two_ne_zero]
            norm_cast
    have hleading := (zpow_lt_zpow_iff_right₀ one_lt_two).mp hlt
    exact max_le (by omega) he
  rcases Nat.eq_zero_or_pos m with rfl | hpos
  · have hzero : F.mantissa a b = 0 := Nat.le_zero.mp (mantissa_le hb (by simp [h]))
    simp [nearest, hzero]
  · obtain ⟨k, rfl⟩ := Int.le.dest (hexponent hpos)
    have hgrid : (m : ℚ) * 2 ^ (F.exponent a b + k) = (m * 2 ^ k : ℕ) * 2 ^ F.exponent a b := by
      rw [zpow_add₀ two_ne_zero, zpow_natCast]
      push_cast
      ring
    have hmantissa : F.mantissa a b = m * 2 ^ k :=
      le_antisymm (mantissa_le hb (by rw [h, hgrid])) (le_mantissa hb (by rw [h, hgrid]))
    rw [nearest, hmantissa, hgrid]

/-- The nearest number is at most half a unit of its last digit away. -/
theorem abs_nearest_sub_le (hb : 0 < b) :
    |F.nearest a b - (a : ℚ) / b| ≤ 2 ^ F.exponent a b / 2 := by
  have hhalf := abs_divNearest_sub_le (a := a * 2 ^ (-F.exponent a b).toNat)
    (scaled_pos hb (F.exponent a b))
  rw [scaled] at hhalf
  have hpos : (0 : ℚ) < 2 ^ F.exponent a b := by positivity
  have hfactor : F.nearest a b - (a : ℚ) / b =
      (F.mantissa a b - (a : ℚ) / b / 2 ^ F.exponent a b) * 2 ^ F.exponent a b := by
    rw [sub_mul, div_mul_cancel₀ _ hpos.ne', nearest]
  rw [hfactor, abs_mul, abs_of_pos hpos]
  calc _ ≤ 1 / 2 * 2 ^ F.exponent a b := mul_le_mul_of_nonneg_right hhalf hpos.le
    _ = 2 ^ F.exponent a b / 2 := by ring

end Format

end Binary
