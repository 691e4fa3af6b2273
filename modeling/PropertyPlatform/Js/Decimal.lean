import PropertyPlatform.Js.Number

/-!
# Reading a printed number back

The text of a number is a mantissa with an optional point and an optional exponent.
Reading it gives the digits back up to trailing zeros, so the text of a number other
than zero determines the number.
-/

namespace Js

/-- The digits of a mantissa, without its point. -/
def numeral (s : List Char) : ℕ := Nat.ofDigitChars 10 (s.filter Char.isDigit) 0

/-- How many characters follow the point. -/
def fractionLength (s : List Char) : ℕ := (s.dropWhile fun c => c != '.').length - 1

/-- The exponent, a sign and digits. -/
def exponentOf : List Char → ℤ
  | [] => 0
  | sign :: digits =>
    if sign = '-' then -(Nat.ofDigitChars 10 digits 0 : ℤ) else Nat.ofDigitChars 10 digits 0

/-- Digits and exponent of a printed number without its sign. -/
def readDecimal (s : List Char) : ℕ × ℤ :=
  let mantissa := s.takeWhile fun c => c != 'e'
  (numeral mantissa, exponentOf ((s.dropWhile fun c => c != 'e').drop 1) - fractionLength mantissa)

section Reading

variable {s t : List Char}

theorem takeWhile_append_of_not_mem {a : Char} (hs : a ∉ s) (t : List Char) :
    (s ++ a :: t).takeWhile (fun c => c != a) = s := by
  induction s with
  | nil => simp
  | cons c s ih =>
    have hc : c ≠ a := fun h => hs (by simp [h])
    rw [List.cons_append, List.takeWhile_cons_of_pos (by simpa using hc),
      ih fun h => hs (List.mem_cons_of_mem _ h)]

theorem dropWhile_append_of_not_mem {a : Char} (hs : a ∉ s) (t : List Char) :
    (s ++ a :: t).dropWhile (fun c => c != a) = a :: t := by
  induction s with
  | nil => simp
  | cons c s ih =>
    have hc : c ≠ a := fun h => hs (by simp [h])
    rw [List.cons_append, List.dropWhile_cons_of_pos (by simpa using hc),
      ih fun h => hs (List.mem_cons_of_mem _ h)]

theorem dropWhile_of_not_mem {a : Char} (hs : a ∉ s) : s.dropWhile (fun c => c != a) = [] := by
  rw [List.dropWhile_eq_nil_iff]
  intro c hc
  have hne : c ≠ a := fun h => hs (h ▸ hc)
  simpa using hne

theorem takeWhile_of_not_mem {a : Char} (hs : a ∉ s) : s.takeWhile (fun c => c != a) = s := by
  rw [List.takeWhile_eq_self_iff]
  intro c hc
  have hne : c ≠ a := fun h => hs (h ▸ hc)
  simpa using hne

theorem readDecimal_mantissa (hs : 'e' ∉ s) :
    readDecimal s = (numeral s, -(fractionLength s : ℤ)) := by
  simp only [readDecimal, takeWhile_of_not_mem hs, dropWhile_of_not_mem hs, List.drop_nil,
    exponentOf, zero_sub]

theorem readDecimal_exponent (hs : 'e' ∉ s) :
    readDecimal (s ++ 'e' :: t) = (numeral s, exponentOf t - fractionLength s) := by
  simp only [readDecimal, takeWhile_append_of_not_mem hs, dropWhile_append_of_not_mem hs,
    List.drop_one, List.tail_cons]

theorem not_mem_of_isDigit {a : Char} (hs : ∀ c ∈ s, c.isDigit) (ha : a.isDigit = false) :
    a ∉ s := by
  intro h
  rw [hs a h] at ha
  cases ha

theorem numeral_digits (hs : ∀ c ∈ s, c.isDigit) : numeral s = Nat.ofDigitChars 10 s 0 := by
  rw [numeral, List.filter_eq_self.mpr hs]

theorem fractionLength_digits (hs : ∀ c ∈ s, c.isDigit) : fractionLength s = 0 := by
  rw [fractionLength, dropWhile_of_not_mem (not_mem_of_isDigit hs (by decide)), List.length_nil]

/-- The point is skipped. -/
theorem numeral_point (hs : ∀ c ∈ s, c.isDigit) (ht : ∀ c ∈ t, c.isDigit) :
    numeral (s ++ '.' :: t) = Nat.ofDigitChars 10 (s ++ t) 0 := by
  have hpoint : Char.isDigit '.' = false := by decide
  rw [numeral, List.filter_append, List.filter_cons, hpoint, List.filter_eq_self.mpr hs,
    if_neg Bool.false_ne_true, List.filter_eq_self.mpr ht]

theorem fractionLength_point (hs : ∀ c ∈ s, c.isDigit) :
    fractionLength (s ++ '.' :: t) = t.length := by
  rw [fractionLength, dropWhile_append_of_not_mem (not_mem_of_isDigit hs (by decide)),
    List.length_cons, Nat.add_sub_cancel]

end Reading

section Printing

variable {d d' : ℕ} {e e' : ℤ}

theorem fractionLength_mantissa {s : List Char} (hs : ∀ c ∈ s, c.isDigit) :
    fractionLength (mantissa s) = s.length - 1 := by
  unfold mantissa
  split_ifs with h1
  · rw [fractionLength_digits hs, h1]
  · rw [fractionLength_point fun c hc => hs c (List.mem_of_mem_take hc), List.length_drop]

/-- A number whose digits all stand before the point. -/
theorem readDecimal_whole (d m : ℕ) :
    readDecimal (Nat.toDigits 10 d ++ Number.zeros m) = (d * 10 ^ m, 0) := by
  have hdigits : ∀ c ∈ Nat.toDigits 10 d ++ Number.zeros m, c.isDigit := by
    intro c hc
    rcases List.mem_append.mp hc with hc | hc
    · exact isDigit_of_mem_toDigits hc
    · exact isDigit_of_mem_zeros hc
  have hvalue : Nat.ofDigitChars 10 (Nat.toDigits 10 d ++ Number.zeros m) 0 = d * 10 ^ m := by
    rw [Nat.ofDigitChars_append, Nat.ofDigitChars_ten_toDigits, Number.zeros,
      Nat.ofDigitChars_replicate_zero, mul_comm]
  rw [readDecimal_mantissa (not_mem_of_isDigit hdigits (by decide)), numeral_digits hdigits,
    fractionLength_digits hdigits, hvalue]
  rfl

/-- A number whose point stands among its digits. -/
theorem readDecimal_among {n : ℕ} (hn : n ≤ (Nat.toDigits 10 d).length) :
    readDecimal ((Nat.toDigits 10 d).take n ++ '.' :: (Nat.toDigits 10 d).drop n) =
      (d, (n : ℤ) - (Nat.toDigits 10 d).length) := by
  have hdigits : ∀ c ∈ Nat.toDigits 10 d, c.isDigit := fun _ => isDigit_of_mem_toDigits
  have htake : ∀ c ∈ (Nat.toDigits 10 d).take n, c.isDigit :=
    fun c hc => hdigits c (List.mem_of_mem_take hc)
  have hdrop : ∀ c ∈ (Nat.toDigits 10 d).drop n, c.isDigit :=
    fun c hc => hdigits c (List.mem_of_mem_drop hc)
  have hexp : 'e' ∉ (Nat.toDigits 10 d).take n ++ '.' :: (Nat.toDigits 10 d).drop n := by
    intro h
    rcases List.mem_append.mp h with h | h
    · exact not_mem_of_isDigit htake (by decide) h
    · exact not_mem_of_isDigit hdrop (by decide) ((List.mem_cons.mp h).resolve_left (by decide))
  rw [readDecimal_mantissa hexp, numeral_point htake hdrop, fractionLength_point htake,
    List.take_append_drop, Nat.ofDigitChars_ten_toDigits, List.length_drop]
  congr 1
  omega

/-- A number below one without an exponent. -/
theorem readDecimal_below (d m : ℕ) :
    readDecimal ('0' :: '.' :: Number.zeros m ++ Nat.toDigits 10 d) =
      (d, -((m + (Nat.toDigits 10 d).length : ℕ) : ℤ)) := by
  have hzero : ∀ c ∈ ['0'], c.isDigit := by
    intro c hc
    rw [List.mem_singleton.mp hc]
    decide
  have hrest : ∀ c ∈ Number.zeros m ++ Nat.toDigits 10 d, c.isDigit := by
    intro c hc
    rcases List.mem_append.mp hc with hc | hc
    · exact isDigit_of_mem_zeros hc
    · exact isDigit_of_mem_toDigits hc
  have hshape : '0' :: '.' :: Number.zeros m ++ Nat.toDigits 10 d =
      ['0'] ++ '.' :: (Number.zeros m ++ Nat.toDigits 10 d) := rfl
  have hexp : 'e' ∉ ['0'] ++ '.' :: (Number.zeros m ++ Nat.toDigits 10 d) := by
    intro h
    rcases List.mem_append.mp h with h | h
    · exact not_mem_of_isDigit hzero (by decide) h
    · exact not_mem_of_isDigit hrest (by decide) ((List.mem_cons.mp h).resolve_left (by decide))
  have hvalue : Nat.ofDigitChars 10 (['0'] ++ (Number.zeros m ++ Nat.toDigits 10 d)) 0 = d := by
    have hzeros : Nat.ofDigitChars 10 (['0'] ++ Number.zeros m) 0 = 0 := by
      rw [Nat.ofDigitChars_append, Number.zeros, Nat.ofDigitChars_replicate_zero]
      rfl
    rw [← List.append_assoc, Nat.ofDigitChars_append, hzeros, Nat.ofDigitChars_ten_toDigits]
  rw [hshape, readDecimal_mantissa hexp, numeral_point hzero hrest, fractionLength_point hzero,
    hvalue, List.length_append, Number.zeros, List.length_replicate]

/-- A number in scientific notation. -/
theorem readDecimal_scientific (d : ℕ) (n : ℤ) :
    readDecimal (mantissa (Nat.toDigits 10 d) ++
      'e' :: (if n ≤ 0 then '-' else '+') :: Nat.toDigits 10 (n - 1).natAbs) =
        (d, n - (Nat.toDigits 10 d).length) := by
  have hdigits : ∀ c ∈ Nat.toDigits 10 d, c.isDigit := fun _ => isDigit_of_mem_toDigits
  have hpos : 0 < (Nat.toDigits 10 d).length := Nat.length_toDigits_pos
  have hexponent : exponentOf ((if n ≤ 0 then '-' else '+') :: Nat.toDigits 10 (n - 1).natAbs) =
      n - 1 := by
    by_cases hn : n ≤ 0
    · rw [if_pos hn, exponentOf, if_pos rfl, Nat.ofDigitChars_ten_toDigits]
      omega
    · have hplus : ('+' : Char) ≠ '-' := by decide
      rw [if_neg hn, exponentOf, if_neg hplus, Nat.ofDigitChars_ten_toDigits]
      omega
  rw [readDecimal_exponent (not_mem_e_mantissa hdigits), numeral, filter_mantissa hdigits,
    Nat.ofDigitChars_ten_toDigits, fractionLength_mantissa hdigits, hexponent]
  congr 1
  omega

/-- The shapes a printed number has: its digits before the point, around it, behind it, or
in scientific notation. -/
inductive Printed (d : ℕ) : ℤ → List Char → Prop
  | whole (m : ℕ) : Printed d m (Nat.toDigits 10 d ++ Number.zeros m)
  | among (n : ℕ) (hn : 0 < n ∧ n ≤ (Nat.toDigits 10 d).length) :
      Printed d (n - (Nat.toDigits 10 d).length)
        ((Nat.toDigits 10 d).take n ++ '.' :: (Nat.toDigits 10 d).drop n)
  | below (m : ℕ) : Printed d (-((m + (Nat.toDigits 10 d).length : ℕ) : ℤ))
      ('0' :: '.' :: Number.zeros m ++ Nat.toDigits 10 d)
  | scientific (n : ℤ) : Printed d (n - (Nat.toDigits 10 d).length) (mantissa (Nat.toDigits 10 d) ++
      'e' :: (if n ≤ 0 then '-' else '+') :: Nat.toDigits 10 (n - 1).natAbs)

theorem printed_magnitudeText (d : ℕ) (e : ℤ) : Printed d e (Number.magnitudeText d e) := by
  set k := (Nat.toDigits 10 d).length with hk
  by_cases h1 : (k : ℤ) ≤ e + k ∧ e + k ≤ 21
  · have hprinted := Printed.whole (d := d) e.toNat
    rw [Int.toNat_of_nonneg (by omega)] at hprinted
    rwa [Number.magnitudeText, if_pos h1]
  by_cases h2 : 0 < e + k ∧ e + k ≤ 21
  · have hprinted := Printed.among (d := d) (e + k).toNat (by omega)
    rw [Int.toNat_of_nonneg (by omega), add_sub_cancel_right] at hprinted
    rwa [Number.magnitudeText, if_neg h1, if_pos h2]
  by_cases h3 : -6 < e + k ∧ e + k ≤ 0
  · have hprinted := Printed.below (d := d) (-(e + k)).toNat
    rw [Nat.cast_add, Int.toNat_of_nonneg (by omega), neg_add, neg_neg, ← hk,
      add_neg_cancel_right] at hprinted
    rwa [Number.magnitudeText, if_neg h1, if_neg h2, if_pos h3]
  · have hprinted := Printed.scientific (d := d) (e + k)
    rw [← hk, add_sub_cancel_right] at hprinted
    rwa [Number.magnitudeText, if_neg h1, if_neg h2, if_neg h3]

/-- What is printed is read back, up to zeros moved between digits and exponent. -/
theorem Printed.read {s : List Char} (h : Printed d e s) :
    ∃ m : ℕ, readDecimal s = (d * 10 ^ m, e - m) := by
  cases h with
  | whole m => exact ⟨m, by rw [readDecimal_whole, sub_self]⟩
  | among n hn =>
    exact ⟨0, by rw [readDecimal_among hn.2, pow_zero, mul_one, Nat.cast_zero, sub_zero]⟩
  | below m => exact ⟨0, by rw [readDecimal_below, pow_zero, mul_one, Nat.cast_zero, sub_zero]⟩
  | scientific n =>
    exact ⟨0, by rw [readDecimal_scientific, pow_zero, mul_one, Nat.cast_zero, sub_zero]⟩

/-- Digits without a trailing zero are determined by their value. -/
theorem mul_pow_ten_inj {m m' : ℕ} (hd : d % 10 ≠ 0) (hd' : d' % 10 ≠ 0)
    (h : d * 10 ^ m = d' * 10 ^ m') : d = d' ∧ m = m' := by
  induction m generalizing m' with
  | zero =>
    cases m' with
    | zero => exact ⟨by simpa using h, rfl⟩
    | succ m' =>
      rw [pow_zero, mul_one, pow_succ, ← mul_assoc] at h
      omega
  | succ m ih =>
    cases m' with
    | zero =>
      rw [pow_zero, mul_one, pow_succ, ← mul_assoc] at h
      omega
    | succ m' =>
      rw [pow_succ, pow_succ, ← mul_assoc, ← mul_assoc] at h
      obtain ⟨hdigits, hm⟩ := ih (Nat.eq_of_mul_eq_mul_right (by decide) h)
      exact ⟨hdigits, congrArg Nat.succ hm⟩

theorem Printed.injective {s : List Char} (h : Printed d e s) (h' : Printed d' e' s)
    (hd : d % 10 ≠ 0) (hd' : d' % 10 ≠ 0) : d = d' ∧ e = e' := by
  obtain ⟨m, hread⟩ := h.read
  obtain ⟨m', hread'⟩ := h'.read
  rw [hread', Prod.mk.injEq] at hread
  obtain ⟨hdigits, rfl⟩ := mul_pow_ten_inj hd' hd hread.1
  exact ⟨hdigits.symm, by omega⟩

/-- Its first character is a digit. -/
theorem Printed.head {s : List Char} (h : Printed d e s) :
    ∃ c rest, s = c :: rest ∧ c.isDigit = true := by
  obtain ⟨c, l, hl⟩ := List.exists_cons_of_ne_nil (Nat.toDigits_ne_nil (n := d) (b := 10))
  have hc : c.isDigit = true := isDigit_of_mem_toDigits (hl ▸ List.mem_cons_self)
  cases h with
  | whole m => exact ⟨c, _, by rw [hl, List.cons_append], hc⟩
  | among n hn =>
    obtain ⟨n, rfl⟩ := Nat.exists_eq_succ_of_ne_zero hn.1.ne'
    exact ⟨c, _, by rw [hl, List.take_succ_cons, List.cons_append], hc⟩
  | below m => exact ⟨'0', _, rfl, by decide⟩
  | scientific n =>
    rw [hl, mantissa]
    by_cases h1 : (c :: l).length = 1
    · rw [if_pos h1]
      exact ⟨c, _, rfl, hc⟩
    · rw [if_neg h1]
      exact ⟨c, _, rfl, hc⟩

theorem Printed.chars {s : List Char} (h : Printed d e s) :
    ∀ c ∈ s, c.isDigit ∨ c ∈ ['.', 'e', '+', '-'] := by
  have hdigits : ∀ c ∈ Nat.toDigits 10 d, c.isDigit := fun _ => isDigit_of_mem_toDigits
  intro c hc
  cases h with
  | whole m =>
    rcases List.mem_append.mp hc with hc | hc
    · exact Or.inl (hdigits c hc)
    · exact Or.inl (isDigit_of_mem_zeros hc)
  | among n hn =>
    rcases List.mem_append.mp hc with hc | hc
    · exact Or.inl (hdigits c (List.mem_of_mem_take hc))
    · rcases List.mem_cons.mp hc with rfl | hc
      · exact Or.inr (by decide)
      · exact Or.inl (hdigits c (List.mem_of_mem_drop hc))
  | below m =>
    rcases List.mem_append.mp hc with hc | hc
    · rcases List.mem_cons.mp hc with rfl | hc
      · exact Or.inl (by decide)
      · rcases List.mem_cons.mp hc with rfl | hc
        · exact Or.inr (by decide)
        · exact Or.inl (isDigit_of_mem_zeros hc)
    · exact Or.inl (hdigits c hc)
  | scientific n =>
    rcases List.mem_append.mp hc with hc | hc
    · rcases mantissa_chars hdigits c hc with hc | rfl
      · exact Or.inl hc
      · exact Or.inr (by decide)
    · rcases List.mem_cons.mp hc with rfl | hc
      · exact Or.inr (by decide)
      · rcases List.mem_cons.mp hc with rfl | hc
        · right
          split_ifs <;> decide
        · exact Or.inl (isDigit_of_mem_toDigits hc)

namespace Number

variable {x y : Number}

theorem printed_text (x : Number) : Printed x.digits x.exp (magnitudeText x.digits x.exp) :=
  printed_magnitudeText x.digits x.exp

theorem normal_of_ne_zero (hx : x.digits ≠ 0) : x.digits % 10 ≠ 0 :=
  x.normal.resolve_right fun h => hx h.1

/-- Numbers other than zero are printed differently. -/
theorem toText_injective (hx : x.digits ≠ 0) (hy : y.digits ≠ 0) (h : x.toText = y.toText) :
    x = y := by
  obtain ⟨c, s, hs, hc⟩ := (printed_text x).head
  obtain ⟨c', s', hs', hc'⟩ := (printed_text y).head
  have hsign : ¬ ('-' : Char).isDigit = true := by decide
  have hneg : x.negative = y.negative := by
    rw [toText, toText, if_neg hx, if_neg hy, hs, hs'] at h
    cases hxneg : x.negative <;> cases hyneg : y.negative
    · rfl
    · rw [hxneg, hyneg] at h
      exact absurd ((List.cons.inj h).1 ▸ hc) hsign
    · rw [hxneg, hyneg] at h
      exact absurd ((List.cons.inj h).1.symm ▸ hc') hsign
    · rfl
  rw [toText, toText, if_neg hx, if_neg hy, hneg] at h
  have hprinted := printed_text x
  rw [List.append_cancel_left h] at hprinted
  obtain ⟨hdigits, hexp⟩ := hprinted.injective (printed_text y) (normal_of_ne_zero hx)
    (normal_of_ne_zero hy)
  cases x
  cases y
  simp_all only

/-- The characters of a printed number. -/
theorem toText_chars (x : Number) :
    ∀ c ∈ x.toText, c.isDigit ∨ c ∈ ['.', 'e', '+', '-'] := by
  intro c hc
  unfold toText at hc
  split_ifs at hc with hx hneg
  · rw [List.mem_singleton.mp hc]
    exact Or.inl (by decide)
  · rcases List.mem_append.mp hc with hc | hc
    · rw [List.mem_singleton.mp hc]
      exact Or.inr (by decide)
    · exact (printed_text x).chars c hc
  · exact (printed_text x).chars c hc

end Number

end Printing

end Js
