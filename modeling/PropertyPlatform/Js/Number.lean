import PropertyPlatform.Js.Text

/-!
# Numbers by the decimal that names them

A finite number is kept as the shortest decimal that denotes it, which is what
`String(x)`, `JSON.stringify(x)` and a bound SQL parameter all print. Distinct
numbers have distinct shortest decimals, and a number is an integer exactly when
its shortest decimal is one.
-/

namespace Js

/-- The number `± digits * 10 ^ exp`, with no trailing zero among its digits. -/
structure Number where
  negative : Bool
  digits : ℕ
  exp : ℤ
  normal : digits % 10 ≠ 0 ∨ (digits = 0 ∧ exp = 0)
  deriving DecidableEq, Repr

namespace Number

def zero : Number := ⟨false, 0, 0, by decide⟩
def one : Number := ⟨false, 1, 0, by decide⟩

/-- The positive integer this number is, if it is one. -/
def toPositive? (x : Number) : Option ℕ :=
  if x.negative ∨ x.digits = 0 ∨ x.exp < 0 then none else some (x.digits * 10 ^ x.exp.toNat)

def zeros (n : ℕ) : List Char := List.replicate n '0'

/-- `Number.prototype.toString` from the digits of the shortest decimal. -/
def magnitudeText (digits : ℕ) (exp : ℤ) : List Char :=
  let s := Nat.toDigits 10 digits
  let k := s.length
  let n := exp + k
  if k ≤ n ∧ n ≤ 21 then s ++ zeros exp.toNat
  else if 0 < n ∧ n ≤ 21 then s.take n.toNat ++ '.' :: s.drop n.toNat
  else if -6 < n ∧ n ≤ 0 then '0' :: '.' :: zeros (-n).toNat ++ s
  else
    let mantissa := if k = 1 then s else s.take 1 ++ '.' :: s.drop 1
    mantissa ++ 'e' :: (if n ≤ 0 then '-' else '+') :: Nat.toDigits 10 (n - 1).natAbs

def toText (x : Number) : List Char :=
  if x.digits = 0 then ['0']
  else (if x.negative then ['-'] else []) ++ magnitudeText x.digits x.exp

end Number

/-- Drops trailing zeros: the remaining digits and how many were dropped. -/
def stripZeros : ℕ → ℕ → ℕ × ℕ
  | 0, n => (n, 0)
  | fuel + 1, n =>
    if n % 10 = 0 ∧ 0 < n then
      let r := stripZeros fuel (n / 10)
      (r.1, r.2 + 1)
    else (n, 0)

/-- `String(n)` for a natural number `n`. -/
def natToString (n : ℕ) : String :=
  let r := stripZeros (Nat.toDigits 10 n).length n
  String.ofList (Number.magnitudeText r.1 r.2)

theorem stripZeros_value (fuel n : ℕ) :
    (stripZeros fuel n).1 * 10 ^ (stripZeros fuel n).2 = n := by
  induction fuel generalizing n with
  | zero => simp [stripZeros]
  | succ fuel ih =>
    by_cases h : n % 10 = 0 ∧ 0 < n
    · simp only [stripZeros, h, and_self, ↓reduceIte, pow_succ, ← mul_assoc, ih]
      omega
    · simp [stripZeros, h]

theorem stripZeros_pos (fuel : ℕ) {n : ℕ} (h : 0 < n) : 0 < (stripZeros fuel n).1 := by
  rcases Nat.eq_zero_or_pos (stripZeros fuel n).1 with hz | hp
  · have hv := stripZeros_value fuel n
    rw [hz, zero_mul] at hv
    omega
  · exact hp

theorem isDigit_of_mem_zeros {n : ℕ} {c : Char} (h : c ∈ Number.zeros n) : c.isDigit = true := by
  rw [List.eq_of_mem_replicate h]
  rfl

theorem toDigits_mul_pow {d : ℕ} (h : 0 < d) (k : ℕ) :
    Nat.toDigits 10 (d * 10 ^ k) = Nat.toDigits 10 d ++ Number.zeros k := by
  induction k with
  | zero => simp [Number.zeros]
  | succ k ih =>
    have hpos : 0 < d * 10 ^ k := by positivity
    have hstep := Nat.toDigits_append_toDigits (b := 10) (n := d * 10 ^ k) (d := 0)
      (by decide) hpos (by decide)
    have hzero : Nat.toDigits 10 0 = ['0'] := Nat.toDigits_zero 10
    rw [ih, hzero] at hstep
    rw [show d * 10 ^ (k + 1) = 10 * (d * 10 ^ k) + 0 by ring, ← hstep, List.append_assoc]
    simp [Number.zeros, List.replicate_succ']

theorem stripZeros_mul_pow {d : ℕ} (h : d % 10 ≠ 0) {k fuel : ℕ} (hk : k ≤ fuel) :
    stripZeros fuel (d * 10 ^ k) = (d, k) := by
  induction k generalizing fuel with
  | zero => cases fuel <;> simp [stripZeros, h]
  | succ k ih =>
    obtain ⟨fuel, rfl⟩ := Nat.exists_eq_add_one.mpr (Nat.lt_of_lt_of_le k.succ_pos hk)
    have hpos : 0 < d * 10 ^ (k + 1) := by
      have hd : 0 < d := by omega
      positivity
    have hdiv : d * 10 ^ (k + 1) / 10 = d * 10 ^ k := by
      rw [pow_succ, ← mul_assoc, Nat.mul_div_cancel _ (by decide)]
    have hmod : d * 10 ^ (k + 1) % 10 = 0 := by
      rw [pow_succ, ← mul_assoc, Nat.mul_mod_left]
    rw [stripZeros, if_pos ⟨hmod, hpos⟩, hdiv, ih (Nat.le_of_succ_le_succ hk)]

theorem toDigits_injective {m n : ℕ} (h : Nat.toDigits 10 m = Nat.toDigits 10 n) : m = n := by
  rw [← Nat.ofDigitChars_ten_toDigits (n := m), h, Nat.ofDigitChars_ten_toDigits]

theorem isDigit_of_mem_toDigits {n : ℕ} {c : Char} (h : c ∈ Nat.toDigits 10 n) : c.isDigit :=
  Nat.isDigit_of_mem_toDigits (by decide) (by decide) h

/-- Below `10 ^ 21` the text is the plain numeral. -/
theorem magnitudeText_plain {d e : ℕ} (hd : 0 < d) (h : (Nat.toDigits 10 d).length + e ≤ 21) :
    Number.magnitudeText d e = Nat.toDigits 10 (d * 10 ^ e) := by
  have hn : ((Nat.toDigits 10 d).length : ℤ) ≤ (e : ℤ) + (Nat.toDigits 10 d).length ∧
      (e : ℤ) + (Nat.toDigits 10 d).length ≤ 21 := by omega
  rw [toDigits_mul_pow hd, Number.magnitudeText, if_pos hn, Int.toNat_natCast]

def mantissa (s : List Char) : List Char :=
  if s.length = 1 then s else s.take 1 ++ '.' :: s.drop 1

/-- From `10 ^ 21` on the text has an exponent. -/
theorem magnitudeText_exponent {d e : ℕ} (h : 21 < (Nat.toDigits 10 d).length + e) :
    Number.magnitudeText d e = mantissa (Nat.toDigits 10 d) ++
      'e' :: '+' :: Nat.toDigits 10 ((Nat.toDigits 10 d).length + e - 1) := by
  have h1 : ¬ (((Nat.toDigits 10 d).length : ℤ) ≤ (e : ℤ) + (Nat.toDigits 10 d).length ∧
      (e : ℤ) + (Nat.toDigits 10 d).length ≤ 21) := by omega
  have h2 : ¬ (0 < (e : ℤ) + (Nat.toDigits 10 d).length ∧
      (e : ℤ) + (Nat.toDigits 10 d).length ≤ 21) := by omega
  have h3 : ¬ (-6 < (e : ℤ) + (Nat.toDigits 10 d).length ∧
      (e : ℤ) + (Nat.toDigits 10 d).length ≤ 0) := by omega
  have h4 : ¬ ((e : ℤ) + (Nat.toDigits 10 d).length ≤ 0) := by omega
  have h5 : ((e : ℤ) + (Nat.toDigits 10 d).length - 1).natAbs =
      (Nat.toDigits 10 d).length + e - 1 := by omega
  rw [Number.magnitudeText, if_neg h1, if_neg h2, if_neg h3, if_neg h4, h5]
  rfl

theorem mantissa_chars {s : List Char} (hs : ∀ c ∈ s, c.isDigit) :
    ∀ c ∈ mantissa s, c.isDigit ∨ c = '.' := by
  intro c hc
  unfold mantissa at hc
  split_ifs at hc with h1
  · exact Or.inl (hs c hc)
  · rcases List.mem_append.mp hc with hc | hc
    · exact Or.inl (hs c (List.mem_of_mem_take hc))
    · rcases List.mem_cons.mp hc with rfl | hc
      · exact Or.inr rfl
      · exact Or.inl (hs c (List.mem_of_mem_drop hc))

/-- The digits are what is left of the mantissa without its point. -/
theorem filter_mantissa {s : List Char} (hs : ∀ c ∈ s, c.isDigit) :
    (mantissa s).filter Char.isDigit = s := by
  have hself : s.filter Char.isDigit = s := List.filter_eq_self.mpr hs
  unfold mantissa
  split_ifs with h1
  · exact hself
  · have hpoint : Char.isDigit '.' = false := by decide
    rw [List.filter_append, List.filter_cons, hpoint]
    simp only [Bool.false_eq_true, ↓reduceIte, ← List.filter_append, List.take_append_drop, hself]

theorem not_mem_e_mantissa {s : List Char} (hs : ∀ c ∈ s, c.isDigit) : 'e' ∉ mantissa s := by
  intro h
  rcases mantissa_chars hs 'e' h with h | h
  · exact absurd h (by decide)
  · exact absurd h (by decide)

theorem natToString_cases {n : ℕ} (h : 0 < n) :
    (natToString n).toList = Nat.toDigits 10 n ∨
      ∃ d e, n = d * 10 ^ e ∧ 0 < (Nat.toDigits 10 d).length + e ∧ (natToString n).toList =
        mantissa (Nat.toDigits 10 d) ++
          'e' :: '+' :: Nat.toDigits 10 ((Nat.toDigits 10 d).length + e - 1) := by
  have hv := stripZeros_value (Nat.toDigits 10 n).length n
  have hp := stripZeros_pos (Nat.toDigits 10 n).length h
  have ht : (natToString n).toList = Number.magnitudeText
      (stripZeros (Nat.toDigits 10 n).length n).1 (stripZeros (Nat.toDigits 10 n).length n).2 :=
    String.toList_ofList
  generalize stripZeros (Nat.toDigits 10 n).length n = r at hv hp ht
  by_cases hk : (Nat.toDigits 10 r.1).length + r.2 ≤ 21
  · left
    rw [ht, magnitudeText_plain hp hk, hv]
  · right
    exact ⟨r.1, r.2, hv.symm, by omega, by rw [ht, magnitudeText_exponent (by omega)]⟩

/-- Distinct positive integers are printed differently. -/
theorem natToString_injective {m n : ℕ} (hm : 0 < m) (hn : 0 < n)
    (h : natToString m = natToString n) : m = n := by
  have hl : (natToString m).toList = (natToString n).toList := congrArg String.toList h
  have hdigits : ∀ k, ∀ c ∈ Nat.toDigits 10 k, c.isDigit := fun _ _ => isDigit_of_mem_toDigits
  have hplain : ∀ k, 'e' ∉ Nat.toDigits 10 k := fun k hk => absurd (hdigits k _ hk) (by decide)
  rcases natToString_cases hm with h1 | ⟨d, e, hd, hpos, h1⟩ <;>
    rcases natToString_cases hn with h2 | ⟨d', e', hd', hpos', h2⟩ <;> rw [h1, h2] at hl
  · exact toDigits_injective hl
  · exact absurd (by simp [hl]) (hplain m)
  · exact absurd (by simp [← hl]) (hplain n)
  · obtain ⟨hmant, hrest⟩ := append_separator_inj (not_mem_e_mantissa (hdigits d))
      (not_mem_e_mantissa (hdigits d')) hl
    have hdd : d = d' := toDigits_injective (by
      rw [← filter_mantissa (hdigits d), hmant, filter_mantissa (hdigits d')])
    subst d'
    have hexp := toDigits_injective (List.cons.inj hrest).2
    have hee : e = e' := by omega
    rw [hd, hd', hee]

theorem natToString_chars {n : ℕ} (h : 0 < n) :
    ∀ c ∈ (natToString n).toList, c.isDigit ∨ c ∈ ['.', 'e', '+'] := by
  intro c hc
  rcases natToString_cases h with h1 | ⟨d, e, -, -, h1⟩ <;> rw [h1] at hc
  · exact Or.inl (isDigit_of_mem_toDigits hc)
  · rcases List.mem_append.mp hc with hc | hc
    · rcases mantissa_chars (fun _ => isDigit_of_mem_toDigits) c hc with hc | rfl
      · exact Or.inl hc
      · exact Or.inr (by decide)
    · rcases List.mem_cons.mp hc with rfl | hc
      · exact Or.inr (by decide)
      · rcases List.mem_cons.mp hc with rfl | hc
        · exact Or.inr (by decide)
        · exact Or.inl (isDigit_of_mem_toDigits hc)

end Js
