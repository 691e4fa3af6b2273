import Mathlib.Tactic

/-!
# Bytes and text

Text is sent as UTF-8. Bytes that come in are decoded one at a time, and where they are not
UTF-8 the longest part that could have begun a character is replaced by U+FFFD, so decoding
never fails and loses something exactly where the bytes were not UTF-8.
-/

namespace Js

/-- The bytes of one character. -/
def utf8Char (c : Char) : List UInt8 :=
  let n := c.toNat
  if n < 0x80 then [UInt8.ofNat n]
  else if n < 0x800 then [UInt8.ofNat (0xC0 + n / 64), UInt8.ofNat (0x80 + n % 64)]
  else if n < 0x10000 then
    [UInt8.ofNat (0xE0 + n / 4096), UInt8.ofNat (0x80 + n / 64 % 64), UInt8.ofNat (0x80 + n % 64)]
  else
    [UInt8.ofNat (0xF0 + n / 262144), UInt8.ofNat (0x80 + n / 4096 % 64),
      UInt8.ofNat (0x80 + n / 64 % 64), UInt8.ofNat (0x80 + n % 64)]

def encodeUtf8 (cs : List Char) : List UInt8 := cs.flatMap utf8Char

/-- A character that has begun: its bits so far, the number of bytes it still needs, and the
range of the next one. -/
structure Begun where
  bits : ℕ
  needed : ℕ
  lower : ℕ
  upper : ℕ

/-- What a byte beyond ASCII begins. -/
def lead (b : ℕ) : Option Begun :=
  if 0xC2 ≤ b ∧ b ≤ 0xDF then some ⟨b - 0xC0, 1, 0x80, 0xBF⟩
  else if 0xE0 ≤ b ∧ b ≤ 0xEF then
    some ⟨b - 0xE0, 2, if b = 0xE0 then 0xA0 else 0x80, if b = 0xED then 0x9F else 0xBF⟩
  else if 0xF0 ≤ b ∧ b ≤ 0xF4 then
    some ⟨b - 0xF0, 3, if b = 0xF0 then 0x90 else 0x80, if b = 0xF4 then 0x8F else 0xBF⟩
  else none

/-- A byte between characters: the characters it completes, and what it begins. -/
def decodeFirst (b : ℕ) : List Char × Option Begun :=
  if b < 0x80 then ([Char.ofNat b], none)
  else match lead b with
    | none => (['\uFFFD'], none)
    | some s => ([], some s)

/-- A byte that does not continue the character that has begun is read again. -/
def decodeByte : Option Begun → ℕ → List Char × Option Begun
  | none, b => decodeFirst b
  | some s, b =>
    if s.lower ≤ b ∧ b ≤ s.upper then
      if s.needed = 1 then ([Char.ofNat (64 * s.bits + (b - 0x80))], none)
      else ([], some ⟨64 * s.bits + (b - 0x80), s.needed - 1, 0x80, 0xBF⟩)
    else ('\uFFFD' :: (decodeFirst b).1, (decodeFirst b).2)

def decodeFrom : Option Begun → List UInt8 → List Char
  | none, [] => []
  | some _, [] => ['\uFFFD']
  | s, b :: bs => (decodeByte s b.toNat).1 ++ decodeFrom (decodeByte s b.toNat).2 bs

/-- `buffer.toString('utf8')`. -/
def decodeUtf8 (bytes : List UInt8) : List Char := decodeFrom none bytes

theorem decodeFrom_cons (s : Option Begun) (b : UInt8) (bs : List UInt8) : decodeFrom s (b :: bs) =
    (decodeByte s b.toNat).1 ++ decodeFrom (decodeByte s b.toNat).2 bs := by
  cases s <;> rfl

theorem toNat_ofNat_byte {n : ℕ} (h : n < 256) : (UInt8.ofNat n).toNat = n :=
  Nat.mod_eq_of_lt h

/-- A byte that continues a character adds its bits. -/
theorem decodeFrom_continue {s : Begun} {n : ℕ} (hlow : s.lower ≤ 0x80 + n)
    (hhigh : 0x80 + n ≤ s.upper) (hn : n < 64) (hneeded : s.needed ≠ 1) (bs : List UInt8) :
    decodeFrom (some s) (UInt8.ofNat (0x80 + n) :: bs) =
      decodeFrom (some ⟨64 * s.bits + n, s.needed - 1, 0x80, 0xBF⟩) bs := by
  rw [decodeFrom_cons, toNat_ofNat_byte (by omega), decodeByte, if_pos ⟨hlow, hhigh⟩,
    if_neg hneeded, Nat.add_sub_cancel_left, List.nil_append]

theorem decodeFrom_complete {s : Begun} {n : ℕ} (hlow : s.lower ≤ 0x80 + n)
    (hhigh : 0x80 + n ≤ s.upper) (hn : n < 64) (hneeded : s.needed = 1) (bs : List UInt8) :
    decodeFrom (some s) (UInt8.ofNat (0x80 + n) :: bs) =
      Char.ofNat (64 * s.bits + n) :: decodeFrom none bs := by
  rw [decodeFrom_cons, toNat_ofNat_byte (by omega), decodeByte, if_pos ⟨hlow, hhigh⟩,
    if_pos hneeded, Nat.add_sub_cancel_left, List.singleton_append]

theorem decodeFrom_lead {b : ℕ} {s : Begun} (hb : 0x80 ≤ b) (hlt : b < 256)
    (hlead : lead b = some s) (bs : List UInt8) :
    decodeFrom none (UInt8.ofNat b :: bs) = decodeFrom (some s) bs := by
  rw [decodeFrom_cons, toNat_ofNat_byte hlt, decodeByte, decodeFirst, if_neg (by omega), hlead,
    List.nil_append]

theorem decodeFrom_ascii {n : ℕ} (hn : n < 0x80) (bs : List UInt8) :
    decodeFrom none (UInt8.ofNat n :: bs) = Char.ofNat n :: decodeFrom none bs := by
  rw [decodeFrom_cons, toNat_ofNat_byte (by omega), decodeByte, decodeFirst, if_pos hn,
    List.singleton_append]

theorem decodeFrom_two {n : ℕ} (hlow : 0x80 ≤ n) (hhigh : n < 0x800) (bs : List UInt8) :
    decodeFrom none (UInt8.ofNat (0xC0 + n / 64) :: UInt8.ofNat (0x80 + n % 64) :: bs) =
      Char.ofNat n :: decodeFrom none bs := by
  have hlead : lead (0xC0 + n / 64) = some ⟨n / 64, 1, 0x80, 0xBF⟩ := by
    rw [lead, if_pos (by omega), Nat.add_sub_cancel_left]
  have hbits : 64 * (n / 64) + n % 64 = n := by omega
  rw [decodeFrom_lead (by omega) (by omega) hlead,
    decodeFrom_complete (by simp) (by simp; omega) (by omega) rfl, hbits]

/-- The surrogates are what the upper bound after the byte `ED` leaves out. -/
theorem decodeFrom_three {n : ℕ} (hlow : 0x800 ≤ n) (hhigh : n < 0x10000)
    (hvalid : n < 0xD800 ∨ 0xDFFF < n) (bs : List UInt8) :
    decodeFrom none (UInt8.ofNat (0xE0 + n / 4096) :: UInt8.ofNat (0x80 + n / 64 % 64) ::
      UInt8.ofNat (0x80 + n % 64) :: bs) = Char.ofNat n :: decodeFrom none bs := by
  have hlead : lead (0xE0 + n / 4096) = some ⟨n / 4096, 2,
      if 0xE0 + n / 4096 = 0xE0 then 0xA0 else 0x80,
      if 0xE0 + n / 4096 = 0xED then 0x9F else 0xBF⟩ := by
    rw [lead, if_neg (by omega), if_pos (by omega), Nat.add_sub_cancel_left]
  have hbits : 64 * (64 * (n / 4096) + n / 64 % 64) + n % 64 = n := by omega
  rw [decodeFrom_lead (by omega) (by omega) hlead, decodeFrom_continue _ _ (by omega) (by simp),
    decodeFrom_complete (by simp) (by simp; omega) (by omega) rfl, hbits]
  · simp only
    split_ifs <;> omega
  · simp only
    split_ifs <;> omega

theorem decodeFrom_four {n : ℕ} (hlow : 0x10000 ≤ n) (hhigh : n < 0x110000) (bs : List UInt8) :
    decodeFrom none (UInt8.ofNat (0xF0 + n / 262144) :: UInt8.ofNat (0x80 + n / 4096 % 64) ::
      UInt8.ofNat (0x80 + n / 64 % 64) :: UInt8.ofNat (0x80 + n % 64) :: bs) =
      Char.ofNat n :: decodeFrom none bs := by
  have hlead : lead (0xF0 + n / 262144) = some ⟨n / 262144, 3,
      if 0xF0 + n / 262144 = 0xF0 then 0x90 else 0x80,
      if 0xF0 + n / 262144 = 0xF4 then 0x8F else 0xBF⟩ := by
    rw [lead, if_neg (by omega), if_neg (by omega), if_pos (by omega), Nat.add_sub_cancel_left]
  have hbits : 64 * (64 * (64 * (n / 262144) + n / 4096 % 64) + n / 64 % 64) + n % 64 = n := by
    omega
  rw [decodeFrom_lead (by omega) (by omega) hlead, decodeFrom_continue _ _ (by omega) (by simp),
    decodeFrom_continue (by simp) (by simp; omega) (by omega) (by simp),
    decodeFrom_complete (by simp) (by simp; omega) (by omega) rfl, hbits]
  · simp only
    split_ifs <;> omega
  · simp only
    split_ifs <;> omega

/-- The bytes of a character are read as this character. -/
theorem decodeFrom_utf8Char (c : Char) (bs : List UInt8) :
    decodeFrom none (utf8Char c ++ bs) = c :: decodeFrom none bs := by
  have hvalid : c.toNat < 0xD800 ∨ 0xDFFF < c.toNat ∧ c.toNat < 0x110000 := c.valid
  unfold utf8Char
  simp only
  split_ifs with hone htwo hthree
  · rw [List.singleton_append, decodeFrom_ascii hone, Char.ofNat_toNat]
  · have htext := decodeFrom_two (not_lt.mp hone) htwo bs
    rwa [Char.ofNat_toNat] at htext
  · have htext := decodeFrom_three (not_lt.mp htwo) hthree (by omega) bs
    rwa [Char.ofNat_toNat] at htext
  · have htext := decodeFrom_four (not_lt.mp hthree) (by omega) bs
    rwa [Char.ofNat_toNat] at htext

theorem decodeUtf8_encodeUtf8 (cs : List Char) : decodeUtf8 (encodeUtf8 cs) = cs := by
  induction cs with
  | nil => rfl
  | cons c cs ih =>
    rw [encodeUtf8, List.flatMap_cons, decodeUtf8, decodeFrom_utf8Char]
    exact congrArg (c :: ·) ih

/-- The bytes are some text's. -/
def ValidUtf8 (bytes : List UInt8) : Prop := ∃ cs, encodeUtf8 cs = bytes

/-- Decoding keeps exactly the bytes that are some text's. -/
theorem encodeUtf8_decodeUtf8 {bytes : List UInt8} :
    encodeUtf8 (decodeUtf8 bytes) = bytes ↔ ValidUtf8 bytes := by
  constructor
  · exact fun h => ⟨_, h⟩
  · rintro ⟨cs, rfl⟩
    rw [decodeUtf8_encodeUtf8]

theorem decodeFrom_ne_nil : ∀ (s : Begun) (bs : List UInt8), decodeFrom (some s) bs ≠ []
  | _, [] => by simp [decodeFrom]
  | s, b :: bs => by
    rw [decodeFrom_cons, decodeByte]
    split_ifs
    · simp
    · simp only [List.nil_append]
      exact decodeFrom_ne_nil _ bs
    · simp

theorem decodeUtf8_eq_nil {bytes : List UInt8} : decodeUtf8 bytes = [] ↔ bytes = [] := by
  constructor
  · intro h
    cases bytes with
    | nil => rfl
    | cons b bs =>
      rw [decodeUtf8, decodeFrom_cons, decodeByte, decodeFirst] at h
      split_ifs at h with hascii
      · simp at h
      · cases hlead : lead b.toNat with
        | none => simp [hlead] at h
        | some s =>
          rw [hlead] at h
          exact absurd h (decodeFrom_ne_nil s bs)
  · rintro rfl
    rfl

end Js
