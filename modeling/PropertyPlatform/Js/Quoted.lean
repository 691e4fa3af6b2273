import PropertyPlatform.Js.Value
import PropertyPlatform.JsonText.Grammar

/-!
# How `JSON.stringify` quotes strings

A scan finds the end of every quoted string. A reader of Unicode text takes the string exactly if
it is well formed, since the escape of an unpaired surrogate denotes no character, and it stores
as many bytes as the text has.
-/

namespace Js

open JsonText

variable {n : ℕ} {c : Char} {t : List Char}

theorem hexDigit_mem {n : ℕ} (h : n < 16) : hexDigit n ∈ hexDigits := by
  have hall : ∀ n < 16, hexDigit n ∈ hexDigits := by decide
  exact hall n h

theorem utf8Size_ascii (h : c.toNat < 0x80) : c.utf8Size = 1 := by
  have hle : c.val ≤ 0x7F := UInt32.le_iff_toNat_le.mpr (Nat.le_of_lt_succ h)
  simp [Char.utf8Size, hle]

theorem unitSize_control {n : ℕ} (h : n < 0x20) :
    unitSize (codeUnit '0' '0' (hexDigit (n / 16)) (hexDigit (n % 16))) = 1 := by
  have hall : ∀ n < 0x20,
      unitSize (codeUnit '0' '0' (hexDigit (n / 16)) (hexDigit (n % 16))) = 1 := by decide
  exact hall n h

/-- An escaped character is a letter after a backslash, four digits, or the character itself. -/
theorem escape_cases (c : Char) :
    (∃ d ∈ ['"', '\\', '/', 'b', 'f', 'n', 'r', 't'],
      Value.escape c = ['\\', d] ∧ c.toNat < 0x80) ∨
    (Value.escape c = ['\\', 'u', '0', '0', hexDigit (c.toNat / 16), hexDigit (c.toNat % 16)] ∧
      c.toNat < 0x20) ∨
    (Value.escape c = [c] ∧ 0x20 ≤ c.toNat ∧ c ≠ '"' ∧ c ≠ '\\') := by
  unfold Value.escape
  split_ifs with hquote hslash hb ht hn hf hr hcontrol
  · exact .inl ⟨'"', by simp, rfl, by rw [hquote]; decide⟩
  · exact .inl ⟨'\\', by simp, rfl, by rw [hslash]; decide⟩
  · exact .inl ⟨'b', by simp, rfl, by omega⟩
  · exact .inl ⟨'t', by simp, rfl, by omega⟩
  · exact .inl ⟨'n', by simp, rfl, by omega⟩
  · exact .inl ⟨'f', by simp, rfl, by omega⟩
  · exact .inl ⟨'r', by simp, rfl, by omega⟩
  · exact .inr (.inl ⟨rfl, hcontrol⟩)
  · exact .inr (.inr ⟨rfl, by omega, hquote, hslash⟩)

theorem hex_of_control (h : c.toNat < 0x20) :
    ∀ x ∈ ['0', '0', hexDigit (c.toNat / 16), hexDigit (c.toNat % 16)], x ∈ hexDigits := by
  have hhigh := hexDigit_mem (n := c.toNat / 16) (by omega)
  have hlow := hexDigit_mem (n := c.toNat % 16) (by omega)
  simp only [List.mem_cons, List.not_mem_nil, or_false]
  rintro x (rfl | rfl | rfl | rfl)
  · decide
  · decide
  · exact hhigh
  · exact hlow

theorem chars_escape (ht : Chars n t) : Chars (c.utf8Size + n) (Value.escape c ++ t) := by
  rcases escape_cases c with ⟨d, hd, heq, hascii⟩ | ⟨heq, hcontrol⟩ | ⟨heq, hplain, hquote, hslash⟩
  · rw [heq, utf8Size_ascii hascii]
    exact .escape hd ht
  · rw [heq, utf8Size_ascii (by omega), ← unitSize_control hcontrol]
    exact .unicode (hex_of_control hcontrol) (by simp [HighSurrogate]) (by simp [LowSurrogate]) ht
  · rw [heq]
    exact .plain hplain hquote hslash ht

/-- The text of a character can be read in one way only. -/
theorem chars_of_escape (h : Chars n (Value.escape c ++ t)) :
    ∃ m, Chars m t ∧ n = c.utf8Size + m := by
  rcases escape_cases c with ⟨d, hd, heq, hascii⟩ | ⟨heq, hcontrol⟩ | ⟨heq, hplain, hquote, hslash⟩
  · rw [heq] at h
    rw [utf8Size_ascii hascii]
    apply h.tail_of_escape
    rintro rfl
    exact absurd hd (by decide)
  · rw [heq] at h
    rw [utf8Size_ascii (by omega), ← unitSize_control hcontrol]
    exact (h.tail_of_unicode (by simp [HighSurrogate])).2
  · rw [heq] at h
    exact h.tail_of_plain hslash

theorem chars_flatMap_escape {cs : List Char} :
    Chars n (cs.flatMap Value.escape) ↔ n = String.utf8Len cs := by
  induction cs generalizing n with
  | nil =>
    constructor
    · intro h
      cases h
      rfl
    · rintro rfl
      exact .nil
  | cons c cs ih =>
    rw [List.flatMap_cons, String.utf8Len_cons]
    constructor
    · intro h
      obtain ⟨m, hm, rfl⟩ := chars_of_escape h
      rw [ih.mp hm, Nat.add_comm]
    · rintro rfl
      rw [Nat.add_comm]
      exact chars_escape (ih.mpr rfl)

theorem highSurrogate_hexDigit (k : Fin 1024) : HighSurrogate 'd' (hexDigit (8 + k / 256)) := by
  have hall : ∀ i < 4, hexDigit (8 + i) ∈ ['8', '9', 'a', 'b', 'A', 'B'] := by decide
  exact ⟨by simp, hall _ (by omega)⟩

theorem lowSurrogate_hexDigit (k : Fin 1024) : LowSurrogate 'd' (hexDigit (12 + k / 256)) := by
  have hall : ∀ i < 4, hexDigit (12 + i) ∈ ['c', 'd', 'e', 'f', 'C', 'D', 'E', 'F'] := by decide
  exact ⟨by simp, hall _ (by omega)⟩

theorem not_both_surrogates {a b : Char} (hhigh : HighSurrogate a b) : ¬ LowSurrogate a b := by
  have hall : ∀ b ∈ ['8', '9', 'a', 'b', 'A', 'B'],
      b ∉ ['c', 'd', 'e', 'f', 'C', 'D', 'E', 'F'] := by simp
  exact fun hlow => hall b hhigh.2 hlow.2

theorem escape_append_ne {a b : Char} {rest : List Char} (h : LowSurrogate a b) :
    Value.escape c ++ t ≠ '\\' :: 'u' :: a :: b :: rest := by
  intro htext
  rcases escape_cases c with ⟨d, hd, heq, -⟩ | ⟨heq, -⟩ | ⟨heq, -, -, hslash⟩
  · rw [heq] at htext
    rw [(List.cons.inj (List.cons.inj htext).2).1] at hd
    exact absurd hd (by decide)
  · have hzero := h.1
    rw [heq] at htext
    rw [← (List.cons.inj (List.cons.inj (List.cons.inj htext).2).2).1] at hzero
    exact absurd hzero (by decide)
  · rw [heq] at htext
    exact hslash (List.cons.inj htext).1

/-- An unpaired surrogate is not followed by what would make a pair of it. -/
theorem not_any_isSurrogate {ps : List CodePoint}
    (hseparate : ps.IsChain fun p q => p.isHigh = true → q.isLow = false)
    (h : Chars n (ps.flatMap Value.escapePoint)) : ps.any CodePoint.isSurrogate = false := by
  induction ps generalizing n with
  | nil => rfl
  | cons p ps ih =>
    rw [List.flatMap_cons] at h
    cases p with
    | char c =>
      obtain ⟨m, hm, -⟩ := chars_of_escape h
      exact ih hseparate.tail hm
    | low k =>
      have hnot : ¬ HighSurrogate 'd' (hexDigit (12 + k / 256)) := fun hhigh =>
        not_both_surrogates hhigh (lowSurrogate_hexDigit k)
      exact absurd (lowSurrogate_hexDigit k) (h.tail_of_unicode hnot).1
    | high k =>
      obtain ⟨a, b, rest, hlow, heq⟩ := h.low_of_high (highSurrogate_hexDigit k)
      cases ps with
      | nil => cases heq
      | cons q ps =>
        have hnext : Value.escapePoint q ++ ps.flatMap Value.escapePoint =
            '\\' :: 'u' :: a :: b :: rest := heq
        cases q with
        | char c => exact absurd hnext (escape_append_ne hlow)
        | low k' => cases (List.isChain_cons_cons.mp hseparate).1 rfl
        | high k' =>
          simp only [Value.escapePoint, Value.escapeSurrogate, List.cons_append,
            List.cons.injEq] at hnext
          obtain ⟨-, -, rfl, rfl, -⟩ := hnext
          exact absurd hlow (not_both_surrogates (highSurrogate_hexDigit k'))

/-- A string is stored as Unicode text of `n` bytes exactly if it is well formed and has as many. -/
theorem chars_escaped {s : JsString} : Chars n (Value.escaped s) ↔
    s.isWellFormed = true ∧ n = s.toWellFormed.utf8ByteSize := by
  cases s with
  | wellFormed s =>
    have hsize : s.utf8ByteSize = String.utf8Len s.toList := by
      rw [← String.utf8ByteSize_ofList, String.ofList_toList]
    rw [JsString.toWellFormed, hsize]
    exact chars_flatMap_escape.trans (and_iff_right rfl).symm
  | illFormed s =>
    apply iff_of_false
    · intro h
      have hnone := not_any_isSurrogate s.separate h
      rw [s.unpaired] at hnone
      cases hnone
    · rintro ⟨hwell, -⟩
      cases hwell

example : Value.quote (.illFormed ⟨[.high 0, .char 'a', .low 1023], rfl, by decide⟩) =
    "\"\\ud800a\\udfff\"".toList := by
  rfl

theorem body_escape (ht : Body t) : Body (Value.escape c ++ t) := by
  rcases escape_cases c with ⟨d, hd, heq, -⟩ | ⟨heq, hcontrol⟩ | ⟨heq, -, hquote, hslash⟩
  · rw [heq]
    exact .escape ht
  · rw [heq]
    exact .escape (Body.append_of_hex (hex_of_control hcontrol) ht)
  · rw [heq]
    exact .plain hquote hslash ht

theorem body_escapeSurrogate {digit : ℕ} (h : digit ≤ 12) (k : Fin 1024) (ht : Body t) :
    Body (Value.escapeSurrogate digit k ++ t) := by
  have hhex : ∀ x ∈ ['d', hexDigit (digit + k / 256), hexDigit (k / 16 % 16), hexDigit (k % 16)],
      x ∈ hexDigits := by
    have hfirst := hexDigit_mem (n := digit + k / 256) (by omega)
    have hsecond := hexDigit_mem (n := k / 16 % 16) (by omega)
    have hthird := hexDigit_mem (n := k % 16) (by omega)
    simp only [List.mem_cons, List.not_mem_nil, or_false]
    rintro x (rfl | rfl | rfl | rfl)
    · decide
    · exact hfirst
    · exact hsecond
    · exact hthird
  exact .escape (Body.append_of_hex hhex ht)

theorem body_escaped (s : JsString) : Body (Value.escaped s) := by
  cases s with
  | wellFormed s =>
    change Body (s.toList.flatMap Value.escape)
    induction s.toList with
    | nil => exact .nil
    | cons c cs ih => exact body_escape ih
  | illFormed s =>
    change Body (s.points.flatMap Value.escapePoint)
    induction s.points with
    | nil => exact .nil
    | cons p ps ih =>
      cases p with
      | char c => exact body_escape ih
      | high k => exact body_escapeSurrogate (by decide) k ih
      | low k => exact body_escapeSurrogate (by decide) k ih

end Js
