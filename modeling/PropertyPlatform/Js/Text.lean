import Mathlib.Tactic
import Mathlib.Data.List.DropRight
import Mathlib.Data.String.Basic

/-!
# Strings as the JavaScript runtime sees them

A `String` is well-formed Unicode text. Lengths and slices count UTF-16 code units, white
space is the set that `trim` and the class `\s` share, and hexadecimal decoding
is the lenient one of `Buffer.from`: it stops at the first pair that is not two
hexadecimal digits.
-/

namespace Js

def isWhiteSpace (c : Char) : Bool :=
  [0x9, 0xA, 0xB, 0xC, 0xD, 0x20, 0xA0, 0x1680, 0x2028, 0x2029, 0x202F, 0x205F, 0x3000,
    0xFEFF].contains c.toNat || (0x2000 ≤ c.toNat && c.toNat ≤ 0x200A)

def trim (s : String) : String :=
  String.ofList ((s.toList.dropWhile isWhiteSpace).rdropWhile isWhiteSpace)

/-- `replace(/\s+/g, ' ')`; the flag says that the previous character was white space. -/
def collapseFrom : Bool → List Char → List Char
  | _, [] => []
  | inSpace, c :: cs =>
    if isWhiteSpace c then
      if inSpace then collapseFrom true cs else ' ' :: collapseFrom true cs
    else c :: collapseFrom false cs

def collapseWhiteSpace (s : String) : String := String.ofList (collapseFrom false s.toList)

/-- `replace(/\D/g, '')`. -/
def digitsOnly (s : String) : String := String.ofList (s.toList.filter Char.isDigit)

def codeUnits (c : Char) : ℕ := if c.toNat ≤ 0xFFFF then 1 else 2

/-- The `length` of a string. -/
def utf16Length (s : String) : ℕ := (s.toList.map codeUnits).sum

/-- The first `n` code units. A pair of surrogates cut in the middle leaves a lone one,
which is encoded as U+FFFD when the text is sent. -/
def takeUnits : List Char → ℕ → List Char
  | [], _ => []
  | _, 0 => []
  | c :: cs, n + 1 =>
    if c.toNat ≤ 0xFFFF then c :: takeUnits cs n
    else match n with
      | 0 => ['\uFFFD']
      | m + 1 => c :: takeUnits cs m

/-- `s.slice(0, n)`. -/
def sliceTo (n : ℕ) (s : String) : String := String.ofList (takeUnits s.toList n)

theorem codeUnits_pos (c : Char) : 0 < codeUnits c := by
  unfold codeUnits
  split_ifs <;> decide

theorem length_le_utf16Length (s : String) : s.length ≤ utf16Length s := by
  have hlist : ∀ cs : List Char, cs.length ≤ (cs.map codeUnits).sum := by
    intro cs
    induction cs with
    | nil => simp
    | cons c cs ih =>
      have := codeUnits_pos c
      simp only [List.length_cons, List.map_cons, List.sum_cons]
      omega
  exact hlist s.toList

theorem utf8Size_le (c : Char) : c.utf8Size ≤ 3 * codeUnits c := by
  simp only [codeUnits, Char.utf8Size, UInt32.le_iff_toNat_le, Char.toNat, UInt32.toNat_ofNatLT]
  split_ifs <;> omega

/-- A code unit takes at most three bytes. -/
theorem utf8ByteSize_le (s : String) : s.utf8ByteSize ≤ 3 * utf16Length s := by
  have hlist : ∀ cs : List Char, String.utf8Len cs ≤ 3 * (cs.map codeUnits).sum := by
    intro cs
    induction cs with
    | nil => simp
    | cons c cs ih =>
      have := utf8Size_le c
      simp only [String.utf8Len_cons, List.map_cons, List.sum_cons]
      omega
  rw [← String.ofList_toList (s := s), String.utf8ByteSize_ofList, utf16Length,
    String.toList_ofList]
  exact hlist s.toList

section Trimming

variable {α : Type} {p : α → Bool} {l : List α} {a : α}

theorem isInfix_trimmed (p : α → Bool) (l : List α) : (l.dropWhile p).rdropWhile p <:+: l :=
  (List.rdropWhile_prefix p _).isInfix.trans (List.dropWhile_suffix p).isInfix

theorem dropWhile_trimmed (p : α → Bool) (l : List α) :
    ((l.dropWhile p).rdropWhile p).dropWhile p = (l.dropWhile p).rdropWhile p := by
  rw [List.dropWhile_eq_self_iff]
  intro hpos
  have hfront := List.rdropWhile_prefix p (l.dropWhile p)
  rw [hfront.getElem]
  exact List.dropWhile_get_zero_not _ _ _

theorem mem_dropWhile_of_not (ha : a ∈ l) (hp : p a = false) : a ∈ l.dropWhile p := by
  induction l with
  | nil => cases ha
  | cons b l ih =>
    rw [List.dropWhile_cons]
    split_ifs with hb
    · rcases List.mem_cons.mp ha with rfl | ha
      · rw [hp] at hb
        cases hb
      · exact ih ha
    · exact ha

theorem mem_rdropWhile_of_not (ha : a ∈ l) (hp : p a = false) : a ∈ l.rdropWhile p :=
  List.mem_reverse.mpr (mem_dropWhile_of_not (List.mem_reverse.mpr ha) hp)

theorem mem_trim {s : String} {c : Char} (h : c ∈ (trim s).toList) : c ∈ s.toList := by
  rw [trim, String.toList_ofList] at h
  exact (isInfix_trimmed _ _).subset h

theorem trim_trim (s : String) : trim (trim s) = trim s := by
  unfold trim
  rw [String.toList_ofList, dropWhile_trimmed, List.rdropWhile_idempotent]

end Trimming

theorem mem_takeUnits {cs : List Char} {n : ℕ} {c : Char} (h : c ∈ takeUnits cs n) :
    c ∈ cs ∨ c = '\uFFFD' := by
  fun_induction takeUnits cs n with
  | case1 | case2 => cases h
  | case3 d cs n _ ih | case5 d cs _ n ih =>
    rcases List.mem_cons.mp h with rfl | h
    · exact Or.inl List.mem_cons_self
    · exact (ih h).imp_left (List.mem_cons_of_mem _)
  | case4 d cs _ => exact Or.inr (List.mem_singleton.mp h)

/-- A slice that is long enough is the whole text. -/
theorem takeUnits_of_le {cs : List Char} {n : ℕ} (h : (cs.map codeUnits).sum ≤ n) :
    takeUnits cs n = cs := by
  fun_induction takeUnits cs n with
  | case1 => rfl
  | case2 cs hcs =>
    cases cs with
    | nil => rfl
    | cons c cs =>
      have hpos := codeUnits_pos c
      simp only [List.map_cons, List.sum_cons] at h
      omega
  | case3 c cs n hc ih =>
    simp only [List.map_cons, List.sum_cons, codeUnits, if_pos hc] at h
    rw [ih (by omega)]
  | case4 c cs hc =>
    simp only [List.map_cons, List.sum_cons, codeUnits, if_neg hc] at h
    omega
  | case5 c cs hc n ih =>
    simp only [List.map_cons, List.sum_cons, codeUnits, if_neg hc] at h
    rw [ih (by omega)]

theorem sliceTo_of_le {n : ℕ} {s : String} (h : utf16Length s ≤ n) : sliceTo n s = s := by
  rw [sliceTo, takeUnits_of_le h, String.ofList_toList]

/-- `s.replace(/^prefix/, '')`. -/
def withoutPrefix (start s : String) : String :=
  if start.toList.isPrefixOf s.toList then String.ofList (s.toList.drop start.toList.length) else s

def hexValue (c : Char) : Option ℕ :=
  if '0' ≤ c ∧ c ≤ '9' then some (c.toNat - '0'.toNat)
  else if 'a' ≤ c ∧ c ≤ 'f' then some (c.toNat - 'a'.toNat + 10)
  else if 'A' ≤ c ∧ c ≤ 'F' then some (c.toNat - 'A'.toNat + 10)
  else none

def hexDigit (n : ℕ) : Char := "0123456789abcdef".toList.getD n '0'

/-- `Buffer.from(s, 'hex')`. -/
def decodeHex : List Char → List UInt8
  | a :: b :: rest =>
    match hexValue a, hexValue b with
    | some x, some y => UInt8.ofNat (16 * x + y) :: decodeHex rest
    | _, _ => []
  | _ => []

/-- `digest('hex')`. -/
def encodeHex : List UInt8 → List Char
  | [] => []
  | b :: bs => hexDigit (b.toNat / 16) :: hexDigit (b.toNat % 16) :: encodeHex bs

theorem hexValue_hexDigit : ∀ n < 16, hexValue (hexDigit n) = some n := by decide

theorem decodeHex_encodeHex (bytes : List UInt8) : decodeHex (encodeHex bytes) = bytes := by
  induction bytes with
  | nil => rfl
  | cons b bs ih =>
    have hb := b.toNat_lt
    have hhigh := hexValue_hexDigit (b.toNat / 16) (by omega)
    have hlow := hexValue_hexDigit (b.toNat % 16) (by omega)
    have hsum : 16 * (b.toNat / 16) + b.toNat % 16 = b.toNat := by omega
    simp only [encodeHex, decodeHex, hhigh, hlow, ih, hsum, UInt8.ofNat_toNat]

/-- Text that is decoded to its end has hexadecimal digits only. -/
theorem isHex_of_length {cs : List Char} (h : cs.length = 2 * (decodeHex cs).length) :
    ∀ c ∈ cs, (hexValue c).isSome = true := by
  fun_induction decodeHex cs with
  | case1 a b rest x y hy hx ih =>
    simp only [List.length_cons] at h
    have hrest := ih (by omega)
    intro c hc
    rcases List.mem_cons.mp hc with rfl | hc
    · simp [hx]
    · rcases List.mem_cons.mp hc with rfl | hc
      · simp [hy]
      · exact hrest c hc
  | case2 => simp at h
  | case3 cs hcs =>
    have hnil : cs = [] := List.length_eq_zero_iff.mp h
    simp [hnil]

/-- Text up to a separator it does not contain is determined by the whole. -/
theorem append_separator_inj {a : Char} {x y u v : List Char} (hx : a ∉ x) (hy : a ∉ y)
    (h : x ++ a :: u = y ++ a :: v) : x = y ∧ u = v := by
  induction x generalizing y with
  | nil =>
    cases y with
    | nil => exact ⟨rfl, (List.cons.inj h).2⟩
    | cons b y => exact absurd (by simp [(List.cons.inj h).1]) hy
  | cons b x ih =>
    cases y with
    | nil => exact absurd (by simp [(List.cons.inj h).1]) hx
    | cons c y =>
      obtain ⟨hbc, hrest⟩ := List.cons.inj h
      obtain ⟨hxy, huv⟩ := ih (fun ha => hx (by simp [ha])) (fun ha => hy (by simp [ha])) hrest
      exact ⟨by rw [hbc, hxy], huv⟩

end Js
