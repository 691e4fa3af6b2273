import Mathlib.Data.List.Infix
import Mathlib.Tactic

/-!
# The grammar of JSON texts

The productions of a JSON document over characters, with a bound on how many arrays and objects
are open at a time. What may stand in a string and in a key is left to the reader of the text: one
that stores Unicode takes escaped surrogates in pairs only, and may bound the length of keys.
-/

namespace JsonText

def Ws (t : List Char) : Prop := ∀ c ∈ t, c = ' ' ∨ c = '\t' ∨ c = '\n' ∨ c = '\r'

def Digits (t : List Char) : Prop := t ≠ [] ∧ ∀ c ∈ t, c.isDigit = true

inductive IntPart : List Char → Prop where
  | zero : IntPart ['0']
  | positive {c : Char} {t : List Char} (hc : c.isDigit = true) (hpos : c ≠ '0')
      (ht : ∀ c ∈ t, c.isDigit = true) : IntPart (c :: t)

inductive Fraction : List Char → Prop where
  | absent : Fraction []
  | present {t : List Char} (h : Digits t) : Fraction ('.' :: t)

inductive Exponent : List Char → Prop where
  | absent : Exponent []
  | present {e : Char} {sign t : List Char} (he : e = 'e' ∨ e = 'E')
      (hsign : sign = [] ∨ sign = ['+'] ∨ sign = ['-']) (h : Digits t) :
      Exponent (e :: (sign ++ t))

inductive Number : List Char → Prop where
  | mk {minus i f e : List Char} (hminus : minus = [] ∨ minus = ['-']) (hi : IntPart i)
      (hf : Fraction f) (he : Exponent e) : Number (minus ++ (i ++ (f ++ e)))

def hexDigits : List Char :=
  ['0', '1', '2', '3', '4', '5', '6', '7', '8', '9', 'a', 'b', 'c', 'd', 'e', 'f', 'A', 'B', 'C',
    'D', 'E', 'F']

/-- The first two digits of a code unit that is half of a pair. -/
def HighSurrogate (a b : Char) : Prop := a ∈ ['d', 'D'] ∧ b ∈ ['8', '9', 'a', 'b', 'A', 'B']

def LowSurrogate (a b : Char) : Prop :=
  a ∈ ['d', 'D'] ∧ b ∈ ['c', 'd', 'e', 'f', 'C', 'D', 'E', 'F']

/-- What a scan takes for the inside of a string: a quote stands only after a backslash. -/
inductive Body : List Char → Prop where
  | nil : Body []
  | plain {c : Char} {t : List Char} (hquote : c ≠ '"') (hslash : c ≠ '\\') (ht : Body t) :
      Body (c :: t)
  | escape {c : Char} {t : List Char} (ht : Body t) : Body ('\\' :: c :: t)

def digitValue (c : Char) : ℕ :=
  let i := hexDigits.idxOf c
  if i < 16 then i else i - 6

/-- The code unit that four hexadecimal digits spell. -/
def codeUnit (a b c d : Char) : ℕ :=
  ((digitValue a * 16 + digitValue b) * 16 + digitValue c) * 16 + digitValue d

/-- The bytes of a character that is one code unit. -/
def unitSize (n : ℕ) : ℕ := if n < 0x80 then 1 else if n < 0x800 then 2 else 3

/-- What may stand between the quotes of a string that denotes `n` bytes of Unicode text. -/
inductive Chars : ℕ → List Char → Prop where
  | nil : Chars 0 []
  | plain {n : ℕ} {c : Char} {t : List Char} (hc : 0x20 ≤ c.toNat) (hquote : c ≠ '"')
      (hslash : c ≠ '\\') (ht : Chars n t) : Chars (c.utf8Size + n) (c :: t)
  | escape {n : ℕ} {c : Char} {t : List Char}
      (hc : c ∈ ['"', '\\', '/', 'b', 'f', 'n', 'r', 't']) (ht : Chars n t) :
      Chars (1 + n) ('\\' :: c :: t)
  | unicode {n : ℕ} {a b c d : Char} {t : List Char} (hhex : ∀ x ∈ [a, b, c, d], x ∈ hexDigits)
      (hhigh : ¬ HighSurrogate a b) (hlow : ¬ LowSurrogate a b) (ht : Chars n t) :
      Chars (unitSize (codeUnit a b c d) + n) ('\\' :: 'u' :: a :: b :: c :: d :: t)
  | pair {n : ℕ} {a b c d a' b' c' d' : Char} {t : List Char}
      (hhex : ∀ x ∈ [a, b, c, d, a', b', c', d'], x ∈ hexDigits) (hhigh : HighSurrogate a b)
      (hlow : LowSurrogate a' b') (ht : Chars n t) :
      Chars (4 + n)
        ('\\' :: 'u' :: a :: b :: c :: d :: '\\' :: 'u' :: a' :: b' :: c' :: d' :: t)

theorem ne_of_mem_hexDigits {c : Char} (h : c ∈ hexDigits) : c ≠ '"' ∧ c ≠ '\\' := by
  have hall : ∀ c ∈ hexDigits, c ≠ '"' ∧ c ≠ '\\' := by simp [hexDigits]
  exact hall c h

theorem Body.append_of_hex {s t : List Char} (h : ∀ c ∈ s, c ∈ hexDigits) (ht : Body t) :
    Body (s ++ t) := by
  induction s with
  | nil => exact ht
  | cons c s ih =>
    obtain ⟨hquote, hslash⟩ := ne_of_mem_hexDigits (h c List.mem_cons_self)
    exact .plain hquote hslash (ih fun x hx => h x (List.mem_cons_of_mem _ hx))

theorem Chars.body {n : ℕ} {t : List Char} (h : Chars n t) : Body t := by
  induction h with
  | nil => exact .nil
  | plain hc hquote hslash ht ih => exact .plain hquote hslash ih
  | escape hc ht ih => exact .escape ih
  | unicode hhex hhigh hlow ht ih => exact .escape (Body.append_of_hex hhex ih)
  | @pair n a b c d a' b' c' d' t hhex hhigh hlow ht ih =>
    have hfirst : ∀ x ∈ [a, b, c, d], x ∈ hexDigits := fun x hx => hhex x (by simp at hx ⊢; tauto)
    have hsecond : ∀ x ∈ [a', b', c', d'], x ∈ hexDigits :=
      fun x hx => hhex x (by simp at hx ⊢; tauto)
    have hbody : Body ('\\' :: 'u' :: ([a', b', c', d'] ++ t)) :=
      .escape (Body.append_of_hex hsecond ih)
    exact .escape (Body.append_of_hex hfirst hbody)

namespace Chars

variable {n : ℕ} {a b c d : Char} {t : List Char}

theorem tail_of_plain (hslash : c ≠ '\\') (h : Chars n (c :: t)) :
    ∃ m, Chars m t ∧ n = c.utf8Size + m := by
  generalize hs : c :: t = s at h
  cases h with
  | nil => cases hs
  | plain hc hquote hslash' ht =>
    obtain ⟨rfl, rfl⟩ := List.cons.inj hs
    exact ⟨_, ht, rfl⟩
  | _ => exact absurd (List.cons.inj hs).1 hslash

theorem tail_of_escape (hc : c ≠ 'u') (h : Chars n ('\\' :: c :: t)) :
    ∃ m, Chars m t ∧ n = 1 + m := by
  generalize hs : '\\' :: c :: t = s at h
  cases h with
  | nil => cases hs
  | plain hc hquote hslash ht => exact absurd (List.cons.inj hs).1.symm hslash
  | escape hc' ht =>
    obtain ⟨-, rfl⟩ := List.cons.inj (List.cons.inj hs).2
    exact ⟨_, ht, rfl⟩
  | _ => exact absurd (List.cons.inj (List.cons.inj hs).2).1 hc

theorem tail_of_unicode (hhigh : ¬ HighSurrogate a b)
    (h : Chars n ('\\' :: 'u' :: a :: b :: c :: d :: t)) :
    ¬ LowSurrogate a b ∧ ∃ m, Chars m t ∧ n = unitSize (codeUnit a b c d) + m := by
  generalize hs : '\\' :: 'u' :: a :: b :: c :: d :: t = s at h
  cases h with
  | nil => cases hs
  | plain hc hquote hslash ht => exact absurd (List.cons.inj hs).1.symm hslash
  | escape hc ht =>
    rw [← (List.cons.inj (List.cons.inj hs).2).1] at hc
    exact absurd hc (by decide)
  | unicode hhex hhigh' hlow ht =>
    simp only [List.cons.injEq, true_and] at hs
    obtain ⟨rfl, rfl, rfl, rfl, rfl⟩ := hs
    exact ⟨hlow, _, ht, rfl⟩
  | pair hhex hhigh' hlow ht =>
    simp only [List.cons.injEq, true_and] at hs
    obtain ⟨rfl, rfl, -⟩ := hs
    exact absurd hhigh' hhigh

theorem low_of_high (hhigh : HighSurrogate a b)
    (h : Chars n ('\\' :: 'u' :: a :: b :: c :: d :: t)) :
    ∃ a' b' rest, LowSurrogate a' b' ∧ t = '\\' :: 'u' :: a' :: b' :: rest := by
  generalize hs : '\\' :: 'u' :: a :: b :: c :: d :: t = s at h
  cases h with
  | nil => cases hs
  | plain hc hquote hslash ht => exact absurd (List.cons.inj hs).1.symm hslash
  | escape hc ht =>
    rw [← (List.cons.inj (List.cons.inj hs).2).1] at hc
    exact absurd hc (by decide)
  | unicode hhex hhigh' hlow ht =>
    simp only [List.cons.injEq, true_and] at hs
    obtain ⟨rfl, rfl, -⟩ := hs
    exact absurd hhigh hhigh'
  | pair hhex hhigh' hlow ht =>
    simp only [List.cons.injEq, true_and] at hs
    obtain ⟨-, -, -, -, rfl⟩ := hs
    exact ⟨_, _, _, hlow, rfl⟩

end Chars

/-- What a reader of JSON takes between the quotes of a string, and between those of a key. -/
structure Dialect where
  string : List Char → Prop
  key : List Char → Prop
  body_of_string : ∀ {t}, string t → Body t
  string_of_key : ∀ {t}, key t → string t

/-- The reader that only looks for the end of a string. -/
def Dialect.scanned : Dialect where
  string := Body
  key := Body
  body_of_string h := h
  string_of_key h := h

/-- A reader of Unicode text whose keys have at most `k` bytes. -/
def Dialect.unicode (k : ℕ) : Dialect where
  string t := ∃ n, Chars n t
  key t := ∃ n ≤ k, Chars n t
  body_of_string := fun ⟨_, h⟩ => h.body
  string_of_key := fun ⟨n, _, h⟩ => ⟨n, h⟩

def quoted (t : List Char) : List Char := '"' :: (t ++ ['"'])

/-- Texts with commas between them. -/
def separated : List (List Char) → List Char
  | [] => []
  | [t] => t
  | t :: u :: rest => t ++ ',' :: separated (u :: rest)

structure Item where
  before : List Char
  value : List Char
  after : List Char

def Item.text (x : Item) : List Char := x.before ++ (x.value ++ x.after)

def Item.Spaced (x : Item) : Prop := Ws x.before ∧ Ws x.after

structure Member where
  before : List Char
  key : List Char
  afterKey : List Char
  item : Item

def Member.text (x : Member) : List Char :=
  x.before ++ (quoted x.key ++ (x.afterKey ++ ':' :: x.item.text))

def Member.Spaced (x : Member) : Prop := Ws x.before ∧ Ws x.afterKey ∧ x.item.Spaced

section Values

variable (D : Dialect)

/-- A value in which at most `d` arrays and objects are open at a time. -/
inductive Value : ℕ → List Char → Prop where
  | null (d : ℕ) : Value d ['n', 'u', 'l', 'l']
  | true (d : ℕ) : Value d ['t', 'r', 'u', 'e']
  | false (d : ℕ) : Value d ['f', 'a', 'l', 's', 'e']
  | number (d : ℕ) {t : List Char} (h : Number t) : Value d t
  | string (d : ℕ) {t : List Char} (h : D.string t) : Value d (quoted t)
  | emptyArray (d : ℕ) {w : List Char} (h : Ws w) : Value (d + 1) ('[' :: (w ++ [']']))
  | array {d : ℕ} (items : List Item) (hne : items ≠ []) (hspaced : ∀ x ∈ items, x.Spaced)
      (hvalues : ∀ x ∈ items, Value d x.value) :
      Value (d + 1) ('[' :: (separated (items.map Item.text) ++ [']']))
  | emptyObject (d : ℕ) {w : List Char} (h : Ws w) : Value (d + 1) ('{' :: (w ++ ['}']))
  | object {d : ℕ} (members : List Member) (hne : members ≠ [])
      (hspaced : ∀ x ∈ members, x.Spaced) (hkeys : ∀ x ∈ members, D.key x.key)
      (hvalues : ∀ x ∈ members, Value d x.item.value) :
      Value (d + 1) ('{' :: (separated (members.map Member.text) ++ ['}']))

def Document (d : ℕ) (t : List Char) : Prop :=
  ∃ w v w', Ws w ∧ Value D d v ∧ Ws w' ∧ t = w ++ (v ++ w')

variable {D}

theorem Value.mono {d d' : ℕ} {t : List Char} (h : Value D d t) (hd : d ≤ d') : Value D d' t := by
  induction h generalizing d' with
  | null d => exact .null d'
  | true d => exact .true d'
  | false d => exact .false d'
  | number d h => exact .number d' h
  | string d h => exact .string d' h
  | emptyArray d h =>
    obtain ⟨e, rfl⟩ := Nat.exists_eq_add_of_le' (Nat.le_of_add_left_le hd)
    exact .emptyArray e h
  | array items hne hspaced hvalues ih =>
    obtain ⟨e, rfl⟩ := Nat.exists_eq_add_of_le' (Nat.le_of_add_left_le hd)
    exact .array items hne hspaced fun x hx => ih x hx (by omega)
  | emptyObject d h =>
    obtain ⟨e, rfl⟩ := Nat.exists_eq_add_of_le' (Nat.le_of_add_left_le hd)
    exact .emptyObject e h
  | object members hne hspaced hkeys hvalues ih =>
    obtain ⟨e, rfl⟩ := Nat.exists_eq_add_of_le' (Nat.le_of_add_left_le hd)
    exact .object members hne hspaced hkeys fun x hx => ih x hx (by omega)

end Values

end JsonText
