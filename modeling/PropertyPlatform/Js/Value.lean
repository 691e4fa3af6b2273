import PropertyPlatform.Js.CodePoints
import PropertyPlatform.Js.Number

/-!
# JSON values, property access and serialization

`JSON.parse` gives every object its own properties and `Object.prototype`. Code
that copies an object by plain assignment can change the prototype through the
key `__proto__`, and reading a property falls back to the prototype, so the
prototype is part of an object value.
-/

namespace Js

inductive Value where
  | null
  | bool (b : Bool)
  | num (x : Number)
  | str (s : JsString)
  | arr (items : List Value)
  | obj (props : List (JsString × Value)) (proto : Value)
  | objectPrototype

namespace Value

/-- An object literal. -/
def object (props : List (JsString × Value)) : Value := .obj props .objectPrototype

def nat (n : ℕ) : Value :=
  let r := stripZeros (Nat.toDigits 10 n).length n
  if h : r.1 % 10 ≠ 0 then .num ⟨false, r.1, r.2, Or.inl h⟩ else .num .zero

/-- A number that is a positive integer is written as one. -/
theorem nat_eq_num {x : Number} {n : ℕ} (h : x.toPositive? = some n) : nat n = .num x := by
  obtain ⟨negative, d, e, hnormal⟩ := x
  unfold Number.toPositive? at h
  split_ifs at h with hx
  simp only [not_or, Bool.not_eq_true, not_lt] at hx
  obtain ⟨rfl, hd, he⟩ := hx
  obtain ⟨k, rfl⟩ := Int.eq_ofNat_of_zero_le he
  have hmod : d % 10 ≠ 0 := hnormal.resolve_right fun h => hd h.1
  have hstrip : stripZeros (Nat.toDigits 10 n).length n = (d, k) := by
    rw [← Option.some.inj h, Int.toNat_natCast]
    apply stripZeros_mul_pow hmod
    rw [toDigits_mul_pow (Nat.pos_of_ne_zero hd)]
    simp [Number.zeros]
  simp [nat, hstrip, hmod]

/-- `value[key]` for a named property; `none` is `undefined`. -/
def get : Value → JsString → Option Value
  | .obj props proto, key =>
    match props.lookup key with
    | some v => some v
    | none => proto.get key
  | _, _ => none

/-- The array index a property key spells, if it is one. -/
def arrayIndex? : JsString → Option ℕ
  | .wellFormed key =>
    let n := Nat.ofDigitChars 10 key.toList 0
    if key.toList.all Char.isDigit && Nat.toDigits 10 n == key.toList &&
        decide (n < 4294967295) then some n
    else none
  | .illFormed _ => none

/-- `out[key] = value` on own properties: array indices come first, in ascending
order, then the other keys in the order of their first assignment. -/
def assign (key : JsString) (value : Value) : List (JsString × Value) → List (JsString × Value)
  | [] => [(key, value)]
  | (k, v) :: rest =>
    if k = key then (key, value) :: rest
    else match arrayIndex? key, arrayIndex? k with
      | some i, some j =>
        if i < j then (key, value) :: (k, v) :: rest else (k, v) :: assign key value rest
      | some _, none => (key, value) :: (k, v) :: rest
      | none, _ => (k, v) :: assign key value rest

/-- The properties a `for (key in value)` loop visits, inherited ones last. -/
def forIn : Value → List (JsString × Value)
  | .obj props proto => props ++ proto.forIn.filter fun x => (props.lookup x.1).isNone
  | .arr items => items.zipIdx.map fun x => (x.2.repr, x.1)
  | _ => []

def escape (c : Char) : List Char :=
  if c = '"' then ['\\', '"']
  else if c = '\\' then ['\\', '\\']
  else if c.toNat = 0x8 then ['\\', 'b']
  else if c.toNat = 0x9 then ['\\', 't']
  else if c.toNat = 0xA then ['\\', 'n']
  else if c.toNat = 0xC then ['\\', 'f']
  else if c.toNat = 0xD then ['\\', 'r']
  else if c.toNat < 0x20 then
    ['\\', 'u', '0', '0', hexDigit (c.toNat / 16), hexDigit (c.toNat % 16)]
  else [c]

/-- The escape of U+D800 + `n` for the digit 8, of U+DC00 + `n` for the digit 12. -/
def escapeSurrogate (digit : ℕ) (n : Fin 1024) : List Char :=
  ['\\', 'u', 'd', hexDigit (digit + n / 256), hexDigit (n / 16 % 16), hexDigit (n % 16)]

def escapePoint : CodePoint → List Char
  | .char c => escape c
  | .high n => escapeSurrogate 8 n
  | .low n => escapeSurrogate 12 n

def escaped : JsString → List Char
  | .wellFormed s => s.toList.flatMap escape
  | .illFormed s => s.points.flatMap escapePoint

def quote (s : JsString) : List Char := '"' :: escaped s ++ ['"']

mutual

/-- The text of `JSON.stringify`. -/
def text : Value → List Char
  | .null => "null".toList
  | .bool true => "true".toList
  | .bool false => "false".toList
  | .num x => x.toText
  | .str s => quote s
  | .arr items => '[' :: itemsText items ++ [']']
  | .obj props _ => '{' :: propsText props ++ ['}']
  | .objectPrototype => ['{', '}']

def itemsText : List Value → List Char
  | [] => []
  | [v] => v.text
  | v :: w :: rest => v.text ++ ',' :: itemsText (w :: rest)

def propsText : List (JsString × Value) → List Char
  | [] => []
  | [(k, v)] => quote k ++ ':' :: v.text
  | (k, v) :: p :: rest => quote k ++ ':' :: v.text ++ ',' :: propsText (p :: rest)

end

def stringify (v : Value) : String := String.ofList v.text

/-- `ToLength` of a finite number. -/
def numberToLength (x : Number) : ℕ :=
  if x.negative then 0
  else min (if 0 ≤ x.exp then x.digits * 10 ^ x.exp.toNat else x.digits / 10 ^ (-x.exp).toNat)
    (2 ^ 53 - 1)

/-- What a value converts to as a string: an exception, Unicode text, or a string with an
unpaired surrogate, which no number is written with. -/
inductive Primitive where
  | throws
  | illFormed
  | text (s : List Char)

namespace Primitive

def ofString : JsString → Primitive
  | .wellFormed s => .text s.toList
  | .illFormed _ => .illFormed

def comma : Primitive → Primitive → Primitive
  | .throws, _ => .throws
  | _, .throws => .throws
  | .text s, .text t => .text (s ++ ',' :: t)
  | _, _ => .illFormed

/-- The result of `join(',')` on the strings of the elements. -/
def join : List Primitive → Primitive
  | [] => .text []
  | [p] => p
  | p :: q :: rest => p.comma (join (q :: rest))

end Primitive

/-- As an element of a joined array `null` is the empty string. -/
def elementText (v : Value) (p : Primitive) : Primitive :=
  match v with
  | .null => .text []
  | _ => p

/-- `ToLength` of a value that converts to the string `p`; `none` for an exception. -/
def toLength (stringToLength : String → ℕ) (v : Value) (p : Primitive) : Option ℕ :=
  match v, p with
  | .null, _ => some 0
  | .bool b, _ => some b.toNat
  | .num x, _ => some (numberToLength x)
  | _, .throws => none
  | _, .illFormed => some 0
  | _, .text s => some (stringToLength (String.ofList s))

/-- `Array.prototype.toString` on an object that inherits from an array: its own `join` is not
callable, and its own `length` and elements come before those of the array. -/
def inheritedJoin (stringToLength : String → ℕ) (own : List (JsString × Value × Primitive))
    (items : List Primitive) : Primitive :=
  if (own.lookup (.wellFormed "join")).isSome then .text "[object Object]".toList
  else
    match (own.lookup (.wellFormed "length")).elim (some items.length) fun x =>
      toLength stringToLength x.1 x.2 with
    | none => .throws
    | some n => Primitive.join ((List.range n).map fun i =>
        (own.lookup (.wellFormed i.repr)).elim (items.getD i (.text [])) fun x =>
          elementText x.1 x.2)

section Conversion

variable (stringToLength : String → ℕ)

mutual

/-- The string an object, array or primitive converts to. -/
def toPrimitive : Value → Primitive
  | .null => .text "null".toList
  | .bool true => .text "true".toList
  | .bool false => .text "false".toList
  | .num x => .text x.toText
  | .str s => .ofString s
  | .arr items => .join (elementTexts items)
  | .obj props proto => inheritedText (ownTexts props) proto
  | .objectPrototype => .text "[object Object]".toList

def elementTexts : List Value → List Primitive
  | [] => []
  | v :: vs => elementText v v.toPrimitive :: elementTexts vs

def ownTexts : List (JsString × Value) → List (JsString × Value × Primitive)
  | [] => []
  | (k, v) :: rest => (k, v, v.toPrimitive) :: ownTexts rest

/-- The string of an object with these own properties and this prototype. A `toString` that came
from JSON is not callable, and without `Object.prototype` there is none: the conversion throws. -/
def inheritedText (own : List (JsString × Value × Primitive)) : Value → Primitive
  | .obj props proto => inheritedText (own ++ ownTexts props) proto
  | .arr items =>
    if (own.lookup (.wellFormed "toString")).isSome then .throws
    else inheritedJoin stringToLength own (elementTexts items)
  | .objectPrototype =>
    if (own.lookup (.wellFormed "toString")).isSome then .throws else .text "[object Object]".toList
  | _ => .throws

end

-- the own element and the own length hide those of the array
example : toPrimitive stringToLength
    (.obj [("0", .str "7"), ("length", .num .one)] (.arr [.bool true, .null])) = .text ['7'] := by
  rfl

end Conversion

end Value
end Js
