import Mathlib.Data.List.Chain
import PropertyPlatform.Js.Text

/-!
# Strings that are not Unicode text

A JavaScript string is a sequence of code units, and `JSON.parse` makes of an escape such as
`\uD800` half of a surrogate pair whose other half need not follow. Such a string is a value like
any other. Where it is sent as text, U+FFFD stands for each unpaired half.
-/

namespace Js

/-- A character, or U+D800 + `n` or U+DC00 + `n`: the first and the second half of a pair. -/
inductive CodePoint where
  | char (c : Char)
  | high (n : Fin 1024)
  | low (n : Fin 1024)
  deriving DecidableEq

namespace CodePoint

def isSurrogate : CodePoint → Bool
  | .char _ => false
  | _ => true

def isHigh : CodePoint → Bool
  | .high _ => true
  | _ => false

def isLow : CodePoint → Bool
  | .low _ => true
  | _ => false

def isWhiteSpace : CodePoint → Bool
  | .char c => Js.isWhiteSpace c
  | _ => false

/-- The character that is sent. -/
def toChar : CodePoint → Char
  | .char c => c
  | _ => '\uFFFD'

theorem isWhiteSpace_toChar : Js.isWhiteSpace ∘ toChar = isWhiteSpace := by
  funext p
  have hreplaced : Js.isWhiteSpace '\uFFFD' = false := by decide
  cases p with
  | char c => rfl
  | high n | low n => exact hreplaced

end CodePoint

/-- A string with an unpaired surrogate. Two halves that follow one another are a character. -/
structure Unpaired where
  points : List CodePoint
  unpaired : points.any CodePoint.isSurrogate = true
  separate : points.IsChain fun p q => p.isHigh = true → q.isLow = false
  deriving DecidableEq

inductive JsString where
  | wellFormed (s : String)
  | illFormed (s : Unpaired)
  deriving DecidableEq

instance : Coe String JsString := ⟨.wellFormed⟩

def Unpaired.trim (s : Unpaired) : Unpaired where
  points := (s.points.dropWhile CodePoint.isWhiteSpace).rdropWhile CodePoint.isWhiteSpace
  unpaired := by
    obtain ⟨p, hp, hsurrogate⟩ := List.any_eq_true.mp s.unpaired
    have hkept : p.isWhiteSpace = false := by
      cases p with
      | char c => cases hsurrogate
      | high n | low n => rfl
    exact List.any_eq_true.mpr
      ⟨p, mem_rdropWhile_of_not (mem_dropWhile_of_not hp hkept) hkept, hsurrogate⟩
  separate := by
    obtain ⟨before, after, heq⟩ := isInfix_trimmed CodePoint.isWhiteSpace s.points
    have hseparate := s.separate
    rw [← heq] at hseparate
    exact hseparate.left_of_append.right_of_append

namespace JsString

def trim : JsString → JsString
  | wellFormed s => Js.trim s
  | illFormed s => illFormed s.trim

def isWellFormed : JsString → Bool
  | wellFormed _ => true
  | illFormed _ => false

/-- What is sent for the string. -/
def toWellFormed : JsString → String
  | wellFormed s => s
  | illFormed s => String.ofList (s.points.map CodePoint.toChar)

/-- The `length` of the string: an unpaired surrogate counts as U+FFFD does. -/
def length (s : JsString) : ℕ := utf16Length s.toWellFormed

variable {s : JsString}

theorem wellFormed_toWellFormed (h : s.isWellFormed = true) : wellFormed s.toWellFormed = s := by
  cases s with
  | wellFormed s => rfl
  | illFormed s => cases h

theorem trim_trim (s : JsString) : s.trim.trim = s.trim := by
  cases s with
  | wellFormed s => exact congrArg wellFormed (Js.trim_trim s)
  | illFormed s =>
    simp only [trim, Unpaired.trim, dropWhile_trimmed, List.rdropWhile_idempotent]

theorem toWellFormed_trim (s : JsString) : s.trim.toWellFormed = Js.trim s.toWellFormed := by
  cases s with
  | wellFormed s => rfl
  | illFormed s =>
    simp only [trim, Unpaired.trim, toWellFormed, Js.trim, String.toList_ofList, List.rdropWhile,
      List.dropWhile_map, ← List.map_reverse, CodePoint.isWhiteSpace_toChar]

end JsString

end Js
