import Mathlib.Tactic

/-!
# Redis patterns

`MATCH` compares bytes. `*` stands for any bytes, `?` for one, `[…]` for one of a class,
and a backslash takes the next byte as it is. Stars left over at the end of the key are
skipped, and a class that is not closed ends with the pattern.
-/

namespace Redis

def utf8 (s : String) : List UInt8 := s.toList.flatMap String.utf8EncodeChar

def star : UInt8 := 42
def question : UInt8 := 63
def opening : UInt8 := 91
def closing : UInt8 := 93
def backslash : UInt8 := 92
def caret : UInt8 := 94
def hyphen : UInt8 := 45

/-- The rest of a class: whether it names the byte, and the pattern after it. -/
def classFrom (c : UInt8) : List UInt8 → Bool → Bool × List UInt8
  | [], found => (found, [])
  | [a], found => if a = closing then (found, []) else (found || a == c, [])
  | [a, b], found =>
    if a = backslash then (found || b == c, [])
    else if a = closing then (found, [b])
    else classFrom c [b] (found || a == c)
  | a :: b :: d :: rest, found =>
    if a = backslash then classFrom c (d :: rest) (found || b == c)
    else if a = closing then (found, b :: d :: rest)
    else if b = hyphen then
      classFrom c rest (found || (decide (min a d ≤ c) && decide (c ≤ max a d)))
    else classFrom c (b :: d :: rest) (found || a == c)

/-- A class with its optional negation. -/
def classMatch (c : UInt8) : List UInt8 → Bool × List UInt8
  | [] => (false, [])
  | a :: rest =>
    if a = caret then
      let r := classFrom c rest false
      (!r.1, r.2)
    else classFrom c (a :: rest) false

/-- Tries a pattern at every byte that is left. -/
def anySuffix (matches? : List UInt8 → Bool) : List UInt8 → Bool
  | [] => false
  | c :: cs => matches? (c :: cs) || anySuffix matches? cs

def skipStars (pattern : List UInt8) : List UInt8 := pattern.dropWhile fun a => a == star

/-- `stringmatchlen`; the fuel is the length of the pattern. -/
def globFrom : ℕ → List UInt8 → List UInt8 → Bool
  | _, [], s => s.isEmpty
  | 0, _ :: _, _ => false
  | _ + 1, _ :: _, [] => false
  | fuel + 1, a :: pattern, c :: cs =>
    let after (pattern : List UInt8) : Bool :=
      if cs.isEmpty then (skipStars pattern).isEmpty else globFrom fuel pattern cs
    if a = star then
      let pattern := skipStars pattern
      if pattern.isEmpty then true else anySuffix (globFrom fuel pattern) (c :: cs)
    else if a = question then after pattern
    else if a = opening then
      let r := classMatch c pattern
      r.1 && after r.2
    else if a = backslash then
      match pattern with
      | [] => a == c && after []
      | b :: pattern => b == c && after pattern
    else a == c && after pattern

/-- Whether `SCAN … MATCH pattern` returns the key. -/
def isMatch (pattern key : String) : Bool :=
  globFrom (utf8 pattern).length (utf8 pattern) (utf8 key)

/-- The bytes that stand for themselves. -/
def isPlain (a : UInt8) : Bool := !([star, question, opening, backslash].contains a)

theorem globFrom_plain {a : UInt8} (h : isPlain a = true) (fuel : ℕ) (pattern : List UInt8)
    (c : UInt8) (cs : List UInt8) : globFrom (fuel + 1) (a :: pattern) (c :: cs) = (a == c &&
      if cs.isEmpty then (skipStars pattern).isEmpty else globFrom fuel pattern cs) := by
  simp only [isPlain, List.contains_cons, Bool.not_eq_true', Bool.or_eq_false_iff,
    beq_eq_false_iff_ne, ne_eq] at h
  obtain ⟨h1, h2, h3, h4, -⟩ := h
  cases pattern <;> simp only [globFrom, h1, h2, h3, h4, ↓reduceIte]

/-- Plain bytes followed by a star match what begins with them. -/
theorem globFrom_start {start : List UInt8} (hplain : ∀ a ∈ start, isPlain a = true)
    (hstart : start ≠ []) (rest : List UInt8) :
    globFrom (start.length + 1) (start ++ [star]) (start ++ rest) = true := by
  induction start with
  | nil => exact absurd rfl hstart
  | cons a start ih =>
    have ha := hplain a List.mem_cons_self
    rw [List.length_cons, List.cons_append, List.cons_append, globFrom_plain ha, beq_self_eq_true,
      Bool.true_and]
    cases start with
    | nil =>
      cases rest with
      | nil => rfl
      | cons c cs => simp [globFrom, skipStars]
    | cons b start =>
      rw [List.cons_append, List.isEmpty_cons, if_neg Bool.false_ne_true]
      exact ih (fun x hx => hplain x (List.mem_cons_of_mem _ hx)) (List.cons_ne_nil _ _)

theorem skipStars_of_plain {a : UInt8} (h : isPlain a = true) (pattern : List UInt8) :
    skipStars (a :: pattern) = a :: pattern := by
  simp only [isPlain, List.contains_cons, Bool.not_eq_true', Bool.or_eq_false_iff] at h
  rw [skipStars, List.dropWhile_cons_of_neg (by simp [h.1])]

/-- They match nothing else. -/
theorem globFrom_start_iff {start : List UInt8} (hplain : ∀ a ∈ start, isPlain a = true)
    (hstart : start ≠ []) (s : List UInt8) :
    globFrom (start.length + 1) (start ++ [star]) s = true ↔ start <+: s := by
  refine ⟨fun h => ?_, fun ⟨rest, hrest⟩ => hrest ▸ globFrom_start hplain hstart rest⟩
  induction start generalizing s with
  | nil => exact absurd rfl hstart
  | cons a start ih =>
    cases s with
    | nil => cases h
    | cons c cs =>
      rw [List.length_cons, List.cons_append, globFrom_plain (hplain a List.mem_cons_self),
        Bool.and_eq_true, beq_iff_eq] at h
      obtain ⟨rfl, h⟩ := h
      apply List.cons_prefix_cons.mpr
      refine ⟨rfl, ?_⟩
      cases start with
      | nil => exact List.nil_prefix
      | cons b start =>
        have hrest : ∀ x ∈ b :: start, isPlain x = true :=
          fun x hx => hplain x (List.mem_cons_of_mem _ hx)
        cases cs with
        | nil =>
          rw [List.isEmpty_nil, if_pos rfl, List.cons_append,
            skipStars_of_plain (hrest b List.mem_cons_self)] at h
          cases h
        | cons d cs =>
          rw [List.isEmpty_cons, if_neg Bool.false_ne_true] at h
          exact ih hrest (List.cons_ne_nil _ _) _ h

/-- The bytes of a character are not those of another one, whatever follows them. -/
theorem utf8Char_append_inj {c d : Char} {x y : List UInt8}
    (h : String.utf8EncodeChar c ++ x = String.utf8EncodeChar d ++ y) : c = d ∧ x = y := by
  have hdecode (c : Char) (x : List UInt8) :
      ByteArray.utf8DecodeChar? (String.utf8EncodeChar c ++ x).toByteArray 0 = some c := by
    rw [List.toByteArray_append]
    exact ByteArray.utf8DecodeChar?_utf8EncodeChar_append
  have hc := hdecode c x
  rw [h, hdecode d y] at hc
  obtain rfl := Option.some.inj hc
  exact ⟨rfl, List.append_cancel_left h⟩

theorem flatMap_utf8_prefix_iff {cs ds : List Char} :
    cs.flatMap String.utf8EncodeChar <+: ds.flatMap String.utf8EncodeChar ↔ cs <+: ds := by
  constructor
  · rintro ⟨rest, hrest⟩
    induction cs generalizing ds with
    | nil => exact List.nil_prefix
    | cons c cs ih =>
      rw [List.flatMap_cons, List.append_assoc] at hrest
      cases ds with
      | nil => exact absurd (List.append_eq_nil_iff.mp hrest).1 String.utf8EncodeChar_ne_nil
      | cons d ds =>
        rw [List.flatMap_cons] at hrest
        obtain ⟨rfl, htail⟩ := utf8Char_append_inj hrest
        exact List.cons_prefix_cons.mpr ⟨rfl, ih htail⟩
  · rintro ⟨rest, rfl⟩
    rw [List.flatMap_append]
    exact List.prefix_append _ _

theorem utf8_append (s t : String) : utf8 (s ++ t) = utf8 s ++ utf8 t := by
  simp [utf8, String.toList_append]

theorem utf8_prefix_iff {s t : String} : utf8 s <+: utf8 t ↔ ∃ rest, t = s ++ rest := by
  rw [utf8, utf8, flatMap_utf8_prefix_iff]
  constructor
  · rintro ⟨rest, hrest⟩
    apply Exists.intro (String.ofList rest)
    apply String.toList_injective
    rw [String.toList_append, String.toList_ofList, hrest]
  · rintro ⟨rest, rfl⟩
    rw [String.toList_append]
    exact List.prefix_append _ _

theorem isMatch_start_iff {start : String} (hplain : ∀ a ∈ utf8 start, isPlain a = true)
    (hstart : utf8 start ≠ []) (key : String) :
    isMatch (start ++ "*") key = true ↔ ∃ rest, key = start ++ rest := by
  have hstar : utf8 "*" = [star] := by decide
  rw [isMatch, utf8_append, hstar, List.length_append, List.length_singleton,
    globFrom_start_iff hplain hstart, utf8_prefix_iff]

example : isMatch "wpcms:property:sea-view*" "wpcms:property:sea-view" = true := by decide

example : isMatch "wpcms:property:plot[1]*" "wpcms:property:plot[1]" = false := by decide

end Redis
