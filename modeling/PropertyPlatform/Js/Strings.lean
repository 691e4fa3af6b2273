import PropertyPlatform.Js.Value

/-!
# Strings and keys inside a value

A value holds strings at any depth, also behind a prototype, while its text quotes only own
properties. Copying, reading and serializing a value bring in no string of their own.
-/

namespace Js

/-- Text without the character that opens a tag. -/
def MarkupFree (s : String) : Prop := '<' ∉ s.toList

instance (s : String) : Decidable (MarkupFree s) := inferInstanceAs (Decidable (¬ _))

theorem MarkupFree.trim {s : String} (h : MarkupFree s) : MarkupFree (trim s) :=
  fun hs => h (mem_trim hs)

theorem MarkupFree.sliceTo {s : String} (h : MarkupFree s) (n : ℕ) : MarkupFree (sliceTo n s) := by
  unfold MarkupFree Js.sliceTo
  rw [String.toList_ofList]
  intro hs
  rcases mem_takeUnits hs with hs | hs
  · exact h hs
  · cases hs

namespace Value

mutual

/-- The string values in a value. -/
def strings : Value → List JsString
  | .str s => [s]
  | .arr items => itemsStrings items
  | .obj props proto => propsStrings props ++ strings proto
  | _ => []

def itemsStrings : List Value → List JsString
  | [] => []
  | v :: vs => strings v ++ itemsStrings vs

def propsStrings : List (JsString × Value) → List JsString
  | [] => []
  | (_, v) :: rest => strings v ++ propsStrings rest

end

mutual

/-- The keys that the text of a value quotes. -/
def keys : Value → List JsString
  | .arr items => itemsKeys items
  | .obj props _ => propsKeys props
  | _ => []

def itemsKeys : List Value → List JsString
  | [] => []
  | v :: vs => keys v ++ itemsKeys vs

def propsKeys : List (JsString × Value) → List JsString
  | [] => []
  | (k, v) :: rest => k :: keys v ++ propsKeys rest

end

section Access

variable {v w : Value} {key s : JsString} {props : List (JsString × Value)}

theorem mem_propsStrings : s ∈ propsStrings props ↔ ∃ x ∈ props, s ∈ x.2.strings := by
  induction props with
  | nil => simp [propsStrings]
  | cons x rest ih => simp [propsStrings, ih]

theorem mem_itemsStrings {items : List Value} :
    s ∈ itemsStrings items ↔ ∃ x ∈ items, s ∈ x.strings := by
  induction items with
  | nil => simp [itemsStrings]
  | cons x rest ih => simp [itemsStrings, ih]

theorem mem_strings_object : s ∈ (object props).strings ↔ ∃ x ∈ props, s ∈ x.2.strings := by
  simp [object, strings, mem_propsStrings]

theorem mem_keys_object :
    s ∈ (object props).keys ↔ ∃ x ∈ props, s = x.1 ∨ s ∈ x.2.keys := by
  rw [object, keys]
  induction props with
  | nil => simp [propsKeys]
  | cons x rest ih => simp [propsKeys, ih, or_assoc]

theorem strings_get (h : v.get key = some w) : w.strings ⊆ v.strings := by
  fun_induction get v key with
  | case1 props proto key v hv =>
    cases h
    obtain ⟨before, after, rfl, -⟩ := List.lookup_eq_some_iff.mp hv
    have hmem : (key, w) ∈ before ++ (key, w) :: after := by simp
    exact fun s hs => List.mem_append_left _ (mem_propsStrings.mpr ⟨_, hmem, hs⟩)
  | case2 props proto key hv ih => exact fun s hs => List.mem_append_right _ (ih h hs)
  | case3 => cases h

theorem strings_assign (h : s ∈ propsStrings (assign key v props)) :
    s ∈ v.strings ∨ s ∈ propsStrings props := by
  fun_induction assign key v props with
  | case1 => simpa [propsStrings] using h
  | case2 w rest =>
    exact (List.mem_append.mp h).imp_right fun hs => List.mem_append_right _ hs
  | case3 | case5 => simpa only [propsStrings, List.mem_append] using h
  | case4 k w rest _ i j _ _ _ ih | case6 k w rest _ _ ih =>
    rcases List.mem_append.mp h with hs | hs
    · exact Or.inr (List.mem_append_left _ hs)
    · exact (ih hs).imp_right fun hs => List.mem_append_right _ hs

theorem strings_foldl_assign {xs : List (JsString × Value)}
    (h : s ∈ propsStrings (xs.foldl (fun out x => assign x.1 x.2 out) props)) :
    (∃ x ∈ xs, s ∈ x.2.strings) ∨ s ∈ propsStrings props := by
  induction xs generalizing props with
  | nil => exact Or.inr h
  | cons x xs ih =>
    rcases ih h with ⟨y, hy, hs⟩ | hs
    · exact Or.inl ⟨y, List.mem_cons_of_mem _ hy, hs⟩
    · exact (strings_assign hs).imp_left fun hs => ⟨x, List.mem_cons_self, hs⟩

theorem strings_forIn {x : JsString × Value} (h : x ∈ v.forIn) : x.2.strings ⊆ v.strings := by
  fun_induction forIn v with
  | case1 props proto ih =>
    intro s hs
    rcases List.mem_append.mp h with hx | hx
    · exact List.mem_append_left _ (mem_propsStrings.mpr ⟨x, hx, hs⟩)
    · exact List.mem_append_right _ (ih (List.mem_filter.mp hx).1 hs)
  | case2 items =>
    intro s hs
    obtain ⟨y, hy, rfl⟩ := List.mem_map.mp h
    exact mem_itemsStrings.mpr ⟨y.1, List.fst_mem_of_mem_zipIdx hy, hs⟩
  | case3 => cases h

end Access

section Text

variable {s : JsString}

theorem hexDigit_ne {n : ℕ} (h : n < 16) : hexDigit n ≠ '<' := by
  have hall : ∀ n < 16, hexDigit n ≠ '<' := by decide
  exact hall n h

theorem mem_escape {c : Char} : '<' ∈ escape c ↔ c = '<' := by
  by_cases hc : c = '<'
  · subst hc
    decide
  · refine iff_of_false ?_ hc
    unfold escape
    split_ifs with _ _ _ _ _ _ _ hcontrol
    any_goals decide
    · have hhigh := hexDigit_ne (n := c.toNat / 16) (by omega)
      have hlow := hexDigit_ne (n := c.toNat % 16) (by omega)
      simp [hhigh.symm, hlow.symm]
    · simpa using Ne.symm hc

theorem not_mem_escapeSurrogate {digit : ℕ} (h : digit ≤ 12) (n : Fin 1024) :
    '<' ∉ escapeSurrogate digit n := by
  have hfirst := hexDigit_ne (n := digit + n / 256) (by omega)
  have hsecond := hexDigit_ne (n := n / 16 % 16) (by omega)
  have hthird := hexDigit_ne (n := n % 16) (by omega)
  simp [escapeSurrogate, hfirst.symm, hsecond.symm, hthird.symm]

theorem mem_escapePoint {p : CodePoint} : '<' ∈ escapePoint p ↔ p.toChar = '<' := by
  cases p with
  | char c => exact mem_escape
  | high n | low n =>
    apply iff_of_false (not_mem_escapeSurrogate (by decide) n)
    simp [CodePoint.toChar]

theorem mem_quote : '<' ∈ quote s ↔ '<' ∈ s.toWellFormed.toList := by
  cases s with
  | wellFormed s => simp [quote, escaped, JsString.toWellFormed, mem_escape]
  | illFormed s => simp [quote, escaped, JsString.toWellFormed, mem_escapePoint]

theorem not_mem_toDigits (n : ℕ) : '<' ∉ Nat.toDigits 10 n := by
  intro h
  have hdigit := isDigit_of_mem_toDigits h
  simp at hdigit

theorem not_mem_magnitudeText (digits : ℕ) (exp : ℤ) :
    '<' ∉ Number.magnitudeText digits exp := by
  have hdigits := not_mem_toDigits digits
  have htake : ∀ n, '<' ∉ (Nat.toDigits 10 digits).take n :=
    fun n h => hdigits (List.mem_of_mem_take h)
  have hdrop : ∀ n, '<' ∉ (Nat.toDigits 10 digits).drop n :=
    fun n h => hdigits (List.mem_of_mem_drop h)
  have htail : '<' ∉ (Nat.toDigits 10 digits).tail := fun h => hdigits (List.mem_of_mem_tail h)
  unfold Number.magnitudeText
  simp only
  split_ifs <;>
    simp [Number.zeros, hdigits, htake, hdrop, htail, not_mem_toDigits, List.mem_replicate]

theorem not_mem_toText (x : Number) : '<' ∉ x.toText := by
  unfold Number.toText
  split_ifs <;> simp [not_mem_magnitudeText]

mutual

/-- The text of a value whose strings are free of markup has markup only where a key has. -/
theorem mem_text : ∀ v : Value, (∀ s ∈ v.strings, MarkupFree s.toWellFormed) →
    ('<' ∈ v.text ↔ ∃ k ∈ v.keys, ¬ MarkupFree k.toWellFormed)
  | .null, _ => by simp [text, keys]
  | .bool b, _ => by cases b <;> simp [text, keys]
  | .num x, _ => by simp [text, keys, not_mem_toText]
  | .str s, h => by
    have hs : '<' ∉ s.toWellFormed.toList := h s (by simp [strings])
    simp [text, keys, mem_quote, hs]
  | .arr items, h => by
    simp [text, keys, mem_itemsText items h]
  | .obj props proto, h => by
    simp [text, keys, mem_propsText props fun s hs => h s (List.mem_append_left _ hs)]
  | .objectPrototype, _ => by simp [text, keys]

theorem mem_itemsText : ∀ items : List Value,
    (∀ s ∈ itemsStrings items, MarkupFree s.toWellFormed) →
    ('<' ∈ itemsText items ↔ ∃ k ∈ itemsKeys items, ¬ MarkupFree k.toWellFormed)
  | [], _ => by simp [itemsText, itemsKeys]
  | [v], h => by
    simp [itemsText, itemsKeys, mem_text v fun s hs => h s (List.mem_append_left _ hs)]
  | v :: w :: rest, h => by
    have hv := mem_text v fun s hs => h s (List.mem_append_left _ hs)
    have hrest := mem_itemsText (w :: rest) fun s hs => h s (List.mem_append_right _ hs)
    rw [itemsKeys]
    simp [itemsText, hv, hrest, or_and_right, exists_or]

theorem mem_propsText : ∀ props : List (JsString × Value),
    (∀ s ∈ propsStrings props, MarkupFree s.toWellFormed) →
    ('<' ∈ propsText props ↔ ∃ k ∈ propsKeys props, ¬ MarkupFree k.toWellFormed)
  | [], _ => by simp [propsText, propsKeys]
  | [(k, v)], h => by
    have hv := mem_text v fun s hs => h s (List.mem_append_left _ hs)
    simp [propsText, propsKeys, mem_quote, hv, MarkupFree]
  | (k, v) :: p :: rest, h => by
    have hv := mem_text v fun s hs => h s (List.mem_append_left _ hs)
    have hrest := mem_propsText (p :: rest) fun s hs => h s (List.mem_append_right _ hs)
    rw [propsKeys]
    simp [propsText, mem_quote, hv, hrest, or_and_right, exists_or, MarkupFree]

end

end Text

end Value

end Js
