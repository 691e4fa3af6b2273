import PropertyPlatform.Js.Quoted
import PropertyPlatform.Js.Strings
import PropertyPlatform.JsonText.Nesting
import PropertyPlatform.JsonText.Tokens

/-!
# `JSON.stringify` writes JSON

The text of a value is a value of the grammar whose arrays and objects are nested as deep as
those of the value itself, for a reader that takes its strings and keys and for no other. A slice
of the text of an object is a document only if it is the whole text.
-/

namespace Js

open JsonText

section Numbers

theorem toDigits_pos {n : ℕ} (h : 0 < n) :
    ∃ c t, Nat.toDigits 10 n = c :: t ∧ c ≠ '0' := by
  induction n using Nat.strong_induction_on with
  | _ n ih =>
    rcases Nat.lt_or_ge n 10 with hn | hn
    · have hdigit : ∀ m < 10, 0 < m → m.digitChar ≠ '0' := by decide
      exact ⟨n.digitChar, [], Nat.toDigits_of_lt_base hn, hdigit n hn h⟩
    · obtain ⟨c, t, ht, hc⟩ := ih (n / 10) (by omega) (by omega)
      refine ⟨c, t ++ [(n % 10).digitChar], ?_, hc⟩
      rw [Nat.toDigits_of_base_le (by decide) hn, ht, List.cons_append]

theorem digits_toDigits (n : ℕ) : Digits (Nat.toDigits 10 n) :=
  ⟨Nat.toDigits_ne_nil, fun _ hc => isDigit_of_mem_toDigits hc⟩

theorem number_mantissa {minus t e : List Char} {c : Char}
    (hminus : minus = [] ∨ minus = ['-']) (hc : c ≠ '0')
    (hall : ∀ x ∈ c :: t, x.isDigit = true) (he : Exponent e) :
    JsonText.Number (minus ++ (mantissa (c :: t) ++ e)) := by
  have hint : IntPart [c] := .positive (hall c List.mem_cons_self) hc (by simp)
  unfold mantissa
  split_ifs with hone
  · have hnil : t = [] := by simpa using hone
    subst hnil
    simpa using JsonText.Number.mk hminus hint .absent he
  · have hfraction : Digits t :=
      ⟨by simpa using hone, fun x hx => hall x (List.mem_cons_of_mem _ hx)⟩
    simpa using JsonText.Number.mk hminus hint (.present hfraction) he

/-- Each layout of a number follows the grammar. -/
theorem number_magnitudeText {minus : List Char} (hminus : minus = [] ∨ minus = ['-'])
    {digits : ℕ} (h : 0 < digits) (exp : ℤ) :
    JsonText.Number (minus ++ Number.magnitudeText digits exp) := by
  obtain ⟨c, t, hs, hc⟩ := toDigits_pos h
  have hall : ∀ x ∈ c :: t, x.isDigit = true := fun x hx => isDigit_of_mem_toDigits (hs ▸ hx)
  have hhead := hall c List.mem_cons_self
  have htail : ∀ x ∈ t, x.isDigit = true := fun x hx => hall x (List.mem_cons_of_mem _ hx)
  unfold Number.magnitudeText
  simp only [hs, List.length_cons]
  split
  · have hint : IntPart (c :: (t ++ Number.zeros exp.toNat)) := by
      refine .positive hhead hc fun x hx => ?_
      exact (List.mem_append.mp hx).elim (htail x) isDigit_of_mem_zeros
    simpa using JsonText.Number.mk hminus hint .absent .absent
  · split
    · next hpoint =>
      obtain ⟨n, hn⟩ : ∃ n, (exp + ↑(t.length + 1)).toNat = n + 1 :=
        Nat.exists_eq_add_one.mpr (by omega)
      have hint : IntPart (c :: t.take n) :=
        .positive hhead hc fun x hx => htail x (List.mem_of_mem_take hx)
      have hfraction : Digits (t.drop n) := by
        refine ⟨fun hnil => ?_, fun x hx => htail x (List.mem_of_mem_drop hx)⟩
        have := List.drop_eq_nil_iff.mp hnil
        omega
      rw [hn]
      simpa using JsonText.Number.mk hminus hint (.present hfraction) .absent
    · split
      · have hfraction : Digits (Number.zeros (-(exp + ↑(t.length + 1))).toNat ++ c :: t) := by
          refine ⟨by simp, fun x hx => ?_⟩
          exact (List.mem_append.mp hx).elim isDigit_of_mem_zeros (hall x)
        simpa using JsonText.Number.mk hminus .zero (.present hfraction) .absent
      · have hexponent : ∀ (n : ℤ) (m : ℕ),
            Exponent ('e' :: ([if n ≤ 0 then '-' else '+'] ++ Nat.toDigits 10 m)) := by
          intro n m
          refine .present (Or.inl rfl) ?_ (digits_toDigits m)
          split_ifs <;> simp
        exact number_mantissa hminus hc hall (hexponent _ _)

theorem number_toText (x : Number) : JsonText.Number x.toText := by
  unfold Number.toText
  split_ifs with hzero hnegative
  · exact .mk (Or.inl rfl) .zero .absent .absent
  · exact number_magnitudeText (Or.inr rfl) (Nat.pos_of_ne_zero hzero) _
  · exact number_magnitudeText (Or.inl rfl) (Nat.pos_of_ne_zero hzero) _

end Numbers

namespace Value

mutual

/-- How deep the text of a value nests arrays and objects. -/
def nesting : Value → ℕ
  | .arr items => itemsNesting items + 1
  | .obj props _ => propsNesting props + 1
  | .objectPrototype => 1
  | _ => 0

def itemsNesting : List Value → ℕ
  | [] => 0
  | v :: vs => max (nesting v) (itemsNesting vs)

def propsNesting : List (JsString × Value) → ℕ
  | [] => 0
  | (_, v) :: rest => max (nesting v) (propsNesting rest)

end

section Written

mutual

/-- The strings that the text of a value quotes, besides its keys. -/
def quotedStrings : Value → List JsString
  | .str s => [s]
  | .arr items => itemsQuoted items
  | .obj props _ => propsQuoted props
  | _ => []

def itemsQuoted : List Value → List JsString
  | [] => []
  | v :: vs => quotedStrings v ++ itemsQuoted vs

def propsQuoted : List (JsString × Value) → List JsString
  | [] => []
  | (_, v) :: rest => quotedStrings v ++ propsQuoted rest

end

mutual

/-- The tokens of the text of a value. -/
def written : Value → List Token
  | .str s => [.quoted (escaped s)]
  | .arr items => .mark '[' :: (writtenItems items ++ [.mark ']'])
  | .obj props _ => .mark '{' :: (writtenProps props ++ [.mark '}'])
  | v => (v.text.filter fun c => !isWs c).map .mark

def writtenItems : List Value → List Token
  | [] => []
  | [v] => written v
  | v :: w :: rest => written v ++ .mark ',' :: writtenItems (w :: rest)

def writtenProps : List (JsString × Value) → List Token
  | [] => []
  | [(k, v)] => .quoted (escaped k) :: .mark ':' :: written v
  | (k, v) :: x :: rest =>
    .quoted (escaped k) :: .mark ':' :: (written v ++ .mark ',' :: writtenProps (x :: rest))

end

variable (D : Dialect)

/-- The reader takes every string and every key of the text. -/
def Taken (v : Value) : Prop :=
  (∀ s ∈ v.quotedStrings, D.string (escaped s)) ∧ ∀ k ∈ v.keys, D.key (escaped k)

variable {D}

theorem taken_scanned (v : Value) : v.Taken .scanned :=
  ⟨fun s _ => body_escaped s, fun k _ => body_escaped k⟩

theorem taken_arr {items : List Value} : (arr items).Taken D ↔ ∀ v ∈ items, v.Taken D := by
  unfold Taken
  rw [quotedStrings, keys]
  induction items with
  | nil => simp [itemsQuoted, itemsKeys]
  | cons v vs ih =>
    simp only [itemsQuoted, itemsKeys, List.forall_mem_append, List.forall_mem_cons, ← ih]
    tauto

theorem taken_obj {props : List (JsString × Value)} {proto : Value} :
    (obj props proto).Taken D ↔ ∀ x ∈ props, D.key (escaped x.1) ∧ x.2.Taken D := by
  unfold Taken
  rw [quotedStrings, keys]
  induction props with
  | nil => simp [propsQuoted, propsKeys]
  | cons x rest ih =>
    simp only [propsQuoted, propsKeys, List.cons_append, List.forall_mem_append,
      List.forall_mem_cons, ← ih]
    tauto

/-- For a reader of Unicode text the strings are well formed and the keys not too long. -/
theorem taken_unicode {v : Value} {k : ℕ} : v.Taken (.unicode k) ↔
    (∀ s ∈ v.quotedStrings ++ v.keys, s.isWellFormed = true) ∧
      ∀ key ∈ v.keys, key.toWellFormed.utf8ByteSize ≤ k := by
  have hstring : ∀ s, (Dialect.unicode k).string (escaped s) ↔ s.isWellFormed = true := by
    intro s
    simp [Dialect.unicode, chars_escaped]
  have hkey : ∀ s, (Dialect.unicode k).key (escaped s) ↔
      s.isWellFormed = true ∧ s.toWellFormed.utf8ByteSize ≤ k := by
    intro s
    simp [Dialect.unicode, chars_escaped, and_comm]
  unfold Taken
  simp only [hstring, hkey, List.forall_mem_append, forall_and, and_assoc]

theorem isInfix_writtenItems : ∀ {items : List Value} {v : Value}, v ∈ items →
    v.written <:+: writtenItems items
  | [], _, hv => (List.not_mem_nil hv).elim
  | [u], v, hv => by
    rw [List.mem_singleton.mp hv]
    exact List.infix_rfl
  | u :: w :: rest, v, hv => by
    rcases List.mem_cons.mp hv with rfl | hv
    · exact (List.prefix_append _ _).isInfix
    · have hrest := (isInfix_writtenItems hv).trans (List.suffix_cons (.mark ',') _).isInfix
      exact hrest.trans (List.suffix_append u.written _).isInfix

theorem isInfix_writtenProps : ∀ {props : List (JsString × Value)} {x : JsString × Value},
    x ∈ props → .quoted (escaped x.1) :: .mark ':' :: x.2.written <:+: writtenProps props
  | [], _, hx => (List.not_mem_nil hx).elim
  | [y], x, hx => by
    rw [List.mem_singleton.mp hx]
    exact List.infix_rfl
  | (k, v) :: y :: rest, x, hx => by
    rcases List.mem_cons.mp hx with rfl | hx
    · exact (List.prefix_append (.quoted (escaped k) :: .mark ':' :: v.written) _).isInfix
    · have hrest := (isInfix_writtenProps hx).trans (List.suffix_cons (.mark ',') _).isInfix
      exact hrest.trans
        (List.suffix_append (.quoted (escaped k) :: .mark ':' :: v.written) _).isInfix

mutual

/-- Tokens that the reader accepts are those of strings and keys that it takes. -/
theorem taken_of_accepted : ∀ v : Value, Accepted D v.written → v.Taken D
  | .null, _ | .bool _, _ | .num _, _ | .objectPrototype, _ => by
    simp [Taken, quotedStrings, keys]
  | .str s, h => by
    refine ⟨fun t ht => ?_, fun k hk => (List.not_mem_nil hk).elim⟩
    rw [List.mem_singleton.mp ht]
    exact h.strings _ (List.mem_singleton_self _)
  | .arr items, h => by
    have hinside : writtenItems items <:+: (arr items).written :=
      (List.prefix_append _ _).isInfix.trans (List.suffix_cons _ _).isInfix
    apply taken_arr.mpr
    apply taken_items items
    intro v hv
    exact h.of_isInfix ((isInfix_writtenItems hv).trans hinside)
  | .obj props proto, h => by
    have hinside : writtenProps props <:+: (obj props proto).written :=
      (List.prefix_append _ _).isInfix.trans (List.suffix_cons _ _).isInfix
    apply taken_obj.mpr
    apply taken_props props
    intro x hx
    exact h.of_isInfix ((isInfix_writtenProps hx).trans hinside)

theorem taken_items : ∀ items : List Value, (∀ v ∈ items, Accepted D v.written) →
    ∀ v ∈ items, v.Taken D
  | [], _, _, hv => (List.not_mem_nil hv).elim
  | v :: vs, h, w, hw => by
    rcases List.mem_cons.mp hw with heq | hw
    · rw [heq]
      exact taken_of_accepted v (h v List.mem_cons_self)
    · exact taken_items vs (fun u hu => h u (List.mem_cons_of_mem _ hu)) w hw

theorem taken_props : ∀ props : List (JsString × Value),
    (∀ x ∈ props, Accepted D (.quoted (escaped x.1) :: .mark ':' :: x.2.written)) →
    ∀ x ∈ props, D.key (escaped x.1) ∧ x.2.Taken D
  | [], _, _, hx => (List.not_mem_nil hx).elim
  | (k, v) :: rest, h, x, hx => by
    rcases List.mem_cons.mp hx with heq | hx
    · have hfirst := h (k, v) List.mem_cons_self
      have hvalue : v.written <:+: .quoted (escaped k) :: .mark ':' :: v.written :=
        ((List.suffix_cons _ _).trans (List.suffix_cons _ _)).isInfix
      rw [heq]
      exact ⟨hfirst.key_of_colon, taken_of_accepted v (hfirst.of_isInfix hvalue)⟩
    · exact taken_props rest (fun y hy => h y (List.mem_cons_of_mem _ hy)) x hx

end

end Written

section Grammar

variable {D : Dialect}

def item (v : Value) : Item := ⟨[], v.text, []⟩

def member (x : JsString × Value) : Member := ⟨[], escaped x.1, [], item x.2⟩

theorem spaced_item (v : Value) : (item v).Spaced := by simp [item, Item.Spaced, Ws]

theorem spaced_member (x : JsString × Value) : (member x).Spaced :=
  ⟨by simp [member, Ws], by simp [member, Ws], spaced_item x.2⟩

theorem text_item (v : Value) : (item v).text = v.text := by simp [item, Item.text]

theorem text_member (x : JsString × Value) : (member x).text = quote x.1 ++ ':' :: x.2.text := by
  simp [member, Member.text, text_item, quoted, quote]

theorem itemsText_eq : ∀ items : List Value,
    itemsText items = separated ((items.map item).map Item.text)
  | [] => rfl
  | [v] => by simp [itemsText, separated, text_item]
  | v :: w :: rest => by
    have ih := itemsText_eq (w :: rest)
    simp only [itemsText, ih, List.map_cons, separated, text_item]

theorem propsText_eq : ∀ props : List (JsString × Value),
    propsText props = separated ((props.map member).map Member.text)
  | [] => rfl
  | [x] => by simp [propsText, separated, text_member]
  | x :: y :: rest => by
    have ih := propsText_eq (y :: rest)
    simp only [propsText, ih, List.map_cons, separated, text_member, List.append_assoc,
      List.cons_append]

mutual

theorem value_text : ∀ v : Value, v.Taken D → JsonText.Value D v.nesting v.text
  | .null, _ => by simpa [text] using JsonText.Value.null _
  | .bool true, _ => by simpa [text] using JsonText.Value.true _
  | .bool false, _ => by simpa [text] using JsonText.Value.false _
  | .num x, _ => .number _ (number_toText x)
  | .str s, h => .string _ (h.1 s (List.mem_singleton_self s))
  | .arr [], _ => .emptyArray 0 (by simp [Ws, itemsText])
  | .arr (v :: vs), h => by
    have hvalues := value_items (v :: vs) (taken_arr.mp h)
    rw [text, itemsText_eq]
    refine .array _ (by simp) (fun x hx => ?_) fun x hx => ?_ <;>
      obtain ⟨w, hw, rfl⟩ := List.mem_map.mp hx
    · exact spaced_item w
    · exact hvalues w hw
  | .obj [] _, _ => .emptyObject 0 (by simp [Ws, propsText])
  | .obj (p :: rest) proto, h => by
    have hprops := taken_obj.mp h
    have hvalues := value_props (p :: rest) fun x hx => (hprops x hx).2
    rw [text, propsText_eq]
    refine .object _ (by simp) (fun x hx => ?_) (fun x hx => ?_) fun x hx => ?_ <;>
      obtain ⟨w, hw, rfl⟩ := List.mem_map.mp hx
    · exact spaced_member w
    · exact (hprops w hw).1
    · exact hvalues w hw
  | .objectPrototype, _ => JsonText.Value.emptyObject 0 (w := []) (by simp [Ws])

theorem value_items : ∀ items : List Value, (∀ v ∈ items, v.Taken D) →
    ∀ v ∈ items, JsonText.Value D (itemsNesting items) v.text
  | [], _, _, hv => (List.not_mem_nil hv).elim
  | v :: vs, h, w, hw => by
    rcases List.mem_cons.mp hw with heq | hw
    · rw [heq]
      exact (value_text v (h v List.mem_cons_self)).mono (le_max_left _ _)
    · have hrest := value_items vs fun u hu => h u (List.mem_cons_of_mem _ hu)
      exact (hrest w hw).mono (le_max_right _ _)

theorem value_props : ∀ props : List (JsString × Value), (∀ x ∈ props, x.2.Taken D) →
    ∀ x ∈ props, JsonText.Value D (propsNesting props) x.2.text
  | [], _, _, hx => (List.not_mem_nil hx).elim
  | (k, v) :: rest, h, x, hx => by
    rcases List.mem_cons.mp hx with heq | hx
    · rw [heq]
      exact (value_text v (h (k, v) List.mem_cons_self)).mono (le_max_left _ _)
    · have hrest := value_props rest fun y hy => h y (List.mem_cons_of_mem _ hy)
      exact (hrest x hx).mono (le_max_right _ _)

end

theorem exists_itemsNesting : ∀ items : List Value, items ≠ [] →
    ∃ v ∈ items, v.nesting = itemsNesting items
  | [], h => (h rfl).elim
  | [v], _ => ⟨v, List.mem_cons_self, by simp [itemsNesting]⟩
  | v :: w :: rest, _ => by
    rcases le_total (itemsNesting (w :: rest)) v.nesting with hle | hle
    · exact ⟨v, List.mem_cons_self, (max_eq_left hle).symm⟩
    · obtain ⟨x, hx, heq⟩ := exists_itemsNesting (w :: rest) (by simp)
      exact ⟨x, List.mem_cons_of_mem _ hx, heq.trans (max_eq_right hle).symm⟩

theorem exists_propsNesting : ∀ props : List (JsString × Value), props ≠ [] →
    ∃ x ∈ props, x.2.nesting = propsNesting props
  | [], h => (h rfl).elim
  | [x], _ => ⟨x, List.mem_cons_self, by simp [propsNesting]⟩
  | x :: y :: rest, _ => by
    rcases le_total (propsNesting (y :: rest)) x.2.nesting with hle | hle
    · exact ⟨x, List.mem_cons_self, (max_eq_left hle).symm⟩
    · obtain ⟨z, hz, heq⟩ := exists_propsNesting (y :: rest) (by simp)
      exact ⟨z, List.mem_cons_of_mem _ hz, heq.trans (max_eq_right hle).symm⟩

theorem balanced_items (items : List Value) :
    ∀ t ∈ (items.map item).map Item.text, Balanced (itemsNesting items) t := by
  intro t ht
  rw [List.map_map] at ht
  obtain ⟨v, hv, rfl⟩ := List.mem_map.mp ht
  rw [Function.comp_apply, text_item]
  exact (value_items items (fun w _ => taken_scanned w) v hv).balanced

theorem balanced_props (props : List (JsString × Value)) :
    ∀ t ∈ (props.map member).map Member.text, Balanced (propsNesting props) t := by
  intro t ht
  rw [List.map_map] at ht
  obtain ⟨x, hx, rfl⟩ := List.mem_map.mp ht
  have hvalue := value_props props (fun y _ => taken_scanned y.2) x hx
  exact Member.balanced (spaced_member x) (body_escaped x.1) hvalue.balanced

theorem reaches_itemsText {items : List Value} (h : ∀ v ∈ items, Reaches v.nesting v.text) :
    Reaches (itemsNesting items) (itemsText items) := by
  rcases eq_or_ne items [] with rfl | hne
  · exact .zero
  · obtain ⟨v, hv, heq⟩ := exists_itemsNesting items hne
    have htext : Reaches v.nesting (item v).text := by
      rw [text_item]
      exact h v hv
    rw [itemsText_eq, ← heq]
    exact htext.separated (balanced_items items)
      (List.mem_map_of_mem (List.mem_map_of_mem hv))

theorem reaches_propsText {props : List (JsString × Value)}
    (h : ∀ x ∈ props, Reaches x.2.nesting x.2.text) :
    Reaches (propsNesting props) (propsText props) := by
  rcases eq_or_ne props [] with rfl | hne
  · exact .zero
  · obtain ⟨x, hx, heq⟩ := exists_propsNesting props hne
    have htext : Reaches x.2.nesting (member x).text := by
      have hkey : Balanced 0 (quote x.1) := (body_escaped x.1).balanced
      have hcolon : Balanced 0 [':'] := balanced_of_unmarked (by simp [Unmarked])
      rw [text_member]
      exact (((h x hx).append_left hcolon).append_left hkey)
    rw [propsText_eq, ← heq]
    exact htext.separated (balanced_props props)
      (List.mem_map_of_mem (List.mem_map_of_mem hx))

mutual

/-- The text goes as deep as the value. -/
theorem reaches_text : ∀ v : Value, Reaches v.nesting v.text
  | .null | .bool _ | .num _ | .str _ => .zero
  | .objectPrototype => Reaches.wrap (t := []) (fun _ => rfl) .zero
  | .arr items => (reaches_itemsText (reaches_items items)).wrap fun _ => rfl
  | .obj props _ => (reaches_propsText (reaches_props props)).wrap fun _ => rfl

theorem reaches_items : ∀ items : List Value, ∀ v ∈ items, Reaches v.nesting v.text
  | [], _, hv => (List.not_mem_nil hv).elim
  | v :: vs, w, hw => by
    rcases List.mem_cons.mp hw with heq | hw
    · rw [heq]
      exact reaches_text v
    · exact reaches_items vs w hw

theorem reaches_props : ∀ props : List (JsString × Value), ∀ x ∈ props,
    Reaches x.2.nesting x.2.text
  | [], _, hx => (List.not_mem_nil hx).elim
  | (k, v) :: rest, x, hx => by
    rcases List.mem_cons.mp hx with heq | hx
    · rw [heq]
      exact reaches_text v
    · exact reaches_props rest x hx

end

mutual

/-- The text of a value is read into its tokens. -/
theorem lexes_text : ∀ v : Value, Lexes v.text v.written
  | .null | .bool true | .bool false | .objectPrototype => .of_unquoted (by decide)
  | .num x => .of_unquoted (number_toText x).unquoted
  | .str s => .quoted (body_escaped s)
  | .arr items => (lexes_items items).wrap (by decide) (by decide)
  | .obj props _ => (lexes_props props).wrap (by decide) (by decide)

theorem lexes_items : ∀ items : List Value, Lexes (itemsText items) (writtenItems items)
  | [] => .nil
  | [v] => lexes_text v
  | v :: w :: rest => (lexes_text v).comma (lexes_items (w :: rest))

theorem lexes_props : ∀ props : List (JsString × Value),
    Lexes (propsText props) (writtenProps props)
  | [] => .nil
  | [(k, v)] => (Lexes.quoted (body_escaped k)).colon (lexes_text v)
  | (k, v) :: x :: rest => by
    have hfirst := (Lexes.quoted (body_escaped k)).colon (lexes_text v)
    exact hfirst.comma (lexes_props (x :: rest))

end

/-- The text of a value is a document for the readers that take its strings and its depth. -/
theorem document_text {v : Value} {d : ℕ} :
    Document D d v.text ↔ v.nesting ≤ d ∧ v.Taken D := by
  constructor
  · exact fun h => ⟨(reaches_text v).le h.balanced,
      taken_of_accepted v (h.accepted (lexes_text v))⟩
  · rintro ⟨hnesting, htaken⟩
    exact ⟨[], v.text, [], by simp [Ws], (value_text v htaken).mono hnesting, by simp [Ws],
      by simp⟩

end Grammar

section Slices

theorem units_takeUnits (cs : List Char) (n : ℕ) : ((takeUnits cs n).map codeUnits).sum ≤ n := by
  fun_induction takeUnits cs n with
  | case1 | case2 => simp
  | case3 c cs n hc ih =>
    simp only [List.map_cons, List.sum_cons, codeUnits, if_pos hc]
    omega
  | case4 => decide
  | case5 c cs hc n ih =>
    simp only [List.map_cons, List.sum_cons, codeUnits, if_neg hc]
    omega

/-- A slice is a prefix, or the last character of one is cut in half. -/
theorem takeUnits_cases (cs : List Char) (n : ℕ) : takeUnits cs n <+: cs ∨
    ∃ p c, p ++ [c] <+: cs ∧ 0xFFFF < c.toNat ∧ takeUnits cs n = p ++ ['\uFFFD'] := by
  fun_induction takeUnits cs n with
  | case1 | case2 => exact Or.inl List.nil_prefix
  | case3 c cs n hc ih | case5 c cs hc n ih =>
    rcases ih with hp | ⟨p, d, hp, hd, heq⟩
    · exact Or.inl ((List.prefix_cons_inj c).mpr hp)
    · exact Or.inr ⟨c :: p, d, (List.prefix_cons_inj c).mpr hp, hd, by rw [heq]; rfl⟩
  | case4 c cs hc => exact Or.inr ⟨[], c, ⟨cs, rfl⟩, not_le.mp hc, rfl⟩

/-- The scan does not tell one character beyond the first plane from another. -/
theorem scanChar_astral {c : Char} (hc : 0xFFFF < c.toNat) (s : Mode × ℕ) :
    scanChar s c = scanChar s '\uFFFD' := by
  have hne : ∀ x : Char, x.toNat ≤ 0xFFFF → c ≠ x := by
    rintro x hx rfl
    omega
  obtain ⟨mode, n⟩ := s
  cases mode <;>
    simp [scanChar, hne '"' (by decide), hne '[' (by decide), hne '{' (by decide),
      hne ']' (by decide), hne '}' (by decide), hne '\\' (by decide)]

/-- Cut text has an open brace. -/
theorem open_of_proper_prefix {props : List (JsString × Value)} {proto : Value} {p : List Char}
    (hp : p <+: (Value.obj props proto).text) (hne : p ≠ [])
    (hproper : p ≠ (Value.obj props proto).text) : 0 < (scan (.plain, 0) p).2 := by
  have hbalanced : Balanced (propsNesting props) (propsText props) := by
    rw [propsText_eq]
    exact balanced_separated (balanced_props props)
  exact Balanced.open_of_prefix (l := '{') (r := '}') (fun _ => rfl) hbalanced hp hne hproper

/-- So has text that is cut within a character, which is not the brace at the end. -/
theorem open_of_cut_character {props : List (JsString × Value)} {proto : Value} {p : List Char}
    {c : Char} (hp : p ++ [c] <+: (Value.obj props proto).text) (hc : 0xFFFF < c.toNat) :
    0 < (scan (.plain, 0) (p ++ ['\uFFFD'])).2 := by
  have hproper : p ++ [c] ≠ (Value.obj props proto).text := by
    intro hwhole
    have htext : (Value.obj props proto).text = ('{' :: propsText props) ++ ['}'] := rfl
    rw [htext] at hwhole
    have hlast : [c] = ['}'] := (List.append_inj' hwhole rfl).2
    rw [(List.cons.inj hlast).1] at hc
    exact absurd hc (by decide)
  have hopen := open_of_proper_prefix hp (by simp) hproper
  rwa [scan_append, scan_cons, scanChar_astral hc, ← scan_cons, ← scan_append] at hopen

/-- A slice of the text of an object is a document only where it is the whole text. -/
theorem document_takeUnits {D : Dialect} {props : List (JsString × Value)} {proto : Value} {n d : ℕ}
    (hn : 0 < n) : Document D d (takeUnits (Value.obj props proto).text n) ↔
      ((Value.obj props proto).text.map codeUnits).sum ≤ n ∧
        (Value.obj props proto).nesting ≤ d ∧ (Value.obj props proto).Taken D := by
  by_cases hle : ((Value.obj props proto).text.map codeUnits).sum ≤ n
  · rw [takeUnits_of_le hle, document_text, and_iff_right hle]
  · refine iff_of_false (fun hdocument => ?_) fun h => hle h.1
    have hclosed := hdocument.balanced.returns 0
    have hopen : 0 < (scan (.plain, 0) (takeUnits (Value.obj props proto).text n)).2 := by
      rcases takeUnits_cases (Value.obj props proto).text n with hp | ⟨p, c, hp, hc, heq⟩
      · apply open_of_proper_prefix hp
        · obtain ⟨m, rfl⟩ := Nat.exists_eq_add_one.mpr hn
          simp [text, takeUnits]
        · intro heq
          have hunits := units_takeUnits (Value.obj props proto).text n
          rw [heq] at hunits
          exact hle hunits
      · rw [heq]
        exact open_of_cut_character hp hc
    rw [hclosed] at hopen
    exact lt_irrefl 0 hopen

end Slices

end Value

end Js
