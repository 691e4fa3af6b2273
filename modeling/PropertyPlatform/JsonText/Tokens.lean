import Mathlib.Data.List.Chain
import PropertyPlatform.JsonText.Grammar

/-!
# The strings and keys of a text

A text is read into its strings and the marks between them. The tokens of a document show which
strings it has and which of them are keys, and a text has only one reading, so a text with a
string that a reader does not take is no document for this reader.
-/

namespace JsonText

inductive Token where
  | quoted (body : List Char)
  | mark (c : Char)

def isWs (c : Char) : Bool := [' ', '\t', '\n', '\r'].contains c

mutual

/-- The tokens of a text that begins outside strings. -/
def tokens : List Char → List Token
  | [] => []
  | c :: t =>
    if c = '"' then tokensWithin false [] t
    else if isWs c then tokens t
    else .mark c :: tokens t

/-- Those of a text that begins within a string of which `body` is read; the flag says that the
last character was a backslash that escapes the next one. -/
def tokensWithin (escaped : Bool) (body : List Char) : List Char → List Token
  | [] => []
  | c :: t =>
    if escaped then tokensWithin false (body ++ [c]) t
    else if c = '"' then .quoted body :: tokens t
    else tokensWithin (decide (c = '\\')) (body ++ [c]) t

end

theorem tokensWithin_body {s : List Char} (h : Body s) (body t : List Char) :
    tokensWithin false body (s ++ '"' :: t) = .quoted (body ++ s) :: tokens t := by
  induction h generalizing body with
  | nil => simp [tokensWithin]
  | @plain c s hquote hslash hs ih =>
    rw [List.cons_append, tokensWithin, if_neg Bool.false_ne_true, if_neg hquote,
      decide_eq_false hslash, ih, List.append_assoc, List.singleton_append]
  | @escape c s hs ih =>
    have hslash : ('\\' : Char) ≠ '"' := by decide
    rw [List.cons_append, List.cons_append, tokensWithin, if_neg Bool.false_ne_true,
      if_neg hslash, decide_eq_true rfl, tokensWithin, if_pos rfl, ih, List.append_assoc,
      List.append_assoc]
    rfl

/-- Outside strings the text is read into these tokens, whatever follows it. -/
def Lexes (t : List Char) (l : List Token) : Prop := ∀ u, tokens (t ++ u) = l ++ tokens u

namespace Lexes

variable {t u : List Char} {l m : List Token}

theorem nil : Lexes [] [] := fun _ => rfl

theorem append (ht : Lexes t l) (hu : Lexes u m) : Lexes (t ++ u) (l ++ m) := by
  intro v
  rw [List.append_assoc, ht, hu, List.append_assoc]

theorem quoted (h : Body t) : Lexes (quoted t) [.quoted t] := by
  intro u
  have hwithin := tokensWithin_body h [] u
  rw [JsonText.quoted, List.cons_append, List.append_assoc, tokens, if_pos rfl]
  exact hwithin

/-- A text without quotes has only marks. -/
theorem of_unquoted (h : '"' ∉ t) : Lexes t ((t.filter fun c => !isWs c).map .mark) := by
  intro u
  induction t with
  | nil => rfl
  | cons c t ih =>
    have hc : c ≠ '"' := fun heq => h (heq ▸ List.mem_cons_self)
    have hrest := ih fun ht => h (List.mem_cons_of_mem _ ht)
    rw [List.cons_append, tokens, if_neg hc, hrest]
    cases hc : isWs c <;> simp [hc]

theorem ws (h : Ws t) : Lexes t [] := by
  have hall : ∀ c ∈ t, isWs c = true := by
    intro c hc
    rcases h c hc with rfl | rfl | rfl | rfl <;> decide
  have hnone : (t.filter fun c => !isWs c) = [] := by
    apply List.filter_eq_nil_iff.mpr
    intro c hc
    simp [hall c hc]
  have hunquoted : '"' ∉ t := fun hquote => absurd (hall _ hquote) (by decide)
  have hlexes := of_unquoted hunquoted
  rwa [hnone] at hlexes

theorem mark {c : Char} (hquote : c ≠ '"') (hws : isWs c = false) : Lexes [c] [.mark c] := by
  intro u
  rw [List.singleton_append, tokens, if_neg hquote, hws]
  rfl

theorem wrap {a b : Char} (ha : a ≠ '"' ∧ isWs a = false) (hb : b ≠ '"' ∧ isWs b = false)
    (h : Lexes t l) : Lexes (a :: (t ++ [b])) (.mark a :: (l ++ [.mark b])) :=
  (mark ha.1 ha.2).append (h.append (mark hb.1 hb.2))

theorem comma (ht : Lexes t l) (hu : Lexes u m) : Lexes (t ++ ',' :: u) (l ++ .mark ',' :: m) := by
  have hcomma : Lexes [','] [.mark ','] := mark (by decide) (by decide)
  exact ht.append (hcomma.append hu)

theorem colon (ht : Lexes t l) (hu : Lexes u m) : Lexes (t ++ ':' :: u) (l ++ .mark ':' :: m) := by
  have hcolon : Lexes [':'] [.mark ':'] := mark (by decide) (by decide)
  exact ht.append (hcolon.append hu)

/-- A text has one reading. -/
theorem unique (ht : Lexes t l) (ht' : Lexes t m) : l = m := by
  have heq := (ht []).symm.trans (ht' [])
  simpa [tokens] using heq

end Lexes

/-- The reader takes the strings among the tokens, and as keys those with a colon after them. -/
structure Accepted (D : Dialect) (l : List Token) : Prop where
  strings : ∀ b, .quoted b ∈ l → D.string b
  keys : l.IsChain fun x y => ∀ b, x = .quoted b → y = .mark ':' → D.key b

namespace Accepted

variable {D : Dialect} {l m : List Token} {b : List Char}

theorem marks (t : List Char) : Accepted D (t.map .mark) where
  strings b hb := by simp at hb
  keys := by
    apply (List.isChain_map _).mpr
    apply List.Pairwise.isChain
    apply List.pairwise_of_forall
    intro x y b hb
    cases hb

theorem string (h : D.string b) : Accepted D [.quoted b] where
  strings b' hb' := by
    rw [List.mem_singleton] at hb'
    exact Token.quoted.inj hb' ▸ h
  keys := .singleton _

theorem append (hl : Accepted D l) (hm : Accepted D m)
    (hjoin : ∀ b, .quoted b ∈ l.getLast? → .mark ':' ∈ m.head? → D.key b) :
    Accepted D (l ++ m) where
  strings b hb := (List.mem_append.mp hb).elim (hl.strings b) (hm.strings b)
  keys := by
    apply List.isChain_append.mpr
    refine ⟨hl.keys, hm.keys, fun x hx y hy b hxb hyc => ?_⟩
    exact hjoin b (hxb ▸ hx) (hyc ▸ hy)

theorem cons_mark (c : Char) (h : Accepted D l) : Accepted D (.mark c :: l) := by
  apply append (marks [c]) h
  intro b hb
  simp at hb

theorem append_mark {c : Char} (hl : Accepted D l) (hc : c ≠ ':') (hm : Accepted D m) :
    Accepted D (l ++ .mark c :: m) := by
  apply append hl (hm.cons_mark c)
  intro b _ hcolon
  simp [hc] at hcolon

theorem key (h : D.key b) (hl : Accepted D l) : Accepted D (.quoted b :: .mark ':' :: l) := by
  apply append (string (D.string_of_key h)) (hl.cons_mark ':')
  intro b' hb' _
  simp only [List.getLast?_singleton, Option.mem_some_iff] at hb'
  exact Token.quoted.inj hb' ▸ h

theorem of_isInfix (h : Accepted D l) (hm : m <:+: l) : Accepted D m where
  strings b hb := h.strings b (hm.subset hb)
  keys := by
    obtain ⟨s, t, rfl⟩ := hm
    exact h.keys.left_of_append.right_of_append

theorem key_of_colon (h : Accepted D (.quoted b :: .mark ':' :: l)) : D.key b :=
  (List.isChain_cons_cons.mp h.keys).1 b rfl rfl

end Accepted

section Grammar

variable {D : Dialect} {d : ℕ} {t : List Char}

/-- The text is read into tokens that the reader takes. -/
def Readable (D : Dialect) (t : List Char) : Prop := ∃ l, Lexes t l ∧ Accepted D l

theorem Readable.of_unquoted (h : '"' ∉ t) : Readable D t :=
  ⟨_, Lexes.of_unquoted h, .marks _⟩

theorem Readable.spaced {w w' : List Char} (hw : Ws w) (h : Readable D t) (hw' : Ws w') :
    Readable D (w ++ (t ++ w')) := by
  obtain ⟨l, hl, haccepted⟩ := h
  have hspaced := (Lexes.ws hw).append (hl.append (.ws hw'))
  rw [List.nil_append, List.append_nil] at hspaced
  exact ⟨l, hspaced, haccepted⟩

theorem Readable.wrap {a b : Char} (ha : a ≠ '"' ∧ isWs a = false)
    (hb : (b ≠ '"' ∧ isWs b = false) ∧ b ≠ ':') (h : Readable D t) :
    Readable D (a :: (t ++ [b])) := by
  obtain ⟨l, hl, haccepted⟩ := h
  have hmarks : Accepted D (.mark a :: (l ++ [.mark b])) :=
    (haccepted.append_mark hb.2 (.marks [])).cons_mark a
  exact ⟨_, hl.wrap ha hb.1, hmarks⟩

theorem readable_separated {texts : List (List Char)} (h : ∀ t ∈ texts, Readable D t) :
    Readable D (separated texts) := by
  fun_induction separated texts with
  | case1 => exact ⟨[], .nil, .marks []⟩
  | case2 t => exact h t List.mem_cons_self
  | case3 t u rest ih =>
    obtain ⟨l, hl, hfirst⟩ := h t List.mem_cons_self
    obtain ⟨m, hm, hrest⟩ := ih fun x hx => h x (List.mem_cons_of_mem _ hx)
    exact ⟨_, hl.comma hm, hfirst.append_mark (by decide) hrest⟩

theorem Item.readable {x : Item} (hx : x.Spaced) (h : Readable D x.value) : Readable D x.text :=
  h.spaced hx.1 hx.2

theorem Member.readable {x : Member} (hx : x.Spaced) (hkey : D.key x.key)
    (h : Readable D x.item.value) : Readable D x.text := by
  obtain ⟨l, hl, haccepted⟩ := Item.readable hx.2.2 h
  have hquoted := Lexes.quoted (D.body_of_string (D.string_of_key hkey))
  have htext := (Lexes.ws hx.1).append (hquoted.append ((Lexes.ws hx.2.1).colon hl))
  exact ⟨_, htext, haccepted.key hkey⟩

theorem unquoted_of_digits (h : ∀ c ∈ t, c.isDigit = true) : '"' ∉ t :=
  fun hquote => absurd (h _ hquote) (by decide)

theorem Number.unquoted (h : Number t) : '"' ∉ t := by
  obtain ⟨hminus, hi, hf, he⟩ := h
  simp only [List.mem_append, not_or]
  refine ⟨?_, ?_, ?_, ?_⟩
  · rcases hminus with rfl | rfl <;> decide
  · cases hi with
    | zero => decide
    | positive hc hpos ht =>
      exact unquoted_of_digits (List.forall_mem_cons.mpr ⟨hc, ht⟩)
  · cases hf with
    | absent => decide
    | present h => exact List.not_mem_cons_of_ne_of_not_mem (by decide) (unquoted_of_digits h.2)
  · cases he with
    | absent => decide
    | present hletter hsign h =>
      simp only [List.mem_cons, List.mem_append, not_or]
      refine ⟨?_, ?_, unquoted_of_digits h.2⟩
      · rcases hletter with rfl | rfl <;> decide
      · rcases hsign with rfl | rfl | rfl <;> decide

theorem Value.readable (h : Value D d t) : Readable D t := by
  induction h with
  | null d => exact .of_unquoted (by decide)
  | true d => exact .of_unquoted (by decide)
  | false d => exact .of_unquoted (by decide)
  | number d h => exact .of_unquoted h.unquoted
  | string d h => exact ⟨_, .quoted (D.body_of_string h), .string h⟩
  | emptyArray d h => exact Readable.wrap (by decide) (by decide) ⟨[], .ws h, .marks []⟩
  | array items hne hspaced hvalues ih =>
    apply Readable.wrap (by decide) (by decide)
    apply readable_separated
    intro t ht
    obtain ⟨x, hx, rfl⟩ := List.mem_map.mp ht
    exact Item.readable (hspaced x hx) (ih x hx)
  | emptyObject d h => exact Readable.wrap (by decide) (by decide) ⟨[], .ws h, .marks []⟩
  | object members hne hspaced hkeys hvalues ih =>
    apply Readable.wrap (by decide) (by decide)
    apply readable_separated
    intro t ht
    obtain ⟨x, hx, rfl⟩ := List.mem_map.mp ht
    exact Member.readable (hspaced x hx) (hkeys x hx) (ih x hx)

/-- In a document the reader takes every string and every key. -/
theorem Document.accepted (h : Document D d t) {l : List Token} (ht : Lexes t l) :
    Accepted D l := by
  obtain ⟨w, v, w', hw, hv, hw', rfl⟩ := h
  obtain ⟨m, hm, haccepted⟩ := hv.readable.spaced hw hw'
  rwa [ht.unique hm]

end Grammar

end JsonText
