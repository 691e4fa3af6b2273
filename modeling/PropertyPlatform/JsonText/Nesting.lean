import PropertyPlatform.JsonText.Grammar

/-!
# How deep a text is inside arrays and objects

A scan that only knows about quotes and brackets follows any JSON text. It is back at its start
at the end of a document and nowhere else in an array or object, so a document that is cut short
is not one.
-/

namespace JsonText

inductive Mode where
  | plain
  | inString
  | escaped
  deriving DecidableEq

/-- The mode and the number of open brackets after one more character. -/
def scanChar : Mode × ℕ → Char → Mode × ℕ
  | (.plain, n), c =>
    if c = '"' then (.inString, n)
    else if c = '[' ∨ c = '{' then (.plain, n + 1)
    else if c = ']' ∨ c = '}' then (.plain, n - 1)
    else (.plain, n)
  | (.inString, n), c =>
    if c = '\\' then (.escaped, n)
    else if c = '"' then (.plain, n)
    else (.inString, n)
  | (.escaped, n), _ => (.inString, n)

def scan (s : Mode × ℕ) (t : List Char) : Mode × ℕ := t.foldl scanChar s

theorem scan_append (s : Mode × ℕ) (t u : List Char) : scan s (t ++ u) = scan (scan s t) u :=
  List.foldl_append

@[simp] theorem scan_nil (s : Mode × ℕ) : scan s [] = s := rfl

theorem scan_cons (s : Mode × ℕ) (c : Char) (t : List Char) :
    scan s (c :: t) = scan (scanChar s c) t := rfl

theorem prefix_append_cases {p t u : List Char} (h : p <+: t ++ u) :
    p <+: t ∨ ∃ q, q <+: u ∧ p = t ++ q := by
  obtain ⟨r, hr⟩ := h
  rcases List.append_eq_append_iff.mp hr with ⟨s, ht, -⟩ | ⟨s, hp, hu⟩
  · exact Or.inl ⟨s, ht.symm⟩
  · exact Or.inr ⟨s, ⟨r, hu.symm⟩, hp⟩

theorem prefix_singleton_cases {p : List Char} {c : Char} (h : p <+: [c]) : p = [] ∨ p = [c] := by
  rcases List.prefix_cons_iff.mp h with rfl | ⟨q, rfl, hq⟩
  · exact Or.inl rfl
  · exact Or.inr (by rw [List.prefix_nil.mp hq])

/-- At any level a text stays within `d` levels above it and ends where it began. -/
structure Balanced (d : ℕ) (t : List Char) : Prop where
  returns : ∀ n, scan (.plain, n) t = (.plain, n)
  within : ∀ n p, p <+: t → n ≤ (scan (.plain, n) p).2 ∧ (scan (.plain, n) p).2 ≤ n + d

namespace Balanced

variable {d d' : ℕ} {t u : List Char} {c : Char}

theorem nil : Balanced d [] where
  returns _ := rfl
  within n p hp := by simp [List.prefix_nil.mp hp]

theorem append (ht : Balanced d t) (hu : Balanced d u) : Balanced d (t ++ u) where
  returns n := by rw [scan_append, ht.returns, hu.returns]
  within n p hp := by
    rcases prefix_append_cases hp with hp | ⟨q, hq, rfl⟩
    · exact ht.within n p hp
    · rw [scan_append, ht.returns]
      exact hu.within n q hq

theorem mono (h : Balanced d t) (hd : d ≤ d') : Balanced d' t where
  returns := h.returns
  within n p hp := by
    have := h.within n p hp
    omega

/-- A character that is neither a quote nor a bracket. -/
theorem singleton (hc : ∀ n, scanChar (.plain, n) c = (.plain, n)) : Balanced d [c] where
  returns n := hc n
  within n p hp := by
    rcases prefix_singleton_cases hp with rfl | rfl
    · simp
    · simp [scan_cons, hc]

theorem of_plain (h : ∀ c ∈ t, ∀ n, scanChar (.plain, n) c = (.plain, n)) : Balanced d t := by
  induction t with
  | nil => exact nil
  | cons c t ih =>
    exact (singleton (h c List.mem_cons_self)).append
      (ih fun x hx => h x (List.mem_cons_of_mem _ hx))

theorem wrap {l r : Char} (hl : ∀ n, scanChar (.plain, n) l = (.plain, n + 1))
    (hr : ∀ n, scanChar (.plain, n + 1) r = (.plain, n)) (h : Balanced d t) :
    Balanced (d + 1) (l :: (t ++ [r])) where
  returns n := by
    rw [scan_cons, hl, scan_append, h.returns, scan_cons, hr]
    rfl
  within n p hp := by
    rcases List.prefix_cons_iff.mp hp with rfl | ⟨q, rfl, hq⟩
    · simp
    · rw [scan_cons, hl]
      rcases prefix_append_cases hq with hq | ⟨s, hs, rfl⟩
      · have := h.within (n + 1) q hq
        omega
      · rw [scan_append, h.returns]
        rcases prefix_singleton_cases hs with rfl | rfl
        · simp
        · simp [scan_cons, hr]

/-- Inside the brackets the level does not come back before the last character. -/
theorem open_of_prefix {l r : Char} (hl : ∀ n, scanChar (.plain, n) l = (.plain, n + 1))
    (h : Balanced d t) {p : List Char} (hp : p <+: l :: (t ++ [r])) (hne : p ≠ [])
    (hproper : p ≠ l :: (t ++ [r])) : 0 < (scan (.plain, 0) p).2 := by
  rcases List.prefix_cons_iff.mp hp with rfl | ⟨q, rfl, hq⟩
  · exact (hne rfl).elim
  · rw [scan_cons, hl]
    rcases prefix_append_cases hq with hq | ⟨s, hs, rfl⟩
    · have := h.within (0 + 1) q hq
      omega
    · rcases prefix_singleton_cases hs with rfl | rfl
      · rw [List.append_nil, h.returns]
        exact Nat.one_pos
      · exact (hproper rfl).elim

end Balanced

/-- Inside a string a text keeps to the level and ends inside the string. -/
structure InString (t : List Char) : Prop where
  returns : ∀ n, scan (.inString, n) t = (.inString, n)
  level : ∀ n p, p <+: t → (scan (.inString, n) p).2 = n

namespace InString

variable {t u : List Char} {c : Char}

theorem nil : InString [] where
  returns _ := rfl
  level n p hp := by simp [List.prefix_nil.mp hp]

theorem append (ht : InString t) (hu : InString u) : InString (t ++ u) where
  returns n := by rw [scan_append, ht.returns, hu.returns]
  level n p hp := by
    rcases prefix_append_cases hp with hp | ⟨q, hq, rfl⟩
    · exact ht.level n p hp
    · rw [scan_append, ht.returns]
      exact hu.level n q hq

theorem singleton (hquote : c ≠ '"') (hslash : c ≠ '\\') : InString [c] where
  returns n := by simp [scan_cons, scanChar, hquote, hslash]
  level n p hp := by
    rcases prefix_singleton_cases hp with rfl | rfl <;>
      simp [scan_cons, scanChar, hquote, hslash]

theorem escape (c : Char) : InString ['\\', c] where
  returns _ := rfl
  level n p hp := by
    rcases List.prefix_cons_iff.mp hp with rfl | ⟨q, rfl, hq⟩
    · rfl
    · rcases prefix_singleton_cases hq with rfl | rfl <;> rfl

theorem of_body (h : Body t) : InString t := by
  induction h with
  | nil => exact nil
  | plain hquote hslash ht ih => exact (singleton hquote hslash).append ih
  | escape ht ih => exact (escape _).append ih

end InString

section Grammar

variable {D : Dialect} {d : ℕ} {t : List Char}

/-- The characters that the scan passes over outside strings. -/
def Unmarked (c : Char) : Prop := c ≠ '"' ∧ ¬ (c = '[' ∨ c = '{') ∧ ¬ (c = ']' ∨ c = '}')

theorem Unmarked.scanChar {c : Char} (h : Unmarked c) (n : ℕ) :
    scanChar (.plain, n) c = (.plain, n) := by
  simp [JsonText.scanChar, h.1, h.2.1, h.2.2]

theorem unmarked_of_isDigit {c : Char} (h : c.isDigit = true) : Unmarked c := by
  refine ⟨?_, ?_, ?_⟩
  · rintro rfl
    cases h
  · rintro (rfl | rfl) <;> cases h
  · rintro (rfl | rfl) <;> cases h

theorem balanced_of_unmarked (h : ∀ c ∈ t, Unmarked c) : Balanced d t :=
  Balanced.of_plain fun c hc => (h c hc).scanChar

theorem Ws.balanced (h : Ws t) : Balanced d t := by
  refine balanced_of_unmarked fun c hc => ?_
  rcases h c hc with rfl | rfl | rfl | rfl <;> (unfold Unmarked; decide)

theorem Number.balanced (h : Number t) : Balanced d t := by
  have hdigits : ∀ {t}, Digits t → Balanced d t := fun h =>
    balanced_of_unmarked fun c hc => unmarked_of_isDigit (h.2 c hc)
  have hone : ∀ c, Unmarked c → Balanced d [c] := fun c hc =>
    balanced_of_unmarked (by simpa using hc)
  obtain ⟨hminus, hi, hf, he⟩ := h
  refine Balanced.append ?_ (Balanced.append ?_ (Balanced.append ?_ ?_))
  · rcases hminus with rfl | rfl
    · exact .nil
    · exact hone _ (by unfold Unmarked; decide)
  · cases hi with
    | zero => exact hone _ (by unfold Unmarked; decide)
    | positive hc hpos ht =>
      exact (hone _ (unmarked_of_isDigit hc)).append
        (balanced_of_unmarked fun c hc => unmarked_of_isDigit (ht c hc))
  · cases hf with
    | absent => exact .nil
    | present h => exact (hone '.' (by unfold Unmarked; decide)).append (hdigits h)
  · cases he with
    | absent => exact .nil
    | present he hsign h =>
      refine (hone _ ?_).append (Balanced.append ?_ (hdigits h))
      · rcases he with rfl | rfl <;> (unfold Unmarked; decide)
      · rcases hsign with rfl | rfl | rfl
        · exact .nil
        · exact hone _ (by unfold Unmarked; decide)
        · exact hone _ (by unfold Unmarked; decide)

theorem Body.balanced (h : Body t) : Balanced d (quoted t) where
  returns n := by
    rw [quoted, scan_cons, scan_append]
    change scan (scan (.inString, n) t) ['"'] = _
    rw [(InString.of_body h).returns]
    rfl
  within n p hp := by
    rcases List.prefix_cons_iff.mp hp with rfl | ⟨q, rfl, hq⟩
    · simp
    · rw [scan_cons]
      change n ≤ (scan (.inString, n) q).2 ∧ (scan (.inString, n) q).2 ≤ n + d
      rcases prefix_append_cases hq with hq | ⟨s, hs, rfl⟩
      · rw [(InString.of_body h).level n q hq]
        simp
      · rw [scan_append, (InString.of_body h).returns]
        rcases prefix_singleton_cases hs with rfl | rfl
        · simp
        · simp [scan_cons, JsonText.scanChar]

theorem balanced_separated {texts : List (List Char)} (h : ∀ t ∈ texts, Balanced d t) :
    Balanced d (separated texts) := by
  fun_induction separated texts with
  | case1 => exact .nil
  | case2 t => exact h t List.mem_cons_self
  | case3 t u rest ih =>
    have hcomma : Balanced d [','] := balanced_of_unmarked (by simp [Unmarked])
    exact (h t List.mem_cons_self).append
      (hcomma.append (ih fun x hx => h x (List.mem_cons_of_mem _ hx)))

theorem Item.balanced {x : Item} (hx : x.Spaced) (hv : Balanced d x.value) : Balanced d x.text :=
  hx.1.balanced.append (hv.append hx.2.balanced)

theorem Member.balanced {x : Member} (hx : x.Spaced) (hkey : Body x.key)
    (hv : Balanced d x.item.value) : Balanced d x.text := by
  have hcolon : Balanced d [':'] := balanced_of_unmarked (by simp [Unmarked])
  exact hx.1.balanced.append (hkey.balanced.append (hx.2.1.balanced.append
    (hcolon.append (Item.balanced hx.2.2 hv))))

theorem Value.balanced (h : Value D d t) : Balanced d t := by
  have hword : ∀ {d : ℕ} {t : List Char}, (∀ c ∈ t, Unmarked c) → Balanced d t :=
    balanced_of_unmarked
  induction h with
  | null d => exact hword (by simp [Unmarked])
  | true d => exact hword (by simp [Unmarked])
  | false d => exact hword (by simp [Unmarked])
  | number d h => exact h.balanced
  | string d h => exact (D.body_of_string h).balanced
  | emptyArray d h => exact h.balanced.wrap (fun _ => rfl) fun _ => rfl
  | array items hne hspaced hvalues ih =>
    refine Balanced.wrap (fun _ => rfl) (fun _ => rfl) (balanced_separated fun t ht => ?_)
    obtain ⟨x, hx, rfl⟩ := List.mem_map.mp ht
    exact Item.balanced (hspaced x hx) (ih x hx)
  | emptyObject d h => exact h.balanced.wrap (fun _ => rfl) fun _ => rfl
  | object members hne hspaced hkeys hvalues ih =>
    refine Balanced.wrap (fun _ => rfl) (fun _ => rfl) (balanced_separated fun t ht => ?_)
    obtain ⟨x, hx, rfl⟩ := List.mem_map.mp ht
    have hkey := D.body_of_string (D.string_of_key (hkeys x hx))
    exact Member.balanced (hspaced x hx) hkey (ih x hx)

/-- Some prefix of the text is `m` levels further in. -/
def Reaches (m : ℕ) (t : List Char) : Prop :=
  ∃ p, p <+: t ∧ ∀ n, (scan (.plain, n) p).2 = n + m

namespace Reaches

variable {m : ℕ} {u : List Char}

theorem zero : Reaches 0 t := ⟨[], List.nil_prefix, fun _ => rfl⟩

theorem append_right (h : Reaches m t) : Reaches m (t ++ u) :=
  h.imp fun _ hp => ⟨hp.1.trans (List.prefix_append t u), hp.2⟩

theorem append_left (ht : Balanced d t) (h : Reaches m u) : Reaches m (t ++ u) := by
  obtain ⟨p, hp, hlevel⟩ := h
  refine ⟨t ++ p, (List.prefix_append_right_inj t).mpr hp, fun n => ?_⟩
  rw [scan_append, ht.returns, hlevel]

theorem wrap {l : Char} (hl : ∀ n, scanChar (.plain, n) l = (.plain, n + 1)) (h : Reaches m t) :
    Reaches (m + 1) (l :: (t ++ u)) := by
  obtain ⟨p, hp, hlevel⟩ := h
  refine ⟨l :: p, List.prefix_cons_iff.mpr (Or.inr ⟨p, rfl, hp.trans (List.prefix_append t u)⟩),
    fun n => ?_⟩
  rw [scan_cons, hl, hlevel]
  omega

theorem separated {texts : List (List Char)} (hb : ∀ t ∈ texts, Balanced d t) (ht : t ∈ texts)
    (h : Reaches m t) : Reaches m (separated texts) := by
  fun_induction JsonText.separated texts with
  | case1 => cases ht
  | case2 t' => rwa [← List.mem_singleton.mp ht]
  | case3 t' u rest ih =>
    rcases List.mem_cons.mp ht with heq | ht
    · exact heq ▸ h.append_right
    · have hcomma : Balanced d [','] := balanced_of_unmarked (by simp [Unmarked])
      have hrest := ih (fun x hx => hb x (List.mem_cons_of_mem _ hx)) ht
      exact append_left (hb t' List.mem_cons_self) (append_left hcomma hrest)

theorem le (h : Reaches m t) (hb : Balanced d t) : m ≤ d := by
  obtain ⟨p, hp, hlevel⟩ := h
  have hbound := (hb.within 0 p hp).2
  rw [hlevel 0] at hbound
  omega

end Reaches

theorem Document.balanced (h : Document D d t) : Balanced d t := by
  obtain ⟨w, v, w', hw, hv, hw', rfl⟩ := h
  exact hw.balanced.append (hv.balanced.append hw'.balanced)

end Grammar

end JsonText
