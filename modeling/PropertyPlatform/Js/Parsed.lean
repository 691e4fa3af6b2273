import PropertyPlatform.Js.Strings

/-!
# The values of `JSON.parse`

A parsed object has its own properties in the order in which every object lists them, and the
prototype of an object literal. Assigning further keys in that order appends them.
-/

namespace Js

namespace Value

section Keys

/-- An object lists the first key before the second: array indices ascending, then the rest. -/
def keyBefore (k l : JsString) : Bool :=
  match arrayIndex? k, arrayIndex? l with
  | some i, some j => decide (i < j)
  | some _, none => true
  | none, some _ => false
  | none, none => k != l

def Ordered (props : List (JsString × Value)) : Prop :=
  props.Pairwise fun x y => keyBefore x.1 y.1 = true

instance (props : List (JsString × Value)) : Decidable (Ordered props) :=
  inferInstanceAs (Decidable (props.Pairwise _))

variable {k l : JsString} {v : Value} {props : List (JsString × Value)}

theorem keyBefore_ne (h : keyBefore k l = true) : k ≠ l := by
  rintro rfl
  unfold keyBefore at h
  cases harray : arrayIndex? k <;> simp [harray] at h

/-- Keys that spell the same index are equal. -/
theorem arrayIndex?_injective {i : ℕ} (hk : arrayIndex? k = some i) (hl : arrayIndex? l = some i) :
    k = l := by
  have hdigits : ∀ {s : JsString}, arrayIndex? s = some i →
      ∃ t : String, s = t ∧ Nat.toDigits 10 i = t.toList := by
    intro s hs
    cases s with
    | illFormed s => cases hs
    | wellFormed t =>
      unfold arrayIndex? at hs
      simp only [Bool.and_eq_true, beq_iff_eq, Option.ite_none_right_eq_some,
        Option.some.injEq] at hs
      refine ⟨t, rfl, ?_⟩
      rw [← hs.2]
      exact hs.1.1.2
  obtain ⟨s, rfl, hs⟩ := hdigits hk
  obtain ⟨t, rfl, ht⟩ := hdigits hl
  exact congrArg JsString.wellFormed (String.toList_injective (hs.symm.trans ht))

theorem keyBefore_of_not (hne : k ≠ l) (h : keyBefore k l = false) : keyBefore l k = true := by
  unfold keyBefore at h ⊢
  cases hk : arrayIndex? k <;> cases hl : arrayIndex? l <;> simp_all
  next i j =>
    rcases Nat.lt_or_eq_of_le h with hlt | rfl
    · exact hlt
    · exact absurd (arrayIndex?_injective hk hl) hne

theorem ordered_iff : Ordered props ↔
    (props.map Prod.fst).Pairwise fun k l => keyBefore k l = true := by
  rw [List.pairwise_map]
  rfl

theorem Ordered.nodup (h : Ordered props) : (props.map Prod.fst).Nodup :=
  (ordered_iff.mp h).imp keyBefore_ne

theorem keyBefore_trans {m : JsString} (hkl : keyBefore k l = true) (hlm : keyBefore l m = true)
    (hne : k ≠ m) : keyBefore k m = true := by
  unfold keyBefore at hkl hlm ⊢
  cases hk : arrayIndex? k <;> cases hl : arrayIndex? l <;> cases hm : arrayIndex? m <;>
    simp_all
  omega

/-- A new key goes behind the keys that are listed before it. -/
theorem assign_cons {w : Value} (hne : l ≠ k) : assign k v ((l, w) :: props) =
    if keyBefore l k then (l, w) :: assign k v props else (k, v) :: (l, w) :: props := by
  have hindex : ∀ {i : ℕ}, arrayIndex? k = some i → arrayIndex? l ≠ some i := fun hk hl =>
    hne (arrayIndex?_injective hl hk)
  rw [assign, if_neg hne]
  unfold keyBefore
  cases hk : arrayIndex? k with
  | none => cases hl : arrayIndex? l <;> simp [hne]
  | some i =>
    cases hl : arrayIndex? l with
    | none => simp
    | some j =>
      have hij : i ≠ j := fun h => hindex hk (h ▸ hl)
      rcases Nat.lt_or_gt_of_ne hij with hlt | hgt
      · simp [hlt, Nat.not_lt_of_gt hlt]
      · simp [hgt, Nat.not_lt_of_gt hgt]

/-- A key after all others is appended. -/
theorem assign_append (h : ∀ x ∈ props, keyBefore x.1 k = true) :
    assign k v props = props ++ [(k, v)] := by
  induction props with
  | nil => rfl
  | cons x rest ih =>
    have hx := h x List.mem_cons_self
    have hrest := ih fun y hy => h y (List.mem_cons_of_mem _ hy)
    rw [assign_cons (keyBefore_ne hx), if_pos hx, hrest, List.cons_append]

theorem mem_assign {x : JsString × Value} (h : x ∈ assign k v props) : x = (k, v) ∨ x ∈ props := by
  fun_induction assign k v props with
  | case1 => exact .inl (List.mem_singleton.mp h)
  | case2 w rest => exact (List.mem_cons.mp h).imp_right (List.mem_cons_of_mem _)
  | case3 | case5 => exact List.mem_cons.mp h
  | case4 l w rest _ i j _ _ _ ih | case6 l w rest _ _ ih =>
    rcases List.mem_cons.mp h with rfl | h
    · exact .inr List.mem_cons_self
    · exact (ih h).imp_right (List.mem_cons_of_mem _)

theorem length_assign_le (k : JsString) (v : Value) (props : List (JsString × Value)) :
    (assign k v props).length ≤ props.length + 1 := by
  fun_induction assign k v props with
  | case4 _ _ _ _ _ _ _ _ _ ih | case6 _ _ _ _ _ ih => exact Nat.succ_le_succ ih
  | _ => simp

/-- Assignment keeps the order. -/
theorem ordered_assign (h : Ordered props) : Ordered (assign k v props) := by
  induction props with
  | nil => exact List.pairwise_singleton _ _
  | cons x rest ih =>
    obtain ⟨l, w⟩ := x
    obtain ⟨hfirst, hrest⟩ := List.pairwise_cons.mp h
    by_cases hne : l = k
    · subst hne
      rw [assign, if_pos rfl]
      exact List.pairwise_cons.mpr ⟨hfirst, hrest⟩
    rw [assign_cons hne]
    split_ifs with hbefore
    · refine List.pairwise_cons.mpr ⟨fun y hy => ?_, ih hrest⟩
      rcases mem_assign hy with rfl | hy
      · exact hbefore
      · exact hfirst y hy
    · have hkl := keyBefore_of_not hne (Bool.not_eq_true _ ▸ hbefore)
      refine List.pairwise_cons.mpr ⟨fun y hy => ?_, h⟩
      rcases List.mem_cons.mp hy with rfl | hy
      · exact hkl
      · apply keyBefore_trans hkl (hfirst y hy)
        intro heq
        apply hbefore
        rw [heq]
        exact hfirst y hy

theorem ordered_foldl_assign (xs : List (JsString × Value)) (h : Ordered props) :
    Ordered (xs.foldl (fun out x => assign x.1 x.2 out) props) := by
  induction xs generalizing props with
  | nil => exact h
  | cons x xs ih => exact ih (ordered_assign h)

theorem mem_foldl_assign {xs : List (JsString × Value)} {x : JsString × Value}
    (h : x ∈ xs.foldl (fun out x => assign x.1 x.2 out) props) : x ∈ xs ∨ x ∈ props := by
  induction xs generalizing props with
  | nil => exact .inr h
  | cons y xs ih =>
    rcases ih h with h | h
    · exact .inl (List.mem_cons_of_mem _ h)
    · rcases mem_assign h with rfl | h
      · exact .inl List.mem_cons_self
      · exact .inr h

/-- Copying the properties of an object gives them back. -/
theorem foldl_assign {xs : List (JsString × Value)} (h : Ordered (props ++ xs)) :
    xs.foldl (fun out x => assign x.1 x.2 out) props = props ++ xs := by
  induction xs generalizing props with
  | nil => exact (List.append_nil _).symm
  | cons x xs ih =>
    have happend : assign x.1 x.2 props = props ++ [x] := by
      apply assign_append
      intro y hy
      exact (List.pairwise_append.mp h).2.2 y hy _ List.mem_cons_self
    rw [List.foldl_cons, happend, ih (by simpa using h), List.append_assoc, List.singleton_append]

theorem lookup_of_mem (h : (props.map Prod.fst).Nodup) {x : JsString × Value} (hx : x ∈ props) :
    props.lookup x.1 = some x.2 := by
  induction props with
  | nil => cases hx
  | cons y rest ih =>
    rw [List.map_cons, List.nodup_cons] at h
    rcases List.mem_cons.mp hx with rfl | hx
    · exact List.lookup_cons_self
    · have hne : (x.1 == y.1) = false := by
        rw [beq_eq_false_iff_ne]
        intro heq
        exact h.1 (heq ▸ List.mem_map_of_mem hx)
      rw [List.lookup_cons, hne]
      exact ih h.2 hx

theorem mem_of_lookup (h : props.lookup k = some v) : (k, v) ∈ props := by
  obtain ⟨l₁, l₂, rfl, -⟩ := List.lookup_eq_some_iff.mp h
  simp

end Keys

section Shapes

mutual

def Parsed : Value → Prop
  | .arr items => ItemsParsed items
  | .obj props proto => Ordered props ∧ PropsParsed props ∧ proto = .objectPrototype
  | .objectPrototype => False
  | _ => True

def ItemsParsed : List Value → Prop
  | [] => True
  | v :: vs => Parsed v ∧ ItemsParsed vs

def PropsParsed : List (JsString × Value) → Prop
  | [] => True
  | (_, v) :: rest => Parsed v ∧ PropsParsed rest

end

mutual

/-- The value with its strings replaced and everything else as it is. -/
def mapStrings (f : JsString → JsString) : Value → Value
  | .str s => .str (f s)
  | .arr items => .arr (mapItems f items)
  | .obj props proto => .obj (mapProps f props) proto
  | v => v

def mapItems (f : JsString → JsString) : List Value → List Value
  | [] => []
  | v :: vs => mapStrings f v :: mapItems f vs

def mapProps (f : JsString → JsString) : List (JsString × Value) → List (JsString × Value)
  | [] => []
  | (k, v) :: rest => (k, mapStrings f v) :: mapProps f rest

end

mutual

/-- No object in the value has the key as its own. -/
def Lacks (key : JsString) : Value → Prop
  | .arr items => ItemsLack key items
  | .obj props _ => PropsLack key props
  | _ => True

def ItemsLack (key : JsString) : List Value → Prop
  | [] => True
  | v :: vs => Lacks key v ∧ ItemsLack key vs

def PropsLack (key : JsString) : List (JsString × Value) → Prop
  | [] => True
  | (k, v) :: rest => (k ≠ key ∧ Lacks key v) ∧ PropsLack key rest

end

variable {key : JsString} {items : List Value} {props : List (JsString × Value)}

theorem propsParsed_iff : PropsParsed props ↔ ∀ x ∈ props, x.2.Parsed := by
  induction props with
  | nil => simp [PropsParsed]
  | cons x rest ih => simp [PropsParsed, ih]

theorem propsLack_iff : PropsLack key props ↔ ∀ x ∈ props, x.1 ≠ key ∧ x.2.Lacks key := by
  induction props with
  | nil => simp [PropsLack]
  | cons x rest ih => simp [PropsLack, ih]

theorem mapProps_eq (f : JsString → JsString) :
    mapProps f props = props.map fun x => (x.1, x.2.mapStrings f) := by
  induction props with
  | nil => rfl
  | cons x rest ih => rw [mapProps, ih, List.map_cons]

mutual

theorem mapStrings_eq_self {f : JsString → JsString} : ∀ v : Value,
    (∀ s ∈ v.strings, f s = s) → v.mapStrings f = v
  | .str s, h => congrArg Value.str (h s (List.mem_singleton_self s))
  | .arr items, h => congrArg Value.arr (mapItems_eq_self items h)
  | .obj props proto, h => by
    rw [mapStrings, mapProps_eq_self props fun s hs => h s (List.mem_append_left _ hs)]
  | .null, _ | .bool _, _ | .num _, _ | .objectPrototype, _ => rfl

theorem mapItems_eq_self {f : JsString → JsString} : ∀ items : List Value,
    (∀ s ∈ itemsStrings items, f s = s) → mapItems f items = items
  | [], _ => rfl
  | v :: vs, h => by
    rw [mapItems, mapStrings_eq_self v fun s hs => h s (List.mem_append_left _ hs),
      mapItems_eq_self vs fun s hs => h s (List.mem_append_right _ hs)]

theorem mapProps_eq_self {f : JsString → JsString} : ∀ props : List (JsString × Value),
    (∀ s ∈ propsStrings props, f s = s) → mapProps f props = props
  | [], _ => rfl
  | (k, v) :: rest, h => by
    rw [mapProps, mapStrings_eq_self v fun s hs => h s (List.mem_append_left _ hs),
      mapProps_eq_self rest fun s hs => h s (List.mem_append_right _ hs)]

end

end Shapes

section Equality

mutual

/-- Equality as JSON values: the order in which an object lists its properties does not count. -/
def Same : Value → Value → Prop
  | .arr items, w => ∃ others, w = .arr others ∧ SameItems items others
  | .obj props _, w => ∃ others proto, w = .obj others proto ∧
      props.length = others.length ∧ SameProps props others
  | v, w => w = v

def SameItems : List Value → List Value → Prop
  | [], others => others = []
  | v :: vs, others => ∃ w ws, others = w :: ws ∧ Same v w ∧ SameItems vs ws

def SameProps : List (JsString × Value) → List (JsString × Value) → Prop
  | [], _ => True
  | (k, v) :: rest, others => (∃ w, others.lookup k = some w ∧ Same v w) ∧ SameProps rest others

end

variable {props others : List (JsString × Value)}

theorem sameProps_iff : SameProps props others ↔
    ∀ x ∈ props, ∃ w, others.lookup x.1 = some w ∧ x.2.Same w := by
  induction props with
  | nil => simp [SameProps]
  | cons x rest ih => simp [SameProps, ih]

mutual

theorem same_refl : ∀ v : Value, v.Parsed → v.Same v
  | .null, _ | .bool _, _ | .num _, _ | .str _, _ => rfl
  | .arr items, h => ⟨items, rfl, sameItems_refl items h⟩
  | .obj props proto, ⟨hordered, hparsed, _⟩ => by
    refine ⟨props, proto, rfl, rfl, sameProps_iff.mpr fun x hx => ?_⟩
    exact ⟨x.2, lookup_of_mem hordered.nodup hx, same_props props hparsed x hx⟩

theorem sameItems_refl : ∀ items : List Value, ItemsParsed items → SameItems items items
  | [], _ => rfl
  | v :: vs, ⟨hv, hvs⟩ => ⟨v, vs, rfl, same_refl v hv, sameItems_refl vs hvs⟩

theorem same_props : ∀ props : List (JsString × Value), PropsParsed props →
    ∀ x ∈ props, x.2.Same x.2
  | [], _, _, hx => (List.not_mem_nil hx).elim
  | (k, v) :: rest, ⟨hv, hrest⟩, x, hx => by
    rcases List.mem_cons.mp hx with rfl | hx
    · exact same_refl v hv
    · exact same_props rest hrest x hx

end

/-- Objects that are the same have the same keys. -/
theorem SameProps.keys (h : SameProps props others) (hnodup : (props.map Prod.fst).Nodup)
    (hlength : props.length = others.length) :
    (props.map Prod.fst).Perm (others.map Prod.fst) := by
  have hsub : props.map Prod.fst ⊆ others.map Prod.fst := by
    intro k hk
    obtain ⟨x, hx, rfl⟩ := List.mem_map.mp hk
    obtain ⟨w, hw, -⟩ := sameProps_iff.mp h x hx
    exact List.mem_map.mpr ⟨(x.1, w), mem_of_lookup hw, rfl⟩
  apply (hnodup.subperm hsub).perm_of_length_le
  rw [List.length_map, List.length_map, hlength]

end Equality

end Value

section Syntax

/-- The tree of a JSON text, with the members of objects as they are written. -/
inductive JsonSyntax where
  | null
  | bool (b : Bool)
  | num (x : Number)
  | str (s : JsString)
  | arr (items : List JsonSyntax)
  | obj (members : List (JsString × JsonSyntax))

mutual

/-- What `JSON.parse` makes of the text. -/
def JsonSyntax.parse : JsonSyntax → Value
  | .null => .null
  | .bool b => .bool b
  | .num x => .num x
  | .str s => .str s
  | .arr items => .arr (parseItems items)
  | .obj members => .object (parseMembers members [])

def parseItems : List JsonSyntax → List Value
  | [] => []
  | j :: rest => j.parse :: parseItems rest

/-- A later member replaces the value of an earlier one with the same name. -/
def parseMembers : List (JsString × JsonSyntax) → List (JsString × Value) → List (JsString × Value)
  | [], props => props
  | (k, j) :: rest, props => parseMembers rest (Value.assign k j.parse props)

end

mutual

theorem parsed_parse : ∀ j : JsonSyntax, j.parse.Parsed
  | .null | .bool _ | .num _ | .str _ => trivial
  | .arr items => parsed_parseItems items
  | .obj members => by
    obtain ⟨hordered, hparsed⟩ := parsed_parseMembers members [] .nil trivial
    exact ⟨hordered, hparsed, rfl⟩

theorem parsed_parseItems : ∀ items : List JsonSyntax, Value.ItemsParsed (parseItems items)
  | [] => trivial
  | j :: rest => ⟨parsed_parse j, parsed_parseItems rest⟩

theorem parsed_parseMembers : ∀ (members : List (JsString × JsonSyntax))
    (props : List (JsString × Value)), Value.Ordered props → Value.PropsParsed props →
    Value.Ordered (parseMembers members props) ∧ Value.PropsParsed (parseMembers members props)
  | [], props, hordered, hparsed => ⟨hordered, hparsed⟩
  | (k, j) :: rest, props, hordered, hparsed => by
    apply parsed_parseMembers rest _ (Value.ordered_assign hordered)
    rw [Value.propsParsed_iff] at hparsed ⊢
    intro x hx
    rcases Value.mem_assign hx with rfl | hx
    · exact parsed_parse j
    · exact hparsed x hx

end

end Syntax

end Js
