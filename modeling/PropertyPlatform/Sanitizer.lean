import PropertyPlatform.Js.Parsed
import PropertyPlatform.Validators

/-!
# The shape of a sanitized body

The sanitizer rebuilds every object by assigning its properties. This keeps the keys and their
order, except that assigning to `__proto__` sets the prototype and stores nothing.
-/

namespace PropertyPlatform

open Js

variable (P : Platform)

/-- What happens to a string of a body. -/
def sanitizeString (s : JsString) : JsString := (P.sanitizeHtml s).trim

variable {P}

section Objects

variable {props rest : List (JsString × Value)} {proto : Value}

theorem sanitizeProps_proto (props rest : List (JsString × Value)) (proto v : Value) :
    ∃ q, sanitizeProps P (("__proto__", v) :: rest) (.obj props proto) =
      sanitizeProps P rest (.obj props q) := by
  rw [sanitizeProps]
  simp only [↓reduceIte]
  split <;> exact ⟨_, rfl⟩

theorem sanitizeProps_assign {k : JsString} (hk : k ≠ "__proto__") (v : Value) :
    sanitizeProps P ((k, v) :: rest) (.obj props proto) =
      sanitizeProps P rest (.obj (Value.assign k (deepSanitize P v) props) proto) := by
  rw [sanitizeProps]
  simp only [if_neg hk]

/-- Keys other than `__proto__` are copied in their order. -/
theorem sanitizeProps_eq (hkeys : ∀ x ∈ rest, x.1 ≠ "__proto__")
    (hordered : Value.Ordered (props ++ rest)) :
    sanitizeProps P rest (.obj props proto) =
      .obj (props ++ rest.map fun x => (x.1, deepSanitize P x.2)) proto := by
  induction rest generalizing props with
  | nil => rw [sanitizeProps, List.map_nil, List.append_nil]
  | cons x rest ih =>
    obtain ⟨k, v⟩ := x
    have happend : Value.assign k (deepSanitize P v) props = props ++ [(k, deepSanitize P v)] := by
      apply Value.assign_append
      intro y hy
      exact (List.pairwise_append.mp hordered).2.2 y hy _ List.mem_cons_self
    have hordered' : Value.Ordered ((props ++ [(k, deepSanitize P v)]) ++ rest) := by
      rw [Value.ordered_iff] at hordered ⊢
      simpa using hordered
    rw [sanitizeProps_assign (hkeys _ List.mem_cons_self), happend,
      ih (fun y hy => hkeys y (List.mem_cons_of_mem _ hy)) hordered']
    simp

theorem length_sanitizeProps (rest props : List (JsString × Value)) (proto : Value) :
    ∃ ps q, sanitizeProps P rest (.obj props proto) = .obj ps q ∧
      ps.length ≤ props.length + rest.countP (·.1 ≠ ("__proto__" : JsString)) := by
  induction rest generalizing props proto with
  | nil => exact ⟨props, proto, by rw [sanitizeProps], by simp⟩
  | cons x rest ih =>
    obtain ⟨k, v⟩ := x
    by_cases hk : k = "__proto__"
    · subst hk
      obtain ⟨q, hq⟩ := sanitizeProps_proto (P := P) props rest proto v
      obtain ⟨ps, q', hps, hlength⟩ := ih props q
      refine ⟨ps, q', hq.trans hps, ?_⟩
      simpa using hlength
    · obtain ⟨ps, q, hps, hlength⟩ := ih (Value.assign k (deepSanitize P v) props) proto
      refine ⟨ps, q, (sanitizeProps_assign hk v).trans hps, ?_⟩
      have hassign := Value.length_assign_le k (deepSanitize P v) props
      rw [List.countP_cons_of_pos (by simpa using hk)]
      omega

/-- An object with an own `__proto__` loses a property. -/
theorem deepSanitize_proto (proto : Value) (h : ∃ x ∈ props, x.1 = "__proto__") :
    ∃ ps q, deepSanitize P (.obj props proto) = .obj ps q ∧ ps.length < props.length := by
  obtain ⟨ps, q, hps, hlength⟩ :=
    length_sanitizeProps (P := P) props [] .objectPrototype
  refine ⟨ps, q, hps, ?_⟩
  obtain ⟨x, hx, hkey⟩ := h
  have hcount : props.countP (·.1 ≠ ("__proto__" : JsString)) < props.length := by
    apply Nat.lt_of_le_of_ne List.countP_le_length
    intro heq
    have hall := List.countP_eq_length.mp heq x hx
    simp [hkey] at hall
  simp only [List.length_nil, Nat.zero_add] at hlength
  omega

theorem deepSanitize_object (hkeys : ∀ x ∈ props, x.1 ≠ "__proto__")
    (hordered : Value.Ordered props) :
    deepSanitize P (.obj props proto) =
      .object (props.map fun x => (x.1, deepSanitize P x.2)) := by
  rw [deepSanitize]
  have hcopy : Value.Ordered ([] ++ props) := hordered
  exact sanitizeProps_eq hkeys hcopy

end Objects

section Shape

mutual

/-- A parsed value keeps its shape exactly if it has no `__proto__` at any depth. -/
theorem deepSanitize_eq_iff : ∀ v : Value, v.Parsed →
    (deepSanitize P v = v.mapStrings (sanitizeString P) ↔ v.Lacks "__proto__")
  | .null, _ | .bool _, _ | .num _, _ | .str _, _ => iff_of_true rfl trivial
  | .arr items, h => by
    have hitems := sanitizeItems_eq_iff items h
    simpa only [deepSanitize, Value.mapStrings, Value.arr.injEq, Value.Lacks] using hitems
  | .obj props proto, ⟨hordered, hparsed, hproto⟩ => by
    subst hproto
    rw [Value.Lacks, Value.mapStrings, Value.mapProps_eq]
    by_cases hkeys : ∀ x ∈ props, x.1 ≠ "__proto__"
    · have hprops := sanitizeProps_eq_iff props hparsed
      rw [deepSanitize_object hkeys hordered, Value.object, Value.propsLack_iff]
      simp only [Value.obj.injEq, and_true, hprops]
      exact forall₂_congr fun x hx => (and_iff_right (hkeys x hx)).symm
    · push Not at hkeys
      obtain ⟨ps, q, hps, hlength⟩ :=
        deepSanitize_proto (P := P) .objectPrototype hkeys
      refine iff_of_false (fun heq => ?_) fun hlack => ?_
      · rw [hps] at heq
        have hlist := congrArg List.length (Value.obj.inj heq).1
        rw [List.length_map] at hlist
        omega
      · obtain ⟨x, hx, hkey⟩ := hkeys
        exact (Value.propsLack_iff.mp hlack x hx).1 hkey

theorem sanitizeItems_eq_iff : ∀ items : List Value, Value.ItemsParsed items →
    (sanitizeItems P items = Value.mapItems (sanitizeString P) items ↔
      Value.ItemsLack "__proto__" items)
  | [], _ => iff_of_true rfl trivial
  | v :: vs, ⟨hv, hvs⟩ => by
    rw [sanitizeItems, Value.mapItems, Value.ItemsLack, List.cons.injEq]
    exact and_congr (deepSanitize_eq_iff v hv) (sanitizeItems_eq_iff vs hvs)

theorem sanitizeProps_eq_iff : ∀ props : List (JsString × Value), Value.PropsParsed props →
    ((props.map fun x => (x.1, deepSanitize P x.2)) =
        (props.map fun x => (x.1, x.2.mapStrings (sanitizeString P))) ↔
      ∀ x ∈ props, x.2.Lacks "__proto__")
  | [], _ => iff_of_true rfl (by simp)
  | (k, v) :: rest, ⟨hv, hrest⟩ => by
    have hhead := deepSanitize_eq_iff v hv
    have htail := sanitizeProps_eq_iff rest hrest
    simp only [List.map_cons, List.cons.injEq, Prod.mk.injEq, true_and, List.forall_mem_cons,
      hhead, htail]

end

end Shape

section Fixed

variable (P) in
/-- The sanitizer has nothing to change. -/
structure Untouched (v : Value) : Prop where
  proto : v.Lacks "__proto__"
  strings : ∀ s ∈ v.strings, sanitizeString P s = s

theorem Untouched.deepSanitize {v : Value} (h : Untouched P v) (hv : v.Parsed) :
    deepSanitize P v = v :=
  ((deepSanitize_eq_iff v hv).mpr h.proto).trans (Value.mapStrings_eq_self v h.strings)

variable {props : List (JsString × Value)}

theorem untouched_object (hkeys : ∀ x ∈ props, x.1 ≠ "__proto__")
    (h : ∀ x ∈ props, Untouched P x.2) : Untouched P (.object props) := by
  constructor
  · exact Value.propsLack_iff.mpr fun x hx => ⟨hkeys x hx, (h x hx).proto⟩
  · intro s hs
    obtain ⟨x, hx, hs⟩ := Value.mem_strings_object.mp hs
    exact (h x hx).strings s hs

theorem Untouched.prop {proto : Value} (h : Untouched P (.obj props proto))
    {x : JsString × Value} (hx : x ∈ props) : x.1 ≠ "__proto__" ∧ Untouched P x.2 := by
  obtain ⟨hkey, hlack⟩ := Value.propsLack_iff.mp h.proto x hx
  refine ⟨hkey, hlack, fun s hs => h.strings s ?_⟩
  exact List.mem_append_left _ (Value.mem_propsStrings.mpr ⟨x, hx, hs⟩)

mutual

/-- If the sanitizer gives the same JSON value, it has changed nothing. -/
theorem untouched_of_same : ∀ v : Value, v.Parsed → (deepSanitize P v).Same v → Untouched P v
  | .null, _, _ | .bool _, _, _ | .num _, _, _ => ⟨trivial, fun _ hs => (List.not_mem_nil hs).elim⟩
  | .str s, _, h => by
    refine ⟨trivial, fun t ht => ?_⟩
    rw [List.mem_singleton.mp ht]
    exact (Value.str.inj h).symm
  | .arr items, hv, h => by
    rw [deepSanitize] at h
    obtain ⟨others, heq, hitems⟩ := h
    obtain rfl := Value.arr.inj heq
    obtain ⟨hproto, hstrings⟩ := untouched_items items hv hitems
    exact ⟨hproto, hstrings⟩
  | .obj props proto, ⟨hordered, hparsed, hproto⟩, h => by
    subst hproto
    by_cases hkeys : ∀ x ∈ props, x.1 ≠ "__proto__"
    · rw [deepSanitize_object hkeys hordered] at h
      obtain ⟨others, q, heq, -, hsame⟩ := h
      obtain rfl := (Value.obj.inj heq).1
      apply untouched_object hkeys
      apply untouched_props props hparsed
      intro x hx
      obtain ⟨w, hlookup, hw⟩ :=
        Value.sameProps_iff.mp hsame (x.1, deepSanitize P x.2) (List.mem_map_of_mem hx)
      rw [Value.lookup_of_mem hordered.nodup hx] at hlookup
      exact Option.some.inj hlookup ▸ hw
    · push Not at hkeys
      obtain ⟨ps, q, hps, hlength⟩ :=
        deepSanitize_proto (P := P) .objectPrototype hkeys
      rw [hps] at h
      obtain ⟨others, q', heq, hsize, -⟩ := h
      rw [← (Value.obj.inj heq).1] at hsize
      omega

theorem untouched_items : ∀ items : List Value, Value.ItemsParsed items →
    Value.SameItems (sanitizeItems P items) items →
    Value.ItemsLack "__proto__" items ∧
      ∀ s ∈ Value.itemsStrings items, sanitizeString P s = s
  | [], _, _ => ⟨trivial, fun _ hs => (List.not_mem_nil hs).elim⟩
  | v :: vs, ⟨hv, hvs⟩, h => by
    rw [sanitizeItems] at h
    obtain ⟨w, ws, heq, hsame, hrest⟩ := h
    obtain ⟨rfl, rfl⟩ := List.cons.inj heq
    have hhead := untouched_of_same v hv hsame
    have htail := untouched_items vs hvs hrest
    refine ⟨⟨hhead.proto, htail.1⟩, fun s hs => ?_⟩
    rcases List.mem_append.mp hs with hs | hs
    · exact hhead.strings s hs
    · exact htail.2 s hs

theorem untouched_props : ∀ props : List (JsString × Value), Value.PropsParsed props →
    (∀ x ∈ props, (deepSanitize P x.2).Same x.2) → ∀ x ∈ props, Untouched P x.2
  | [], _, _, _, hx => (List.not_mem_nil hx).elim
  | (k, v) :: rest, ⟨hv, hrest⟩, h, x, hx => by
    rcases List.mem_cons.mp hx with rfl | hx
    · exact untouched_of_same v hv (h (k, v) List.mem_cons_self)
    · exact untouched_props rest hrest (fun y hy => h y (List.mem_cons_of_mem _ hy)) x hx

end

end Fixed

section ParsedBodies

/-- For every text that `JSON.parse` takes, the sanitizer changes nothing but the strings
exactly if no object has a member `__proto__`. -/
theorem deepSanitize_parse_iff (P : Platform) (j : JsonSyntax) :
    deepSanitize P j.parse = j.parse.mapStrings (sanitizeString P) ↔
      j.parse.Lacks "__proto__" :=
  deepSanitize_eq_iff j.parse (parsed_parse j)

def inheritedSource : JsonSyntax := .obj [("__proto__", .obj [("source", .str "website")])]

/-- The member is dropped, and what it holds can be read from the body. -/
theorem deepSanitize_inheritedSource :
    deepSanitize Platform.sample inheritedSource.parse ≠
        inheritedSource.parse.mapStrings (sanitizeString Platform.sample) ∧
      inheritedSource.parse.get "source" = none ∧
      (deepSanitize Platform.sample inheritedSource.parse).get "source" =
        some (.str "website") := by
  refine ⟨fun heq => ?_, rfl, ?_⟩
  · have hlack := (deepSanitize_eq_iff _ (parsed_parse inheritedSource)).mp heq
    exact hlack.1.1 rfl
  · have htrim : (Platform.sample.sanitizeHtml "website").trim = "website" := by decide +kernel
    have hsanitized : deepSanitize Platform.sample inheritedSource.parse =
        .obj [] (.object [("source", .str ((Platform.sample.sanitizeHtml "website").trim))]) := rfl
    rw [hsanitized, htrim]
    rfl

end ParsedBodies

end PropertyPlatform
