import PropertyPlatform.Sanitizer
import PropertyPlatform.StoredText

/-!
# What the audit log says was received

The handler logs the validated body. It is the JSON value that was sent only if neither the
sanitizer nor the schema had anything to change.
-/

namespace PropertyPlatform

open Js

variable {P : Platform}

section Fields

theorem text_of_event {s : String} {e : CrmEvent} (h : CrmEvent.ofText s = some e) :
    s = e.text := by
  unfold CrmEvent.ofText at h
  split at h <;> cases h <;> rfl

theorem text_of_status {s : String} {e : EnquiryStatus} (h : EnquiryStatus.ofText s = some e) :
    s = e.text := by
  unfold EnquiryStatus.ofText at h
  split at h <;> cases h <;> rfl

theorem enumValue_eq_some {α : Type} {ofText : String → Option α} {v : Option Value} {a : α}
    (h : enumValue ofText v = some a) : ∃ s : String, v = some (.str s) ∧ ofText s = some a := by
  unfold enumValue at h
  split at h
  · exact ⟨_, rfl, h⟩
  · cases h

theorem trimmedString_eq_some {v : Option Value} {t : JsString} (h : trimmedString v = some t) :
    ∃ s, v = some (.str s) ∧ s.trim = t := by
  unfold trimmedString at h
  split at h
  · exact ⟨_, rfl, Option.some.inj h⟩
  · cases h

theorem optionalStatus_eq_some {v : Option Value} {status : Option EnquiryStatus}
    (h : optionalStatus v = some status) :
    (v = none ∧ status = none) ∨ ∃ s, v = some (.str s.text) ∧ status = some s := by
  cases v with
  | none => exact .inl ⟨rfl, (Option.some.inj h).symm⟩
  | some v =>
    obtain ⟨s, hs, rfl⟩ := Option.map_eq_some_iff.mp h
    obtain ⟨t, hv, ht⟩ := enumValue_eq_some hs
    rw [text_of_status ht] at hv
    exact .inr ⟨s, hv, rfl⟩

/-- The copy of a record has no `__proto__`, and an object that needs no care is copied whole. -/
theorem optionalRecord_some {v : Value} {props : List (JsString × Value)}
    (h : optionalRecord (some v) = some (some props)) :
    Value.Ordered props ∧ ∀ x ∈ props, x.1 ≠ "__proto__" := by
  unfold optionalRecord at h
  simp only at h
  split_ifs at h
  obtain rfl := Option.some.inj (Option.some.inj h)
  refine ⟨Value.ordered_foldl_assign _ .nil, fun x hx => ?_⟩
  rcases Value.mem_foldl_assign hx with hx | hx
  · simpa using (List.mem_filter.mp hx).2
  · cases hx

theorem optionalRecord_object {props : List (JsString × Value)} (hordered : Value.Ordered props)
    (hkeys : ∀ x ∈ props, x.1 ≠ "__proto__") :
    optionalRecord (some (.object props)) = some (some props) := by
  have hforIn : (Value.object props).forIn = props := by
    simp [Value.object, Value.forIn]
  have hfilter : (props.filter fun x => x.1 ≠ ("__proto__" : JsString)) = props := by
    apply List.filter_eq_self.mpr
    intro x hx
    simpa using hkeys x hx
  have hcopy : props.foldl (fun out x => Value.assign x.1 x.2 out) [] = [] ++ props :=
    Value.foldl_assign hordered
  unfold optionalRecord
  simp only [Value.object, isObject, ↓reduceIte]
  rw [← Value.object, hforIn, hfilter, hcopy, List.nil_append]

end Fields

section Objects

variable {props : List (JsString × Value)} {b : CrmWebhookBody}

/-- The keys `crmWebhookSchema` knows. -/
def webhookKeys : List JsString := ["event", "enquiryId", "crmRecordId", "status", "payload"]

def CrmWebhookBody.fields (b : CrmWebhookBody) : List (JsString × Value) :=
  ([("event", .str b.event.text), ("enquiryId", .nat b.enquiryId),
    ("crmRecordId", .str b.crmRecordId)] : List (JsString × Value)) ++
    (b.status.map fun s => (("status" : JsString), Value.str s.text)).toList ++
    (b.payload.map fun p => (("payload" : JsString), Value.object p)).toList

theorem mem_fields {x : JsString × Value} : x ∈ b.fields ↔
    (x = (.wellFormed "event", .str b.event.text) ∨
      x = (.wellFormed "enquiryId", .nat b.enquiryId) ∨
      x = (.wellFormed "crmRecordId", .str b.crmRecordId)) ∨
    (∃ s, b.status = some s ∧ x = (.wellFormed "status", .str s.text)) ∨
    ∃ p, b.payload = some p ∧ x = (.wellFormed "payload", .object p) := by
  simp [CrmWebhookBody.fields, eq_comm, or_assoc]

theorem keys_fields (b : CrmWebhookBody) :
    (b.fields.map Prod.fst).Nodup ∧ b.fields.map Prod.fst ⊆ webhookKeys := by
  unfold CrmWebhookBody.fields webhookKeys
  cases b.status <;> cases b.payload <;> simp

theorem get_object (key : JsString) :
    (Value.obj props .objectPrototype).get key = props.lookup key := by
  cases hlookup : props.lookup key <;> simp [Value.get, hlookup]

/-- The copy of an object without `__proto__`. -/
def sanitizedProps (P : Platform) (props : List (JsString × Value)) : List (JsString × Value) :=
  props.map fun x => (x.1, deepSanitize P x.2)

theorem ordered_sanitizedProps (hordered : Value.Ordered props) :
    Value.Ordered (sanitizedProps P props) := by
  have hkeys : (sanitizedProps P props).map Prod.fst = props.map Prod.fst := by
    rw [sanitizedProps, List.map_map]
    rfl
  rw [Value.ordered_iff] at hordered ⊢
  rwa [hkeys]

theorem get_deepSanitize (hkeys : ∀ x ∈ props, x.1 ≠ "__proto__")
    (hordered : Value.Ordered props) {x : JsString × Value} (hx : x ∈ props) :
    (deepSanitize P (.obj props .objectPrototype)).get x.1 = some (deepSanitize P x.2) := by
  have hmem : (x.1, deepSanitize P x.2) ∈ sanitizedProps P props := List.mem_map_of_mem hx
  rw [deepSanitize_object hkeys hordered, Value.object, get_object]
  exact Value.lookup_of_mem (ordered_sanitizedProps hordered).nodup hmem

theorem untouched_str {s : JsString} (h : sanitizeString P s = s) : Untouched P (.str s) := by
  refine ⟨trivial, fun t ht => ?_⟩
  rw [List.mem_singleton.mp ht]
  exact h

theorem exists_nat_eq (n : ℕ) : ∃ x, Value.nat n = .num x := by
  unfold Value.nat
  simp only
  split_ifs <;> exact ⟨_, rfl⟩

/-- A record that is logged as it was sent was not changed on the way. -/
theorem untouched_record {v : Value} {record : List (JsString × Value)} (hv : v.Parsed)
    (hrecord : optionalRecord (some (deepSanitize P v)) = some (some record))
    (hsame : (Value.object record).Same v) : Untouched P v := by
  obtain ⟨props, proto, rfl, hlength, hprops⟩ := hsame
  obtain ⟨hordered, hparsed, rfl⟩ := hv
  obtain ⟨hrecordOrdered, hrecordKeys⟩ := optionalRecord_some hrecord
  have hperm := hprops.keys hrecordOrdered.nodup hlength
  have hkeys : ∀ x ∈ props, x.1 ≠ "__proto__" := by
    intro x hx
    obtain ⟨y, hy, hkey⟩ := List.mem_map.mp (hperm.mem_iff.mpr (List.mem_map_of_mem hx))
    exact hkey ▸ hrecordKeys y hy
  have hcopied : deepSanitize P (.obj props .objectPrototype) =
      .object (sanitizedProps P props) := deepSanitize_object hkeys hordered
  have hwhole : optionalRecord (some (.object (sanitizedProps P props))) =
      some (some (sanitizedProps P props)) := by
    apply optionalRecord_object (ordered_sanitizedProps hordered)
    intro x hx
    obtain ⟨y, hy, rfl⟩ := List.mem_map.mp hx
    exact hkeys y hy
  rw [hcopied, hwhole] at hrecord
  obtain rfl := Option.some.inj (Option.some.inj hrecord)
  apply untouched_of_same (.obj props .objectPrototype) ⟨hordered, hparsed, rfl⟩
  rw [hcopied]
  exact ⟨props, .objectPrototype, rfl, hlength, hprops⟩

theorem eq_record {v : Value} {record : List (JsString × Value)} (hv : v.Parsed)
    (h : Untouched P v) (hrecord : optionalRecord (some v) = some (some record)) :
    v = .object record := by
  cases v with
  | obj props proto =>
    obtain ⟨hordered, -, rfl⟩ := hv
    have hwhole := optionalRecord_object hordered fun x hx => (h.prop hx).1
    rw [Value.object, hrecord] at hwhole
    rw [Option.some.inj (Option.some.inj hwhole), Value.object]
  | objectPrototype => exact hv.elim
  | _ => cases hrecord

/-- So is every field. -/
theorem untouched_field {body v : Value} {x : JsString × Value} (hv : v.Parsed)
    (hfields : WebhookFields P body b) (hx : x ∈ b.fields)
    (hget : body.get x.1 = some (deepSanitize P v)) (hsame : x.2.Same v) : Untouched P v := by
  rcases mem_fields.mp hx with (rfl | rfl | rfl) | ⟨status, hstatus, rfl⟩ | ⟨record, hrecord, rfl⟩
  · obtain rfl : v = .str b.event.text := hsame
    obtain ⟨s, hs, htext⟩ := enumValue_eq_some hfields.event
    rw [hget, text_of_event htext] at hs
    exact untouched_str (Value.str.inj (Option.some.inj hs))
  · obtain ⟨y, hy⟩ := exists_nat_eq b.enquiryId
    rw [hy] at hsame
    obtain rfl : v = .num y := hsame
    exact ⟨trivial, fun _ hs => (List.not_mem_nil hs).elim⟩
  · obtain rfl : v = .str b.crmRecordId := hsame
    obtain ⟨s, hs, htrim⟩ := trimmedString_eq_some hfields.crmRecordId
    rw [hget] at hs
    have hclean : sanitizeString P b.crmRecordId = s := Value.str.inj (Option.some.inj hs)
    rw [← hclean, sanitizeString, JsString.trim_trim] at htrim
    exact untouched_str htrim
  · obtain rfl : v = .str status.text := hsame
    rcases optionalStatus_eq_some hfields.status with ⟨hnone, -⟩ | ⟨s, hs, heq⟩
    · rw [hget] at hnone
      cases hnone
    · rw [hget] at hs
      obtain rfl : status = s := Option.some.inj (hstatus.symm.trans heq)
      exact untouched_str (Value.str.inj (Option.some.inj hs))
  · have hpayload := hfields.payload
    rw [hget, hrecord] at hpayload
    exact untouched_record hv hpayload hsame

variable (P) in
/-- The sanitizer and the schema have nothing to change in the body. -/
structure KeepsPayload (v : Value) : Prop where
  untouched : Untouched P v
  keys : ∀ key, (v.get key).isSome → key ∈ webhookKeys
  enquiryId : ∃ x, v.get "enquiryId" = some (.num x)

theorem keepsPayload_of_same {v : Value} (hv : v.Parsed)
    (hfields : WebhookFields P (deepSanitize P v) b) (hsame : b.toValue.Same v) :
    KeepsPayload P v := by
  obtain ⟨props, proto, rfl, hlength, hprops⟩ := hsame
  obtain ⟨hordered, hparsed, rfl⟩ := hv
  obtain ⟨hnodup, hwebhook⟩ := keys_fields b
  have hperm := hprops.keys hnodup hlength
  have hkeys : ∀ x ∈ props, x.1 ∈ webhookKeys := fun x hx =>
    hwebhook (hperm.mem_iff.mpr (List.mem_map_of_mem hx))
  have hproto : ∀ x ∈ props, x.1 ≠ "__proto__" := by
    intro x hx heq
    exact absurd (heq ▸ hkeys x hx) (by decide)
  have hfield : ∀ x ∈ b.fields, ∃ w, props.lookup x.1 = some w ∧ x.2.Same w :=
    Value.sameProps_iff.mp hprops
  refine ⟨untouched_object hproto fun x hx => ?_, fun key hkey => ?_, ?_⟩
  · obtain ⟨y, hy, hyx⟩ := List.mem_map.mp (hperm.mem_iff.mpr (List.mem_map_of_mem hx))
    obtain ⟨w, hlookup, hw⟩ := hfield y hy
    rw [hyx, Value.lookup_of_mem hordered.nodup hx] at hlookup
    obtain rfl := Option.some.inj hlookup
    have hget := get_deepSanitize (P := P) hproto hordered hx
    rw [← hyx] at hget
    exact untouched_field (Value.propsParsed_iff.mp hparsed x hx) hfields hy hget hw
  · rw [get_object] at hkey
    obtain ⟨w, hw⟩ := Option.isSome_iff_exists.mp hkey
    exact hkeys (key, w) (Value.mem_of_lookup hw)
  · have hmem : (.wellFormed "enquiryId", Value.nat b.enquiryId) ∈ b.fields :=
      mem_fields.mpr (.inl (.inr (.inl rfl)))
    obtain ⟨w, hlookup, hw⟩ := hfield _ hmem
    obtain ⟨x, hx⟩ := exists_nat_eq b.enquiryId
    rw [hx] at hw
    obtain rfl : w = .num x := hw
    exact ⟨x, (get_object _).trans hlookup⟩

/-- In an untouched body every field has the value that is logged. -/
theorem lookup_field (hv : (Value.obj props .objectPrototype).Parsed)
    (hfields : WebhookFields P (.obj props .objectPrototype) b)
    (h : KeepsPayload P (.obj props .objectPrototype)) {x : JsString × Value} (hx : x ∈ b.fields) :
    ∃ w, props.lookup x.1 = some w ∧ x.2.Same w := by
  rw [← get_object]
  rcases mem_fields.mp hx with (rfl | rfl | rfl) | ⟨status, hstatus, rfl⟩ | ⟨record, hrecord, rfl⟩
  · obtain ⟨s, hs, htext⟩ := enumValue_eq_some hfields.event
    rw [text_of_event htext] at hs
    exact ⟨_, hs, rfl⟩
  · obtain ⟨y, hy⟩ := h.enquiryId
    have hid := hfields.enquiryId
    rw [hy] at hid
    have hnat := Value.nat_eq_num (Except.ok.inj hid)
    refine ⟨_, hy, ?_⟩
    rw [hnat]
    rfl
  · obtain ⟨s, hs, htrim⟩ := trimmedString_eq_some hfields.crmRecordId
    have hmem := Value.strings_get hs (List.mem_singleton_self s)
    have hclean : sanitizeString P s = s := h.untouched.strings s hmem
    have hrecordId : s = b.crmRecordId := by
      rw [← htrim, ← hclean, sanitizeString, JsString.trim_trim]
    rw [hrecordId] at hs
    exact ⟨_, hs, rfl⟩
  · rcases optionalStatus_eq_some hfields.status with ⟨-, hnone⟩ | ⟨s, hs, heq⟩
    · rw [hstatus] at hnone
      cases hnone
    · obtain rfl : status = s := Option.some.inj (hstatus.symm.trans heq)
      exact ⟨_, hs, rfl⟩
  · cases hget : (Value.obj props .objectPrototype).get "payload" with
    | none =>
      have hpayload := hfields.payload
      rw [hget, hrecord] at hpayload
      cases hpayload
    | some v =>
      have hpayload := hfields.payload
      rw [hget, hrecord] at hpayload
      have hmem := Value.mem_of_lookup ((get_object _).symm.trans hget)
      have hparsed := Value.propsParsed_iff.mp hv.2.1 _ hmem
      obtain rfl := eq_record hparsed (h.untouched.prop hmem).2 hpayload
      exact ⟨_, rfl, Value.same_refl _ hparsed⟩

theorem mem_keys_fields {body : Value} (hfields : WebhookFields P body b) {key : JsString}
    (hkey : key ∈ webhookKeys) (hget : (body.get key).isSome) : key ∈ b.fields.map Prod.fst := by
  have hmem : ∀ v, (key, v) ∈ b.fields → key ∈ b.fields.map Prod.fst := fun v hv =>
    List.mem_map_of_mem hv
  simp only [webhookKeys, List.mem_cons, List.not_mem_nil, or_false] at hkey
  rcases hkey with rfl | rfl | rfl | rfl | rfl
  · exact hmem _ (mem_fields.mpr (.inl (.inl rfl)))
  · exact hmem _ (mem_fields.mpr (.inl (.inr (.inl rfl))))
  · exact hmem _ (mem_fields.mpr (.inl (.inr (.inr rfl))))
  · rcases optionalStatus_eq_some hfields.status with ⟨hnone, -⟩ | ⟨s, -, hs⟩
    · rw [hnone] at hget
      cases hget
    · exact hmem _ (mem_fields.mpr (.inr (.inl ⟨s, hs, rfl⟩)))
  · obtain ⟨v, hv⟩ := Option.isSome_iff_exists.mp hget
    cases hrecord : b.payload with
    | none =>
      have hpayload := hfields.payload
      rw [hv, hrecord] at hpayload
      simp [optionalRecord] at hpayload
    | some record => exact hmem _ (mem_fields.mpr (.inr (.inr ⟨record, hrecord, rfl⟩)))

theorem same_of_keepsPayload {v : Value} (hv : v.Parsed)
    (hfields : WebhookFields P (deepSanitize P v) b) (h : KeepsPayload P v) :
    b.toValue.Same v := by
  rw [h.untouched.deepSanitize hv] at hfields
  obtain ⟨y, hy⟩ := h.enquiryId
  cases v with
  | obj props proto =>
    obtain ⟨hordered, hparsed, rfl⟩ := hv
    have hlookup : ∀ x ∈ b.fields, ∃ w, props.lookup x.1 = some w ∧ x.2.Same w := fun x hx =>
      lookup_field ⟨hordered, hparsed, rfl⟩ hfields h hx
    have hperm : (b.fields.map Prod.fst).Perm (props.map Prod.fst) := by
      apply (List.perm_ext_iff_of_nodup (keys_fields b).1 hordered.nodup).mpr
      intro key
      constructor
      · intro hkey
        obtain ⟨x, hx, rfl⟩ := List.mem_map.mp hkey
        obtain ⟨w, hw, -⟩ := hlookup x hx
        exact List.mem_map.mpr ⟨(x.1, w), Value.mem_of_lookup hw, rfl⟩
      · intro hkey
        obtain ⟨x, hx, rfl⟩ := List.mem_map.mp hkey
        have hget : ((Value.obj props .objectPrototype).get x.1).isSome := by
          rw [get_object, Value.lookup_of_mem hordered.nodup hx]
          rfl
        exact mem_keys_fields hfields (h.keys _ hget) hget
    have hlength := hperm.length_eq
    rw [List.length_map, List.length_map] at hlength
    exact ⟨props, .objectPrototype, rfl, hlength, Value.sameProps_iff.mpr hlookup⟩
  | _ => simp [Value.get] at hy

end Objects

section Logged

/-- The payload that is logged for an accepted webhook is the JSON value of its raw body exactly
if the body has no other keys, no text that the sanitizer changes, and a number for the id. -/
theorem rawPayload_same_iff (P : Platform) (req : Request) (text : { text : String // text ≠ "" })
    (j : JsonSyntax) (b : CrmWebhookBody) (hpayload : req.payload = some (text, j.parse))
    (hb : validateWebhook P req = .ok b) :
    (req.audit P b).rawPayload.Same j.parse ↔ KeepsPayload P j.parse := by
  have hbody : req.body P = deepSanitize P j.parse := by
    rw [Request.body, hpayload]
    rfl
  have hfields := crmWebhookSchema_fields (validate_eq_ok hb)
  rw [hbody] at hfields
  exact ⟨keepsPayload_of_same (parsed_parse j) hfields,
    same_of_keepsPayload (parsed_parse j) hfields⟩

def sampleSyntax : JsonSyntax :=
  .obj [("event", .str "lead.status_changed"), ("enquiryId", .num .one),
    ("crmRecordId", .str "crm-7"), ("status", .str "contacted")]

theorem keepsPayload_sampleSyntax : KeepsPayload .sample sampleSyntax.parse := by
  have hparse : sampleSyntax.parse = sampleWebhookBody := rfl
  rw [hparse]
  refine ⟨⟨?_, ?_⟩, fun key hkey => ?_, ⟨.one, rfl⟩⟩
  · simp [sampleWebhookBody, Value.object, Value.Lacks, Value.PropsLack]
  · have hstrings : sampleWebhookBody.strings =
        (["lead.status_changed", "crm-7", "contacted"] : List JsString) :=
      rfl
    rw [hstrings]
    decide +kernel
  · obtain ⟨v, hv⟩ := Option.isSome_iff_exists.mp hkey
    have hmem := List.mem_map_of_mem (f := Prod.fst)
      (Value.mem_of_lookup ((get_object key).symm.trans hv))
    revert hmem
    simp only [webhookKeys, List.map_cons, List.map_nil, List.mem_cons, List.not_mem_nil, or_false]
    tauto

theorem rawPayload_same_sample :
    ((sampleWebhook (some genuineSignature)).audit .sample sampleFields).rawPayload.Same
      sampleSyntax.parse :=
  (rawPayload_same_iff .sample (sampleWebhook (some genuineSignature))
    ⟨Platform.sampleWebhookText, by decide⟩ sampleSyntax sampleFields rfl rfl).mpr
      keepsPayload_sampleSyntax

def scoredText : String :=
  "\x7b\"event\":\"contact.synced\",\"enquiryId\":1,\"crmRecordId\":\"crm-7\",\"score\":5\x7d"

def scoredSyntax : JsonSyntax :=
  .obj [("event", .str "contact.synced"), ("enquiryId", .num .one),
    ("crmRecordId", .str "crm-7"), ("score", .num ⟨false, 5, 0, by decide⟩)]

def scoredMac : List UInt8 :=
  [88, 5, 13, 55, 131, 157, 94, 39, 54, 181, 151, 81, 69, 0, 165, 226, 230, 116, 213, 138, 221,
    210, 73, 183, 216, 228, 1, 182, 216, 130, 86, 75]

def scoredPlatform : Platform :=
  { Platform.sample with
    hmacSha256 := fun _ text =>
      if text = scoredText then ⟨scoredMac, rfl⟩
      else ⟨List.replicate 32 0, Platform.length_zeros⟩ }

def scoredSignature : String :=
  "sha256=58050d37839d5e2736b597514500a5e2e674d58addd249b7d8e401b6d882564b"

def scoredWebhook : Request :=
  { sampleWebhook (some scoredSignature) with
    payload := some (⟨scoredText, by decide⟩, scoredSyntax.parse) }

def scoredFields : CrmWebhookBody where
  event := .contactSynced
  enquiryId := 1
  crmRecordId := "crm-7"
  status := none
  payload := none
  enquiryId_pos := Nat.one_pos
  crmRecordId_length := sampleRecordId_length

/-- A signed field that the schema does not know is accepted and not logged. -/
theorem not_rawPayload_same :
    validateWebhook scoredPlatform scoredWebhook = .ok scoredFields ∧
      scoredWebhook.signatureValid scoredPlatform scoredFields = true ∧
      ¬ (scoredWebhook.audit scoredPlatform scoredFields).rawPayload.Same scoredSyntax.parse := by
  refine ⟨rfl, by decide +kernel, ?_⟩
  rintro ⟨others, proto, heq, hlength, -⟩
  obtain rfl := (Value.obj.inj heq).1
  cases hlength

end Logged

end PropertyPlatform
