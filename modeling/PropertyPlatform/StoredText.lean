import PropertyPlatform.Js.Strings
import PropertyPlatform.Audit

/-!
# What client text reaches the tables

The sanitizer rewrites the strings of a request body. It does not see the headers, and it
copies the keys of objects as they are.
-/

namespace PropertyPlatform

open Js Async Program

/-- `sanitizeHtml` without allowed tags leaves no tag. -/
def Platform.RemovesMarkup (P : Platform) : Prop :=
  ∀ s, MarkupFree (P.sanitizeHtml s).toWellFormed

/-- Every string value is free of markup. -/
def CleanValue (v : Value) : Prop := ∀ s ∈ v.strings, MarkupFree s.toWellFormed

def EnquirySource.text : EnquirySource → String
  | .website => "website"
  | .mobileApp => "mobile_app"
  | .partnerPortal => "partner_portal"
  | .other => "other"

variable {P : Platform}

section Sanitizer

theorem markupFree_trim {s : JsString} (h : MarkupFree s.toWellFormed) :
    MarkupFree s.trim.toWellFormed := by
  rw [JsString.toWellFormed_trim]
  exact h.trim

mutual

theorem clean_deepSanitize (hP : P.RemovesMarkup) : ∀ v : Value, CleanValue (deepSanitize P v)
  | .str s => by
    intro t ht
    rw [deepSanitize, Value.strings] at ht
    rw [List.mem_singleton.mp ht]
    exact markupFree_trim (hP s)
  | .arr items => by
    rw [deepSanitize]
    exact clean_sanitizeItems hP items
  | .obj props proto => by
    rw [deepSanitize]
    exact clean_sanitizeProps hP props (.object []) (by simp [CleanValue, Value.object,
      Value.strings, Value.propsStrings])
  | .null | .bool _ | .num _ | .objectPrototype => by
    simp [CleanValue, deepSanitize, Value.strings]

theorem clean_sanitizeItems (hP : P.RemovesMarkup) : ∀ items : List Value,
    ∀ s ∈ Value.itemsStrings (sanitizeItems P items), MarkupFree s.toWellFormed
  | [] => by simp [sanitizeItems, Value.itemsStrings]
  | v :: vs => by
    intro s hs
    rw [sanitizeItems, Value.itemsStrings] at hs
    rcases List.mem_append.mp hs with hs | hs
    · exact clean_deepSanitize hP v s hs
    · exact clean_sanitizeItems hP vs s hs

theorem clean_sanitizeProps (hP : P.RemovesMarkup) : ∀ (props : List (JsString × Value))
    (out : Value), CleanValue out → CleanValue (sanitizeProps P props out)
  | [], out, hout => by rwa [sanitizeProps]
  | (k, v) :: rest, out, hout => by
    have hv := clean_deepSanitize hP v
    rw [sanitizeProps.eq_def]
    refine clean_sanitizeProps hP rest _ ?_
    cases out with
    | obj props proto =>
      have hprops : ∀ w : Value, CleanValue w → CleanValue (.obj props w) := by
        intro w hw s hs
        rcases List.mem_append.mp hs with hs | hs
        · exact hout s (List.mem_append_left _ hs)
        · exact hw s hs
      simp only
      split_ifs with hproto
      · split
        · next ps p heq => exact hprops _ (heq ▸ hv)
        · next items heq => exact hprops _ (heq ▸ hv)
        · exact hprops _ (by simp [CleanValue, Value.strings])
        · exact hout
      · intro s hs
        rcases List.mem_append.mp hs with hs | hs
        · rcases Value.strings_assign hs with hs | hs
          · exact hv s hs
          · exact hout s (List.mem_append_left _ hs)
        · exact hout s (List.mem_append_right _ hs)
    | _ => exact hout

end

theorem clean_body (hP : P.RemovesMarkup) (req : Request) : CleanValue (req.body P) :=
  clean_deepSanitize hP _

end Sanitizer

section Validators

variable {body : Value} {req : Request}

theorem CleanValue.get (h : CleanValue body) {key : JsString} {v : Value}
    (hv : body.get key = some v) : CleanValue v :=
  fun s hs => h s (Value.strings_get hv hs)

theorem CleanValue.trimmedString (h : CleanValue body) {key s : JsString}
    (hs : trimmedString (body.get key) = some s) : MarkupFree s.toWellFormed := by
  unfold PropertyPlatform.trimmedString at hs
  split at hs
  · next t ht =>
    rw [← Option.some.inj hs]
    exact markupFree_trim (h.get ht t (by simp [Value.strings]))
  · cases hs

theorem CleanValue.trimmedText (h : CleanValue body) {key : JsString} {s : String}
    (hs : trimmedText (body.get key) = some s) : MarkupFree s := by
  obtain ⟨t, ht, rfl⟩ := Option.map_eq_some_iff.mp hs
  exact h.trimmedString ht

theorem CleanValue.optionalPhone (h : CleanValue body) {key : JsString} {phone : Option String}
    (hphone : optionalPhone (body.get key) = some phone) : ∀ s ∈ phone, MarkupFree s := by
  unfold PropertyPlatform.optionalPhone at hphone
  split at hphone
  · cases hphone; simp
  · cases hphone; simp
  · next t ht =>
    rw [← Option.some.inj hphone]
    intro s hs
    rw [← Option.mem_some.mp hs]
    exact markupFree_trim (h.get ht t (by simp [Value.strings]))
  · cases hphone

theorem validate_eq_ok {α : Type} {name : String}
    {safeParse : Value → Except NativeError (Option α)} {data : α}
    (h : validate P name safeParse body = .ok data) : safeParse body = .ok (some data) := by
  unfold validate at h
  split at h
  · cases h
  · cases h
  · next heq =>
    cases h
    exact heq

/-- The texts of an accepted enquiry are read from the body. -/
theorem createEnquirySchema_texts {input : CreateEnquiryInput P}
    (h : createEnquirySchema P body = .ok (some input)) :
    trimmedText (body.get "fullName") = some input.fullName ∧
      trimmedText (body.get "email") = some input.email ∧
      optionalPhone (body.get "phone") = some input.phone ∧
      trimmedText (body.get "message") = some input.message := by
  unfold createEnquirySchema at h
  split_ifs at h with hobject
  · cases hid : coercePositiveInt P (body.get "propertyId") with
    | error e => rw [hid] at h; cases h
    | ok id? =>
      rw [hid] at h
      have h := Except.ok.inj h
      simp only [Option.bind_eq_bind, Option.bind_eq_some_iff] at h
      obtain ⟨fullName, hname, email, hemail, phone, hphone, id, -, message, hmessage, source, -,
        h⟩ := h
      split_ifs at h with hbounds
      cases h
      exact ⟨hname, hemail, hphone, hmessage⟩
  · cases h

variable (P) in
/-- The fields of an accepted webhook are read from the body. -/
structure WebhookFields (body : Value) (b : CrmWebhookBody) : Prop where
  event : enumValue CrmEvent.ofText (body.get "event") = some b.event
  enquiryId : coercePositiveInt P (body.get "enquiryId") = .ok (some b.enquiryId)
  crmRecordId : trimmedString (body.get "crmRecordId") = some b.crmRecordId
  status : optionalStatus (body.get "status") = some b.status
  payload : optionalRecord (body.get "payload") = some b.payload

theorem crmWebhookSchema_fields {b : CrmWebhookBody}
    (h : crmWebhookSchema P body = .ok (some b)) : WebhookFields P body b := by
  unfold crmWebhookSchema at h
  split_ifs at h with hobject
  · cases hid : coercePositiveInt P (body.get "enquiryId") with
    | error e => rw [hid] at h; cases h
    | ok id? =>
      rw [hid] at h
      have h := Except.ok.inj h
      simp only [Option.bind_eq_bind, Option.bind_eq_some_iff] at h
      obtain ⟨event, hevent, id, rfl, recordId, hrecord, status, hstatus, payload, hpayload, h⟩ := h
      split_ifs at h with hbounds
      cases h
      exact ⟨hevent, hid, hrecord, hstatus, hpayload⟩
  · cases h

theorem CleanValue.optionalRecord (h : CleanValue body) {key : JsString}
    {props : List (JsString × Value)}
    (hprops : optionalRecord (body.get key) = some (some props)) :
    CleanValue (.object props) := by
  unfold PropertyPlatform.optionalRecord at hprops
  split at hprops
  · cases hprops
  · next v hv =>
    split_ifs at hprops
    cases hprops
    intro s hs
    obtain ⟨x, hx, hs⟩ := Value.mem_strings_object.mp hs
    have hprop : s ∈ Value.propsStrings _ := Value.mem_propsStrings.mpr ⟨x, hx, hs⟩
    rcases Value.strings_foldl_assign hprop with ⟨y, hy, hs⟩ | hs
    · exact h.get hv s (Value.strings_forIn (List.mem_filter.mp hy).1 hs)
    · cases hs

/-- The keys in the payload of an accepted webhook, at any depth. -/
def CrmWebhookBody.payloadKeys (b : CrmWebhookBody) : List JsString :=
  Value.propsKeys (b.payload.getD [])

theorem markupFree_texts : (∀ e : CrmEvent, MarkupFree e.text) ∧
    (∀ s : EnquiryStatus, MarkupFree s.text) ∧ ∀ s : EnquirySource, MarkupFree s.text := by
  refine ⟨fun e => ?_, fun s => ?_, fun s => ?_⟩
  · cases e <;> decide
  · cases s <;> decide
  · cases s <;> decide

theorem strings_nat (n : ℕ) : (Value.nat n).strings = [] ∧ (Value.nat n).keys = [] := by
  unfold Value.nat
  simp only
  split_ifs <;> exact ⟨rfl, rfl⟩

/-- The values that an accepted webhook logs carry no markup, so only its keys can. -/
theorem clean_toValue (hP : P.RemovesMarkup) {b : CrmWebhookBody}
    (hb : validateWebhook P req = .ok b) : CleanValue b.toValue := by
  have hfields := crmWebhookSchema_fields (validate_eq_ok hb)
  have hbody := clean_body hP req
  intro s hs
  obtain ⟨x, hx, hs⟩ := Value.mem_strings_object.mp hs
  simp only [List.mem_append, List.mem_cons, List.not_mem_nil, or_false, Option.mem_toList,
    Option.map_eq_some_iff] at hx
  rcases hx with ((rfl | rfl | rfl) | ⟨status, -, rfl⟩) | ⟨props, hprops, rfl⟩
  · rw [List.mem_singleton.mp hs]
    exact markupFree_texts.1 _
  · rw [(strings_nat _).1] at hs
    cases hs
  · rw [List.mem_singleton.mp hs]
    exact hbody.trimmedString hfields.crmRecordId
  · rw [List.mem_singleton.mp hs]
    exact markupFree_texts.2.1 _
  · have hpayload := hfields.payload
    rw [hprops] at hpayload
    exact hbody.optionalRecord hpayload s hs

theorem keys_toValue (b : CrmWebhookBody) :
    (∃ k ∈ b.toValue.keys, ¬ MarkupFree k.toWellFormed) ↔
      ∃ k ∈ b.payloadKeys, ¬ MarkupFree k.toWellFormed := by
  have hown : ∀ k ∈ (["event", "enquiryId", "crmRecordId", "status", "payload"] : List JsString),
      MarkupFree k.toWellFormed := by
    decide
  constructor
  · rintro ⟨k, hk, hmarkup⟩
    obtain ⟨x, hx, hkey⟩ := Value.mem_keys_object.mp hk
    simp only [List.mem_append, List.mem_cons, List.not_mem_nil, or_false, Option.mem_toList,
      Option.map_eq_some_iff] at hx
    have hnested : k ∈ x.2.keys := by
      refine hkey.resolve_left fun heq => hmarkup (heq ▸ hown _ ?_)
      rcases hx with ((rfl | rfl | rfl) | ⟨status, -, rfl⟩) | ⟨props, -, rfl⟩ <;> simp
    refine ⟨k, ?_, hmarkup⟩
    rcases hx with ((rfl | rfl | rfl) | ⟨status, -, rfl⟩) | ⟨props, hprops, rfl⟩
    · cases hnested
    · rw [(strings_nat _).2] at hnested
      cases hnested
    · cases hnested
    · cases hnested
    · rwa [CrmWebhookBody.payloadKeys, hprops]
  · rintro ⟨k, hk, hmarkup⟩
    refine ⟨k, Value.mem_keys_object.mpr ?_, hmarkup⟩
    cases hpayload : b.payload with
    | none =>
      rw [CrmWebhookBody.payloadKeys, hpayload] at hk
      cases hk
    | some props =>
      rw [CrmWebhookBody.payloadKeys, hpayload] at hk
      exact ⟨("payload", .object props), by simp, Or.inr hk⟩

/-- The logged text has markup exactly if a key of the payload has. -/
theorem markupFree_stringify (hP : P.RemovesMarkup) {b : CrmWebhookBody}
    (hb : validateWebhook P req = .ok b) :
    MarkupFree b.toValue.stringify ↔ ∀ k ∈ b.payloadKeys, MarkupFree k.toWellFormed := by
  have htext := (Value.mem_text b.toValue (clean_toValue hP hb)).trans (keys_toValue b)
  rw [MarkupFree, Value.stringify, String.toList_ofList, htext]
  simp only [not_exists, not_and, not_not]

end Validators

section Rows

variable {req : Request}

/-- The text columns that `createEnquiry` writes from client input. -/
def EnquiryRecord.texts (row : EnquiryRecord) : List String :=
  [row.fullName, row.email, row.message, row.source.text] ++ row.phone.toList ++
    row.userAgent.toList

/-- What an enquiry request inserts is free of markup if the `User-Agent` it stores is. -/
theorem markupFree_newEnquiry (hP : P.RemovesMarkup) {input : CreateEnquiryInput P}
    (hvalid : validateEnquiry P req = .ok input)
    (hagent : ∀ s ∈ req.userAgent, s.length ≤ 255 → MarkupFree s) {row : EnquiryRecord}
    (hrow : row.toNewEnquiry = newEnquiry P input req.context) (hfits : row.fits = true) :
    ∀ s ∈ row.texts, MarkupFree s := by
  obtain ⟨hname, hemail, hphone, hmessage⟩ := createEnquirySchema_texts (validate_eq_ok hvalid)
  have hbody := clean_body hP req
  intro s hs
  simp only [EnquiryRecord.texts, hrow, newEnquiry, List.mem_append, List.mem_cons,
    List.not_mem_nil, or_false, Option.mem_toList] at hs
  rcases hs with ((rfl | rfl | rfl | rfl) | hs) | hs
  · exact hbody.trimmedText hname
  · exact hbody.trimmedText hemail
  · exact hbody.trimmedText hmessage
  · exact markupFree_texts.2.2 _
  · exact hbody.optionalPhone hphone s hs
  · have hlength : s.length ≤ 255 := by
      have hstored : s ∈ row.userAgent := by
        rw [hrow]
        exact hs
      simp only [NewEnquiry.fits, Bool.and_eq_true] at hfits
      have hcolumn := hfits.2
      rw [Option.mem_def.mp hstored] at hcolumn
      simpa [fitsIn] using hcolumn
    obtain ⟨agent, hagent', hs⟩ := Option.bind_eq_some_iff.mp hs
    unfold orNull at hs
    split_ifs at hs
    cases hs
    exact hagent _ hagent' hlength

/-- Unless it is cut, the logged payload is free of markup exactly if its keys are. -/
theorem markupFree_webhookRow (hP : P.RemovesMarkup) {b : CrmWebhookBody}
    (hb : validateWebhook P req = .ok b) (hlength : utf16Length b.toValue.stringify ≤ 60000) :
    MarkupFree (webhookRow P req b).rawPayload ↔
      ∀ k ∈ b.payloadKeys, MarkupFree k.toWellFormed := by
  rw [← markupFree_stringify hP hb]
  change MarkupFree (sliceTo 60000 b.toValue.stringify) ↔ _
  rw [sliceTo_of_le hlength]

/-- Where the rows of the audit table come from. -/
def auditSource (P : Platform) (call : Call P) (q : Operation) : Prop :=
  ∀ v, q = .insertWebhookEvent v → ∃ req b, call = .postCrmWebhook req ∧
    validateWebhook P req = .ok b ∧ v = webhookRow P req b

theorem uses_auditSource (call : Call P) : (program P call).Uses (auditSource P call) := by
  have hother : (∀ req, call ≠ .postCrmWebhook req) →
      (program P call).Uses (auditSource P call) := by
    intro hcall
    refine (uses_program call).mono fun q hq v hv => ?_
    subst hv
    cases call with
    | createEnquiry input ctx => exact hq.elim
    | postEnquiry req route =>
      cases hq with
      | limiter l hq => cases hq
      | idempotency hq => exact hq.elim
      | create input hvalid hq => exact hq.elim
    | postCrmWebhook req => exact (hcall req rfl).elim
    | crmSyncJob enquiryId => exact hq.elim
  cases call with
  | postCrmWebhook req =>
    have hquiet : ∀ q : Operation, q.keepsAudit = true → auditSource P (.postCrmWebhook req) q := by
      rintro q hq v rfl
      cases hq
    refine uses_bind (uses_withErrorHandler req (fun _ => uses_sendJson (hquiet _ rfl)) ?_)
      fun _ => uses_pure _
    refine uses_bind (uses_rateLimiter (hquiet _ rfl)) fun _ => ?_
    refine uses_bind (uses_rateLimiter (hquiet _ rfl)) fun _ => ?_
    cases hb : validateWebhook P req with
    | error e => trivial
    | ok b =>
      change (crmWebhookHandler P req b).Uses _
      refine uses_bind ((uses_perform _).mpr ?_) fun _ => uses_afterAudit.mono hquiet
      rintro v ⟨⟩
      exact ⟨req, b, rfl, hb, rfl⟩
  | _ => exact hother fun _ h => by cases h

end Rows

section Runs

variable {ι : Type} [DecidableEq ι] {calls : ι → Call P} {c : System ι}

/-- Every value of an inserted row fits its column. -/
def InsertsFit (c : System ι) : Prop :=
  ∀ i v id, (i, ⟨.insertEnquiry v, .ok id⟩) ∈ c.trace → v.fits = true

theorem Reachable.insertsFit (h : Reachable P calls c) : InsertsFit c := by
  refine h.induct (fun _ _ _ _ _ h => (List.not_mem_nil h).elim)
    (fun c j q k r w' _ ih _ _ hserved i v id hmem => ?_) fun _ _ _ _ ih _ => ih
  rcases List.mem_append.mp hmem with hmem | hmem
  · exact ih i v id hmem
  · cases List.mem_singleton.mp hmem
    cases hserved.effect with
    | idle hidle => cases hidle
    | inserted v hfits hfresh => exact hfits

/-- A request of a client or a job that follows from one. -/
def Call.overHttp : Call P → Bool
  | .createEnquiry _ _ => false
  | _ => true

/-- The two ways past the sanitizer: the `User-Agent` of an accepted enquiry that fits its column,
and the keys in the payload of an accepted webhook. -/
def Call.CarriesNoMarkup : Call P → Prop
  | .postEnquiry req _ => ∀ input, validateEnquiry P req = .ok input →
    ∀ agent ∈ req.userAgent, agent.length ≤ 255 → MarkupFree agent
  | .postCrmWebhook req => ∀ b, validateWebhook P req = .ok b →
    ∀ k ∈ b.payloadKeys, MarkupFree k.toWellFormed
  | _ => True

/-- No client markup in the text columns of `enquiries` or in `raw_payload`. -/
structure NoMarkupStored (c : System ι) : Prop where
  enquiries : ∀ row ∈ c.world.enquiries.contents, ∀ s ∈ row.texts, MarkupFree s
  payloads : ∀ x ∈ c.world.webhookEvents, MarkupFree x.2.rawPayload

theorem noMarkupStored (hP : P.RemovesMarkup) (hhttp : ∀ i, (calls i).overHttp = true)
    (hcalls : ∀ i, (calls i).CarriesNoMarkup) (h : Reachable P calls c) : NoMarkupStored c where
  enquiries := by
    intro row hrow
    obtain ⟨i, hi⟩ := h.consistent.inserted hrow
    have hfoot := h.footprint_of_mem hi
    have hcall := hcalls i
    have hkind := hhttp i
    cases heq : calls i <;> rw [heq] at hfoot hcall hkind
    · cases hkind
    · cases hfoot with
      | limiter l hq => cases hq
      | idempotency hq => exact hq.elim
      | create input hvalid hq =>
        exact markupFree_newEnquiry hP hvalid (hcall input hvalid) hq (h.insertsFit i _ _ hi)
    · exact hfoot.elim
    · exact hfoot.elim
  payloads := by
    intro x hx
    obtain ⟨r, hr⟩ := h.auditSourced x hx
    have hsource : auditSource P (calls x.1) (.insertWebhookEvent x.2) := by
      obtain ⟨now, properties, hrun⟩ := h
      exact (hrun.uses (uses_auditSource (calls x.1))).1 _ (Config.mem_own.mpr hr)
    obtain ⟨req, b, hcall, hb, hrow⟩ := hsource _ rfl
    have hkeys := hcalls x.1
    rw [hcall] at hkeys
    rw [hrow]
    exact MarkupFree.sliceTo ((markupFree_stringify hP hb).mpr (hkeys b hb)) 60000

end Runs

section Samples

/-- A sanitizer that escapes the character. -/
def escapingPlatform : Platform :=
  { Platform.sample with
    sanitizeHtml := fun s => String.ofList
      (s.toWellFormed.toList.flatMap fun c => if c = '<' then ['&', 'l', 't', ';'] else [c]) }

theorem removesMarkup_escapingPlatform : escapingPlatform.RemovesMarkup := by
  intro s hs
  rw [escapingPlatform, JsString.toWellFormed, String.toList_ofList] at hs
  obtain ⟨c, -, hc⟩ := List.mem_flatMap.mp hs
  split_ifs at hc with hopen
  · revert hc
    decide
  · exact hopen (List.mem_singleton.mp hc).symm

def taggedWebhookBody : Value :=
  .object [("event", .str "contact.synced"), ("enquiryId", .num .one),
    ("crmRecordId", .str "crm-7"), ("payload", .object [("<b>", .null)])]

/-- An enquiry with a tag in its `User-Agent`, then an unsigned webhook with a tag in a key. -/
def taggedCalls : ℕ → Call escapingPlatform
  | 0 => .postEnquiry { sampleEnquiry "Jane Doe" with
      userAgent := some "<script>alert(1)</script>" } rfl
  | _ => .postCrmWebhook { sampleWebhook none with
      payload := some (⟨taggedWebhookBody.stringify, by
        simp [taggedWebhookBody, Value.object, Value.stringify, Value.text]⟩,
        taggedWebhookBody) }

def publishedStart (calls : ℕ → Call escapingPlatform) : System ℕ :=
  start escapingPlatform calls 0 fun id => if id = 1 then some .published else none

def taggedState : System ℕ :=
  (publishedStart taggedCalls).after (server escapingPlatform) (undisturbed 0 15 ++ undisturbed 1 3)

theorem reachable_taggedState : Reachable escapingPlatform taggedCalls taggedState :=
  ⟨0, _, Config.run_after (by rfl)⟩

/-- Both ways past the sanitizer lead to the tables. -/
theorem taggedState_rows :
    taggedState.world.enquiryRows.map (fun row => row.userAgent) =
        [some "<script>alert(1)</script>"] ∧
      taggedState.world.webhookEvents.map (fun x => x.2.rawPayload) =
        [sliceTo 60000 taggedWebhookBody.stringify] :=
  ⟨by rfl, by rfl⟩

theorem not_noMarkupStored : ¬ ∀ (P : Platform) (calls : ℕ → Call P) (c : System ℕ),
    P.RemovesMarkup → (∀ i, (calls i).overHttp = true) → Reachable P calls c →
      NoMarkupStored c := by
  intro hclaim
  have hhttp : ∀ i, (taggedCalls i).overHttp = true := by
    intro i
    cases i <;> rfl
  have hclean := hclaim _ _ _ removesMarkup_escapingPlatform hhttp reachable_taggedState
  obtain ⟨row, hrow, hagent⟩ := List.mem_map.mp
    (taggedState_rows.1 ▸ List.mem_singleton_self (some "<script>alert(1)</script>"))
  have hfree := hclean.enquiries row (Table.mem_contents_of_committed hrow)
    "<script>alert(1)</script>" (by simp [EnquiryRecord.texts, hagent])
  simp [MarkupFree] at hfree

def plainWebhookBody : Value :=
  .object [("event", .str "contact.synced"), ("enquiryId", .num .one),
    ("crmRecordId", .str "crm-7"),
    ("payload", .object [("score", .num .one), ("visit", .object [("day", .str "Monday")])])]

def plainCalls : ℕ → Call escapingPlatform
  | 0 => .postEnquiry { sampleEnquiry "Jane Doe" with userAgent := some "Mozilla/5.0" } rfl
  | _ => .postCrmWebhook { sampleWebhook none with
      payload := some (⟨plainWebhookBody.stringify, by
        simp [plainWebhookBody, Value.object, Value.stringify, Value.text]⟩,
        plainWebhookBody) }

theorem carriesNoMarkup_plainCalls (i : ℕ) : (plainCalls i).CarriesNoMarkup := by
  cases i with
  | zero =>
    intro _ _ agent hagent _
    cases hagent
    simp [MarkupFree]
  | succ i =>
    intro b hb
    have hkeys : (validateWebhook escapingPlatform { sampleWebhook none with
        payload := some (⟨plainWebhookBody.stringify, by
          simp [plainWebhookBody, Value.object, Value.stringify, Value.text]⟩,
          plainWebhookBody) }).toOption.map CrmWebhookBody.payloadKeys =
        some (["score", "visit", "day"] : List JsString) := by rfl
    rw [hb] at hkeys
    rw [Option.some.inj hkeys]
    decide

theorem noMarkupStored_plain : NoMarkupStored
    ((publishedStart plainCalls).after (server escapingPlatform)
      (undisturbed 0 15 ++ undisturbed 1 3)) :=
  noMarkupStored removesMarkup_escapingPlatform (by intro i; cases i <;> rfl)
    carriesNoMarkup_plainCalls ⟨0, _, Config.run_after (by rfl)⟩

end Samples

end PropertyPlatform
