import PropertyPlatform.Errors

/-!
# Sanitizing and validating request bodies

A validated body is a structure that carries the bounds its schema checked, so
the services downstream never see one that violates them.
-/

namespace PropertyPlatform

open Js

variable (P : Platform)

mutual

/-- `deepSanitize`: strings lose their markup, objects are rebuilt by assignment. -/
def deepSanitize : Value → Value
  | .str s => .str (P.sanitizeHtml s).trim
  | .arr items => .arr (sanitizeItems items)
  | .obj props _ => sanitizeProps props (.object [])
  | v => v

def sanitizeItems : List Value → List Value
  | [] => []
  | v :: vs => deepSanitize v :: sanitizeItems vs

/-- `out[k] = deepSanitize(v)` for each own entry. Assigning to `__proto__` sets the
prototype when the value is an object or `null` and does nothing otherwise. -/
def sanitizeProps : List (JsString × Value) → Value → Value
  | [], out => out
  | (k, v) :: rest, out =>
    sanitizeProps rest (match out with
      | .obj props proto =>
        if k = "__proto__" then
          match deepSanitize v with
          | .obj ps p => .obj props (.obj ps p)
          | .arr items => .obj props (.arr items)
          | .null => .obj props .null
          | _ => .obj props proto
        else .obj (Value.assign k (deepSanitize v) props) proto
      | other => other)

end

/-- `sanitizeBody` on a parsed body. -/
def sanitizeBody (body : Value) : Value := deepSanitize P body

/-- `z.coerce.number().int().positive()`; the exception is the one `Number` throws on
an object that has no conversion to a primitive. -/
def coercePositiveInt : Option Value → Except NativeError (Option ℕ)
  | none => .ok none
  | some .null => .ok none
  | some (.bool b) => .ok (if b then some 1 else none)
  | some (.num x) => .ok x.toPositive?
  | some v =>
    match v.toPrimitive P.stringToLength with
    | .throws => .error ⟨"Cannot convert object to primitive value", none, none⟩
    | .illFormed => .ok none
    | .text s => .ok ((P.stringToNumber (String.ofList s)).bind Number.toPositive?)

/-- `z.string().trim()`. -/
def trimmedString : Option Value → Option JsString
  | some (.str s) => some s.trim
  | _ => none

/-- The text that the string is hashed and stored as. The bounds and formats below tell it from
the string itself nowhere: U+FFFD is one code unit, and no format takes it. -/
def trimmedText (v : Option Value) : Option String := (trimmedString v).map JsString.toWellFormed

/-- `/^[0-9+()\-\s]{6,20}$/`. -/
def phoneFormat (s : String) : Bool :=
  s.toList.all (fun c => c.isDigit || ['+', '(', ')', '-'].contains c || isWhiteSpace c) &&
    decide (6 ≤ s.toList.length) && decide (s.toList.length ≤ 20)

inductive EnquirySource where
  | website
  | mobileApp
  | partnerPortal
  | other
  deriving DecidableEq, Repr

def EnquirySource.ofText : String → Option EnquirySource
  | "website" => some .website
  | "mobile_app" => some .mobileApp
  | "partner_portal" => some .partnerPortal
  | "other" => some .other
  | _ => none

inductive EnquiryStatus where
  | new
  | contacted
  | converted
  | closed
  deriving DecidableEq, Repr

def EnquiryStatus.text : EnquiryStatus → String
  | .new => "new"
  | .contacted => "contacted"
  | .converted => "converted"
  | .closed => "closed"

def EnquiryStatus.ofText : String → Option EnquiryStatus
  | "new" => some .new
  | "contacted" => some .contacted
  | "converted" => some .converted
  | "closed" => some .closed
  | _ => none

/-- What `createEnquirySchema` accepts. -/
structure CreateEnquiryInput where
  fullName : String
  email : String
  phone : Option String
  propertyId : ℕ
  message : String
  source : EnquirySource
  fullName_length : 2 ≤ utf16Length fullName ∧ utf16Length fullName ≤ 120
  email_valid : P.emailFormat email = true ∧ utf16Length email ≤ 254
  phone_valid : ∀ s ∈ phone, phoneFormat s = true
  propertyId_pos : 0 < propertyId
  message_length : 1 ≤ utf16Length message ∧ utf16Length message ≤ 2000

/-- `.optional().nullable()` around the trimmed phone: `undefined` and `null` pass. -/
def optionalPhone : Option Value → Option (Option String)
  | none => some none
  | some .null => some none
  | some (.str s) => some (some s.trim.toWellFormed)
  | some _ => none

/-- `z.enum([...]).default('website')`. -/
def enquirySource : Option Value → Option EnquirySource
  | none => some .website
  | some (.str (.wellFormed s)) => EnquirySource.ofText s
  | some _ => none

def isObject : Value → Bool
  | .obj _ _ => true
  | .objectPrototype => true
  | _ => false

/-- `createEnquirySchema.safeParse`: the data, `none` for a failed parse. -/
def createEnquirySchema (body : Value) : Except NativeError (Option (CreateEnquiryInput P)) :=
  if isObject body then
    (coercePositiveInt P (body.get "propertyId")).map fun propertyId? => do
      let fullName ← trimmedText (body.get "fullName")
      let email ← trimmedText (body.get "email")
      let phone ← optionalPhone (body.get "phone")
      let propertyId ← propertyId?
      let message ← trimmedText (body.get "message")
      let source ← enquirySource (body.get "source")
      if h : (2 ≤ utf16Length fullName ∧ utf16Length fullName ≤ 120) ∧
          (P.emailFormat email = true ∧ utf16Length email ≤ 254) ∧
          (∀ s ∈ phone, phoneFormat s = true) ∧ 0 < propertyId ∧
          (1 ≤ utf16Length message ∧ utf16Length message ≤ 2000) then
        some ⟨fullName, email, phone, propertyId, message, source, h.1, h.2.1, h.2.2.1,
          h.2.2.2.1, h.2.2.2.2⟩
      else none
  else .ok none

inductive CrmEvent where
  | leadUpdated
  | leadStatusChanged
  | contactSynced
  deriving DecidableEq, Repr

def CrmEvent.text : CrmEvent → String
  | .leadUpdated => "lead.updated"
  | .leadStatusChanged => "lead.status_changed"
  | .contactSynced => "contact.synced"

def CrmEvent.ofText : String → Option CrmEvent
  | "lead.updated" => some .leadUpdated
  | "lead.status_changed" => some .leadStatusChanged
  | "contact.synced" => some .contactSynced
  | _ => none

/-- What `crmWebhookSchema` accepts. -/
structure CrmWebhookBody where
  event : CrmEvent
  enquiryId : ℕ
  crmRecordId : JsString
  status : Option EnquiryStatus
  payload : Option (List (JsString × Value))
  enquiryId_pos : 0 < enquiryId
  crmRecordId_length : 1 ≤ crmRecordId.length ∧ crmRecordId.length ≤ 100

def enumValue {α : Type} (ofText : String → Option α) : Option Value → Option α
  | some (.str (.wellFormed s)) => ofText s
  | _ => none

/-- `z.enum([...]).optional()`. -/
def optionalStatus : Option Value → Option (Option EnquiryStatus)
  | none => some none
  | v => (enumValue EnquiryStatus.ofText v).map some

/-- `z.record(z.unknown()).optional()`: the properties of a `for..in` loop are copied,
`__proto__` excepted. -/
def optionalRecord : Option Value → Option (Option (List (JsString × Value)))
  | none => some none
  | some v =>
    if isObject v then
      some (some ((v.forIn.filter fun x => x.1 ≠ ("__proto__" : JsString)).foldl
        (fun out x => Value.assign x.1 x.2 out) []))
    else none

/-- `crmWebhookSchema.safeParse`. -/
def crmWebhookSchema (body : Value) : Except NativeError (Option CrmWebhookBody) :=
  if isObject body then
    (coercePositiveInt P (body.get "enquiryId")).map fun enquiryId? => do
      let event ← enumValue CrmEvent.ofText (body.get "event")
      let enquiryId ← enquiryId?
      let crmRecordId ← trimmedString (body.get "crmRecordId")
      let status ← optionalStatus (body.get "status")
      let payload ← optionalRecord (body.get "payload")
      if h : 0 < enquiryId ∧ 1 ≤ crmRecordId.length ∧ crmRecordId.length ≤ 100 then
        some ⟨event, enquiryId, crmRecordId, status, payload, h.1, h.2⟩
      else none
  else .ok none

/-- The object `req.body` is replaced by. -/
def CrmWebhookBody.toValue (b : CrmWebhookBody) : Value :=
  .object (([("event", .str b.event.text), ("enquiryId", .nat b.enquiryId),
    ("crmRecordId", .str b.crmRecordId)] : List (JsString × Value)) ++
    (b.status.map fun s => (("status" : JsString), Value.str s.text)).toList ++
    (b.payload.map fun p => (("payload" : JsString), Value.object p)).toList)

/-- `validate(schema, 'body')`: the error it throws, or the data it stores in `req.body`. -/
def validate {α : Type} (name : String) (safeParse : Value → Except NativeError (Option α))
    (body : Value) : Except Err α :=
  match safeParse body with
  | .error e => .error (.native e)
  | .ok none =>
    .error (validationError "Request validation failed" (P.fieldErrors name body))
  | .ok (some data) => .ok data

end PropertyPlatform
