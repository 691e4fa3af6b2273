import PropertyPlatform.Js.Value

/-!
# What the backend takes from outside its own sources

Conversions that rest on the Unicode or IEEE tables of the runtime, the hash
functions, the libraries that sanitize and validate, the texts and the JSON
parser of MySQL, and the two settings read from the environment. Results hold
for every choice of these unless they name an assumption.
-/

namespace PropertyPlatform

open Js

structure Platform where
  /-- `String.prototype.toLowerCase`. -/
  toLowerCase : String → String
  /-- `Number(s)` for a string; `none` stands for `NaN` and the infinities. -/
  stringToNumber : String → Option Number
  /-- `ToLength(Number(s))` for a string. -/
  stringToLength : String → ℕ
  /-- The JSON form of a `DATETIME` read back as a `Date`. -/
  toISOString : ℕ → String
  /-- `createHash('sha256').update(text).digest('hex')`. -/
  sha256 : String → String
  /-- `createHmac('sha256', secret).update(text)`, as bytes. -/
  hmacSha256 : String → String → { bytes : List UInt8 // bytes.length = 32 }
  /-- `sanitizeHtml(s, { allowedTags: [], allowedAttributes: {} })`. -/
  sanitizeHtml : JsString → JsString
  /-- The check behind `z.string().email()`. -/
  emailFormat : String → Bool
  /-- `error.flatten().fieldErrors` of the named schema on a value it rejects. -/
  fieldErrors : String → Value → Value
  /-- Whether MySQL takes a text as a JSON document. -/
  castAsJson : String → Bool
  /-- The message of a MySQL error. -/
  sqlMessage : ℕ → String
  isProd : Bool
  crmWebhookSecret : String

namespace Platform

def sampleFingerprintText : String := "jane@example.com|919876543210|1|please call me."

def sampleWebhookText : String :=
  "\x7b\"event\":\"lead.status_changed\",\"enquiryId\":1,\"crmRecordId\":\"crm-7\",\"status\":\"contacted\"\x7d"

def sampleWebhookMac : List UInt8 :=
  [115, 34, 153, 148, 97, 197, 16, 4, 193, 9, 158, 37, 10, 55, 167, 118, 240, 38, 115, 154, 114,
    203, 83, 245, 66, 101, 154, 95, 206, 154, 207, 86]

theorem length_sampleWebhookMac : sampleWebhookMac.length = 32 := rfl

theorem length_zeros : (List.replicate 32 (0 : UInt8)).length = 32 := rfl

/-- A runtime that agrees with the real one on the texts of the examples. -/
def sample : Platform where
  toLowerCase s := String.ofList (s.toList.map Char.toLower)
  stringToNumber _ := none
  stringToLength _ := 0
  toISOString _ := "1970-01-01T00:00:00.000Z"
  sha256 s :=
    if s = sampleFingerprintText then
      "bb018ef17ed1c19c8522ddcc0143c899cedb226bdda160c1f3658c924aca9db6"
    else "text:" ++ s
  hmacSha256 _ text :=
    if text = sampleWebhookText then ⟨sampleWebhookMac, length_sampleWebhookMac⟩
    else ⟨List.replicate 32 0, length_zeros⟩
  sanitizeHtml s := s
  emailFormat s := s.toList.contains '@' && !s.toList.contains '|'
  fieldErrors schema _ :=
    if schema = "createEnquirySchema" then
      .object [("fullName", .arr [.str "Required"]), ("email", .arr [.str "Required"]),
        ("propertyId", .arr [.str "Expected number, received nan"]),
        ("message", .arr [.str "Required"])]
    else
      .object [("event", .arr [.str "Required"]),
        ("enquiryId", .arr [.str "Expected number, received nan"]),
        ("crmRecordId", .arr [.str "Required"])]
  castAsJson _ := true
  sqlMessage errno :=
    if errno = 1062 then "Duplicate entry for key 'enquiries.uq_enquiries_fingerprint'"
    else "Cannot add or update a child row: a foreign key constraint fails"
  isProd := true
  crmWebhookSecret := "change_me_webhook_shared_secret"

end Platform

end PropertyPlatform
