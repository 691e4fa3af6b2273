import PropertyPlatform.Async.Program
import PropertyPlatform.Hash

/-!
# What the backend awaits

The rows and records that travel to MySQL, Redis and the queues, and one request
for every statement or call the services await. `next`, `json`, `release` and
the detached `set` are not awaited by the source; they are requests here so that
they have a place in a history, and they are never rejected.
-/

namespace PropertyPlatform

open Js

/-- The values of `INSERT INTO enquiries`. -/
structure NewEnquiry where
  propertyId : ℕ
  fullName : String
  email : String
  phone : Option String
  message : String
  source : EnquirySource
  fingerprint : String
  ipAddress : Option String
  userAgent : Option String
  deriving DecidableEq

/-- A row of `enquiries`. Times are in seconds, as `DATETIME` keeps them. -/
structure EnquiryRecord extends NewEnquiry where
  id : ℕ
  status : EnquiryStatus
  crmRecordId : Option String
  crmSyncedAt : Option ℕ
  createdAt : ℕ
  updatedAt : ℕ
  deriving DecidableEq

inductive ProcessingStatus where
  | received
  | processed
  | failed
  | rejected
  deriving DecidableEq

/-- A row of `crm_webhook_events`. -/
structure WebhookEvent where
  enquiryId : Option ℕ
  eventType : String
  signatureValid : Bool
  rawPayload : String
  processingStatus : ProcessingStatus
  errorMessage : Option String
  ipAddress : Option String
  deriving DecidableEq

/-- The parameters of the `UPDATE` in `markCrmSynced`. -/
structure CrmUpdate where
  enquiryId : ℕ
  crmRecordId : String
  status : Option EnquiryStatus
  deriving DecidableEq

structure CrmSyncJob where
  jobId : String
  enquiryId : ℕ
  deriving DecidableEq

inductive EmailTemplate where
  | enquiryConfirmation
  | crmStatusUpdate
  deriving DecidableEq

structure EmailJob where
  toAddress : String
  template : EmailTemplate
  fullName : String
  enquiryId : ℕ
  deriving DecidableEq

/-- What an idempotency key is mapped to. -/
inductive IdempotencyRecord where
  | processing
  | completed (response : Response)

inductive Limiter where
  | general
  | enquiry
  | webhook
  deriving DecidableEq

inductive Operation where
  | rateLimit (limiter : Limiter)
  | next
  | json (response : Response)
  | getConnection
  | beginTransaction
  | commit
  | rollback
  | release
  | selectPublishedProperty (id : ℕ)
  | insertEnquiry (values : NewEnquiry)
  | selectEnquiry (id : ℕ)
  | selectEnquiryId (id : ℕ)
  | updateEnquiry (values : CrmUpdate)
  | insertWebhookEvent (values : WebhookEvent)
  | addCrmSyncJob (job : CrmSyncJob)
  | addEmailJob (job : EmailJob)
  | setNx (key : String) (record : IdempotencyRecord) (ttlSeconds : ℕ)
  | get (key : String)
  | set (key : String) (record : IdempotencyRecord) (ttlSeconds : ℕ)
  | random
  | dateNow

namespace Operation

/-- A limiter tells whether the hit is within its limit, an insert the new id, `setNx`
whether the key was free, `random` whether the draw fell below the failure rate. -/
abbrev Reply : Operation → Type
  | rateLimit _ => Bool
  | selectPublishedProperty _ => List ℕ
  | insertEnquiry _ => ℕ
  | selectEnquiry _ => List EnquiryRecord
  | selectEnquiryId _ => List ℕ
  | setNx _ _ _ => Bool
  | get _ => Option IdempotencyRecord
  | random => Bool
  | dateNow => ℕ
  | _ => Unit

/-- Statements sent to MySQL. -/
def isSql : Operation → Bool
  | getConnection | beginTransaction | commit | rollback => true
  | selectPublishedProperty _ | insertEnquiry _ | selectEnquiry _ | selectEnquiryId _ => true
  | updateEnquiry _ | insertWebhookEvent _ => true
  | _ => false

/-- Calls that are not awaited, or cannot fail. -/
def isSynchronous : Operation → Bool
  | next | json _ | release | set _ _ _ | random | dateNow => true
  | _ => false

/-- A single statement or command whose effect may outlive a lost acknowledgement. -/
def isAutocommit : Operation → Bool
  | updateEnquiry _ | insertWebhookEvent _ | setNx _ _ _ => true
  | _ => false

def isEnqueue : Operation → Bool
  | addCrmSyncJob _ | addEmailJob _ => true
  | _ => false

/-- The errors an operation may be rejected with for reasons outside the data: the
duplicate-entry code is only ever given to an insert that collides. -/
def mayReject (q : Operation) (e : NativeError) : Bool :=
  !q.isSynchronous && !(q.isSql && e.isDuplicateEntry)

end Operation

abbrev signature : Async.Signature where
  Request := Operation
  Reply := Operation.Reply
  Err := Err

abbrev Promise (α : Type) := Async.Program signature α

abbrev History := Async.History signature

abbrev call (q : Operation) : Promise q.Reply := Async.Program.perform (S := signature) q

end PropertyPlatform
