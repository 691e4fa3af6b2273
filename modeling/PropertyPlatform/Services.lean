import PropertyPlatform.Operations

/-!
# The services

Each program follows its TypeScript function statement by statement: `Program.catching`
is `try … catch`, `Program.finalizing` is `try … finally`, and every `await` is a `call`.
-/

namespace PropertyPlatform

open Js Async

variable (P : Platform)

/-- `withTransaction(fn)`. -/
def withTransaction {α : Type} (fn : Promise α) : Promise α := do
  call .getConnection
  Program.finalizing
    (Program.catching
      (do
        call .beginTransaction
        let result ← fn
        call .commit
        return result)
      fun err => do
        call .rollback
        .throw err)
    (call .release)

/-- `enqueueCrmSync({ enquiryId })`. -/
def enqueueCrmSync (enquiryId : ℕ) : Promise Unit :=
  call (.addCrmSyncJob ⟨"crm-sync-" ++ natToString enquiryId, enquiryId⟩)

def enqueueEmail (job : EmailJob) : Promise Unit := call (.addEmailJob job)

structure CreateEnquiryContext where
  ipAddress : Option String
  userAgent : Option String

/-- The values `createEnquiry` inserts. -/
def newEnquiry (input : CreateEnquiryInput P) (ctx : CreateEnquiryContext) : NewEnquiry where
  propertyId := input.propertyId
  fullName := input.fullName
  email := input.email
  phone := input.phone
  message := input.message
  source := input.source
  fingerprint := fingerprintEnquiry P input.email input.phone input.propertyId input.message
  ipAddress := ctx.ipAddress
  userAgent := ctx.userAgent

/-- The callback `createEnquiry` runs in its transaction; it returns `rows[0]`. -/
def insertPublished (v : NewEnquiry) : Promise (Option EnquiryRecord) := do
  let propertyRows ← call (.selectPublishedProperty v.propertyId)
  if propertyRows.isEmpty then
    .throw (notFoundError
      ("Property " ++ natToString v.propertyId ++ " not found or not published"))
  else do
    let insertId ← call (.insertEnquiry v)
    let rows ← call (.selectEnquiry insertId)
    return rows.head?

def confirmation (enquiry : EnquiryRecord) : EmailJob where
  toAddress := enquiry.email
  template := .enquiryConfirmation
  fullName := enquiry.fullName
  enquiryId := enquiry.id

/-- The `catch` of `createEnquiry`. -/
def mapDuplicate (err : Err) : Err :=
  if err.isDuplicateEntry then conflictError duplicateMessage else err

def createEnquiry (input : CreateEnquiryInput P) (ctx : CreateEnquiryContext) :
    Promise EnquiryRecord :=
  Program.catching
    (do
      match ← withTransaction (insertPublished (newEnquiry P input ctx)) with
      | none => .throw (typeError "Cannot read properties of undefined (reading 'id')")
      | some enquiry => do
        enqueueCrmSync enquiry.id
        enqueueEmail (confirmation enquiry)
        return enquiry)
    fun err => .throw (mapDuplicate err)

def markCrmSynced (enquiryId : ℕ) (crmRecordId : String) (status : Option EnquiryStatus) :
    Promise Unit :=
  call (.updateEnquiry ⟨enquiryId, crmRecordId, status⟩)

structure WebhookAuditInput where
  enquiryId : Option ℕ
  eventType : String
  signatureValid : Bool
  rawPayload : Value
  ipAddress : Option String

/-- The row `logWebhookEvent` inserts. -/
def auditRow (input : WebhookAuditInput) (status : ProcessingStatus)
    (errorMessage : Option String) : WebhookEvent where
  enquiryId := input.enquiryId
  eventType := input.eventType
  signatureValid := input.signatureValid
  rawPayload := sliceTo 60000 input.rawPayload.stringify
  processingStatus := status
  errorMessage := errorMessage
  ipAddress := input.ipAddress

def logWebhookEvent (input : WebhookAuditInput) (status : ProcessingStatus)
    (errorMessage : Option String) : Promise Unit :=
  call (.insertWebhookEvent (auditRow input status errorMessage))

def verifyWebhookSignature (rawBody : String) : Option String → Bool
  | none => false
  | some signatureHeader =>
    if signatureHeader = "" then false
    else verifyHmacSignature P rawBody P.crmWebhookSecret signatureHeader

/-- `processCrmWebhook`; the statement is sent as UTF-8. -/
def processCrmWebhook (enquiryId : ℕ) (crmRecordId : JsString) (status : Option EnquiryStatus) :
    Promise Unit := do
  let rows ← call (.selectEnquiryId enquiryId)
  if rows.isEmpty then
    .throw (notFoundError
      ("Enquiry " ++ natToString enquiryId ++ " not found - cannot apply CRM update"))
  else markCrmSynced enquiryId crmRecordId.toWellFormed status

/-- One attempt of a crm-sync job. -/
def pushEnquiryToCrm (enquiryId : ℕ) : Promise String := do
  let drawFails ← call .random
  if drawFails then .throw (.native ⟨"Simulated CRM upstream timeout", none, none⟩)
  else do
    let now ← call .dateNow
    let crmRecordId := "crm_" ++ natToString enquiryId ++ "_" ++ natToString now
    markCrmSynced enquiryId crmRecordId none
    return crmRecordId

end PropertyPlatform
