import PropertyPlatform.Services

/-!
# The HTTP routes

A request enters after its body was parsed. Errors thrown in a middleware or passed on
by `asyncHandler` are answered by `errorHandler`; the promise of an `async` middleware
that was mounted without `asyncHandler` is ignored.
-/

namespace PropertyPlatform

open Js Async

variable (P : Platform)

structure Request where
  path : String
  requestId : String
  ip : String
  userAgent : Option String
  idempotencyKey : Option String
  crmSignature : Option String
  /-- The raw body text with the value it parses to, unless the body is empty. -/
  payload : Option ({ text : String // text ≠ "" } × Value)

/-- The paths `router.post('/enquiry', …)` is reached by: any case, optional last slash. -/
def matchesEnquiryRoute (path : String) : Bool :=
  let lower := String.ofList (path.toList.map Char.toLower)
  lower == "/enquiry" || lower == "/enquiry/"

/-- `s || null` for a string. -/
def orNull (s : String) : Option String := if s = "" then none else some s

/-- `req.body` once `express.json` and `sanitizeBody` have run. -/
def Request.body (req : Request) : Value :=
  sanitizeBody P ((req.payload.map Prod.snd).getD (.object []))

def rateLimiter (limiter : Limiter) : Promise Unit := do
  let withinLimit ← call (.rateLimit limiter)
  if withinLimit then return ()
  else .throw (tooManyRequestsError "Too many requests. Please slow down and try again later.")

def ofExcept {α : Type} : Except Err α → Promise α
  | .ok a => .pure a
  | .error e => .throw e

/-- `res.status(…).json(…)`, as the middlewares before may have replaced it. -/
abbrev Json := Response → Promise Unit

def sendJson : Json := fun response => call (.json response)

/-- Express hands an error of the chain to `errorHandler`. -/
def withErrorHandler (req : Request) (json : Json) (chain : Promise Unit) : Promise Unit :=
  chain.catching fun err => json (errorHandler P req.requestId err)

def idempotencyTtlSeconds : ℕ := 24 * 60 * 60

def redisKey (path key : String) : String := "idempotency:" ++ path ++ ":" ++ key

def processingMessage : String :=
  "A request with this Idempotency-Key is already being processed."

/-- The replacement of `res.json` for the request that claimed the key: the completion is
written by a promise nobody awaits, then the response is sent. -/
def cachingJson (key : String) : Json := fun response => do
  call (.set key (.completed response) idempotencyTtlSeconds)
  sendJson response

/-- How a middleware ends: by `next()`, with the `res.json` the rest of the chain uses,
or without it. -/
inductive Flow where
  | next (json : Json)
  | ended

def idempotencyMiddleware (req : Request) : Promise Flow :=
  match req.idempotencyKey with
  | none => do
    call .next
    return .next sendJson
  | some key =>
    if key = "" then do
      call .next
      return .next sendJson
    else do
      let key := redisKey req.path key
      let claimed ← call (.setNx key .processing idempotencyTtlSeconds)
      if claimed then do
        call .next
        return .next (cachingJson key)
      else do
        match ← call (.get key) with
        | some .processing => .throw (conflictError processingMessage)
        | none => .throw (typeError "Cannot read properties of null (reading 'statusCode')")
        | some (.completed response) => do
          sendJson response
          return .ended

/-- Express 4 ignores the promise a middleware returns, so a rejection ends the request
without `next()` and without a response. -/
def ignoringRejection (middleware : Promise Flow) : Promise Flow :=
  middleware.catching fun _ => .pure .ended

def createdResponse (enquiry : EnquiryRecord) : Response where
  statusCode := 201
  body := .object [
    ("success", .bool true),
    ("data", .object [
      ("id", .nat enquiry.id),
      ("propertyId", .nat enquiry.propertyId),
      ("fullName", .str enquiry.fullName),
      ("email", .str enquiry.email),
      ("status", .str enquiry.status.text),
      ("createdAt", .str (P.toISOString enquiry.createdAt))])]

def Request.context (req : Request) : CreateEnquiryContext where
  ipAddress := orNull req.ip
  userAgent := req.userAgent.bind orNull

/-- `validate(createEnquirySchema, 'body')`. -/
def validateEnquiry (req : Request) : Except Err (CreateEnquiryInput P) :=
  validate P "createEnquirySchema" (createEnquirySchema P) (req.body P)

def createEnquiryHandler (req : Request) (json : Json) (input : CreateEnquiryInput P) :
    Promise Unit := do
  let enquiry ← createEnquiry P input req.context
  json (createdResponse P enquiry)

/-- What follows `idempotencyMiddleware` on the route. -/
def validatedEnquiry (req : Request) (json : Json) : Promise Unit :=
  withErrorHandler P req json do
    let input ← ofExcept (validateEnquiry P req)
    createEnquiryHandler P req json input

/-- `POST /api/enquiry`. -/
def postEnquiry (req : Request) : Promise Unit :=
  withErrorHandler P req sendJson do
    rateLimiter .general
    rateLimiter .enquiry
    match ← ignoringRejection (idempotencyMiddleware req) with
    | .ended => return ()
    | .next json => validatedEnquiry P req json

/-- `validate(crmWebhookSchema, 'body')`. -/
def validateWebhook (req : Request) : Except Err CrmWebhookBody :=
  validate P "crmWebhookSchema" (crmWebhookSchema P) (req.body P)

/-- `req.rawBody || JSON.stringify(req.body)`. -/
def Request.rawBody (req : Request) (body : CrmWebhookBody) : String :=
  match req.payload with
  | some (text, _) => text.val
  | none => body.toValue.stringify

def Request.signatureValid (req : Request) (body : CrmWebhookBody) : Bool :=
  verifyWebhookSignature P (req.rawBody body) req.crmSignature

def Request.audit (req : Request) (body : CrmWebhookBody) : WebhookAuditInput where
  enquiryId := some body.enquiryId
  eventType := body.event.text
  signatureValid := req.signatureValid P body
  rawPayload := body.toValue
  ipAddress := orNull req.ip

def webhookProcessed : Response where
  statusCode := 200
  body := .object [("success", .bool true), ("message", .str "Webhook processed")]

def crmWebhookHandler (req : Request) (body : CrmWebhookBody) : Promise Unit := do
  let signatureValid := req.signatureValid P body
  logWebhookEvent (req.audit P body)
    (if signatureValid then .received else .rejected)
    (if signatureValid then none else some "Invalid or missing HMAC signature")
  if signatureValid then do
    processCrmWebhook body.enquiryId body.crmRecordId body.status
    sendJson webhookProcessed
  else .throw (unauthorizedError "Invalid webhook signature")

/-- `POST /api/webhook/crm`. -/
def postCrmWebhook (req : Request) : Promise Unit :=
  withErrorHandler P req sendJson do
    rateLimiter .general
    rateLimiter .webhook
    let body ← ofExcept (validateWebhook P req)
    crmWebhookHandler P req body

end PropertyPlatform
