import PropertyPlatform.Async.Interleaving
import PropertyPlatform.Async.Transactions
import PropertyPlatform.Operations

/-!
# MySQL, Redis and the queues

All calls share one world. A statement of a transaction is attributed to the call
that holds the connection, so sessions are indexed by calls. Locks that make a
statement wait appear as requests that cannot be answered yet. Redis commands take
effect one at a time, but a detached write is in flight until it is applied or lost.
-/

namespace PropertyPlatform

open Js Async

inductive PropertyStatus where
  | draft
  | published
  | archived
  deriving DecidableEq

structure RedisEntry where
  record : IdempotencyRecord
  expiresAt : ℕ

/-- A `SET` that has been issued and not yet applied. -/
structure InflightWrite where
  key : String
  record : IdempotencyRecord
  ttlSeconds : ℕ

/-- Times are in milliseconds. `updates` lists the applied updates of `enquiries` in the
order they took effect, with the call that sent each; the rows of `crm_webhook_events` are
also listed with the call that inserted them. Jobs stay listed after they ran. -/
structure World (ι : Type) where
  now : ℕ
  properties : ℕ → Option PropertyStatus
  enquiries : Table ι EnquiryRecord
  crashed : ι → Bool
  nextEnquiryId : ℕ
  updates : List (ι × CrmUpdate)
  webhookEvents : List (ι × WebhookEvent)
  crmSyncQueue : List CrmSyncJob
  emailQueue : List EmailJob
  redis : String → Option RedisEntry
  inflight : List InflightWrite

/-- How an operation ends, as far as the caller and the data do not decide it. -/
inductive Choice where
  | resolves
  | rejects (e : NativeError)
  /-- The effect took place, but its acknowledgement was lost. -/
  | lost (e : NativeError)
  /-- The limiter is exceeded, or the draw falls below the failure rate. -/
  | refuses

/-- What happens between the steps of the calls. -/
inductive Drift (ι : Type) where
  | tick (ms : ℕ)
  | applyWrite (n : ℕ)
  | dropWrite (n : ℕ)
  /-- The transaction left open on a returned connection ends. -/
  | settle (commits : Bool) (enquiryId : ℕ)
  | setProperty (id : ℕ) (status : PropertyStatus)
  /-- The process that runs the call dies. -/
  | crash (i : ι)

def fitsIn (n : ℕ) (s : Option String) : Bool := s.all fun t => decide (t.length ≤ n)

/-- The column types of `enquiries`. -/
def NewEnquiry.fits (v : NewEnquiry) : Bool :=
  decide (v.fullName.length ≤ 120) && decide (v.email.length ≤ 254) && fitsIn 20 v.phone &&
    decide (v.message.utf8ByteSize ≤ 65535) && decide (v.fingerprint.length ≤ 64) &&
    fitsIn 45 v.ipAddress && fitsIn 255 v.userAgent

/-- `UPDATE … WHERE id = …` on one row; `updated_at` follows a change of any column. -/
def EnquiryRecord.apply (now : ℕ) (u : CrmUpdate) (row : EnquiryRecord) : EnquiryRecord :=
  if row.id = u.enquiryId then
    let row' := { row with
      crmRecordId := some u.crmRecordId
      crmSyncedAt := some now
      status := u.status.getD row.status }
    if row' = row then row else { row' with updatedAt := now }
  else row

variable {ι : Type} (P : Platform)

/-- The error of the first column of `crm_webhook_events` that does not take its value, in
the order the `INSERT` names them. -/
def WebhookEvent.columnError (v : WebhookEvent) : Option (ℕ × String) :=
  if v.enquiryId.any fun id => decide (2 ^ 64 ≤ id) then
    some (1264, "ER_WARN_DATA_OUT_OF_RANGE")
  else if fitsIn 50 (some v.eventType) = false then some (1406, "ER_DATA_TOO_LONG")
  else if P.castAsJson v.rawPayload = false then some (3141, "ER_INVALID_JSON_TEXT_IN_PARAM")
  else if fitsIn 500 v.errorMessage = false then some (1406, "ER_DATA_TOO_LONG")
  else if fitsIn 45 v.ipAddress = false then some (1406, "ER_DATA_TOO_LONG")
  else none

def sqlError {α : Type} (errno : ℕ) (code : String) : Except Err α :=
  .error (.native ⟨P.sqlMessage errno, some errno, some code⟩)

namespace World

/-- The audit rows one call has inserted. -/
def auditRows [DecidableEq ι] (w : World ι) (i : ι) : List WebhookEvent :=
  w.webhookEvents.filterMap fun x => if x.1 = i then some x.2 else none

/-- The rows of `enquiries` every session sees. -/
def enquiryRows (w : World ι) : List EnquiryRecord := w.enquiries.committed

def entry (w : World ι) (key : String) : Option RedisEntry :=
  (w.redis key).filter fun e => decide (w.now ≤ e.expiresAt)

def store (w : World ι) (key : String) (record : IdempotencyRecord) (ttlSeconds : ℕ) : World ι :=
  { w with redis := Function.update w.redis key (some ⟨record, w.now + ttlSeconds * 1000⟩) }

def newRow (w : World ι) (v : NewEnquiry) : EnquiryRecord where
  toNewEnquiry := v
  id := w.nextEnquiryId
  status := .new
  crmRecordId := none
  crmSyncedAt := none
  createdAt := w.now / 1000
  updatedAt := w.now / 1000

/-- Whether a session has inserted a row with this id and not yet ended its transaction. -/
def isLocked (w : World ι) (id : ℕ) : Bool :=
  w.enquiries.rows.any fun x => x.2.id == id && match x.1 with
    | .committed => false
    | _ => true

def hasEnquiry (w : World ι) (id : ℕ) : Bool := w.enquiryRows.any fun r => r.id == id

variable [DecidableEq ι]

def act (w : World ι) (i : ι) (a : Action EnquiryRecord) : World ι :=
  { w with enquiries := w.enquiries.act i a }

/-- The unique index is checked before the foreign key. A row of another open transaction
with the same fingerprint makes the insert wait. -/
def insertEnquiry (w : World ι) (i : ι) (v : NewEnquiry) : Option (Except Err ℕ × World ι) :=
  if v.fits = false then some (sqlError P 1406 "ER_DATA_TOO_LONG", w)
  else if w.enquiries.rows.any fun x =>
      x.2.fingerprint == v.fingerprint && (x.1 == .committed || x.1 == .of i) then
    some (sqlError P 1062 "ER_DUP_ENTRY", w)
  else if w.enquiries.rows.any fun x => x.2.fingerprint == v.fingerprint then none
  else if (w.properties v.propertyId).isNone then
    some (sqlError P 1452 "ER_NO_REFERENCED_ROW_2", w)
  else some (.ok w.nextEnquiryId,
    { w.act i (.insert (w.newRow v)) with nextEnquiryId := w.nextEnquiryId + 1 })

/-- The rows with this id that one session sees: the committed ones and its own. -/
def selectEnquiry (w : World ι) (i : ι) (id : ℕ) : List EnquiryRecord :=
  (w.enquiries.rows.filter fun x => x.2.id == id && (x.1 == .committed || x.1 == .of i)).map
    Prod.snd

def updateEnquiry (w : World ι) (i : ι) (u : CrmUpdate) : Option (Except Err Unit × World ι) :=
  if w.isLocked u.enquiryId then none
  else if w.hasEnquiry u.enquiryId = false then some (.ok (), w)
  else if fitsIn 100 (some u.crmRecordId) = false then
    some (sqlError P 1406 "ER_DATA_TOO_LONG", w)
  else some (.ok (), { w with
    enquiries := w.enquiries.update (EnquiryRecord.apply (w.now / 1000) u)
    updates := w.updates ++ [(i, u)] })

/-- The foreign key waits for an open transaction that inserted the enquiry. -/
def insertWebhookEvent (w : World ι) (i : ι) (v : WebhookEvent) :
    Option (Except Err Unit × World ι) :=
  match v.columnError P with
  | some (errno, code) => some (sqlError P errno code, w)
  | none =>
    if v.enquiryId.any w.isLocked then none
    else if v.enquiryId.all w.hasEnquiry = false then
      some (sqlError P 1452 "ER_NO_REFERENCED_ROW_2", w)
    else some (.ok (), { w with webhookEvents := w.webhookEvents ++ [(i, v)] })

/-- Adding a job whose id is already there does nothing. -/
def addCrmSyncJob (w : World ι) (job : CrmSyncJob) : World ι :=
  if w.crmSyncQueue.any fun x => x.jobId == job.jobId then w
  else { w with crmSyncQueue := w.crmSyncQueue ++ [job] }

/-- The answer of an operation that is not disturbed. -/
def answer (w : World ι) (i : ι) : (q : Operation) → Option (Except Err q.Reply × World ι)
  | .rateLimit _ => some (.ok true, w)
  | .next => some (.ok (), w)
  | .json _ => some (.ok (), w)
  | .getConnection => some (.ok (), w)
  | .beginTransaction => some (.ok (), w.act i .begin)
  | .commit => some (.ok (), w.act i .commit)
  | .rollback => some (.ok (), w.act i .discard)
  | .release => some (.ok (), w.act i .release)
  | .selectPublishedProperty id =>
    some (.ok (if w.properties id = some .published then [id] else []), w)
  | .insertEnquiry v => w.insertEnquiry P i v
  | .selectEnquiry id => some (.ok (w.selectEnquiry i id), w)
  | .selectEnquiryId id => some (.ok (if w.hasEnquiry id then [id] else []), w)
  | .updateEnquiry u => w.updateEnquiry P i u
  | .insertWebhookEvent v => w.insertWebhookEvent P i v
  | .addCrmSyncJob job => some (.ok (), w.addCrmSyncJob job)
  | .addEmailJob job => some (.ok (), { w with emailQueue := w.emailQueue ++ [job] })
  | .setNx key record ttl =>
    if (w.entry key).isSome then some (.ok false, w) else some (.ok true, w.store key record ttl)
  | .get key => some (.ok ((w.entry key).map RedisEntry.record), w)
  | .set key record ttl => some (.ok (), { w with inflight := w.inflight ++ [⟨key, record, ttl⟩] })
  | .random => some (.ok false, w)
  | .dateNow => some (.ok w.now, w)

/-- A commit that fails leaves no row. -/
def failed (w : World ι) (i : ι) : Operation → World ι
  | .commit => w.act i .discard
  | _ => w

def refuse (w : World ι) : (q : Operation) → Option (Except Err q.Reply × World ι)
  | .rateLimit _ => some (.ok false, w)
  | .random => some (.ok true, w)
  | _ => none

/-- The calls of a crashed process are not served any more. -/
def serve (w : World ι) (i : ι) (q : Operation) (choice : Choice) :
    Option (Except Err q.Reply × World ι) :=
  if w.crashed i then none
  else match choice with
    | .resolves => w.answer P i q
    | .rejects e =>
      if q.mayReject e then some (.error (.native e), w.failed i q) else none
    | .lost e =>
      if q.isAutocommit && q.mayReject e then
        (w.answer P i q).map fun x => (.error (.native e), x.2)
      else none
    | .refuses => w.refuse q

def drift : Drift ι → World ι → Option (World ι)
  | .tick ms, w => some { w with now := w.now + ms }
  | .applyWrite n, w =>
    w.inflight[n]?.map fun x =>
      { w.store x.key x.record x.ttlSeconds with inflight := w.inflight.eraseIdx n }
  | .dropWrite n, w =>
    w.inflight[n]?.map fun _ => { w with inflight := w.inflight.eraseIdx n }
  | .settle commits id, w =>
    some { w with enquiries := w.enquiries.settle commits fun r => r.id == id }
  | .setProperty id status, w =>
    some { w with properties := Function.update w.properties id (some status) }
  | .crash i, w =>
    some { w.act i .discard with crashed := Function.update w.crashed i true }

end World

/-- The shared services as one server. -/
def server [DecidableEq ι] : Async.Server signature ι (World ι) Choice (Drift ι) where
  serve i q choice w := w.serve P i q choice
  drift := World.drift

/-- Freshly migrated tables, empty queues and an empty Redis. -/
def World.initial (now : ℕ) (properties : ℕ → Option PropertyStatus) : World ι where
  now := now
  properties := properties
  enquiries := Table.empty
  crashed _ := false
  nextEnquiryId := 1
  updates := []
  webhookEvents := []
  crmSyncQueue := []
  emailQueue := []
  redis _ := none
  inflight := []

end PropertyPlatform
