import PropertyPlatform.Replies

/-!
# The operations each call may await

A footprint depends only on the text of a program and on its own input. It bounds
what the call can do to the world in any run.
-/

namespace PropertyPlatform

open Js Async Program

def createFootprint (v : NewEnquiry) : Operation → Prop
  | .getConnection | .beginTransaction | .commit | .rollback | .release => True
  | .selectPublishedProperty id => id = v.propertyId
  | .insertEnquiry v' => v' = v
  | .selectEnquiry _ => True
  | .addCrmSyncJob job => job.jobId = "crm-sync-" ++ natToString job.enquiryId
  | .addEmailJob job => job.template = .enquiryConfirmation
  | _ => False

/-- The one Redis key an enquiry request may touch. -/
def Request.usesKey (req : Request) (k : String) : Prop :=
  ∃ key, req.idempotencyKey = some key ∧ key ≠ "" ∧ k = redisKey req.path key

variable {P : Platform}

/-- What `idempotencyMiddleware` and the `res.json` it installs may await. -/
def idempotencyFootprint (req : Request) : Operation → Prop
  | .next | .json _ => True
  | .setNx k record ttl => req.usesKey k ∧ record = .processing ∧ ttl = idempotencyTtlSeconds
  | .get k => req.usesKey k
  | .set k record ttl =>
    req.usesKey k ∧ (∃ response, record = .completed response) ∧ ttl = idempotencyTtlSeconds
  | _ => False

inductive EnquiryFootprint (P : Platform) (req : Request) (q : Operation) : Prop where
  | limiter (limiter : Limiter) (hq : q = .rateLimit limiter)
  | idempotency (hq : idempotencyFootprint req q)
  | create (input : CreateEnquiryInput P) (hvalid : validateEnquiry P req = .ok input)
      (hq : createFootprint (newEnquiry P input req.context) q)

def webhookUpdate (body : CrmWebhookBody) : CrmUpdate :=
  ⟨body.enquiryId, body.crmRecordId.toWellFormed, body.status⟩

/-- An update is only ever awaited behind a valid signature. -/
def webhookFootprint (P : Platform) (req : Request) : Operation → Prop
  | .rateLimit _ | .json _ => True
  | .insertWebhookEvent _ => True
  | .selectEnquiryId _ => True
  | .updateEnquiry u => ∃ body, validateWebhook P req = .ok body ∧
      req.signatureValid P body = true ∧ u = webhookUpdate body
  | _ => False

def crmSyncFootprint (enquiryId : ℕ) : Operation → Prop
  | .random | .dateNow => True
  | .updateEnquiry u => u.enquiryId = enquiryId ∧ u.status = none
  | _ => False

def footprint (P : Platform) : Call P → Operation → Prop
  | .createEnquiry input ctx => createFootprint (newEnquiry P input ctx)
  | .postEnquiry req _ => EnquiryFootprint P req
  | .postCrmWebhook req => webhookFootprint P req
  | .crmSyncJob enquiryId => crmSyncFootprint enquiryId

section Services

variable {allowed : Operation → Prop} {α : Type}

theorem uses_withTransaction {fn : Promise α} (hfn : fn.Uses allowed)
    (h : ∀ q, q = .getConnection ∨ q = .beginTransaction ∨ q = .commit ∨ q = .rollback ∨
      q = .release → allowed q) : (withTransaction fn).Uses allowed := by
  unfold withTransaction
  refine uses_bind ((uses_perform _).mpr (h _ (by simp))) fun _ => ?_
  refine uses_finalizing (uses_catching ?_ fun _ => ?_) ((uses_perform _).mpr (h _ (by simp)))
  · refine uses_bind ((uses_perform _).mpr (h _ (by simp))) fun _ => ?_
    refine uses_bind hfn fun _ => ?_
    exact uses_bind ((uses_perform _).mpr (h _ (by simp))) fun _ => uses_pure _
  · exact uses_bind ((uses_perform _).mpr (h _ (by simp))) fun _ => uses_throw _

theorem uses_insertPublished (v : NewEnquiry) : (insertPublished v).Uses (createFootprint v) := by
  unfold insertPublished
  refine uses_bind ((uses_perform _).mpr rfl) fun ids => ?_
  split_ifs
  · exact uses_throw _
  · refine uses_bind ((uses_perform _).mpr rfl) fun _ => ?_
    exact uses_bind ((uses_perform _).mpr trivial) fun _ => uses_pure _

theorem uses_createEnquiry (input : CreateEnquiryInput P) (ctx : CreateEnquiryContext) :
    (createEnquiry P input ctx).Uses (createFootprint (newEnquiry P input ctx)) := by
  unfold createEnquiry
  refine uses_catching (uses_bind ?_ fun row? => ?_) fun _ => uses_throw _
  · refine uses_withTransaction (uses_insertPublished _) fun q hq => ?_
    rcases hq with rfl | rfl | rfl | rfl | rfl <;> trivial
  · cases row? with
    | none => exact uses_throw _
    | some row =>
      refine uses_bind ((uses_perform _).mpr rfl) fun _ => ?_
      exact uses_bind ((uses_perform _).mpr rfl) fun _ => uses_pure _

end Services

section Routes

variable (req : Request)

theorem uses_rateLimiter {allowed : Operation → Prop} {limiter : Limiter}
    (h : allowed (.rateLimit limiter)) : (rateLimiter limiter).Uses allowed := by
  unfold rateLimiter
  refine uses_bind ((uses_perform _).mpr h) fun withinLimit => ?_
  split_ifs
  · exact uses_pure _
  · exact uses_throw _

/-- The `res.json` a middleware leaves for the rest of the chain. -/
def Flow.Uses (allowed : Operation → Prop) : Flow → Prop
  | .next json => ∀ response, (json response).Uses allowed
  | .ended => True

theorem uses_withErrorHandler {allowed : Operation → Prop} {json : Json} {chain : Promise Unit}
    (hjson : ∀ response, (json response).Uses allowed) (hchain : chain.Uses allowed) :
    (withErrorHandler P req json chain).Uses allowed :=
  uses_catching hchain fun _ => hjson _

theorem uses_sendJson {allowed : Operation → Prop} {response : Response}
    (h : allowed (.json response)) : (sendJson response).Uses allowed :=
  (uses_perform _).mpr h

theorem uses_cachingJson {k : String} (hk : req.usesKey k) (response : Response) :
    (cachingJson k response).Uses (idempotencyFootprint req) := by
  unfold cachingJson
  exact uses_bind ((uses_perform _).mpr ⟨hk, ⟨response, rfl⟩, rfl⟩)
    fun _ => uses_sendJson trivial

theorem yields_idempotencyMiddleware : (idempotencyMiddleware req).Yields
    (idempotencyFootprint req) (Flow.Uses (idempotencyFootprint req)) := by
  have hplain : (do call .next; return Flow.next sendJson : Promise Flow).Yields
      (idempotencyFootprint req) (Flow.Uses (idempotencyFootprint req)) :=
    yields_bind ((uses_perform _).mpr trivial) fun _ _ => uses_sendJson trivial
  unfold idempotencyMiddleware
  cases hkey : req.idempotencyKey with
  | none => exact hplain
  | some key =>
    simp only
    split_ifs with hempty
    · exact hplain
    · have hk : req.usesKey (redisKey req.path key) := ⟨key, hkey, hempty, rfl⟩
      refine yields_bind ((uses_perform _).mpr ⟨hk, rfl, rfl⟩) fun claimed => ?_
      split_ifs
      · exact yields_bind ((uses_perform _).mpr trivial) fun _ => uses_cachingJson req hk
      · refine yields_bind ((uses_perform _).mpr hk) fun existing => ?_
        rcases existing with _ | record
        · trivial
        · cases record with
          | processing => trivial
          | completed response => exact yields_bind (uses_sendJson trivial) fun _ => trivial

theorem yields_ignoringRejection : (ignoringRejection (idempotencyMiddleware req)).Yields
    (idempotencyFootprint req) (Flow.Uses (idempotencyFootprint req)) :=
  (yields_idempotencyMiddleware req).catching fun _ => trivial

theorem uses_validatedEnquiry {json : Json}
    (hjson : ∀ response, (json response).Uses (idempotencyFootprint req)) :
    (validatedEnquiry P req json).Uses (EnquiryFootprint P req) := by
  have hjson' : ∀ response, (json response).Uses (EnquiryFootprint P req) :=
    fun response => (hjson response).mono fun _ => .idempotency
  refine uses_withErrorHandler req hjson' ?_
  cases hvalid : validateEnquiry P req with
  | error e => trivial
  | ok input =>
    change (createEnquiryHandler P req json input).Uses _
    refine uses_bind ?_ fun enquiry => hjson' _
    exact (uses_createEnquiry input req.context).mono fun _ => .create input hvalid

theorem uses_postEnquiry : (postEnquiry P req).Uses (EnquiryFootprint P req) := by
  refine uses_withErrorHandler req (fun _ => uses_sendJson (.idempotency trivial)) ?_
  refine uses_bind (uses_rateLimiter (.limiter _ rfl)) fun _ => ?_
  refine uses_bind (uses_rateLimiter (.limiter _ rfl)) fun _ => ?_
  refine Yields.bind ((yields_ignoringRejection req).mono fun _ => .idempotency) fun flow hf => ?_
  cases flow with
  | ended => trivial
  | next json => exact uses_validatedEnquiry req hf

/-- A fact that the limiters, the middleware and `createEnquiry` keep, the route keeps. -/
theorem keeps_postEnquiry {protocol : Protocol signature} {keep : History → Prop}
    (hlimiter : ∀ h l r, keep h → protocol h (.rateLimit l) r → keep (h ++ [⟨.rateLimit l, r⟩]))
    (hframe : ∀ h q r, keep h → idempotencyFootprint req q → protocol h q r →
      keep (h ++ [⟨q, r⟩]))
    (hcreate : ∀ input, validateEnquiry P req = .ok input →
      (createEnquiry P input req.context).Keeps protocol keep) :
    (postEnquiry P req).Keeps protocol keep := by
  have hlimit : ∀ l, (rateLimiter l).Keeps protocol keep := by
    intro l
    have huses : (rateLimiter l).Uses fun q : Operation => q = .rateLimit l := uses_rateLimiter rfl
    refine Uses.keeps huses ?_
    rintro h _ r hh rfl hr
    exact hlimiter h l r hh hr
  have hsend : ∀ response, (sendJson response).Keeps protocol keep :=
    fun response => Uses.keeps (uses_sendJson trivial) hframe
  refine Keeps.catching ?_ fun _ => hsend _
  refine Keeps.bind (hlimit _) fun _ => Keeps.bind (hlimit _) fun _ => ?_
  refine Yields.keeps_bind (yields_ignoringRejection req) hframe fun flow hf => ?_
  cases flow with
  | ended => exact keeps_pure _
  | next json =>
    refine Keeps.catching ?_ fun _ => Uses.keeps (hf _) hframe
    cases hvalid : validateEnquiry P req with
    | error e => exact keeps_throw _
    | ok input =>
      change (createEnquiryHandler P req json input).Keeps protocol keep
      exact Keeps.bind (hcreate input hvalid) fun _ => Uses.keeps (hf _) hframe

theorem uses_postCrmWebhook : (postCrmWebhook P req).Uses (webhookFootprint P req) := by
  refine uses_withErrorHandler req (fun _ => uses_sendJson trivial) ?_
  refine uses_bind (uses_rateLimiter trivial) fun _ => ?_
  refine uses_bind (uses_rateLimiter trivial) fun _ => ?_
  cases hvalid : validateWebhook P req with
  | error e => trivial
  | ok body =>
    change (crmWebhookHandler P req body).Uses _
    unfold crmWebhookHandler
    refine uses_bind ((uses_perform _).mpr trivial) fun _ => ?_
    split_ifs with hsignature
    · refine uses_bind ?_ fun _ => uses_sendJson trivial
      refine uses_bind ((uses_perform _).mpr trivial) fun rows => ?_
      split_ifs
      · trivial
      · exact (uses_perform _).mpr ⟨body, hvalid, hsignature, rfl⟩
    · trivial

end Routes

theorem uses_pushEnquiryToCrm (enquiryId : ℕ) :
    (pushEnquiryToCrm enquiryId).Uses (crmSyncFootprint enquiryId) := by
  unfold pushEnquiryToCrm
  refine uses_bind ((uses_perform _).mpr trivial) fun drawFails => ?_
  split_ifs
  · trivial
  · refine uses_bind ((uses_perform _).mpr trivial) fun now => ?_
    exact uses_bind ((uses_perform _).mpr ⟨rfl, rfl⟩) fun _ => trivial

theorem uses_program (call : Call P) : (program P call).Uses (footprint P call) := by
  cases call with
  | createEnquiry input ctx => exact uses_bind (uses_createEnquiry input ctx) fun _ => trivial
  | postEnquiry req route => exact uses_bind (uses_postEnquiry req) fun _ => trivial
  | postCrmWebhook req => exact uses_bind (uses_postCrmWebhook req) fun _ => trivial
  | crmSyncJob enquiryId => exact uses_bind (uses_pushEnquiryToCrm enquiryId) fun _ => trivial

section Runs

variable {ι : Type} [DecidableEq ι] {calls : ι → Call P} {c : System ι} {i : ι}

/-- Every event of a run is within the footprint of its call. -/
theorem Reachable.footprint_of_mem (h : Reachable P calls c) {e : Event signature}
    (he : (i, e) ∈ c.trace) : footprint P (calls i) e.request := by
  obtain ⟨now, properties, hrun⟩ := h
  exact (hrun.uses (uses_program (calls i))).1 e (Config.mem_own.mpr he)

/-- So is the operation a call waits for. -/
theorem Reachable.footprint_of_await (h : Reachable P calls c) {q : Operation}
    {k : Except Err q.Reply → Promise (Option EnquiryRecord)} (hq : c.program i = .await q k) :
    footprint P (calls i) q := by
  obtain ⟨now, properties, hrun⟩ := h
  have huses := (hrun.uses (uses_program (calls i))).2
  rw [hq] at huses
  exact huses.1

end Runs

end PropertyPlatform
