import PropertyPlatform.KeyedRequests
import PropertyPlatform.Statuses

/-!
# The audit trail of the webhook

A call that both limiters let pass first meets its schema and then inserts its audit row.
This one step decides what the audit table holds for the call, and what a caller without a
valid signature is told.
-/

namespace PropertyPlatform

open Js Async Program

variable {P : Platform} {ι : Type} [DecidableEq ι] {calls : ι → Call P} {a b c : System ι} {i : ι}

section Rows

/-- What a served operation does to the audit table. -/
inductive World.AuditStep (w : World ι) (i : ι) (q : Operation) (w' : World ι) : Prop where
  | inserted (v : WebhookEvent) (hq : q = .insertWebhookEvent v)
      (hrows : w'.webhookEvents = w.webhookEvents ++ [(i, v)])
  | other (hrows : w'.webhookEvents = w.webhookEvents)

theorem World.Served.auditStep {w w' : World ι} {q : Operation} {r : Except Err q.Reply}
    (h : w.Served P i q r w') : w.AuditStep i q w' := by
  cases h.effect with
  | audited v r hadmits => exact .inserted v rfl rfl
  | _ => exact .other rfl

theorem webhookEvents_of_drift {w w' : World ι} {d : Drift ι} (h : World.drift d w = some w') :
    w'.webhookEvents = w.webhookEvents := by
  cases World.drifted_of_drift h <;> rfl

theorem auditRows_append {w w' : World ι} {j : ι} {v : WebhookEvent}
    (h : w'.webhookEvents = w.webhookEvents ++ [(j, v)]) :
    w'.auditRows i = w.auditRows i ++ if j = i then [v] else [] := by
  unfold World.auditRows
  rw [h, List.filterMap_append]
  split_ifs with hij <;> simp [hij]

theorem auditRows_congr {w w' : World ι} (h : w'.webhookEvents = w.webhookEvents) :
    w'.auditRows i = w.auditRows i := by
  unfold World.auditRows
  rw [h]

/-- Every audit row was sent by the call it is attributed to. -/
def AuditSourced (c : System ι) : Prop :=
  ∀ x ∈ c.world.webhookEvents, ∃ r, (x.1, ⟨.insertWebhookEvent x.2, r⟩) ∈ c.trace

theorem Reachable.auditSourced (h : Reachable P calls c) : AuditSourced c := by
  refine h.induct (fun _ _ _ hx => (List.not_mem_nil hx).elim)
    (fun c i q k r w' _ ih _ _ hserved x hx => ?_) (fun c d w' _ ih hdrift x hx => ?_)
  · cases hserved.auditStep with
    | inserted v hq hrows =>
      subst hq
      rw [Config.answered_world, hrows] at hx
      rcases List.mem_append.mp hx with hx | hx
      · exact (ih x hx).imp fun _ hr => List.mem_append_left _ hr
      · rw [List.mem_singleton.mp hx]
        exact ⟨r, List.mem_append_right _ (List.mem_singleton_self _)⟩
    | other hrows =>
      rw [Config.answered_world, hrows] at hx
      exact (ih x hx).imp fun _ hr => List.mem_append_left _ hr
  · rw [webhookEvents_of_drift hdrift] at hx
    exact ih x hx

/-- The operations that leave the audit table alone. -/
def Operation.keepsAudit : Operation → Bool
  | insertWebhookEvent _ => false
  | _ => true

theorem Reachable.auditRows_nil (h : Reachable P calls c)
    (hown : ∀ e ∈ c.own i, e.request.keepsAudit = true) : c.world.auditRows i = [] := by
  refine List.filterMap_eq_nil_iff.mpr fun x hx => if_neg fun hi => ?_
  obtain ⟨r, hr⟩ := h.auditSourced x hx
  rw [hi] at hr
  exact absurd (hown _ (Config.mem_own.mpr hr)) Bool.false_ne_true

/-- The call has these rows, and will not insert another one. -/
def AuditClosed (i : ι) (rows : List WebhookEvent) (c : System ι) : Prop :=
  (c.program i).Uses (fun q : Operation => q.keepsAudit = true) ∧ c.world.auditRows i = rows

theorem AuditClosed.step {rows : List WebhookEvent} (h : AuditClosed i rows b)
    (hstep : Step (server P) b c) : AuditClosed i rows c := by
  obtain ⟨hprogram, rfl⟩ := h
  cases hstep with
  | @serve j q k choice r w' hj hserve =>
    have haudit := (World.served_of_serve hserve).2.auditStep
    by_cases hij : i = j
    · subst j
      rw [hj] at hprogram
      refine ⟨by rw [Config.answered_program_self]; exact hprogram.2 r, ?_⟩
      cases haudit with
      | inserted v hq hrows =>
        have hkeeps : q.keepsAudit = true := hprogram.1
        rw [hq] at hkeeps
        cases hkeeps
      | other hrows => exact auditRows_congr hrows
    · refine ⟨by rw [Config.answered_program_ne hij]; exact hprogram, ?_⟩
      cases haudit with
      | inserted v hq hrows =>
        rw [Config.answered_world, auditRows_append hrows, if_neg (Ne.symm hij), List.append_nil]
      | other hrows => exact auditRows_congr hrows
  | drift hdrift => exact ⟨hprogram, auditRows_congr (webhookEvents_of_drift hdrift)⟩

theorem AuditClosed.run {rows : List WebhookEvent} (h : AuditClosed i rows b)
    (hrun : Run (server P) b c) : AuditClosed i rows c := by
  induction hrun with
  | refl => exact h
  | tail _ hstep ih => exact ih.step hstep

end Rows

section Program

variable {req : Request} {body : CrmWebhookBody}

/-- Both limiters of the route let the call pass. -/
def admittedWebhook : History := [limiting .general (.ok true), limiting .webhook (.ok true)]

/-- What follows the limiters. -/
def afterLimiters (P : Platform) (req : Request) : Promise Unit :=
  withErrorHandler P req sendJson do
    let body ← ofExcept (validateWebhook P req)
    crmWebhookHandler P req body

/-- The row the handler logs. -/
def webhookRow (P : Platform) (req : Request) (body : CrmWebhookBody) : WebhookEvent :=
  auditRow (req.audit P body) (if req.signatureValid P body then .received else .rejected)
    (if req.signatureValid P body then none else some "Invalid or missing HMAC signature")

/-- What the handler does once the row is logged. -/
def afterAudit (P : Platform) (req : Request) (body : CrmWebhookBody) : Promise Unit :=
  if req.signatureValid P body then do
    processCrmWebhook body.enquiryId body.crmRecordId body.status
    sendJson webhookProcessed
  else .throw (unauthorizedError "Invalid webhook signature")

theorem leads_admittedWebhook : (program P (.postCrmWebhook req)).Leads admittedWebhook
    ((afterLimiters P req).bind fun _ => .pure none) := by
  have hgeneral := Leads.answered (Leads.start (p := program P (.postCrmWebhook req))) (.ok true)
  exact hgeneral.answered (.ok true)

theorem Reachable.program_admitted (h : Reachable P calls a) (hi : calls i = .postCrmWebhook req)
    (hpast : a.own i = admittedWebhook) :
    a.program i = (afterLimiters P req).bind fun _ => .pure none := by
  obtain ⟨now, properties, hrun⟩ := h
  have hlead := hrun.leads i
  rw [hi, hpast] at hlead
  exact hlead.unique leads_admittedWebhook

/-- The database does what the data says: nothing is lost, rejected or refused. -/
def ResolvedStep (P : Platform) (i : ι) (c c' : System ι) : Prop :=
  ∃ (q : Operation) (k : Except Err q.Reply → Promise (Option EnquiryRecord))
    (r : Except Err q.Reply) (w' : World ι), c.program i = .await q k ∧
      c.world.serve P i q .resolves = some (r, w') ∧ c' = c.answered i q r k w'

/-- The step after the limiters. -/
inductive FirstStep (P : Platform) (req : Request) (i : ι) (a b : System ι) : Prop where
  | invalid (e : Err) (hvalid : validateWebhook P req = .error e) (hworld : b.world = a.world)
      (hprogram : b.program i = .pure none)
  | unlogged (body : CrmWebhookBody) (n : NativeError) (hvalid : validateWebhook P req = .ok body)
      (hadmits : ¬ a.world.Admits P (webhookRow P req body)) (hworld : b.world = a.world)
      (hown : b.own i = a.own i ++
        [⟨.insertWebhookEvent (webhookRow P req body), .error (.native n)⟩])
      (hprogram : b.program i =
        (sendJson (errorHandler P req.requestId (.native n))).bind fun _ => .pure none)
  | logged (body : CrmWebhookBody) (hvalid : validateWebhook P req = .ok body)
      (hadmits : a.world.Admits P (webhookRow P req body))
      (hworld : b.world.webhookEvents = a.world.webhookEvents ++ [(i, webhookRow P req body)])
      (hown : b.own i = a.own i ++ [⟨.insertWebhookEvent (webhookRow P req body), .ok ()⟩])
      (hprogram : b.program i = (withErrorHandler P req sendJson (afterAudit P req body)).bind
        fun _ => .pure none)

theorem afterLimiters_invalid {e : Err} (hvalid : validateWebhook P req = .error e) :
    afterLimiters P req = sendJson (errorHandler P req.requestId e) := by
  unfold afterLimiters
  rw [hvalid]
  rfl

theorem afterLimiters_valid (hvalid : validateWebhook P req = .ok body) :
    afterLimiters P req = withErrorHandler P req sendJson
      ((call (.insertWebhookEvent (webhookRow P req body))).bind fun _ =>
        afterAudit P req body) := by
  unfold afterLimiters
  rw [hvalid]
  rfl

theorem Reachable.firstStep (h : Reachable P calls a) (hi : calls i = .postCrmWebhook req)
    (hpast : a.own i = admittedWebhook) (hstep : ResolvedStep P i a b) :
    FirstStep P req i a b := by
  obtain ⟨q, k, r, w', hprogram, hserve, rfl⟩ := hstep
  rw [h.program_admitted hi hpast] at hprogram
  unfold World.serve at hserve
  split_ifs at hserve with hcrashed
  simp only at hserve
  cases hvalid : validateWebhook P req with
  | error e =>
    rw [afterLimiters_invalid hvalid] at hprogram
    cases hprogram
    cases hserve
    exact .invalid e hvalid rfl Config.answered_program_self
  | ok body =>
    rw [afterLimiters_valid hvalid] at hprogram
    cases hprogram
    rcases World.insertWebhookEvent_cases hserve with
      ⟨n, rfl, rfl, -, hadmits⟩ | ⟨rfl, rfl, hadmits⟩
    · exact .unlogged body n hvalid hadmits rfl Config.own_answered_self
        Config.answered_program_self
    · exact .logged body hvalid hadmits rfl Config.own_answered_self Config.answered_program_self

theorem uses_afterAudit :
    (afterAudit P req body).Uses fun q : Operation => q.keepsAudit = true := by
  unfold afterAudit
  split_ifs
  · refine uses_bind ?_ fun _ => uses_sendJson rfl
    refine uses_bind ((uses_perform _).mpr rfl) fun rows => ?_
    split_ifs
    · trivial
    · exact (uses_perform _).mpr rfl
  · trivial

/-- What remains after a last response is sent. -/
theorem responded_of_sendJson {response response' : Response}
    (hprogram : b.program i = (sendJson response).bind fun _ => .pure none)
    (hrun : Run (server P) b c) (hsent : sending response' ∈ c.own i)
    (hbefore : sending response' ∉ b.own i) : response' = response := by
  obtain ⟨rest, hown, hlead⟩ := hrun.continues i
  rw [hown] at hsent
  have hrest := (List.mem_append.mp hsent).resolve_left hbefore
  rw [hprogram] at hlead
  have hall : ∀ e ∈ rest, e.request = .json response := by
    have huses : (((sendJson response).bind fun _ => .pure none) :
        Promise (Option EnquiryRecord)).Uses fun q : Operation => q = .json response :=
      uses_bind (uses_sendJson rfl) fun _ => trivial
    exact (hlead.uses huses).1
  exact Operation.json.inj (hall _ hrest)

end Program

section Answers

variable {req : Request} {text : { text : String // text ≠ "" }} {value : Value}

/-- One audit row belongs to the call, and it records how the signature check went. -/
def AuditedOnce (w : World ι) (i : ι) (signatureValid : Bool) : Prop :=
  ∃ event, w.auditRows i = [event] ∧ event.signatureValid = signatureValid ∧
    (event.processingStatus = .rejected ↔ signatureValid = false)

/-- The body passes the schema, and the audit table takes its row. -/
def Auditable (P : Platform) (w : World ι) (req : Request) : Prop :=
  ∃ body, validateWebhook P req = .ok body ∧ w.Admits P (webhookRow P req body)

theorem signatureValid_of_payload (hpayload : req.payload = some (text, value))
    (body : CrmWebhookBody) :
    req.signatureValid P body = verifyWebhookSignature P text.val req.crmSignature := by
  rw [Request.signatureValid, Request.rawBody, hpayload]

theorem webhookRow_status (body : CrmWebhookBody) :
    (webhookRow P req body).processingStatus = .rejected ↔ req.signatureValid P body = false := by
  cases hsignature : req.signatureValid P body <;> simp [webhookRow, auditRow, hsignature]

omit [DecidableEq ι] in
theorem not_auditable {w : World ι} {e : Err} (hvalid : validateWebhook P req = .error e) :
    ¬ Auditable P w req := by
  rintro ⟨body, hbody, -⟩
  rw [hvalid] at hbody
  cases hbody

omit [DecidableEq ι] in
theorem auditable_iff {w : World ι} {body : CrmWebhookBody}
    (hvalid : validateWebhook P req = .ok body) :
    Auditable P w req ↔ w.Admits P (webhookRow P req body) := by
  constructor
  · rintro ⟨body', hbody, hadmits⟩
    rw [hvalid] at hbody
    cases hbody
    exact hadmits
  · exact fun hadmits => ⟨body, hvalid, hadmits⟩

theorem not_auditedOnce_of_nil {w : World ι} {signatureValid : Bool} (h : w.auditRows i = []) :
    ¬ AuditedOnce w i signatureValid := by
  rintro ⟨event, hrows, -⟩
  rw [h] at hrows
  cases hrows

theorem Reachable.auditRows_admitted (h : Reachable P calls a) (hpast : a.own i = admittedWebhook) :
    a.world.auditRows i = [] := by
  refine h.auditRows_nil fun e he => ?_
  rw [hpast] at he
  simp only [admittedWebhook, List.mem_cons, List.not_mem_nil, or_false] at he
  rcases he with rfl | rfl <;> rfl

/-- A call is audited once exactly when its body passes the schema and its row can be
inserted in the state the handler starts in. -/
theorem auditedOnce_iff (h : Reachable P calls a) (hi : calls i = .postCrmWebhook req)
    (hpayload : req.payload = some (text, value)) (hpast : a.own i = admittedWebhook)
    (hstep : ResolvedStep P i a b) (hrun : Run (server P) b c) :
    AuditedOnce c.world i (verifyWebhookSignature P text.val req.crmSignature) ↔
      Auditable P a.world req := by
  have hnil := h.auditRows_admitted hpast
  cases h.firstStep hi hpast hstep with
  | invalid e hvalid hworld hprogram =>
    have hclosed : AuditClosed i [] b := ⟨by rw [hprogram]; trivial, by rw [hworld, hnil]⟩
    exact iff_of_false (not_auditedOnce_of_nil (hclosed.run hrun).2) (not_auditable hvalid)
  | unlogged body n hvalid hadmits hworld hown hprogram =>
    have hclosed : AuditClosed i [] b := by
      refine ⟨?_, by rw [hworld, hnil]⟩
      rw [hprogram]
      exact uses_bind (uses_sendJson rfl) fun _ => trivial
    refine iff_of_false (not_auditedOnce_of_nil (hclosed.run hrun).2) ?_
    rwa [auditable_iff hvalid]
  | logged body hvalid hadmits hworld hown hprogram =>
    have hclosed : AuditClosed i [webhookRow P req body] b := by
      refine ⟨?_, by rw [auditRows_append hworld, hnil, if_pos rfl, List.nil_append]⟩
      rw [hprogram]
      exact uses_bind (uses_withErrorHandler req (fun _ => uses_sendJson rfl) uses_afterAudit)
        fun _ => trivial
    refine iff_of_true ⟨_, (hclosed.run hrun).2, ?_, ?_⟩ ((auditable_iff hvalid).mpr hadmits)
    · exact signatureValid_of_payload hpayload body
    · rw [webhookRow_status, signatureValid_of_payload hpayload]

/-- What a caller without a valid signature is meant to be told. -/
def refusal (P : Platform) (requestId : String) : Response :=
  errorHandler P requestId (unauthorizedError "Invalid webhook signature")

/-- From state `a`, in which both limiters had let call `i` pass, it took its next step with
the database up, and in state `c` it has been answered. -/
structure AnsweredFrom (P : Platform) (calls : ι → Call P) (i : ι) (a c : System ι)
    (response : Response) : Prop where
  reachable : Reachable P calls a
  past : a.own i = admittedWebhook
  continued : ∃ b, ResolvedStep P i a b ∧ Run (server P) b c
  sent : (i, sending response) ∈ c.trace

theorem refused_iff {body : CrmWebhookBody} {response : Response}
    (h : AnsweredFrom P calls i a c response) (hi : calls i = .postCrmWebhook req)
    (hvalid : validateWebhook P req = .ok body) (hforged : req.signatureValid P body = false) :
    response = refusal P req.requestId ↔ Auditable P a.world req := by
  obtain ⟨b, hstep, hrun⟩ := h.continued
  have hsent := Config.mem_own.mpr h.sent
  have hsending : ∀ e : Event signature, e.request.keepsAudit = false →
      sending response ∉ a.own i ++ [e] := by
    intro e he hmem
    simp only [h.past, admittedWebhook, List.mem_append, List.mem_cons, List.not_mem_nil,
      or_false] at hmem
    rcases hmem with (hmem | hmem) | hmem
    · cases hmem
    · cases hmem
    · rw [← hmem] at he
      cases he
  cases h.reachable.firstStep hi h.past hstep with
  | invalid e hinvalid => rw [hvalid] at hinvalid; cases hinvalid
  | unlogged body n hvalid hadmits hworld hown hprogram =>
    have hresponse := responded_of_sendJson hprogram hrun hsent (by
      rw [hown]
      exact hsending _ rfl)
    refine iff_of_false (fun hrefusal => ?_) (by rwa [auditable_iff hvalid])
    have hstatus := congrArg Response.statusCode (hresponse.symm.trans hrefusal)
    cases hstatus
  | logged body' hvalid' hadmits hworld hown hprogram =>
    rw [hvalid] at hvalid'
    cases hvalid'
    rw [afterAudit, hforged] at hprogram
    have hresponse := responded_of_sendJson hprogram hrun hsent (by
      rw [hown]
      exact hsending _ rfl)
    exact iff_of_true hresponse ((auditable_iff hvalid).mpr hadmits)

/-- Both callers are told the same, up to the request id, and it is the refusal. -/
def SameRefusal (P : Platform) (requestId₁ requestId₂ : String) (response₁ response₂ : Response) :
    Prop :=
  response₁ = refusal P requestId₁ ∧ response₂ = refusal P requestId₂

/-- The same forged call in two states: the answers are the refusal in both exactly when the
audit row can be inserted in both. -/
theorem sameRefusal_iff {ι₁ ι₂ : Type} [DecidableEq ι₁] [DecidableEq ι₂]
    {calls₁ : ι₁ → Call P} {calls₂ : ι₂ → Call P} {i₁ : ι₁} {i₂ : ι₂} {a₁ c₁ : System ι₁}
    {a₂ c₂ : System ι₂} {response₁ response₂ : Response} {requestId : String}
    {body : CrmWebhookBody} (hvalid : validateWebhook P req = .ok body)
    (hforged : req.signatureValid P body = false)
    (hi₁ : calls₁ i₁ = .postCrmWebhook req)
    (hi₂ : calls₂ i₂ = .postCrmWebhook { req with requestId := requestId })
    (h₁ : AnsweredFrom P calls₁ i₁ a₁ c₁ response₁)
    (h₂ : AnsweredFrom P calls₂ i₂ a₂ c₂ response₂) :
    SameRefusal P req.requestId requestId response₁ response₂ ↔
      Auditable P a₁.world req ∧ Auditable P a₂.world req :=
  and_congr (refused_iff h₁ hi₁ hvalid hforged) (refused_iff h₂ hi₂ hvalid hforged)

end Answers

section Samples

theorem resolvedStep_of_play (h : a.play (server P) (.serve i .resolves) = some b) :
    ResolvedStep P i a b := by
  cases hprogram : a.program i with
  | pure _ => simp [Config.play, hprogram] at h
  | throw _ => simp [Config.play, hprogram] at h
  | await q k =>
    simp only [Config.play, hprogram] at h
    obtain ⟨⟨r, w'⟩, hserve, rfl⟩ := Option.map_eq_some_iff.mp h
    exact ⟨q, k, r, w', hprogram, hserve, rfl⟩

/-- Where the next, undisturbed step of a call leads. -/
def stepped (i : ℕ) (c : System ℕ) : System ℕ := c.after (server .sample) (undisturbed i 1)

theorem resolvedStep_stepped {c : System ℕ} {i : ℕ}
    (h : (c.play (server .sample) (.serve i .resolves)).isSome = true) :
    ResolvedStep .sample i c (stepped i c) := by
  obtain ⟨c', hplay⟩ := Option.isSome_iff_exists.mp h
  have hafter : stepped i c = c' := by
    simp [stepped, Config.after, undisturbed, Config.replay, hplay]
  rw [hafter]
  exact resolvedStep_of_play hplay

/-- An enquiry, its crm-sync job, a webhook without a signature, and one with an empty body. -/
def auditCalls : ℕ → Call .sample
  | 0 => .createEnquiry sampleInput sampleContext
  | 1 => .crmSyncJob 1
  | 2 => .postCrmWebhook (sampleWebhook none)
  | _ => .postCrmWebhook
    { sampleWebhook none with payload := some (⟨"\x7b\x7d", by decide⟩, .object []) }

/-- Enquiry 1 exists when the unsigned webhook arrives. -/
def knownEnquiry : System ℕ := sampleRun auditCalls (undisturbed 0 9 ++ undisturbed 2 2)

def syncedEnquiry : System ℕ :=
  sampleRun auditCalls (undisturbed 0 9 ++ undisturbed 1 3 ++ undisturbed 2 2)

def unknownEnquiry : System ℕ := sampleRun auditCalls (undisturbed 2 2)

def emptyBody : System ℕ := sampleRun auditCalls (undisturbed 3 2)

theorem reachable_knownEnquiry : Reachable .sample auditCalls knownEnquiry :=
  reachable_sampleRun (by rfl)

theorem reachable_emptyBody : Reachable .sample auditCalls emptyBody :=
  reachable_sampleRun (by rfl)

theorem auditable_knownEnquiry : Auditable .sample knownEnquiry.world (sampleWebhook none) := by
  refine ⟨_, rfl, rfl, fun id hid => ?_⟩
  cases hid
  rfl

/-- A webhook without a signature is on record as rejected. -/
theorem auditedOnce_sample :
    AuditedOnce (stepped 2 (stepped 2 knownEnquiry)).world 2 false := by
  have hrun : Run (server .sample) (stepped 2 knownEnquiry) (stepped 2 (stepped 2 knownEnquiry)) :=
    Config.run_after (by rfl)
  have hstep : ResolvedStep .sample 2 knownEnquiry (stepped 2 knownEnquiry) :=
    resolvedStep_stepped (by rfl)
  exact (auditedOnce_iff reachable_knownEnquiry rfl rfl rfl hstep hrun).mpr auditable_knownEnquiry

/-- A body that fails the schema leaves no audit row. -/
theorem not_auditedOnce : ¬ ∀ (calls : ℕ → Call .sample) (a b c : System ℕ) (i : ℕ) (req : Request)
    (text : { text : String // text ≠ "" }) (value : Value), Reachable .sample calls a →
      calls i = .postCrmWebhook req → req.payload = some (text, value) →
      a.own i = admittedWebhook → ResolvedStep .sample i a b → Run (server .sample) b c →
      AuditedOnce c.world i (verifyWebhookSignature .sample text.val req.crmSignature) := by
  intro hclaim
  have hstep : ResolvedStep .sample 3 emptyBody (stepped 3 emptyBody) :=
    resolvedStep_stepped (by rfl)
  obtain ⟨event, hrows, -⟩ := hclaim auditCalls emptyBody _ _ 3 _ _ _ reachable_emptyBody rfl rfl
    rfl hstep .refl
  have hnil : (stepped 3 emptyBody).world.auditRows 3 = [] := by rfl
  rw [hnil] at hrows
  cases hrows

/-- The state in which the webhook has been answered. -/
def concluded (a : System ℕ) : System ℕ := stepped 2 (stepped 2 a)

theorem answeredFrom_concluded {a : System ℕ} {response : Response}
    (hreachable : Reachable .sample auditCalls a) (hpast : a.own 2 = admittedWebhook)
    (hfirst : (a.play (server .sample) (.serve 2 .resolves)).isSome = true)
    (hnext : ((stepped 2 a).replay (server .sample) (undisturbed 2 1)).isSome = true)
    (hsent : (2, sending response) ∈ (concluded a).trace) :
    AnsweredFrom .sample auditCalls 2 a (concluded a) response :=
  ⟨hreachable, hpast, ⟨_, resolvedStep_stepped hfirst, Config.run_after hnext⟩, hsent⟩

theorem answeredFrom_knownEnquiry : AnsweredFrom .sample auditCalls 2 knownEnquiry
    (concluded knownEnquiry) (refusal .sample (sampleWebhook none).requestId) :=
  answeredFrom_concluded reachable_knownEnquiry rfl (by rfl) (by rfl)
    (List.mem_of_getElem? (i := 12) rfl)

/-- What the foreign key makes of the webhook when the enquiry does not exist. -/
def internalError : Response :=
  errorHandler .sample (sampleWebhook none).requestId
    (.native ⟨Platform.sample.sqlMessage 1452, some 1452, some "ER_NO_REFERENCED_ROW_2"⟩)

theorem answeredFrom_unknownEnquiry : AnsweredFrom .sample auditCalls 2 unknownEnquiry
    (concluded unknownEnquiry) internalError :=
  answeredFrom_concluded (reachable_sampleRun (by rfl)) rfl (by rfl) (by rfl)
    (List.mem_of_getElem? (i := 3) rfl)

/-- Whether the enquiry is synced makes no difference to the answer. -/
theorem sameRefusal_sample : SameRefusal .sample (sampleWebhook none).requestId
    (sampleWebhook none).requestId (refusal .sample (sampleWebhook none).requestId)
    (refusal .sample (sampleWebhook none).requestId) := by
  have hsynced : AnsweredFrom .sample auditCalls 2 syncedEnquiry (concluded syncedEnquiry)
      (refusal .sample (sampleWebhook none).requestId) :=
    answeredFrom_concluded (reachable_sampleRun (by rfl)) rfl (by rfl) (by rfl)
      (List.mem_of_getElem? (i := 15) rfl)
  have hauditable : Auditable .sample syncedEnquiry.world (sampleWebhook none) := by
    refine ⟨_, rfl, rfl, fun id hid => ?_⟩
    cases hid
    rfl
  obtain ⟨body, hvalid, -⟩ := auditable_knownEnquiry
  have hforged : (sampleWebhook none).signatureValid .sample body = false := rfl
  have hcall : auditCalls 2 = .postCrmWebhook (sampleWebhook none) := rfl
  exact (sameRefusal_iff hvalid hforged hcall hcall answeredFrom_knownEnquiry hsynced).mpr
    ⟨auditable_knownEnquiry, hauditable⟩

/-- An unsigned webhook tells its sender whether the enquiry exists. -/
theorem not_sameRefusal : ¬ ∀ (req : Request) (requestId : String) (body : CrmWebhookBody)
    (calls₁ calls₂ : ℕ → Call .sample) (i₁ i₂ : ℕ) (a₁ c₁ a₂ c₂ : System ℕ)
    (response₁ response₂ : Response), validateWebhook .sample req = .ok body →
      req.signatureValid .sample body = false → calls₁ i₁ = .postCrmWebhook req →
      calls₂ i₂ = .postCrmWebhook { req with requestId := requestId } →
      AnsweredFrom .sample calls₁ i₁ a₁ c₁ response₁ →
      AnsweredFrom .sample calls₂ i₂ a₂ c₂ response₂ →
      SameRefusal .sample req.requestId requestId response₁ response₂ := by
  intro hclaim
  have hsame := hclaim (sampleWebhook none) _ _ auditCalls auditCalls 2 2 _ _ _ _ _ _ rfl rfl rfl
    rfl answeredFrom_knownEnquiry answeredFrom_unknownEnquiry
  have hstatus := congrArg Response.statusCode hsame.2
  cases hstatus

end Samples

end PropertyPlatform
