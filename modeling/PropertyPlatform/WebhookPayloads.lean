import PropertyPlatform.Audit
import PropertyPlatform.Duplicates
import PropertyPlatform.Js.Serialized

/-!
# From a signed webhook to the updated enquiry

An accepted and signed webhook is logged, then its enquiry is looked up and updated, then it is
answered. The logged text is cut at a fixed length and has to be JSON again, and on this first
statement the rest depends.
-/

namespace PropertyPlatform

open Js Async Program

variable {P : Platform} {ι : Type} [DecidableEq ι] {calls : ι → Call P} {a b c : System ι} {i : ι}
variable {req : Request} {body : CrmWebhookBody}

section Steps

/-- A step of the run either answers the call, or leaves it and its audit rows alone. -/
theorem step_cases_of_call (h : Step (server P) b c) : StepOf P i b c ∨
    (c.program i = b.program i ∧ c.own i = b.own i ∧
      c.world.auditRows i = b.world.auditRows i) := by
  cases h with
  | @serve j q k choice r w' hprogram hserve =>
    by_cases hij : i = j
    · subst j
      exact Or.inl ⟨q, k, choice, r, w', hprogram, hserve, rfl⟩
    · refine Or.inr ⟨Config.answered_program_ne hij, Config.own_answered_ne hij, ?_⟩
      cases (World.served_of_serve hserve).2.auditStep with
      | inserted v hq hrows =>
        rw [Config.answered_world, auditRows_append hrows, if_neg (Ne.symm hij), List.append_nil]
      | other hrows => exact auditRows_congr hrows
  | drift hdrift => exact Or.inr ⟨rfl, rfl, auditRows_congr (webhookEvents_of_drift hdrift)⟩

theorem hasEnquiry_of_run (hrun : Run (server P) b c) {id : ℕ}
    (h : b.world.hasEnquiry id = true) : c.world.hasEnquiry id = true := by
  obtain ⟨row, hrow, hid⟩ := World.hasEnquiry_iff.mp h
  obtain ⟨row', hrow', hkey⟩ := run_persists hrun hrow
  exact World.hasEnquiry_iff.mpr ⟨row', hrow', (congrArg Prod.fst hkey).trans hid⟩

/-- A committed enquiry is not one that an open transaction has inserted. -/
theorem Reachable.not_locked (h : Reachable P calls c) {id : ℕ}
    (hknown : c.world.hasEnquiry id = true) : c.world.isLocked id = false := by
  obtain ⟨row, hrow, hid⟩ := World.hasEnquiry_iff.mp hknown
  refine List.any_eq_false.mpr fun x hx hlocked => ?_
  simp only [Bool.and_eq_true, beq_iff_eq] at hlocked
  have hunique : (c.world.enquiries.rows.map fun y => y.2.id).Nodup := by
    have hids := h.consistent.ids_unique
    rwa [Table.contents, List.map_map] at hids
  have heq := List.inj_on_of_nodup_map hunique (Table.mem_committed.mp hrow) hx
    (hid.trans hlocked.1.symm)
  rw [← heq] at hlocked
  exact absurd hlocked.2 Bool.false_ne_true

/-- MySQL is up for the call: its statements are neither rejected nor is an answer lost. -/
def Undisturbed (P : Platform) (i : ι) (b c : System ι) : Prop :=
  StepOf P i b c → ResolvedStep P i b c

end Steps

/-- In state `a` the limiters have let pass a webhook that is accepted and signed, and whose
enquiry exists. -/
structure Genuine (P : Platform) (calls : ι → Call P) (i : ι) (req : Request)
    (body : CrmWebhookBody) (a : System ι) : Prop where
  reachable : Reachable P calls a
  call : calls i = .postCrmWebhook req
  past : a.own i = admittedWebhook
  valid : validateWebhook P req = .ok body
  signed : req.signatureValid P body = true
  known : a.world.hasEnquiry body.enquiryId = true

section Applied

/-- The columns that the webhook writes. -/
def HasUpdate (body : CrmWebhookBody) (row : EnquiryRecord) : Prop :=
  row.crmRecordId.map JsString.wellFormed = some body.crmRecordId ∧
    ∀ status ∈ body.status, row.status = status

/-- In some step of the run the call has given its enquiry the columns of the webhook. -/
def UpdateApplied (P : Platform) (i : ι) (body : CrmWebhookBody) (a c : System ι) : Prop :=
  ∃ b b', Run (server P) a b ∧ StepOf P i b b' ∧ Run (server P) b' c ∧
    (∃ row ∈ b'.world.enquiryRows, row.id = body.enquiryId) ∧
    ∀ row ∈ b'.world.enquiryRows, row.id = body.enquiryId → HasUpdate body row

/-- The webhook is on record as received, its enquiry is updated, and the answer is 200. -/
structure WebhookApplied (P : Platform) (i : ι) (req : Request) (body : CrmWebhookBody)
    (a c : System ι) : Prop where
  logged : c.world.auditRows i = [webhookRow P req body]
  json : ∃ k d, JsonText.Document (.unicode k) d (webhookRow P req body).rawPayload.toList
  updated : UpdateApplied P i body a c
  responded : (i, sending webhookProcessed) ∈ c.trace

theorem UpdateApplied.tail (h : UpdateApplied P i body a b) (hstep : Step (server P) b c) :
    UpdateApplied P i body a c := by
  obtain ⟨b₁, b₂, hbefore, hstep', hafter, hrows⟩ := h
  exact ⟨b₁, b₂, hbefore, hstep', hafter.tail hstep, hrows⟩

theorem hasUpdate_apply (now : ℕ) {row : EnquiryRecord} (h : row.id = body.enquiryId)
    (hrecord : body.crmRecordId.isWellFormed = true) :
    HasUpdate body (row.apply now (webhookUpdate body)) := by
  obtain ⟨updatedAt, hrow⟩ := apply_of_eq (u := webhookUpdate body) now h
  rw [hrow]
  refine ⟨congrArg some (JsString.wellFormed_toWellFormed hrecord), fun status hstatus => ?_⟩
  change body.status.getD row.status = status
  rw [Option.mem_def.mp hstatus, Option.getD_some]

omit [DecidableEq ι] in
/-- An update of every row reaches the enquiry, and what has its id is updated. -/
theorem hasUpdate_of_rows {w w' : World ι} (hknown : w.hasEnquiry body.enquiryId = true)
    (hrecord : body.crmRecordId.isWellFormed = true)
    (hrows : w'.enquiryRows =
      w.enquiryRows.map (EnquiryRecord.apply (w.now / 1000) (webhookUpdate body))) :
    (∃ row ∈ w'.enquiryRows, row.id = body.enquiryId) ∧
      ∀ row ∈ w'.enquiryRows, row.id = body.enquiryId → HasUpdate body row := by
  rw [hrows]
  constructor
  · obtain ⟨row, hrow, hid⟩ := World.hasEnquiry_iff.mp hknown
    exact ⟨_, List.mem_map_of_mem hrow, (World.apply_id _ _ _).trans hid⟩
  · intro row hrow hid
    obtain ⟨row, -, rfl⟩ := List.mem_map.mp hrow
    exact hasUpdate_apply _ ((World.apply_id _ _ _).symm.trans hid) hrecord

/-- What follows the lookup of the enquiry. -/
def afterLookup (P : Platform) (req : Request) (body : CrmWebhookBody) : Promise Unit :=
  withErrorHandler P req sendJson do
    markCrmSynced body.enquiryId body.crmRecordId.toWellFormed body.status
    sendJson webhookProcessed

/-- Where the call stands after its audit row was inserted. -/
inductive Progress (P : Platform) (i : ι) (req : Request) (body : CrmWebhookBody)
    (a c : System ι) : Prop where
  | admitted (hown : c.own i = admittedWebhook)
  | logged (hrows : c.world.auditRows i = [webhookRow P req body])
      (hprogram : c.program i =
        (withErrorHandler P req sendJson (afterAudit P req body)).bind fun _ => .pure none)
  | found (hrows : c.world.auditRows i = [webhookRow P req body])
      (hprogram : c.program i = (afterLookup P req body).bind fun _ => .pure none)
  | updated (hrows : c.world.auditRows i = [webhookRow P req body])
      (hupdated : UpdateApplied P i body a c)
      (hprogram : c.program i =
        (withErrorHandler P req sendJson (sendJson webhookProcessed)).bind fun _ => .pure none)
  | responded (hrows : c.world.auditRows i = [webhookRow P req body])
      (hupdated : UpdateApplied P i body a c) (hsent : sending webhookProcessed ∈ c.own i)
      (hprogram : c.program i = .pure none)

theorem Progress.other (h : Progress P i req body a b) (hstep : Step (server P) b c)
    (hprogram : c.program i = b.program i) (hown : c.own i = b.own i)
    (hrows : c.world.auditRows i = b.world.auditRows i) : Progress P i req body a c := by
  cases h with
  | admitted h => exact .admitted (hown.trans h)
  | logged hr hp => exact .logged (hrows.trans hr) (hprogram.trans hp)
  | found hr hp => exact .found (hrows.trans hr) (hprogram.trans hp)
  | updated hr hu hp => exact .updated (hrows.trans hr) (hu.tail hstep) (hprogram.trans hp)
  | responded hr hu hs hp =>
    exact .responded (hrows.trans hr) (hu.tail hstep) (hown ▸ hs) (hprogram.trans hp)

/-- An accepted record id fits its column, so the update of an existing enquiry takes place. -/
theorem updateEnquiry_of_known {w : World ι} (hlocked : w.isLocked body.enquiryId = false)
    (hknown : w.hasEnquiry body.enquiryId = true) :
    w.updateEnquiry P i (webhookUpdate body) = some (.ok (), { w with
      enquiries := w.enquiries.update (EnquiryRecord.apply (w.now / 1000) (webhookUpdate body))
      updates := w.updates ++ [(i, webhookUpdate body)] }) := by
  have hfits : fitsIn 100 (some body.crmRecordId.toWellFormed) = true := by
    have hlength := length_le_utf16Length body.crmRecordId.toWellFormed
    simpa [fitsIn] using hlength.trans body.crmRecordId_length.2
  have hcolumn : fitsIn 100 (some (webhookUpdate body).crmRecordId) = true := hfits
  have hid : (webhookUpdate body).enquiryId = body.enquiryId := rfl
  rw [World.updateEnquiry, hid, hlocked, hknown, hcolumn]
  rfl

omit [DecidableEq ι] in
theorem insertWebhookEvent_of_known {w : World ι}
    (hcolumns : (webhookRow P req body).columnError P = none)
    (hlocked : w.isLocked body.enquiryId = false) (hknown : w.hasEnquiry body.enquiryId = true) :
    w.insertWebhookEvent P i (webhookRow P req body) = some (.ok (),
      { w with webhookEvents := w.webhookEvents ++ [(i, webhookRow P req body)] }) := by
  have hid : (webhookRow P req body).enquiryId = some body.enquiryId := rfl
  rw [World.insertWebhookEvent, hcolumns, hid, Option.any_some, Option.all_some, hlocked, hknown]
  rfl

theorem answer_of_resolves {w w' : World ι} {q : Operation} {r : Except Err q.Reply}
    (h : w.serve P i q .resolves = some (r, w')) : w.answer P i q = some (r, w') := by
  unfold World.serve at h
  split_ifs at h
  exact h

theorem ResolvedStep.stepOf (h : ResolvedStep P i b c) : StepOf P i b c := by
  obtain ⟨q, k, r, w', hprogram, hserve, hc⟩ := h
  exact ⟨q, k, .resolves, r, w', hprogram, hserve, hc⟩

/-- One undisturbed step of the call, if its row can be logged. -/
theorem Progress.own (h : Progress P i req body a b) (ha : Genuine P calls i req body a)
    (hcolumns : (webhookRow P req body).columnError P = none)
    (hrecord : body.crmRecordId.isWellFormed = true) (hrun : Run (server P) a b)
    (hstep : ResolvedStep P i b c) : Progress P i req body a c := by
  have hb : Reachable P calls b := ha.reachable.run hrun
  have hknown := hasEnquiry_of_run hrun ha.known
  have hadmits : b.world.Admits P (webhookRow P req body) := by
    refine ⟨hcolumns, ?_⟩
    rintro id ⟨⟩
    exact hknown
  cases h with
  | admitted hown =>
    cases hb.firstStep ha.call hown hstep with
    | invalid e hinvalid => exact absurd (ha.valid.symm.trans hinvalid) (by simp)
    | unlogged body' n hvalid' hrefused =>
      cases ha.valid.symm.trans hvalid'
      exact absurd hadmits hrefused
    | logged body' hvalid' _ hworld _ hprogram =>
      cases ha.valid.symm.trans hvalid'
      refine .logged ?_ hprogram
      rw [auditRows_append hworld, if_pos rfl, hb.auditRows_admitted hown, List.nil_append]
  | logged hrows hprogram =>
    obtain ⟨q, k, r, w', hq, hserve, rfl⟩ := hstep
    rw [hprogram, afterAudit, ha.signed, if_pos rfl] at hq
    cases hq
    have hanswer := answer_of_resolves hserve
    simp only [World.answer, hknown, if_true] at hanswer
    cases hanswer
    exact .found hrows Config.answered_program_self
  | found hrows hprogram =>
    have hcall : StepOf P i b c := hstep.stepOf
    obtain ⟨q, k, r, w', hq, hserve, rfl⟩ := hstep
    rw [hprogram] at hq
    cases hq
    cases (updateEnquiry_of_known (hb.not_locked hknown) hknown).symm.trans
      (answer_of_resolves hserve)
    refine .updated hrows ?_ Config.answered_program_self
    exact ⟨b, _, hrun, hcall, .refl, hasUpdate_of_rows hknown hrecord (Table.committed_update _)⟩
  | updated hrows hupdated hprogram =>
    have hcall : StepOf P i b c := hstep.stepOf
    obtain ⟨q, k, r, w', hq, hserve, rfl⟩ := hstep
    rw [hprogram] at hq
    cases hq
    cases answer_of_resolves hserve
    refine .responded hrows (hupdated.tail hcall.step) ?_ Config.answered_program_self
    rw [Config.own_answered_self]
    exact List.mem_append_right _ (List.mem_singleton_self _)
  | responded hrows hupdated hsent hprogram =>
    obtain ⟨q, k, r, w', hq, -⟩ := hstep
    rw [hprogram] at hq
    cases hq

theorem Genuine.progress (ha : Genuine P calls i req body a)
    (hcolumns : (webhookRow P req body).columnError P = none)
    (hrecord : body.crmRecordId.isWellFormed = true)
    (hrun : RunWhere (server P) (Undisturbed P i) a c) : Progress P i req body a c := by
  refine hrun.invariant (P := Progress P i req body a) (.admitted ha.past) ?_
  intro b c hb h hstep hok
  rcases step_cases_of_call hstep with hcall | ⟨hprogram, hown, hrows⟩
  · exact h.own ha hcolumns hrecord hb.run (hok hcall)
  · exact h.other hstep hprogram hown hrows

theorem resolvedStep_of_answer {q : Operation} {r : Except Err q.Reply} {w' : World ι}
    {k : Except Err q.Reply → Promise (Option EnquiryRecord)}
    (halive : c.world.crashed i = false) (hprogram : c.program i = .await q k)
    (hanswer : c.world.answer P i q = some (r, w')) :
    ResolvedStep P i c (c.answered i q r k w') := by
  refine ⟨q, k, r, w', hprogram, ?_, rfl⟩
  rw [World.serve, halive]
  exact hanswer

/-- A call that can take no step although its process lives has been answered. -/
theorem Progress.applied (h : Progress P i req body a c) (ha : Genuine P calls i req body a)
    (hcolumns : (webhookRow P req body).columnError P = none)
    (hjson : ∃ k d, JsonText.Document (.unicode k) d (webhookRow P req body).rawPayload.toList)
    (hrun : Run (server P) a c) (halive : c.world.crashed i = false)
    (hdone : ∀ d, ¬ ResolvedStep P i c d) : WebhookApplied P i req body a c := by
  have hknown := hasEnquiry_of_run hrun ha.known
  have hlocked := (ha.reachable.run hrun).not_locked hknown
  cases h with
  | admitted hown =>
    have hprogram := (ha.reachable.run hrun).program_admitted ha.call hown
    rw [afterLimiters_valid ha.valid] at hprogram
    exact (hdone _ (resolvedStep_of_answer halive hprogram
      (insertWebhookEvent_of_known hcolumns hlocked hknown))).elim
  | logged hrows hprogram =>
    rw [afterAudit, ha.signed, if_pos rfl] at hprogram
    exact (hdone _ (resolvedStep_of_answer halive hprogram rfl)).elim
  | found hrows hprogram =>
    exact (hdone _ (resolvedStep_of_answer halive hprogram
      (updateEnquiry_of_known hlocked hknown))).elim
  | updated hrows hupdated hprogram =>
    exact (hdone _ (resolvedStep_of_answer halive hprogram rfl)).elim
  | responded hrows hupdated hsent hprogram =>
    exact ⟨hrows, hjson, hupdated, Config.mem_own.mp hsent⟩

theorem ResolvedStep.runWhere (h : ResolvedStep P i b c) :
    RunWhere (server P) (Undisturbed P i) b c :=
  .single ⟨h.stepOf.step, fun _ => h⟩

/-- A row that a column refuses ends the call with an internal error, and nothing is stored. -/
theorem Genuine.refused (ha : Genuine P calls i req body a) (halive : a.world.crashed i = false)
    {errno : ℕ} {code : String}
    (hcolumn : (webhookRow P req body).columnError P = some (errno, code)) :
    ∃ c, RunWhere (server P) (Undisturbed P i) a c ∧ c.world = a.world ∧
      c.program i = .pure none ∧ (i, sending (errorHandler P req.requestId
        (.native ⟨P.sqlMessage errno, some errno, some code⟩))) ∈ c.trace := by
  have hafter := ha.reachable.program_admitted ha.call ha.past
  rw [afterLimiters_valid ha.valid] at hafter
  obtain ⟨k, hprogram, hk⟩ : ∃ k,
      a.program i = .await (.insertWebhookEvent (webhookRow P req body)) k ∧
      k (sqlError P errno code) = (sendJson (errorHandler P req.requestId
        (.native ⟨P.sqlMessage errno, some errno, some code⟩))).bind fun _ => .pure none :=
    ⟨_, hafter, rfl⟩
  have hanswer : a.world.insertWebhookEvent P i (webhookRow P req body) =
      some (sqlError P errno code, a.world) := by
    rw [World.insertWebhookEvent, hcolumn]
  have hinsert := resolvedStep_of_answer halive hprogram hanswer
  have hprogram' := (Config.answered_program_self (c := a) (i := i) (w := a.world)).trans hk
  have hrespond := resolvedStep_of_answer (P := P) (c := a.answered i _ _ k a.world) halive
    hprogram' rfl
  refine ⟨_, hinsert.runWhere.trans hrespond.runWhere, rfl, Config.answered_program_self, ?_⟩
  exact List.mem_append_right _ (List.mem_singleton_self _)

end Applied

section Fits

/-- MySQL stores JSON as Unicode, and an object key in at most 65535 bytes. -/
def mysqlJson : JsonText.Dialect := .unicode 65535

/-- On this text MySQL decides as the grammar does; it takes a hundred levels of nesting. -/
def Platform.CastsJson (P : Platform) (text : String) : Prop :=
  P.castAsJson text = true ↔ JsonText.Document mysqlJson 100 text.toList

/-- The accepted body is serialized within the limit to JSON that MySQL takes, and the other
columns of the row take their values. -/
structure PayloadFits (req : Request) (body : CrmWebhookBody) : Prop where
  length : utf16Length body.toValue.stringify ≤ 60000
  nesting : body.toValue.nesting ≤ 100
  wellFormed : ∀ s ∈ body.toValue.quotedStrings ++ body.toValue.keys, s.isWellFormed = true
  keys : ∀ key ∈ body.toValue.keys, key.toWellFormed.utf8ByteSize ≤ 65535
  enquiryId : body.enquiryId < 2 ^ 64
  ipAddress : fitsIn 45 (orNull req.ip) = true

theorem WebhookEvent.columnError_eq_none {v : WebhookEvent} : v.columnError P = none ↔
    (∀ id ∈ v.enquiryId, id < 2 ^ 64) ∧ fitsIn 50 (some v.eventType) = true ∧
      P.castAsJson v.rawPayload = true ∧ fitsIn 500 v.errorMessage = true ∧
      fitsIn 45 v.ipAddress = true := by
  have hid : (v.enquiryId.any fun id => decide (2 ^ 64 ≤ id)) = false ↔
      ∀ id ∈ v.enquiryId, id < 2 ^ 64 := by
    simp [Option.any_eq_false]
  unfold WebhookEvent.columnError
  split_ifs <;> simp_all

theorem document_rawPayload {D : JsonText.Dialect} {d : ℕ} :
    JsonText.Document D d (webhookRow P req body).rawPayload.toList ↔
      utf16Length body.toValue.stringify ≤ 60000 ∧ body.toValue.nesting ≤ d ∧
        body.toValue.Taken D := by
  have htext : (webhookRow P req body).rawPayload.toList =
      takeUnits body.toValue.text 60000 := by
    simp [webhookRow, auditRow, Request.audit, sliceTo, Value.stringify]
  have hlength : utf16Length body.toValue.stringify = (body.toValue.text.map codeUnits).sum := by
    simp [utf16Length, Value.stringify]
  rw [htext, hlength]
  exact Value.document_takeUnits (by decide)

theorem columnError_webhookRow (hsigned : req.signatureValid P body = true)
    (hcast : P.CastsJson (webhookRow P req body).rawPayload) :
    (webhookRow P req body).columnError P = none ↔ PayloadFits req body := by
  have hevent : fitsIn 50 (some (webhookRow P req body).eventType) = true := by
    change fitsIn 50 (some body.event.text) = true
    cases body.event <;> rfl
  have hmessage : (webhookRow P req body).errorMessage = none := by
    rw [webhookRow, hsigned]
    rfl
  have hid : (webhookRow P req body).enquiryId = some body.enquiryId := rfl
  have hip : (webhookRow P req body).ipAddress = orNull req.ip := rfl
  have hjson : P.castAsJson (webhookRow P req body).rawPayload = true ↔
      utf16Length body.toValue.stringify ≤ 60000 ∧ body.toValue.nesting ≤ 100 ∧
        body.toValue.Taken mysqlJson :=
    Iff.trans hcast document_rawPayload
  rw [WebhookEvent.columnError_eq_none, hjson, mysqlJson, Value.taken_unicode, hmessage, hid, hip]
  constructor
  · rintro ⟨hid, -, ⟨hlength, hnesting, hwell, hkeys⟩, -, hip⟩
    exact ⟨hlength, hnesting, hwell, hkeys, hid _ rfl, hip⟩
  · rintro ⟨hlength, hnesting, hwell, hkeys, hid, hip⟩
    exact ⟨fun id hsome => Option.mem_some.mp hsome ▸ hid, hevent,
      ⟨hlength, hnesting, hwell, hkeys⟩, rfl, hip⟩

theorem PayloadFits.crmRecordId (h : PayloadFits req body) :
    body.crmRecordId.isWellFormed = true := by
  apply h.wellFormed
  simp [CrmWebhookBody.toValue, Value.object, Value.quotedStrings, Value.propsQuoted]

/-- What is in the audit table was taken by its columns. -/
def ColumnsTaken (P : Platform) (c : System ι) : Prop :=
  ∀ x ∈ c.world.webhookEvents, x.2.columnError P = none

theorem Reachable.columnsTaken (h : Reachable P calls c) : ColumnsTaken P c := by
  refine h.induct (fun _ _ _ hx => (List.not_mem_nil hx).elim)
    (fun c i q k r w' _ ih _ _ hserved => ?_) (fun c d w' _ ih hdrift => ?_)
  · unfold ColumnsTaken
    rw [Config.answered_world]
    cases hserved.effect with
    | audited v r hadmits =>
      intro x hx
      rcases List.mem_append.mp hx with hx | hx
      · exact ih x hx
      · rw [List.mem_singleton.mp hx]
        exact hadmits.1
    | _ => exact ih
  · intro x hx
    rw [webhookEvents_of_drift hdrift] at hx
    exact ih x hx

/-- A signed webhook for an existing enquiry is applied exactly when its body fits. -/
theorem webhookApplied_iff (ha : Genuine P calls i req body a)
    (hcast : P.CastsJson (webhookRow P req body).rawPayload)
    (hrun : RunWhere (server P) (Undisturbed P i) a c) (halive : c.world.crashed i = false)
    (hdone : ∀ d, ¬ ResolvedStep P i c d) :
    WebhookApplied P i req body a c ↔ PayloadFits req body := by
  rw [← columnError_webhookRow ha.signed hcast]
  constructor
  · intro h
    have hmem : webhookRow P req body ∈ c.world.auditRows i := by
      rw [h.logged]
      exact List.mem_singleton_self _
    obtain ⟨x, hx, hrow⟩ := List.mem_filterMap.mp hmem
    split_ifs at hrow with hi
    rw [← Option.some.inj hrow]
    exact (ha.reachable.run hrun.run).columnsTaken x hx
  · intro hcolumns
    have hcasts := (WebhookEvent.columnError_eq_none.mp hcolumns).2.2.1
    have hfits := (columnError_webhookRow ha.signed hcast).mp hcolumns
    have hprogress := ha.progress hcolumns hfits.crmRecordId hrun
    exact hprogress.applied ha hcolumns ⟨65535, 100, hcast.mp hcasts⟩ hrun.run halive hdone

end Fits

section Samples

/-- The move is an undisturbed step of the call. -/
def resolvesFor (i : ℕ) (_ : System ℕ) : Move ℕ Choice (Drift ℕ) → Bool
  | .serve j .resolves => j == i
  | _ => false

theorem undisturbed_of_resolvesFor {i : ℕ} (c : System ℕ) (m : Move ℕ Choice (Drift ℕ))
    (c' : System ℕ) (hplay : c.play (server P) m = some c') (hcheck : resolvesFor i c m = true) :
    Undisturbed P i c c' := by
  cases m with
  | drift d => cases hcheck
  | serve j choice =>
    cases choice with
    | resolves =>
      rw [resolvesFor, beq_iff_eq] at hcheck
      subst hcheck
      exact fun _ => resolvedStep_of_play hplay
    | _ => cases hcheck

theorem not_resolvedStep_of_done {e : Option EnquiryRecord}
    (h : c.program i = .pure e) (d : System ι) : ¬ ResolvedStep P i c d := by
  rintro ⟨q, k, r, w', hprogram, -⟩
  rw [h] at hprogram
  cases hprogram

/-- Both limiters have let the genuine webhook pass. -/
def genuineState : System ℕ := sampleRun webhookCalls (undisturbed 0 9 ++ undisturbed 1 2)

theorem genuine_sample : Genuine .sample webhookCalls 1 (sampleWebhook (some genuineSignature))
    sampleFields genuineState where
  reachable := reachable_sampleRun (by rfl)
  call := rfl
  past := by rfl
  valid := by rfl
  signed := by rfl
  known := by rfl

theorem payloadFits_sample :
    PayloadFits (sampleWebhook (some genuineSignature)) sampleFields where
  length := by decide
  nesting := by decide
  wellFormed := by decide
  keys := by decide
  enquiryId := by decide
  ipAddress := by rfl

/-- A short webhook is logged, applied and answered. -/
theorem webhookApplied_sample : WebhookApplied .sample 1 (sampleWebhook (some genuineSignature))
    sampleFields genuineState (genuineState.after (server .sample) (undisturbed 1 4)) := by
  have hcast : Platform.sample.CastsJson
      (webhookRow .sample (sampleWebhook (some genuineSignature)) sampleFields).rawPayload :=
    iff_of_true rfl (document_rawPayload.mpr ⟨payloadFits_sample.length,
      payloadFits_sample.nesting, Value.taken_unicode.mpr
        ⟨payloadFits_sample.wellFormed, payloadFits_sample.keys⟩⟩)
  have hrun : RunWhere (server .sample) (Undisturbed .sample 1) genuineState
      (genuineState.after (server .sample) (undisturbed 1 4)) :=
    Config.runWhere_after undisturbed_of_resolvesFor (by rfl)
  have hdone : (genuineState.after (server .sample) (undisturbed 1 4)).program 1 = .pure none := by
    rfl
  exact (webhookApplied_iff genuine_sample hcast hrun (by rfl)
    (not_resolvedStep_of_done hdone)).mpr payloadFits_sample

def bulkyMac : List UInt8 :=
  [139, 239, 95, 48, 113, 97, 164, 183, 117, 21, 54, 175, 147, 45, 153, 232, 116, 52, 251, 253,
    184, 174, 19, 231, 155, 75, 145, 164, 228, 221, 80, 73]

/-- A runtime that knows one text: the one MySQL is given for the webhook below. -/
def bulkyPlatform : Platform :=
  { Platform.sample with
    hmacSha256 := fun _ _ => ⟨bulkyMac, rfl⟩
    castAsJson := fun _ => false }

/-- A webhook with a list in its payload. -/
def bulkyValue (items : List Value) : Value :=
  .object [("event", .str "lead.status_changed"), ("enquiryId", .num .one),
    ("crmRecordId", .str "crm-7"), ("payload", .object [("items", .arr items)])]

def bulkyWebhook (items : List Value) : Request :=
  { sampleWebhook (some "sha256=8bef5f307161a4b7751536af932d99e87434fbfdb8ae13e79b4b91a4e4dd5049")
    with payload := some (⟨(bulkyValue items).stringify, by
      simp [bulkyValue, Value.object, Value.stringify, Value.text]⟩, bulkyValue items) }

def bulkyFields (items : List Value) : CrmWebhookBody where
  event := .leadStatusChanged
  enquiryId := 1
  crmRecordId := "crm-7"
  status := none
  payload := some [("items", .arr (sanitizeItems bulkyPlatform items))]
  enquiryId_pos := Nat.one_pos
  crmRecordId_length := sampleRecordId_length

def bulkyInput : CreateEnquiryInput bulkyPlatform :=
  { sampleInput with email_valid := by decide }

def bulkyCalls (items : List Value) : ℕ → Call bulkyPlatform
  | 0 => .createEnquiry bulkyInput sampleContext
  | _ => .postCrmWebhook (bulkyWebhook items)

def bulkyStart (items : List Value) : System ℕ :=
  start bulkyPlatform (bulkyCalls items) 0 fun id => if id = 1 then some .published else none

def bulkyState (items : List Value) : System ℕ :=
  (bulkyStart items).after (server bulkyPlatform) (undisturbed 0 9 ++ undisturbed 1 2)

theorem genuine_bulky (items : List Value) : Genuine bulkyPlatform (bulkyCalls items) 1
    (bulkyWebhook items) (bulkyFields items) (bulkyState items) where
  reachable := ⟨0, _, Config.run_after (c := bulkyStart items) (by rfl)⟩
  call := rfl
  past := by rfl
  valid := by rfl
  signed := by rfl
  known := by rfl

theorem sanitizeItems_replicate_zero (n : ℕ) :
    sanitizeItems P (List.replicate n (.num .zero)) = List.replicate n (.num .zero) := by
  induction n with
  | zero => rfl
  | succ n ih =>
    rw [List.replicate_succ, sanitizeItems, ih]
    rfl

theorem length_itemsText_replicate_zero (n : ℕ) :
    (Value.itemsText (List.replicate (n + 1) (.num .zero))).length = 2 * n + 1 := by
  induction n with
  | zero => rfl
  | succ n ih =>
    rw [List.replicate_succ, List.replicate_succ, Value.itemsText, ← List.replicate_succ,
      List.length_append, List.length_cons, ih]
    have hzero : (Value.num .zero).text.length = 1 := by rfl
    omega

/-- The text around the list only adds to its length. -/
theorem length_le_bulkyFields (items : List Value) :
    (Value.itemsText (sanitizeItems bulkyPlatform items)).length ≤
      utf16Length (bulkyFields items).toValue.stringify := by
  refine le_trans ?_ (length_le_utf16Length _)
  simp only [bulkyFields, CrmWebhookBody.toValue, Value.object, Value.stringify, Value.text,
    Value.propsText, Option.map_none, Option.map_some, Option.toList_none, Option.toList_some,
    List.append_nil, List.cons_append, List.nil_append, String.length_ofList, List.length_append,
    List.length_cons]
  omega

/-- Thirty thousand and one zeros. -/
def zeros : List Value := List.replicate (30000 + 1) (.num .zero)

theorem lt_length_zeros :
    60000 < (Value.itemsText (sanitizeItems bulkyPlatform zeros)).length := by
  rw [zeros, sanitizeItems_replicate_zero, length_itemsText_replicate_zero]
  decide

/-- The audit text of the list is cut, so that MySQL refuses it, and the enquiry is not updated. -/
theorem not_webhookApplied : ¬ ∀ (P : Platform) (calls : ℕ → Call P) (i : ℕ) (req : Request)
    (body : CrmWebhookBody) (a c : System ℕ), Genuine P calls i req body a →
      P.CastsJson (webhookRow P req body).rawPayload →
      RunWhere (server P) (Undisturbed P i) a c → c.world.crashed i = false →
      (∀ d, ¬ ResolvedStep P i c d) → WebhookApplied P i req body a c := by
  intro hclaim
  have hlength : ¬ utf16Length (bulkyFields zeros).toValue.stringify ≤ 60000 := fun hle =>
    absurd ((length_le_bulkyFields zeros).trans hle) (not_le.mpr lt_length_zeros)
  have hcast : bulkyPlatform.CastsJson
      (webhookRow bulkyPlatform (bulkyWebhook zeros) (bulkyFields zeros)).rawPayload :=
    iff_of_false Bool.false_ne_true fun hdocument => hlength (document_rawPayload.mp hdocument).1
  have ha := genuine_bulky zeros
  have hcolumns : (webhookRow bulkyPlatform (bulkyWebhook zeros)
      (bulkyFields zeros)).columnError bulkyPlatform ≠ none := fun hnone =>
    hlength ((columnError_webhookRow ha.signed hcast).mp hnone).length
  obtain ⟨⟨errno, code⟩, hcolumn⟩ := Option.ne_none_iff_exists'.mp hcolumns
  have halive : (bulkyState zeros).world.crashed 1 = false := by rfl
  obtain ⟨c, hrun, hworld, hprogram, -⟩ := ha.refused halive hcolumn
  have hrows := (hclaim _ _ _ _ _ _ _ ha hcast hrun (hworld ▸ halive)
    (not_resolvedStep_of_done hprogram)).logged
  rw [hworld, ha.reachable.auditRows_admitted ha.past] at hrows
  cases hrows

end Samples

end PropertyPlatform
