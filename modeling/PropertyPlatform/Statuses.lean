import PropertyPlatform.Footprints

/-!
# Who decides the status of an enquiry

Three kinds of calls write to `enquiries`. Only a webhook with a valid signature
carries a status, so the status of a row is the one of the last such webhook.
-/

namespace PropertyPlatform

open Js Async Program

variable {P : Platform} {ι : Type} [DecidableEq ι] {calls : ι → Call P} {c c' : System ι} {i : ι}

def isWebhook : Call P → Bool
  | .postCrmWebhook _ => true
  | _ => false

/-- The status of the last applied update for this id that carried one. -/
def lastStatus (updates : List (ι × CrmUpdate)) (id : ℕ) : EnquiryStatus :=
  ((updates.filterMap fun x => if x.2.enquiryId = id then x.2.status else none).getLast?).getD .new

/-- The status of the last webhook applied to this id that carried one, `new` without one. -/
def lastWebhookStatus (calls : ι → Call P) (updates : List (ι × CrmUpdate)) (id : ℕ) :
    EnquiryStatus :=
  lastStatus (updates.filter fun x => isWebhook (calls x.1)) id

section Updates

omit [DecidableEq ι] in
theorem lastStatus_append (updates : List (ι × CrmUpdate)) (i : ι) (u : CrmUpdate) (id : ℕ) :
    lastStatus (updates ++ [(i, u)]) id =
      if u.enquiryId = id then u.status.getD (lastStatus updates id)
      else lastStatus updates id := by
  unfold lastStatus
  rw [List.filterMap_append]
  split_ifs with hid
  · cases hstatus : u.status with
    | none => simp [hid, hstatus]
    | some s => simp [hid, hstatus]
  · simp [hid]

theorem apply_of_ne {now : ℕ} {u : CrmUpdate} {row : EnquiryRecord} (h : row.id ≠ u.enquiryId) :
    row.apply now u = row := by
  simp [EnquiryRecord.apply, h]

/-- The columns an update writes. -/
theorem apply_of_eq (now : ℕ) {u : CrmUpdate} {row : EnquiryRecord} (h : row.id = u.enquiryId) :
    ∃ updatedAt, row.apply now u = { row with
      crmRecordId := some u.crmRecordId
      crmSyncedAt := some now
      status := u.status.getD row.status
      updatedAt := updatedAt } := by
  unfold EnquiryRecord.apply
  rw [if_pos h]
  simp only
  split_ifs with hsame
  · exact ⟨row.updatedAt, hsame.symm⟩
  · exact ⟨now, rfl⟩

theorem status_apply (now : ℕ) (u : CrmUpdate) (row : EnquiryRecord) :
    (row.apply now u).status =
      if u.enquiryId = row.id then u.status.getD row.status else row.status := by
  by_cases h : row.id = u.enquiryId
  · obtain ⟨updatedAt, hrow⟩ := apply_of_eq now h
    rw [hrow, if_pos h.symm]
  · rw [apply_of_ne h, if_neg (Ne.symm h)]

end Updates

section Columns

variable {β : Type}

/-- What a column holds after the updates of its row. -/
def columnAfter (g : β → CrmUpdate → β) (b : β) (updates : List (ι × CrmUpdate)) (id : ℕ) : β :=
  updates.foldl (fun b x => if x.2.enquiryId = id then g b x.2 else b) b

omit [DecidableEq ι] in
@[simp] theorem columnAfter_append (g : β → CrmUpdate → β) (b : β)
    (updates : List (ι × CrmUpdate)) (i : ι) (u : CrmUpdate) (id : ℕ) :
    columnAfter g b (updates ++ [(i, u)]) id =
      if u.enquiryId = id then g (columnAfter g b updates id) u
      else columnAfter g b updates id := by
  simp [columnAfter, List.foldl_append]

omit [DecidableEq ι] in
theorem columnAfter_of_ne {g : β → CrmUpdate → β} {b : β} {updates : List (ι × CrmUpdate)} {id : ℕ}
    (h : ∀ x ∈ updates, x.2.enquiryId ≠ id) : columnAfter g b updates id = b := by
  induction updates using List.reverseRecOn with
  | nil => rfl
  | append_singleton updates x ih =>
    rw [columnAfter_append, if_neg (h x (by simp)),
      ih fun y hy => h y (List.mem_append_left _ hy)]

omit [DecidableEq ι] in
theorem lastStatus_eq (updates : List (ι × CrmUpdate)) (id : ℕ) :
    lastStatus updates id = columnAfter (fun s u => u.status.getD s) .new updates id := by
  induction updates using List.reverseRecOn with
  | nil => rfl
  | append_singleton updates x ih => rw [lastStatus_append, columnAfter_append, ih]

/-- A column that starts with `b` and that an update of its row turns into `g`. -/
structure Column (f : EnquiryRecord → β) (g : β → CrmUpdate → β) (b : β) : Prop where
  new : ∀ row : EnquiryRecord, row.status = .new → row.crmRecordId = none → f row = b
  apply : ∀ now u row, f (EnquiryRecord.apply now u row) =
    if u.enquiryId = row.id then g (f row) u else f row

end Columns

/-- The log of applied updates names its calls and ids. -/
structure UpdatesLogged (c : System ι) : Prop where
  below : ∀ x ∈ c.world.updates, x.2.enquiryId < c.world.nextEnquiryId
  source : ∀ x ∈ c.world.updates, ∃ r, (x.1, ⟨.updateEnquiry x.2, r⟩) ∈ c.trace

omit [DecidableEq ι] in
theorem World.hasEnquiry_iff {w : World ι} {id : ℕ} :
    w.hasEnquiry id = true ↔ ∃ row ∈ w.enquiryRows, row.id = id := by
  simp [hasEnquiry]

omit [DecidableEq ι] in
/-- A row that no open transaction holds is committed. -/
theorem World.committed_of_unlocked {w : World ι} {id : ℕ} (h : w.isLocked id = false)
    {tx : Tx ι} {row : EnquiryRecord} (hrow : (tx, row) ∈ w.enquiries.rows) (hid : row.id = id) :
    tx = .committed := by
  have hnone := List.any_eq_false.mp h _ hrow
  cases tx with
  | committed => rfl
  | of i => exact absurd hid (by simpa using hnone)
  | detached => exact absurd hid (by simpa using hnone)

theorem UpdatesLogged.serve_step (h : UpdatesLogged c) (hc : Consistent c) {q : Operation}
    {r : Except Err q.Reply} {k : Except Err q.Reply → Promise (Option EnquiryRecord)}
    {w' : World ι} (hserved : c.world.Served P i q r w') :
    UpdatesLogged (c.answered i q r k w') := by
  have hsource : ∀ x ∈ c.world.updates,
      ∃ r', (x.1, ⟨.updateEnquiry x.2, r'⟩) ∈ (c.answered i q r k w').trace := by
    intro x hx
    obtain ⟨r', hr'⟩ := h.source x hx
    exact ⟨r', List.mem_append_left _ hr'⟩
  cases hserved.tableStep with
  | action a haction htable hid hinsert hupdates =>
    exact ⟨by rw [Config.answered_world, hupdates, hid]; exact h.below,
      by rw [Config.answered_world, hupdates]; exact hsource⟩
  | insert v he hfits hfresh hw' =>
    rw [hw'] at hsource ⊢
    exact ⟨fun x hx => Nat.lt_succ_of_lt (h.below x hx), hsource⟩
  | update u hq hunlocked hfound hw' =>
    simp only at hq
    subst hq
    refine ⟨fun x hx => ?_, fun x hx => ?_⟩
    · rw [Config.answered_world, hw'] at hx ⊢
      rcases List.mem_append.mp hx with hx | hx
      · exact h.below x hx
      · obtain ⟨row, hrow, hid⟩ := World.hasEnquiry_iff.mp hfound
        rw [List.mem_singleton.mp hx]
        exact hid ▸ hc.id_below (Table.mem_contents_of_committed hrow)
    · rw [Config.answered_world, hw'] at hx
      rcases List.mem_append.mp hx with hx | hx
      · exact hsource x hx
      · rw [List.mem_singleton.mp hx]
        exact ⟨r, List.mem_append_right _ (List.mem_singleton_self _)⟩
  | none haction htable hid hupdates =>
    exact ⟨by rw [Config.answered_world, hupdates, hid]; exact h.below,
      by rw [Config.answered_world, hupdates]; exact hsource⟩

theorem Reachable.updatesLogged (h : Reachable P calls c) : UpdatesLogged c := by
  refine h.induct (fun _ _ => ⟨fun _ hx => (by cases hx), fun _ hx => (by cases hx)⟩)
    (fun _ _ _ _ _ _ hc ih _ _ hserved => ih.serve_step hc.consistent hserved) ?_
  intro c d w' _ ih hdrift
  cases World.drifted_of_drift hdrift <;> exact ⟨ih.below, ih.source⟩

section Columns

variable {β : Type} {f : EnquiryRecord → β} {g : β → CrmUpdate → β} {b : β}

/-- Every row holds in the column what the log of applied updates says. -/
def ColumnLogged (f : EnquiryRecord → β) (g : β → CrmUpdate → β) (b : β) (c : System ι) : Prop :=
  ∀ row ∈ c.world.enquiries.contents, f row = columnAfter g b c.world.updates row.id

theorem ColumnLogged.serve_step (hcolumn : Column f g b) (h : ColumnLogged f g b c)
    (hlogged : UpdatesLogged c) {q : Operation} {r : Except Err q.Reply}
    {k : Except Err q.Reply → Promise (Option EnquiryRecord)} {w' : World ι}
    (hserved : c.world.Served P i q r w') : ColumnLogged f g b (c.answered i q r k w') := by
  intro row hrow
  cases hserved.tableStep with
  | action a haction htable hid hinsert hupdates =>
    rw [Config.answered_world, hupdates]
    rw [Config.answered_world, htable] at hrow
    rcases Table.contents_act c.world.enquiries i a with hsub | ⟨row', ha, -⟩
    · exact h row (hsub.subset hrow)
    · exact absurd ha (hinsert row')
  | insert v he hfits hfresh hw' =>
    rw [Config.answered_world, hw'] at hrow ⊢
    rcases Table.contents_act c.world.enquiries i (.insert (c.world.newRow v)) with
      hsub | ⟨row', ha, hadd⟩
    · exact h row (hsub.subset hrow)
    · cases ha
      change row ∈ (c.world.enquiries.act i (.insert (c.world.newRow v))).contents at hrow
      rw [hadd] at hrow
      rcases List.mem_append.mp hrow with hrow | hrow
      · exact h row hrow
      · rw [List.mem_singleton.mp hrow, hcolumn.new _ rfl rfl]
        exact (columnAfter_of_ne fun x hx => (hlogged.below x hx).ne).symm
  | update u hq hunlocked hfound hw' =>
    rw [Config.answered_world, hw'] at hrow ⊢
    change f row = columnAfter g b (c.world.updates ++ [(i, u)]) row.id
    obtain ⟨y, hy, rfl⟩ := List.mem_map.mp hrow
    obtain ⟨⟨tx, row₀⟩, hrow₀, rfl⟩ := List.mem_map.mp hy
    have hold := h row₀ (List.mem_map.mpr ⟨_, hrow₀, rfl⟩)
    rw [columnAfter_append]
    split_ifs with htx hid hid
    · simp only [World.apply_id] at hid
      rw [hcolumn.apply, if_pos hid, World.apply_id, hold]
    · simp only [World.apply_id] at hid
      rw [hcolumn.apply, if_neg hid, World.apply_id, hold]
    · exact absurd (World.committed_of_unlocked hunlocked hrow₀ hid.symm) htx
    · exact hold
  | none haction htable hid hupdates =>
    rw [Config.answered_world, htable] at hrow
    rw [Config.answered_world, hupdates]
    exact h row hrow

theorem ColumnLogged.drift_step (h : ColumnLogged f g b c) {d : Drift ι} {w' : World ι}
    (hdrift : World.drift d c.world = some w') : ColumnLogged f g b { c with world := w' } := by
  cases World.drifted_of_drift hdrift with
  | settled commits id =>
    have hsub := c.world.enquiries.contents_settle commits fun r => r.id == id
    exact fun row hrow => h row (hsub.subset hrow)
  | crashed i =>
    intro row hrow
    rcases Table.contents_act c.world.enquiries i .discard with hsub | ⟨row', ha, -⟩
    · exact h row (hsub.subset hrow)
    · cases ha
  | _ => exact h

theorem Reachable.columnLogged (h : Reachable P calls c) (hcolumn : Column f g b) :
    ColumnLogged f g b c :=
  h.induct (fun _ _ _ hrow => (List.not_mem_nil hrow).elim)
    (fun _ _ _ _ _ _ hc ih _ _ hserved => ih.serve_step hcolumn hc.updatesLogged hserved)
    (fun _ _ _ _ ih hdrift => ih.drift_step hdrift)

end Columns

/-- The log of applied updates explains every status. -/
structure StatusesLogged (c : System ι) : Prop where
  status : ∀ row ∈ c.world.enquiries.contents, row.status = lastStatus c.world.updates row.id
  below : ∀ x ∈ c.world.updates, x.2.enquiryId < c.world.nextEnquiryId
  source : ∀ x ∈ c.world.updates, ∃ r, (x.1, ⟨.updateEnquiry x.2, r⟩) ∈ c.trace

theorem column_status : Column EnquiryRecord.status (fun s u => u.status.getD s) .new where
  new _ hstatus _ := hstatus
  apply now u row := status_apply now u row

theorem Reachable.statusesLogged (h : Reachable P calls c) : StatusesLogged c where
  status row hrow := by
    rw [lastStatus_eq]
    exact h.columnLogged column_status row hrow
  below := h.updatesLogged.below
  source := h.updatesLogged.source

/-- An update that is not a webhook's carries no status. -/
theorem Reachable.status_none (h : Reachable P calls c) {x : ι × CrmUpdate}
    (hx : x ∈ c.world.updates) (hcall : isWebhook (calls x.1) = false) : x.2.status = none := by
  obtain ⟨r, hr⟩ := h.statusesLogged.source x hx
  have hfoot := h.footprint_of_mem hr
  cases hc : calls x.1 with
  | createEnquiry input ctx => rw [hc] at hfoot; exact hfoot.elim
  | postEnquiry req route =>
    rw [hc] at hfoot
    cases hfoot with
    | limiter l hq => cases hq
    | idempotency hq => exact hq.elim
    | create input hvalid hq => exact hq.elim
  | postCrmWebhook req => rw [hc] at hcall; cases hcall
  | crmSyncJob enquiryId => rw [hc] at hfoot; exact hfoot.2

theorem Reachable.status_eq (h : Reachable P calls c) {row : EnquiryRecord}
    (hrow : row ∈ c.world.enquiryRows) :
    row.status = lastWebhookStatus calls c.world.updates row.id := by
  rw [h.statusesLogged.status row (Table.mem_contents_of_committed hrow), lastWebhookStatus,
    lastStatus, lastStatus, List.filterMap_filter]
  congr 2
  refine List.filterMap_congr fun x hx => ?_
  cases hcall : isWebhook (calls x.1) with
  | true => simp
  | false => simp [h.status_none hx hcall]

section Webhooks

variable {req : Request}

/-- A body only passes the schema if there was one. -/
theorem payload_of_valid {body : CrmWebhookBody} (h : validateWebhook P req = .ok body) :
    ∃ text value, req.payload = some (text, value) := by
  cases hpayload : req.payload with
  | some x => exact ⟨x.1, x.2, rfl⟩
  | none =>
    have hempty : req.body P = .object [] := by
      rw [Request.body, hpayload]
      rfl
    rw [validateWebhook, hempty] at h
    cases h

/-- The header is an HMAC of the raw text, in the encoding the check accepts. -/
def SignedBy (P : Platform) (req : Request) : Prop :=
  ∃ text value header, req.payload = some (text, value) ∧ req.crmSignature = some header ∧
    decodeHex (withoutPrefix "sha256=" header).toList =
      (P.hmacSha256 P.crmWebhookSecret text.val).val

theorem signedBy_of_valid {body : CrmWebhookBody} (h : validateWebhook P req = .ok body)
    (hsignature : req.signatureValid P body = true) : SignedBy P req := by
  obtain ⟨text, value, hpayload⟩ := payload_of_valid h
  unfold Request.signatureValid verifyWebhookSignature at hsignature
  cases hheader : req.crmSignature with
  | none => rw [hheader] at hsignature; cases hsignature
  | some header =>
    rw [hheader] at hsignature
    simp only at hsignature
    split_ifs at hsignature with hempty
    have hraw : req.rawBody body = text.val := by
      rw [Request.rawBody, hpayload]
    rw [hraw, verifyHmacSignature_iff] at hsignature
    exact ⟨text, value, header, hpayload, hheader, hsignature⟩

/-- What an applied webhook does to a row: its own row gets the CRM columns, and the status
when the body carries one. -/
def AppliesTo (body : CrmWebhookBody) (row row' : EnquiryRecord) : Prop :=
  (row.id ≠ body.enquiryId ∧ row' = row) ∨
    (row.id = body.enquiryId ∧ ∃ syncedAt updatedAt, row' = { row with
      crmRecordId := some body.crmRecordId.toWellFormed
      crmSyncedAt := some syncedAt
      status := body.status.getD row.status
      updatedAt := updatedAt })

theorem appliesTo_apply (now : ℕ) (body : CrmWebhookBody) (row : EnquiryRecord) :
    AppliesTo body row (row.apply now (webhookUpdate body)) := by
  by_cases h : row.id = body.enquiryId
  · obtain ⟨updatedAt, hrow⟩ := apply_of_eq (u := webhookUpdate body) now h
    exact Or.inr ⟨h, now, updatedAt, hrow⟩
  · exact Or.inl ⟨h, apply_of_ne h⟩

/-- A step of a webhook request changes the table only behind a valid signature. -/
theorem webhook_step (hc : Reachable P calls c) (hi : calls i = .postCrmWebhook req)
    (hstep : StepOf P i c c') :
    (c'.world.enquiryRows = c.world.enquiryRows ∧ c'.world.updates = c.world.updates) ∨
    ∃ body, validateWebhook P req = .ok body ∧ SignedBy P req ∧
      c'.world.updates = c.world.updates ++ [(i, webhookUpdate body)] ∧
      List.Forall₂ (AppliesTo body) c.world.enquiryRows c'.world.enquiryRows := by
  obtain ⟨q, k, choice, r, w', hprogram, hserve, rfl⟩ := hstep
  have hfoot := hc.footprint_of_await hprogram
  rw [hi] at hfoot
  cases (World.served_of_serve hserve).2.tableStep with
  | action a haction htable hid hinsert hupdates =>
    exfalso
    cases q <;> first | exact hfoot.elim | cases haction
  | insert v he => cases he; exact hfoot.elim
  | update u hq hunlocked hfound hw' =>
    simp only at hq
    subst hq
    obtain ⟨body, hvalid, hsignature, rfl⟩ := hfoot
    refine Or.inr ⟨body, hvalid, signedBy_of_valid hvalid hsignature, by rw [hw']; rfl, ?_⟩
    have hrows : w'.enquiryRows = c.world.enquiryRows.map
        (EnquiryRecord.apply (c.world.now / 1000) (webhookUpdate body)) := by
      rw [hw', World.enquiryRows, Table.committed_update]
      rfl
    change List.Forall₂ (AppliesTo body) c.world.enquiryRows w'.enquiryRows
    rw [hrows, List.forall₂_map_right_iff]
    exact List.forall₂_same.mpr fun row _ => appliesTo_apply _ body row
  | none haction htable hid hupdates =>
    exact Or.inl ⟨by rw [World.enquiryRows, Config.answered_world, htable]; rfl, hupdates⟩

/-- A step of a crm-sync attempt leaves every status as it is. -/
theorem crmSync_step (hc : Reachable P calls c) {enquiryId : ℕ}
    (hi : calls i = .crmSyncJob enquiryId) (hstep : StepOf P i c c') :
    c'.world.enquiryRows.map (fun row => (row.id, row.status)) =
      c.world.enquiryRows.map fun row => (row.id, row.status) := by
  obtain ⟨q, k, choice, r, w', hprogram, hserve, rfl⟩ := hstep
  have hfoot := hc.footprint_of_await hprogram
  rw [hi] at hfoot
  cases (World.served_of_serve hserve).2.tableStep with
  | action a haction htable hid hinsert hupdates =>
    exfalso
    cases q <;> first | exact hfoot.elim | cases haction
  | insert v he => cases he; exact hfoot.elim
  | update u hq hunlocked hfound hw' =>
    simp only at hq
    subst hq
    obtain ⟨-, hstatus⟩ := hfoot
    rw [Config.answered_world, hw', World.enquiryRows, Table.committed_update, List.map_map]
    refine List.map_congr_left fun row _ => ?_
    simp [status_apply, hstatus]
  | none haction htable hid hupdates =>
    rw [World.enquiryRows, Config.answered_world, htable]
    rfl

/-- The three writers of `enquiries`, seen from the statuses. -/
structure StatusesExplained (P : Platform) (calls : ι → Call P) (c : System ι) : Prop where
  status : ∀ row ∈ c.world.enquiryRows,
    row.status = lastWebhookStatus calls c.world.updates row.id
  webhook : ∀ i req c', calls i = .postCrmWebhook req → StepOf P i c c' →
    (c'.world.enquiryRows = c.world.enquiryRows ∧ c'.world.updates = c.world.updates) ∨
    ∃ body, validateWebhook P req = .ok body ∧ SignedBy P req ∧
      c'.world.updates = c.world.updates ++ [(i, webhookUpdate body)] ∧
      List.Forall₂ (AppliesTo body) c.world.enquiryRows c'.world.enquiryRows
  crmSync : ∀ i enquiryId c', calls i = .crmSyncJob enquiryId → StepOf P i c c' →
    c'.world.enquiryRows.map (fun row => (row.id, row.status)) =
      c.world.enquiryRows.map fun row => (row.id, row.status)

theorem statusesExplained (h : Reachable P calls c) : StatusesExplained P calls c where
  status _ hrow := h.status_eq hrow
  webhook _ _ _ hi hstep := webhook_step h hi hstep
  crmSync _ _ _ hi hstep := crmSync_step h hi hstep

end Webhooks

section Samples

def sampleWebhookBody : Value :=
  .object [("event", .str "lead.status_changed"), ("enquiryId", .num .one),
    ("crmRecordId", .str "crm-7"), ("status", .str "contacted")]

theorem sampleRecordId_length : 1 ≤ utf16Length "crm-7" ∧ utf16Length "crm-7" ≤ 100 := by decide

/-- What the schema makes of the sample webhook. -/
def sampleFields : CrmWebhookBody where
  event := .leadStatusChanged
  enquiryId := 1
  crmRecordId := "crm-7"
  status := some .contacted
  payload := none
  enquiryId_pos := Nat.one_pos
  crmRecordId_length := sampleRecordId_length

def sampleWebhook (signature : Option String) : Request where
  path := "/webhook/crm"
  requestId := "b6f0a9de-1c1f-4f6e-9a53-0d3e6a1f9c11"
  ip := "198.51.100.20"
  userAgent := none
  idempotencyKey := none
  crmSignature := signature
  payload := some (⟨Platform.sampleWebhookText, by decide⟩, sampleWebhookBody)

def genuineSignature : String :=
  "sha256=7322999461c51004c1099e250a37a776f026739a72cb53f542659a5fce9acf56"

def webhookCalls : ℕ → Call .sample
  | 0 => .createEnquiry sampleInput sampleContext
  | 1 => .postCrmWebhook (sampleWebhook (some genuineSignature))
  | _ => .crmSyncJob 1

/-- An enquiry, then its webhook, then its crm-sync job: the row keeps the webhook's status. -/
theorem statusesExplained_sample :
    let c := sampleRun webhookCalls (undisturbed 0 9 ++ undisturbed 1 6 ++ undisturbed 2 3)
    StatusesExplained .sample webhookCalls c ∧
      c.world.enquiryRows.map (fun row => (row.status, row.crmRecordId)) =
        [(.contacted, some "crm_1_0")] :=
  ⟨statusesExplained (reachable_sampleRun (by rfl)), by rfl⟩

end Samples

end PropertyPlatform
