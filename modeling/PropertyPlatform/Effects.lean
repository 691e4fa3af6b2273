import PropertyPlatform.System

/-!
# What one served operation does

Serving an operation changes one thing in the world, or nothing. The changes are listed
here once, with what is known when they happen.
-/

namespace PropertyPlatform

open Js Async

variable {P : Platform} {ι : Type} [DecidableEq ι]

namespace World

theorem insertEnquiry_cases {w w' : World ι} {i : ι} {v : NewEnquiry} {r : Except Err ℕ}
    (h : w.insertEnquiry P i v = some (r, w')) :
    (∃ n, r = .error (.native n) ∧ w' = w ∧
      (n.isDuplicateEntry = true → ∃ row, row.fingerprint = v.fingerprint ∧
        ((.committed, row) ∈ w.enquiries.rows ∨ (.of i, row) ∈ w.enquiries.rows))) ∨
    (r = .ok w.nextEnquiryId ∧ v.fits = true ∧
      (∀ row ∈ w.enquiries.contents, row.fingerprint ≠ v.fingerprint) ∧
      w' = { w.act i (.insert (w.newRow v)) with nextEnquiryId := w.nextEnquiryId + 1 }) := by
  unfold insertEnquiry at h
  split_ifs at h with hfits hdup hblocked hproperty
  · cases h
    exact Or.inl ⟨_, rfl, rfl, fun hc => absurd hc Bool.false_ne_true⟩
  · cases h
    obtain ⟨⟨tx, row⟩, hmem, hrow⟩ := List.any_eq_true.mp hdup
    simp only [Bool.and_eq_true, beq_iff_eq, Bool.or_eq_true] at hrow
    refine Or.inl ⟨_, rfl, rfl, fun _ => ⟨row, hrow.1, ?_⟩⟩
    rcases hrow.2 with rfl | rfl
    · exact Or.inl hmem
    · exact Or.inr hmem
  · cases h
    exact Or.inl ⟨_, rfl, rfl, fun hc => absurd hc Bool.false_ne_true⟩
  · cases h
    refine Or.inr ⟨rfl, by simpa using hfits, fun row hrow heq => hblocked ?_, rfl⟩
    obtain ⟨x, hx, rfl⟩ := List.mem_map.mp hrow
    exact List.any_eq_true.mpr ⟨x, hx, by simpa using heq⟩

theorem updateEnquiry_cases {w w' : World ι} {i : ι} {u : CrmUpdate} {r : Except Err Unit}
    (h : w.updateEnquiry P i u = some (r, w')) :
    (w' = w ∧ ∀ n, r = .error (.native n) → n.isDuplicateEntry = false) ∨
    (w.isLocked u.enquiryId = false ∧ w.hasEnquiry u.enquiryId = true ∧ r = .ok () ∧
      w' = { w with
        enquiries := w.enquiries.update (EnquiryRecord.apply (w.now / 1000) u)
        updates := w.updates ++ [(i, u)] }) := by
  unfold updateEnquiry at h
  split_ifs at h with hlocked hfound hfits
  · cases h
    exact Or.inl ⟨rfl, fun n hn => by cases hn⟩
  · cases h
    exact Or.inl ⟨rfl, fun n hn => by cases hn; rfl⟩
  · cases h
    exact Or.inr ⟨by simpa using hlocked, by simpa using hfound, rfl, rfl⟩

/-- The columns take their values, and the foreign key finds its row. -/
def Admits (P : Platform) (w : World ι) (v : WebhookEvent) : Prop :=
  v.columnError P = none ∧ ∀ id ∈ v.enquiryId, w.hasEnquiry id = true

theorem columnError_not_duplicate {v : WebhookEvent} {errno : ℕ} {code : String}
    (h : v.columnError P = some (errno, code)) (message : String) :
    NativeError.isDuplicateEntry ⟨message, some errno, some code⟩ = false := by
  unfold WebhookEvent.columnError at h
  split_ifs at h <;> cases h <;> rfl

omit [DecidableEq ι] in
theorem insertWebhookEvent_cases {w w' : World ι} {i : ι} {v : WebhookEvent}
    {r : Except Err Unit} (h : w.insertWebhookEvent P i v = some (r, w')) :
    (∃ n, r = .error (.native n) ∧ w' = w ∧ n.isDuplicateEntry = false ∧ ¬ w.Admits P v) ∨
      (r = .ok () ∧ w' = { w with webhookEvents := w.webhookEvents ++ [(i, v)] } ∧
        w.Admits P v) := by
  unfold insertWebhookEvent at h
  cases hcolumn : v.columnError P with
  | some error =>
    rw [hcolumn] at h
    cases h
    refine Or.inl ⟨_, rfl, rfl, columnError_not_duplicate hcolumn _, fun hadmits => ?_⟩
    rw [hadmits.1] at hcolumn
    cases hcolumn
  | none =>
    rw [hcolumn] at h
    simp only at h
    have hfound : v.enquiryId.all w.hasEnquiry = true ↔
        ∀ id ∈ v.enquiryId, w.hasEnquiry id = true := Option.all_eq_true _ _
    split_ifs at h with hlocked hmissing
    · cases h
      refine Or.inl ⟨_, rfl, rfl, rfl, fun hadmits => ?_⟩
      rw [hfound.mpr hadmits.2] at hmissing
      cases hmissing
    · cases h
      exact Or.inr ⟨rfl, rfl, hcolumn, hfound.mp (by simpa using hmissing)⟩

/-- The events that come without any change. -/
def idle : Event signature → Bool
  | ⟨.beginTransaction, .ok _⟩ | ⟨.commit, _⟩ | ⟨.rollback, .ok _⟩ | ⟨.release, _⟩ => false
  | ⟨.insertEnquiry _, .ok _⟩ | ⟨.addCrmSyncJob _, .ok _⟩ | ⟨.addEmailJob _, .ok _⟩ => false
  | ⟨.setNx _ _ _, .ok claimed⟩ => !claimed
  | ⟨.set _ _ _, _⟩ => false
  | _ => true

/-- The change that one event of call `i` made. An update, an audit row and a claim may have
taken place although the event is a rejection. -/
inductive Effect (P : Platform) (w : World ι) (i : ι) : Event signature → World ι → Prop where
  | idle {e : Event signature} (hidle : idle e = true) : Effect P w i e w
  | began : Effect P w i ⟨.beginTransaction, .ok ()⟩ (w.act i .begin)
  | committed : Effect P w i ⟨.commit, .ok ()⟩ (w.act i .commit)
  | commitFailed (err : Err) : Effect P w i ⟨.commit, .error err⟩ (w.act i .discard)
  | rolledBack : Effect P w i ⟨.rollback, .ok ()⟩ (w.act i .discard)
  | released : Effect P w i ⟨.release, .ok ()⟩ (w.act i .release)
  | inserted (v : NewEnquiry) (hfits : v.fits = true)
      (hfresh : ∀ row ∈ w.enquiries.contents, row.fingerprint ≠ v.fingerprint) :
      Effect P w i ⟨.insertEnquiry v, .ok w.nextEnquiryId⟩
        { w.act i (.insert (w.newRow v)) with nextEnquiryId := w.nextEnquiryId + 1 }
  | updated (u : CrmUpdate) (r : Except Err Unit) (hunlocked : w.isLocked u.enquiryId = false)
      (hfound : w.hasEnquiry u.enquiryId = true) :
      Effect P w i ⟨.updateEnquiry u, r⟩ { w with
        enquiries := w.enquiries.update (EnquiryRecord.apply (w.now / 1000) u)
        updates := w.updates ++ [(i, u)] }
  | audited (v : WebhookEvent) (r : Except Err Unit) (hadmits : w.Admits P v) :
      Effect P w i ⟨.insertWebhookEvent v, r⟩
        { w with webhookEvents := w.webhookEvents ++ [(i, v)] }
  | queued (job : CrmSyncJob) :
      Effect P w i ⟨.addCrmSyncJob job, .ok ()⟩ { w with
        crmSyncQueue := if w.crmSyncQueue.any fun x => x.jobId == job.jobId then w.crmSyncQueue
          else w.crmSyncQueue ++ [job] }
  | mailed (job : EmailJob) :
      Effect P w i ⟨.addEmailJob job, .ok ()⟩ { w with emailQueue := w.emailQueue ++ [job] }
  | claimed (key : String) (record : IdempotencyRecord) (ttl : ℕ) (r : Except Err Bool)
      (hfree : w.entry key = none) (hr : r ≠ .ok false) :
      Effect P w i ⟨.setNx key record ttl, r⟩ (w.store key record ttl)
  | issued (key : String) (record : IdempotencyRecord) (ttl : ℕ) :
      Effect P w i ⟨.set key record ttl, .ok ()⟩
        { w with inflight := w.inflight ++ [⟨key, record, ttl⟩] }

omit [DecidableEq ι] in
theorem addCrmSyncJob_eq (w : World ι) (job : CrmSyncJob) : w.addCrmSyncJob job = { w with
    crmSyncQueue := if w.crmSyncQueue.any fun x => x.jobId == job.jobId then w.crmSyncQueue
      else w.crmSyncQueue ++ [job] } := by
  unfold addCrmSyncJob
  split_ifs <;> rfl

theorem effect_of_answer {w w' : World ι} {i : ι} {q : Operation} {r : Except Err q.Reply}
    (h : w.answer P i q = some (r, w')) : w.Effect P i ⟨q, r⟩ w' := by
  cases q with
  | beginTransaction => cases h; exact .began
  | commit => cases h; exact .committed
  | rollback => cases h; exact .rolledBack
  | release => cases h; exact .released
  | insertEnquiry v =>
    rcases insertEnquiry_cases h with ⟨n, rfl, rfl, -⟩ | ⟨rfl, hfits, hfresh, rfl⟩
    · exact .idle rfl
    · exact .inserted v hfits hfresh
  | updateEnquiry u =>
    rcases updateEnquiry_cases h with ⟨rfl, -⟩ | ⟨hunlocked, hfound, -, rfl⟩
    · exact .idle rfl
    · exact .updated u r hunlocked hfound
  | insertWebhookEvent v =>
    rcases insertWebhookEvent_cases h with ⟨n, rfl, rfl, -⟩ | ⟨rfl, rfl, hadmits⟩
    · exact .idle rfl
    · exact .audited v _ hadmits
  | addCrmSyncJob job =>
    cases h
    rw [addCrmSyncJob_eq]
    exact .queued job
  | addEmailJob job => cases h; exact .mailed job
  | setNx key record ttl =>
    simp only [answer] at h
    split_ifs at h with htaken
    · cases h
      exact .idle rfl
    · cases h
      exact .claimed key record ttl _ (by simpa using htaken) (by simp)
  | set key record ttl => cases h; exact .issued key record ttl
  | _ => cases h; exact .idle rfl

/-- A lost acknowledgement leaves the effect, a rejection has none but the end of a
transaction whose commit failed. -/
theorem Served.effect {w w' : World ι} {i : ι} {q : Operation} {r : Except Err q.Reply}
    (h : w.Served P i q r w') : w.Effect P i ⟨q, r⟩ w' := by
  cases h with
  | answered h => exact effect_of_answer h
  | lost h hauto he =>
    cases q with
    | updateEnquiry u =>
      cases effect_of_answer h with
      | idle => exact .idle rfl
      | updated _ _ hunlocked hfound => exact .updated u _ hunlocked hfound
    | insertWebhookEvent v =>
      cases effect_of_answer h with
      | idle => exact .idle rfl
      | audited _ _ hadmits => exact .audited v _ hadmits
    | setNx key record ttl =>
      cases effect_of_answer h with
      | idle => exact .idle rfl
      | claimed _ _ _ _ hfree _ => exact .claimed key record ttl _ hfree (by simp)
    | _ => cases hauto
  | rejected he =>
    cases q with
    | commit => exact .commitFailed _
    | release => cases he
    | set key record ttl => cases he
    | _ => exact .idle rfl
  | exceeded => exact .idle rfl
  | drawn => exact .idle rfl

theorem Served.crashed {w w' : World ι} {i : ι} {q : Operation} {r : Except Err q.Reply}
    (h : w.Served P i q r w') : w'.crashed = w.crashed := by
  cases h.effect <;> rfl

theorem Served.properties {w w' : World ι} {i : ι} {q : Operation} {r : Except Err q.Reply}
    (h : w.Served P i q r w') : w'.properties = w.properties := by
  cases h.effect <;> rfl

/-- The change that drift made. -/
inductive Drifted (w : World ι) : World ι → Prop where
  | ticked (ms : ℕ) : Drifted w { w with now := w.now + ms }
  | redis (redis : String → Option RedisEntry) (inflight : List InflightWrite) :
      Drifted w { w with redis := redis, inflight := inflight }
  | settled (commits : Bool) (id : ℕ) :
      Drifted w { w with enquiries := w.enquiries.settle commits fun r => r.id == id }
  | propertySet (id : ℕ) (status : PropertyStatus) :
      Drifted w { w with properties := Function.update w.properties id (some status) }
  | crashed (i : ι) :
      Drifted w { w.act i .discard with crashed := Function.update w.crashed i true }

theorem drifted_of_drift {w w' : World ι} {d : Drift ι} (h : drift d w = some w') :
    w.Drifted w' := by
  cases d with
  | tick ms => cases h; exact .ticked ms
  | applyWrite n =>
    obtain ⟨x, -, rfl⟩ := Option.map_eq_some_iff.mp h
    exact .redis _ _
  | dropWrite n =>
    obtain ⟨x, -, rfl⟩ := Option.map_eq_some_iff.mp h
    exact .redis _ _
  | settle commits id => cases h; exact .settled commits id
  | setProperty id status => cases h; exact .propertySet id status
  | crash i => cases h; exact .crashed i

/-- Properties change their status, but none disappears. -/
theorem property_of_drift {w w' : World ι} {d : Drift ι} (h : drift d w = some w') {id : ℕ}
    (hid : (w.properties id).isSome = true) : (w'.properties id).isSome = true := by
  cases drifted_of_drift h with
  | propertySet id' status =>
    by_cases hsame : id = id'
    · simp [hsame]
    · simpa [hsame] using hid
  | _ => exact hid

theorem updates_of_drift {w w' : World ι} {d : Drift ι} (h : drift d w = some w') :
    w'.updates = w.updates := by
  cases drifted_of_drift h <;> rfl

end World

end PropertyPlatform
