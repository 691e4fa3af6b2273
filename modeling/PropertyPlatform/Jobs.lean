import PropertyPlatform.Footprints
import PropertyPlatform.Outcomes

/-!
# The queues in every reachable state

The queues hold what the calls were told they had added, and a call only adds jobs
for an enquiry it has inserted itself.
-/

namespace PropertyPlatform

open Js Async Program

def addedEmail : Event signature → Option EmailJob
  | ⟨.addEmailJob job, .ok _⟩ => some job
  | _ => none

def addedCrmSync : Event signature → Option CrmSyncJob
  | ⟨.addCrmSyncJob job, .ok _⟩ => some job
  | _ => none

theorem eq_of_addedEmail {e : Event signature} {job : EmailJob} (h : addedEmail e = some job) :
    e = ⟨.addEmailJob job, .ok ()⟩ := by
  unfold addedEmail at h
  split at h <;> cases h
  rfl

theorem eq_of_addedCrmSync {e : Event signature} {job : CrmSyncJob}
    (h : addedCrmSync e = some job) : e = ⟨.addCrmSyncJob job, .ok ()⟩ := by
  unfold addedCrmSync at h
  split at h <;> cases h
  rfl

theorem addedEmail_of_idle {e : Event signature} (h : World.idle e = true) :
    addedEmail e = none := by
  rcases e with ⟨q, _ | a⟩ <;> cases q <;> first | rfl | cases h

theorem addedCrmSync_of_idle {e : Event signature} (h : World.idle e = true) :
    addedCrmSync e = none := by
  rcases e with ⟨q, _ | a⟩ <;> cases q <;> first | rfl | cases h

section Own

/-- Jobs carry the id of a row that the same history inserted. -/
def JobsOwn (h : History) : Prop :=
  (∀ e ∈ h, ∀ job, addedCrmSync e = some job →
    ∃ v, (⟨.insertEnquiry v, .ok job.enquiryId⟩ : Event signature) ∈ h) ∧
  ∀ e ∈ h, ∀ job, addedEmail e = some job →
    ∃ v, (⟨.insertEnquiry v, .ok job.enquiryId⟩ : Event signature) ∈ h

theorem JobsOwn.concat {h : History} (hh : JobsOwn h) {e : Event signature}
    (hcrm : ∀ job, addedCrmSync e = some job →
      ∃ v, (⟨.insertEnquiry v, .ok job.enquiryId⟩ : Event signature) ∈ h)
    (hemail : ∀ job, addedEmail e = some job →
      ∃ v, (⟨.insertEnquiry v, .ok job.enquiryId⟩ : Event signature) ∈ h) :
    JobsOwn (h ++ [e]) := by
  constructor
  · intro e' he' job hjob
    rcases List.mem_append.mp he' with he' | he'
    · obtain ⟨v, hv⟩ := hh.1 e' he' job hjob
      exact ⟨v, List.mem_append_left _ hv⟩
    · obtain rfl := List.mem_singleton.mp he'
      obtain ⟨v, hv⟩ := hcrm job hjob
      exact ⟨v, List.mem_append_left _ hv⟩
  · intro e' he' job hjob
    rcases List.mem_append.mp he' with he' | he'
    · obtain ⟨v, hv⟩ := hh.2 e' he' job hjob
      exact ⟨v, List.mem_append_left _ hv⟩
    · obtain rfl := List.mem_singleton.mp he'
      obtain ⟨v, hv⟩ := hemail job hjob
      exact ⟨v, List.mem_append_left _ hv⟩

theorem JobsOwn.frame {h : History} (hh : JobsOwn h) {q : Operation} (hq : q.isEnqueue = false)
    (r : Except Err q.Reply) : JobsOwn (h ++ [⟨q, r⟩]) := by
  refine hh.concat (fun job hjob => ?_) fun job hjob => ?_
  · cases eq_of_addedCrmSync hjob
    cases hq
  · cases eq_of_addedEmail hjob
    cases hq

/-- A transaction that returned a row has inserted it. -/
theorem insert_mem_of_committed {v : NewEnquiry} {h₀ h : History} {row : EnquiryRecord}
    (htx : TransactionOutcome (InsertOutcome v (opened h₀)) h₀ (.ok (some row)) h) :
    rowKey row = (row.id, v) ∧ (⟨.insertEnquiry v, .ok row.id⟩ : Event signature) ∈ h := by
  cases htx with
  | committed _ h hfn =>
    cases hfn with
    | inserted ids hids id rows _ hrow hkey =>
      have hid : row.id = id := congrArg Prod.fst hkey
      exact ⟨by rw [hkey, hid], by simp [hid]⟩

variable {P : Platform}

theorem JobsOwn.crmSyncAdded {h : History} (hjobs : JobsOwn h) {v : NewEnquiry} {id : ℕ}
    (hinsert : (⟨.insertEnquiry v, .ok id⟩ : Event signature) ∈ h) (jobId : String)
    (r : Except Err Unit) : JobsOwn (h ++ [⟨.addCrmSyncJob ⟨jobId, id⟩, r⟩]) := by
  refine hjobs.concat (fun job hjob => ?_) fun job hjob => by cases eq_of_addedEmail hjob
  cases eq_of_addedCrmSync hjob
  exact ⟨_, hinsert⟩

theorem JobsOwn.emailAdded {h : History} (hjobs : JobsOwn h) {v : NewEnquiry} {row : EnquiryRecord}
    (hinsert : (⟨.insertEnquiry v, .ok row.id⟩ : Event signature) ∈ h) (r : Except Err Unit) :
    JobsOwn (h ++ [⟨.addEmailJob (confirmation row), r⟩]) := by
  refine hjobs.concat (fun job hjob => by cases eq_of_addedCrmSync hjob) fun job hjob => ?_
  cases eq_of_addedEmail hjob
  exact ⟨_, hinsert⟩

/-- The transaction adds no job. -/
theorem quiet_transaction (v : NewEnquiry) :
    (withTransaction (insertPublished v)).Uses fun q : Operation => q.isEnqueue = false := by
  refine uses_withTransaction ?_ (by rintro q (rfl | rfl | rfl | rfl | rfl) <;> rfl)
  unfold insertPublished
  refine uses_bind ((uses_perform _).mpr rfl) fun ids => ?_
  split_ifs
  · exact uses_throw _
  · refine uses_bind ((uses_perform _).mpr rfl) fun _ => ?_
    exact uses_bind ((uses_perform _).mpr rfl) fun _ => uses_pure _

theorem keeps_createEnquiry (input : CreateEnquiryInput P) (ctx : CreateEnquiryContext) :
    (createEnquiry P input ctx).Keeps honest JobsOwn := by
  intro h hh
  have hframe : (withTransaction (insertPublished (newEnquiry P input ctx))).Ensures honest
      JobsOwn (fun _ => JobsOwn) h :=
    (quiet_transaction _).ensures (fun _ _ r hh hq _ => JobsOwn.frame hh hq r) hh
  have hend := ends_withTransaction (ends_insertPublished (newEnquiry P input ctx) (opened h)
    isOpen_opened)
  unfold createEnquiry
  rw [ensures_catching, bind_eq, ensures_bind]
  refine ((hframe.and hend).weaken (fun _ _ _ hr => hr) fun _ hinv => hinv.1).mono
    fun o h hpost => ?_
  cases o with
  | error err => exact hpost.1
  | ok row? =>
    cases row? with
    | none => exact hpost.1
    | some row =>
      obtain ⟨hjobs, htx⟩ := hpost
      have hinsert := (insert_mem_of_committed htx).2
      rw [andThen_ok]
      simp only
      rw [bind_eq, ensures_bind]
      refine ensures_perform.mpr fun r _ => ?_
      have hcrm := hjobs.crmSyncAdded hinsert ("crm-sync-" ++ natToString row.id) r
      refine ⟨hcrm, ?_⟩
      cases r with
      | error e => exact hcrm
      | ok a =>
        rw [andThen_ok, bind_eq, ensures_bind]
        refine ensures_perform.mpr fun r _ => ?_
        have hemail := hcrm.emailAdded (List.mem_append_left _ hinsert) r
        refine ⟨hemail, ?_⟩
        cases r <;> exact hemail

theorem keeps_program (call : Call P) : (program P call).Keeps honest JobsOwn := by
  cases call with
  | createEnquiry input ctx => exact (keeps_createEnquiry input ctx).bind fun _ => keeps_pure _
  | postEnquiry req route =>
    refine Keeps.bind (keeps_postEnquiry req ?_ ?_ ?_) fun _ => keeps_pure _
    · exact fun h l r hh _ => JobsOwn.frame (q := .rateLimit l) hh rfl r
    · intro h q r hh hq _
      refine hh.frame ?_ r
      cases q <;> first | rfl | exact hq.elim
    · exact fun input _ => keeps_createEnquiry input req.context
  | postCrmWebhook req =>
    refine Keeps.bind (Uses.keeps (uses_postCrmWebhook req) ?_) fun _ => keeps_pure _
    intro h q r hh hq _
    refine hh.frame ?_ r
    cases q <;> first | rfl | exact hq.elim
  | crmSyncJob enquiryId =>
    refine Keeps.bind (Uses.keeps (uses_pushEnquiryToCrm enquiryId) ?_) fun _ => keeps_pure _
    intro h q r hh hq _
    refine hh.frame ?_ r
    cases q <;> first | rfl | exact hq.elim

variable {ι : Type} [DecidableEq ι] {calls : ι → Call P} {c : System ι}

theorem Reachable.jobsOwn (h : Reachable P calls c) (i : ι) : JobsOwn (c.own i) := by
  obtain ⟨now, properties, hrun⟩ := h
  have hnil : JobsOwn [] := by simp [JobsOwn]
  exact (hrun.ensures (fun _ => JobsOwn) (fun _ _ => JobsOwn)
    (obeys_honest calls now properties) i hnil (keeps_program (calls i) [] hnil)).1

end Own

section Queues

variable {P : Platform} {ι : Type} [DecidableEq ι]

/-- What a served operation does to the queues. -/
inductive World.QueueStep (w : World ι) (e : Event signature) (w' : World ι) : Prop where
  | crmSync (job : CrmSyncJob) (he : e = ⟨.addCrmSyncJob job, .ok ()⟩)
      (hw' : w' = w.addCrmSyncJob job)
  | email (job : EmailJob) (he : e = ⟨.addEmailJob job, .ok ()⟩)
      (hw' : w' = { w with emailQueue := w.emailQueue ++ [job] })
  | none (hcrm : addedCrmSync e = none) (hemail : addedEmail e = none)
      (hcrmQueue : w'.crmSyncQueue = w.crmSyncQueue) (hemailQueue : w'.emailQueue = w.emailQueue)

theorem World.Served.queueStep {w w' : World ι} {i : ι} {q : Operation} {r : Except Err q.Reply}
    (h : w.Served P i q r w') : w.QueueStep ⟨q, r⟩ w' := by
  cases h.effect with
  | idle hidle => exact .none (addedCrmSync_of_idle hidle) (addedEmail_of_idle hidle) rfl rfl
  | queued job => exact .crmSync job rfl (w.addCrmSyncJob_eq job).symm
  | mailed job => exact .email job rfl rfl
  | _ => exact .none rfl rfl rfl rfl

theorem World.queues_of_drift {w w' : World ι} {d : Drift ι} (h : World.drift d w = some w') :
    w'.crmSyncQueue = w.crmSyncQueue ∧ w'.emailQueue = w.emailQueue := by
  cases World.drifted_of_drift h <;> exact ⟨rfl, rfl⟩

section Steps

variable {w w' : World ι} {e : Event signature}

omit [DecidableEq ι] in
theorem World.crmSyncQueue_addCrmSyncJob (w : World ι) (job : CrmSyncJob) :
    (w.addCrmSyncJob job).crmSyncQueue =
      if w.crmSyncQueue.any fun x => x.jobId == job.jobId then w.crmSyncQueue
      else w.crmSyncQueue ++ [job] := by
  rw [w.addCrmSyncJob_eq job]

omit [DecidableEq ι] in
theorem World.QueueStep.crmSync_new (h : w.QueueStep e w') {job : CrmSyncJob}
    (hjob : job ∈ w'.crmSyncQueue) :
    job ∈ w.crmSyncQueue ∨ e = ⟨.addCrmSyncJob job, .ok ()⟩ := by
  cases h with
  | crmSync job' he hw' =>
    rw [hw', World.crmSyncQueue_addCrmSyncJob] at hjob
    split_ifs at hjob
    · exact Or.inl hjob
    · rcases List.mem_append.mp hjob with hjob | hjob
      · exact Or.inl hjob
      · rw [List.mem_singleton.mp hjob]
        exact Or.inr he
  | email job' he hw' =>
    rw [hw'] at hjob
    exact Or.inl hjob
  | none hcrm hemail hcrmQueue hemailQueue =>
    rw [hcrmQueue] at hjob
    exact Or.inl hjob

omit [DecidableEq ι] in
theorem World.QueueStep.crmSync_subset (h : w.QueueStep e w') :
    w.crmSyncQueue ⊆ w'.crmSyncQueue := by
  cases h with
  | crmSync job he hw' =>
    rw [hw', World.crmSyncQueue_addCrmSyncJob]
    split_ifs
    · exact List.Subset.refl _
    · exact List.subset_append_left _ _
  | email job he hw' =>
    rw [hw']
    exact List.Subset.refl _
  | none hcrm hemail hcrmQueue hemailQueue =>
    rw [hcrmQueue]
    exact List.Subset.refl _

omit [DecidableEq ι] in
/-- A job that was added is there, or was there before under its id. -/
theorem World.QueueStep.crmSync_there {job : CrmSyncJob}
    (h : w.QueueStep ⟨.addCrmSyncJob job, .ok ()⟩ w') :
    ∃ job' ∈ w'.crmSyncQueue, job'.jobId = job.jobId := by
  cases h with
  | crmSync job' he hw' =>
    cases he
    rw [hw', World.crmSyncQueue_addCrmSyncJob]
    split_ifs with hany
    · obtain ⟨job', hjob', hid⟩ := List.any_eq_true.mp hany
      exact ⟨job', hjob', beq_iff_eq.mp hid⟩
    · exact ⟨job, List.mem_append_right _ (List.mem_singleton_self _), rfl⟩
  | email job' he hw' => cases he
  | none hcrm hemail hcrmQueue hemailQueue => cases hcrm

omit [DecidableEq ι] in
theorem World.QueueStep.crmSync_nodup (h : w.QueueStep e w')
    (hnodup : (w.crmSyncQueue.map CrmSyncJob.jobId).Nodup) :
    (w'.crmSyncQueue.map CrmSyncJob.jobId).Nodup := by
  cases h with
  | crmSync job he hw' =>
    rw [hw', World.crmSyncQueue_addCrmSyncJob]
    split_ifs with hany
    · exact hnodup
    · rw [List.map_append]
      refine List.Nodup.append hnodup (List.nodup_singleton _) ?_
      simp only [List.map_cons, List.map_nil, List.disjoint_singleton, List.mem_map]
      rintro ⟨job', hjob', hid⟩
      exact hany (List.any_eq_true.mpr ⟨job', hjob', beq_iff_eq.mpr hid⟩)
  | email job he hw' =>
    rw [hw']
    exact hnodup
  | none hcrm hemail hcrmQueue hemailQueue =>
    rw [hcrmQueue]
    exact hnodup

omit [DecidableEq ι] in
theorem World.QueueStep.emailQueue_eq (h : w.QueueStep e w') :
    w'.emailQueue = w.emailQueue ++ (addedEmail e).toList := by
  cases h with
  | crmSync job he hw' =>
    rw [hw', w.addCrmSyncJob_eq job, he]
    exact (List.append_nil _).symm
  | email job he hw' =>
    rw [hw', he]
    rfl
  | none hcrm hemail hcrmQueue hemailQueue =>
    rw [hemailQueue, hemail, Option.toList_none, List.append_nil]

end Steps

/-- The queues are the log of the accepted jobs, crm-sync jobs once for each job id. -/
structure QueuesLogged (c : System ι) : Prop where
  crmSync_source : ∀ job ∈ c.world.crmSyncQueue,
    ∃ i, (i, ⟨.addCrmSyncJob job, .ok ()⟩) ∈ c.trace
  crmSync_added : ∀ i job, (i, ⟨.addCrmSyncJob job, .ok ()⟩) ∈ c.trace →
    ∃ job' ∈ c.world.crmSyncQueue, job'.jobId = job.jobId
  crmSync_unique : (c.world.crmSyncQueue.map CrmSyncJob.jobId).Nodup
  emails : c.world.emailQueue = c.trace.filterMap fun x => addedEmail x.2

theorem QueuesLogged.serve_step {c : System ι} (h : QueuesLogged c) {i : ι} {q : Operation}
    {r : Except Err q.Reply} {k : Except Err q.Reply → Promise (Option EnquiryRecord)}
    {w' : World ι} (hserved : c.world.Served P i q r w') :
    QueuesLogged (c.answered i q r k w') := by
  have hstep := hserved.queueStep
  refine ⟨fun job hjob => ?_, fun j job hmem => ?_, hstep.crmSync_nodup h.crmSync_unique, ?_⟩
  · rcases hstep.crmSync_new hjob with hjob | he
    · obtain ⟨j, hj⟩ := h.crmSync_source job hjob
      exact ⟨j, List.mem_append_left _ hj⟩
    · rw [Config.answered_trace, he]
      exact ⟨i, List.mem_append_right _ (List.mem_singleton_self _)⟩
  · rcases List.mem_append.mp hmem with hmem | hmem
    · obtain ⟨job', hjob', hid⟩ := h.crmSync_added j job hmem
      exact ⟨job', hstep.crmSync_subset hjob', hid⟩
    · rw [← (Prod.mk.inj (List.mem_singleton.mp hmem)).2] at hstep
      exact hstep.crmSync_there
  · rw [Config.answered_world, Config.answered_trace, hstep.emailQueue_eq, h.emails,
      List.filterMap_append]
    cases hadded : addedEmail ⟨q, r⟩ <;> simp [hadded]

theorem Reachable.queuesLogged {calls : ι → Call P} {c : System ι} (h : Reachable P calls c) :
    QueuesLogged c := by
  refine h.induct (fun _ _ => ?_) (fun _ _ _ _ _ _ _ hc _ _ hserved => hc.serve_step hserved)
    fun c d w' _ hc hdrift => ?_
  · refine ⟨?_, ?_, List.nodup_nil, rfl⟩
    · exact fun _ h => (List.not_mem_nil h).elim
    · exact fun _ _ h => (List.not_mem_nil h).elim
  · obtain ⟨hcrm, hemail⟩ := World.queues_of_drift hdrift
    refine ⟨?_, ?_, ?_, ?_⟩
    · exact fun job hjob => hc.crmSync_source job (by rwa [← hcrm])
    · intro i job hjob
      change ∃ job' ∈ w'.crmSyncQueue, _
      rw [hcrm]
      exact hc.crmSync_added i job hjob
    · exact hcrm ▸ hc.crmSync_unique
    · exact hemail.trans hc.emails

end Queues

end PropertyPlatform
