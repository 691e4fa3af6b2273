import PropertyPlatform.Jobs

/-!
# When creating an enquiry is all-or-nothing

The transaction is atomic, the two jobs are added after it. A call that is told of a
rejected job throws although its row is committed. A call whose rollback is rejected
gives its connection back with the transaction open, and whoever commits that
transaction leaves the row. Otherwise the call leaves nothing or has done everything.
-/

namespace PropertyPlatform

open Js Async Program

section Histories

variable {v : NewEnquiry} {h₀ h : History} {row : EnquiryRecord} {err : Err}

/-- The row a transaction returned is in the committed part of the ledger. -/
theorem committed_of_transaction
    (htx : TransactionOutcome (InsertOutcome v (opened h₀)) h₀ (.ok (some row)) h) :
    rowKey row ∈ (ledger h).committed := by
  cases htx with
  | committed _ h hfn =>
    cases hfn with
    | inserted ids hids id rows _ hrow hkey =>
      simp [opened, book, actionOf, Ledger.act, hkey]

/-- A transaction that threw has committed nothing. -/
theorem committed_nil_of_transaction (hempty : ledger h₀ = .empty)
    (htx : TransactionOutcome (InsertOutcome v (opened h₀)) h₀ (.error err) h) :
    (ledger h).committed = [] := by
  have haborted : ∀ err h, Aborted (InsertOutcome v (opened h₀)) h₀ err h →
      (ledger h).committed = [] := by
    intro err h hcause
    cases hcause with
    | notBegun n hn => simp [book, actionOf, hempty, Ledger.empty]
    | threw err h hfn =>
      cases hfn <;> simp [opened, book, actionOf, Ledger.act, hempty, Ledger.empty]
    | notCommitted a n hn h hfn =>
      cases hfn
      simp [opened, book, actionOf, Ledger.act, hempty, Ledger.empty]
  cases htx with
  | unavailable n hn => simp [book, actionOf, hempty, Ledger.empty]
  | rolledBack err h hcause => simp [book, actionOf, Ledger.act, haborted err h hcause]
  | rollbackFailed err n hn h hcause => simp [book, actionOf, Ledger.act, haborted err h hcause]

/-- A transaction that returned has given up nothing. -/
theorem abandoned_nil_of_transaction {row? : Option EnquiryRecord}
    (hempty : ledger h₀ = .empty)
    (htx : TransactionOutcome (InsertOutcome v (opened h₀)) h₀ (.ok row?) h) :
    (ledger h).abandoned = [] := by
  cases htx with
  | committed _ h hfn =>
    cases hfn with
    | inserted ids hids id rows _ hrow hkey =>
      simp [opened, book, actionOf, Ledger.act, hempty, Ledger.empty]

/-- No job is mentioned before the transaction is over. -/
theorem not_enqueue_of_transaction {o : Except Err (Option EnquiryRecord)}
    (hquiet : ∀ e ∈ h₀, e.request.isEnqueue = false)
    (htx : TransactionOutcome (InsertOutcome v (opened h₀)) h₀ o h) :
    ∀ e ∈ h, e.request.isEnqueue = false := by
  have hinsert : ∀ o h, InsertOutcome v (opened h₀) o h →
      ∀ e ∈ h, e.request.isEnqueue = false := by
    intro o h hfn
    cases hfn <;> simp only [opened, List.forall_mem_append, List.forall_mem_singleton]
    case lookupFailed => exact ⟨⟨⟨hquiet, rfl⟩, rfl⟩, rfl⟩
    case notPublished => exact ⟨⟨⟨hquiet, rfl⟩, rfl⟩, rfl⟩
    case insertFailed => exact ⟨⟨⟨⟨hquiet, rfl⟩, rfl⟩, rfl⟩, rfl⟩
    case readFailed => exact ⟨⟨⟨⟨⟨hquiet, rfl⟩, rfl⟩, rfl⟩, rfl⟩, rfl⟩
    case inserted => exact ⟨⟨⟨⟨⟨hquiet, rfl⟩, rfl⟩, rfl⟩, rfl⟩, rfl⟩
  have haborted : ∀ err h, Aborted (InsertOutcome v (opened h₀)) h₀ err h →
      ∀ e ∈ h, e.request.isEnqueue = false := by
    intro err h hcause
    cases hcause with
    | notBegun n hn =>
      simp only [List.forall_mem_append, List.forall_mem_singleton]
      exact ⟨⟨hquiet, rfl⟩, rfl⟩
    | threw err h hfn => exact hinsert _ _ hfn
    | notCommitted a n hn h hfn =>
      simp only [List.forall_mem_append, List.forall_mem_singleton]
      exact ⟨hinsert _ _ hfn, rfl⟩
  cases htx with
  | unavailable n hn =>
    simp only [List.forall_mem_append, List.forall_mem_singleton]
    exact ⟨hquiet, rfl⟩
  | rolledBack err h hcause =>
    simp only [List.forall_mem_append, List.forall_mem_singleton]
    exact ⟨⟨haborted _ _ hcause, rfl⟩, rfl⟩
  | rollbackFailed err n hn h hcause =>
    simp only [List.forall_mem_append, List.forall_mem_singleton]
    exact ⟨⟨haborted _ _ hcause, rfl⟩, rfl⟩
  | committed a h hfn =>
    simp only [List.forall_mem_append, List.forall_mem_singleton]
    exact ⟨⟨hinsert _ _ hfn, rfl⟩, rfl⟩

/-- What a call that returned knows of its own steps. -/
theorem of_created (hquiet : ∀ e ∈ h₀, e.request.isEnqueue = false)
    (hout : CreateOutcome v h₀ (.ok row) h) :
    rowKey row ∈ (ledger h).committed ∧
      (⟨.addCrmSyncJob ⟨"crm-sync-" ++ natToString row.id, row.id⟩, .ok ()⟩ :
        Event signature) ∈ h ∧
      h.filterMap addedEmail = [confirmation row] ∧
      ∀ q e, q.isEnqueue = true → (⟨q, .error e⟩ : Event signature) ∉ h := by
  cases hout with
  | created _ h htx =>
    have hsilent := not_enqueue_of_transaction hquiet htx
    have hemails : h.filterMap addedEmail = [] := by
      refine List.filterMap_eq_nil_iff.mpr fun e he => ?_
      cases hadded : addedEmail e with
      | none => rfl
      | some job =>
        rw [eq_of_addedEmail hadded] at he
        cases hsilent _ he
    refine ⟨?_, ?_, ?_, ?_⟩
    · simpa [book, actionOf] using committed_of_transaction htx
    · simp
    · rw [List.filterMap_append, List.filterMap_append, hemails]
      rfl
    · intro q e hq hmem
      simp only [List.mem_append, List.mem_singleton] at hmem
      rcases hmem with (hmem | heq) | heq
      · exact absurd (hsilent _ hmem) (by simp [hq])
      · cases heq
      · cases heq

theorem abandoned_nil_of_created (hempty : ledger h₀ = .empty)
    (hout : CreateOutcome v h₀ (.ok row) h) : (ledger h).abandoned = [] := by
  cases hout with
  | created _ h htx => simpa [book, actionOf] using abandoned_nil_of_transaction hempty htx

/-- A call that threw without a rejected job has committed nothing. -/
theorem committed_nil_of_failed (hempty : ledger h₀ = .empty)
    (hout : CreateOutcome v h₀ (.error err) h)
    (henqueue : ∀ q e, q.isEnqueue = true → (⟨q, .error e⟩ : Event signature) ∉ h) :
    (ledger h).committed = [] := by
  cases hout with
  | failed err h htx => exact committed_nil_of_transaction hempty htx
  | crmSyncRejected row n h htx =>
    exact absurd (List.mem_append_right _ (List.mem_singleton_self _)) (henqueue _ _ rfl)
  | emailRejected row n h htx =>
    exact absurd (List.mem_append_right _ (List.mem_singleton_self _)) (henqueue _ _ rfl)

/-- A call that threw over a rejected job has a committed row. -/
theorem committed_of_failed (hquiet : ∀ e ∈ h₀, e.request.isEnqueue = false)
    (hout : CreateOutcome v h₀ (.error err) h) {q : Operation} {e : Err}
    (hq : q.isEnqueue = true) (hmem : (⟨q, .error e⟩ : Event signature) ∈ h) :
    ∃ row : EnquiryRecord, rowKey row ∈ (ledger h).committed := by
  cases hout with
  | failed err h htx => exact absurd (not_enqueue_of_transaction hquiet htx _ hmem) (by simp [hq])
  | crmSyncRejected row n h htx =>
    exact ⟨row, by simpa [book, actionOf] using committed_of_transaction htx⟩
  | emailRejected row n h htx =>
    exact ⟨row, by simpa [book, actionOf] using committed_of_transaction htx⟩

end Histories

section Runs

variable {P : Platform} {ι : Type} [DecidableEq ι] {calls : ι → Call P} {c : System ι} {i : ι}
variable {input : CreateEnquiryInput P} {ctx : CreateEnquiryContext}

/-- A call of `createEnquiry` that is over has ended in one of the listed ways. -/
theorem Reachable.createOutcome (h : Reachable P calls c)
    (hi : calls i = .createEnquiry input ctx) :
    (∀ row?, c.program i = .pure row? → ∃ row, row? = some row ∧
      CreateOutcome (newEnquiry P input ctx) [] (.ok row) (c.own i)) ∧
    ∀ err, c.program i = .throw err →
      CreateOutcome (newEnquiry P input ctx) [] (.error err) (c.own i) := by
  obtain ⟨now, properties, hrun⟩ := h
  let post : Except Err (Option EnquiryRecord) → History → Prop := fun o h =>
    match o with
    | .ok row? => ∃ row, row? = some row ∧ CreateOutcome (newEnquiry P input ctx) [] (.ok row) h
    | .error err => CreateOutcome (newEnquiry P input ctx) [] (.error err) h
  have hprogram : Ends (program P (calls i)) post [] := by
    rw [hi]
    refine ensures_bind.mpr ((ends_createEnquiry input ctx).mono fun o h ho => ?_)
    cases o with
    | ok row => exact ⟨row, rfl, ho⟩
    | error err => exact ho
  have hend := (hrun.ensures (fun _ _ => True) (fun _ => post)
    (obeys_honest calls now properties) i trivial hprogram).2
  constructor
  · intro row? hrow
    rw [hrow] at hend
    exact hend
  · intro err herr
    rw [herr] at hend
    exact hend

def Finished (c : System ι) (i : ι) : Prop :=
  (∃ row?, c.program i = .pure row?) ∨ ∃ err, c.program i = .throw err

/-- A returned row is committed and has one job in each queue; a call that threw has no
committed row. -/
def AllOrNothing (c : System ι) (i : ι) : Prop :=
  match c.program i with
  | .pure (some row) =>
    (∃ stored ∈ c.world.enquiryRows, rowKey stored = rowKey row) ∧
      (c.world.crmSyncQueue.filter fun job => job.enquiryId = row.id).length = 1 ∧
      (c.world.emailQueue.filter fun job =>
        job.template = .enquiryConfirmation ∧ job.enquiryId = row.id).length = 1
  | .throw _ =>
    ∀ stored ∈ c.world.enquiryRows, ∀ v, (i, ⟨.insertEnquiry v, .ok stored.id⟩) ∉ c.trace
  | _ => True

/-- Only the call that inserted a row can have that row in its ledger. -/
theorem Consistent.inserter (hc : Consistent c) {stored : EnquiryRecord}
    (hstored : stored ∈ c.world.enquiryRows) {v : NewEnquiry}
    (hinsert : (i, ⟨.insertEnquiry v, .ok stored.id⟩) ∈ c.trace) :
    rowKey stored ∈ (ledger (c.own i)).committed ∨
      rowKey stored ∈ (ledger (c.own i)).abandoned := by
  obtain ⟨j, hj⟩ := hc.represents.committed_source stored (Table.mem_committed.mp hstored)
  have hmem := Config.mem_own.mp (mem_of_mem_ledger (h := c.own j) (Or.inr hj))
  obtain ⟨rfl, -⟩ := hc.inserted_once i j v _ stored.id hinsert hmem
  exact hj

/-- No row that the call gave up with its transaction still open has been committed since. -/
def GivenUpUncommitted (c : System ι) (i : ι) : Prop :=
  ∀ key ∈ (ledger (c.own i)).abandoned, ∀ stored ∈ c.world.enquiryRows, rowKey stored ≠ key

/-- The id of a crm-sync job is made of the id of its enquiry. -/
theorem Reachable.crmSync_named (h : Reachable P calls c) {job : CrmSyncJob}
    (hjob : job ∈ c.world.crmSyncQueue) :
    0 < job.enquiryId ∧ job.jobId = "crm-sync-" ++ natToString job.enquiryId := by
  obtain ⟨j, hj⟩ := h.queuesLogged.crmSync_source job hjob
  obtain ⟨v, hv⟩ := (h.jobsOwn j).1 _ (Config.mem_own.mpr hj) job rfl
  refine ⟨(h.consistent.inserted_below j v _ (Config.mem_own.mp hv)).1, ?_⟩
  have hfoot := h.footprint_of_mem hj
  cases hcall : calls j <;> rw [hcall] at hfoot
  · exact hfoot
  · cases hfoot with
    | limiter l hq => cases hq
    | idempotency hq => exact hq.elim
    | create input hvalid hq => exact hq
  · exact hfoot.elim
  · exact hfoot.elim

theorem one_crmSync_job (h : Reachable P calls c) {row : EnquiryRecord} {v : NewEnquiry}
    (hinsert : (i, ⟨.insertEnquiry v, .ok row.id⟩) ∈ c.trace)
    (hcrm : (i, ⟨.addCrmSyncJob ⟨"crm-sync-" ++ natToString row.id, row.id⟩, .ok ()⟩) ∈ c.trace) :
    (c.world.crmSyncQueue.filter fun job => job.enquiryId = row.id).length = 1 := by
  have hpos : 0 < row.id := (h.consistent.inserted_below i v _ hinsert).1
  have hsame : ∀ job ∈ c.world.crmSyncQueue, job.enquiryId = row.id ↔
      job.jobId = "crm-sync-" ++ natToString row.id := by
    intro job hjob
    obtain ⟨hjobPos, hid⟩ := h.crmSync_named hjob
    constructor
    · intro heq
      rw [hid, heq]
    · intro heq
      rw [hid] at heq
      exact natToString_injective hjobPos hpos (String.append_right_inj _ |>.mp heq)
  obtain ⟨job, hjob, hid⟩ := h.queuesLogged.crmSync_added i _ hcrm
  have hfilter : (c.world.crmSyncQueue.filter fun job' => job'.enquiryId = row.id) =
      c.world.crmSyncQueue.filter fun job' => job'.jobId == job.jobId := by
    refine List.filter_congr fun job' hjob' => ?_
    rw [hid]
    simpa [Bool.beq_eq_decide_eq] using hsame job' hjob'
  rw [hfilter, ← List.countP_eq_length_filter]
  have hcount : (c.world.crmSyncQueue.map CrmSyncJob.jobId).count job.jobId = 1 :=
    List.count_eq_one_of_mem h.queuesLogged.crmSync_unique (List.mem_map_of_mem hjob)
  rw [List.count, List.countP_map] at hcount
  exact hcount

theorem one_email_job (h : Reachable P calls c) {row : EnquiryRecord} {v : NewEnquiry}
    (hinsert : (i, ⟨.insertEnquiry v, .ok row.id⟩) ∈ c.trace)
    (hemail : (c.own i).filterMap addedEmail = [confirmation row]) :
    (c.world.emailQueue.filter fun job =>
      job.template = .enquiryConfirmation ∧ job.enquiryId = row.id).length = 1 := by
  let carries : EmailJob → Bool := fun job =>
    decide (job.template = .enquiryConfirmation ∧ job.enquiryId = row.id)
  have honly : ∀ x ∈ c.trace, ((addedEmail x.2).filter carries).isSome = true → x.1 = i := by
    rintro ⟨j, e⟩ hx hsome
    obtain ⟨job, hjob⟩ := Option.isSome_iff_exists.mp hsome
    obtain ⟨hadded, hcond⟩ := Option.filter_eq_some_iff.mp hjob
    simp only [carries, decide_eq_true_eq] at hcond
    obtain ⟨v', hv'⟩ := (h.jobsOwn j).2 e (Config.mem_own.mpr hx) job hadded
    rw [hcond.2] at hv'
    exact (h.consistent.inserted_once j i v' v _ (Config.mem_own.mp hv') hinsert).1
  rw [h.queuesLogged.emails, List.filter_filterMap,
    Config.filterMap_trace (fun e => (addedEmail e).filter carries) honly,
    ← List.filter_filterMap, hemail]
  simp [carries, confirmation]

/-- The jobs of a committed row are the ones its own call added. -/
theorem one_job_each (h : Reachable P calls c) {row : EnquiryRecord} {v : NewEnquiry}
    (hinsert : (i, ⟨.insertEnquiry v, .ok row.id⟩) ∈ c.trace)
    (hcrm : (i, ⟨.addCrmSyncJob ⟨"crm-sync-" ++ natToString row.id, row.id⟩, .ok ()⟩) ∈ c.trace)
    (hemail : (c.own i).filterMap addedEmail = [confirmation row]) :
    (c.world.crmSyncQueue.filter fun job => job.enquiryId = row.id).length = 1 ∧
      (c.world.emailQueue.filter fun job =>
        job.template = .enquiryConfirmation ∧ job.enquiryId = row.id).length = 1 :=
  ⟨one_crmSync_job h hinsert hcrm, one_email_job h hinsert hemail⟩

/-- `createEnquiry` is all-or-nothing exactly when no job of it was rejected and nothing it
gave up was committed. -/
theorem createEnquiry_allOrNothing_iff (h : Reachable P calls c)
    (hi : calls i = .createEnquiry input ctx) (hfinished : Finished c i) :
    AllOrNothing c i ↔
      (∀ q e, q.isEnqueue = true → (i, ⟨q, .error e⟩) ∉ c.trace) ∧ GivenUpUncommitted c i := by
  have hc := h.consistent
  obtain ⟨hreturned, hthrew⟩ := h.createOutcome hi
  have hquiet : ∀ e ∈ ([] : History), e.request.isEnqueue = false := by simp
  unfold AllOrNothing
  rcases hfinished with ⟨row?, hrow⟩ | ⟨err, herr⟩
  · obtain ⟨row, rfl, hout⟩ := hreturned row? hrow
    obtain ⟨hcommitted, hcrm, hemail, hnone⟩ := of_created hquiet hout
    have hinsert := mem_of_mem_ledger (Or.inr (Or.inl hcommitted))
    have habandoned := abandoned_nil_of_created rfl hout
    simp only [hrow]
    apply iff_of_true
    · refine ⟨?_, one_job_each h (Config.mem_own.mp hinsert) (Config.mem_own.mp hcrm) hemail⟩
      obtain ⟨stored, hstored, hkey⟩ := hc.represents.committed_stored i _ hcommitted
      exact ⟨stored, Table.mem_committed.mpr hstored, hkey⟩
    · constructor
      · exact fun q e hq hmem => hnone q e hq (Config.mem_own.mpr hmem)
      · intro key hkey
        rw [habandoned] at hkey
        cases hkey
  · have hout := hthrew err herr
    simp only [herr]
    constructor
    · intro hnothing
      constructor
      · intro q e hq hmem
        obtain ⟨row, hrow⟩ := committed_of_failed hquiet hout hq (Config.mem_own.mpr hmem)
        obtain ⟨stored, hstored, hkey⟩ := hc.represents.committed_stored i _ hrow
        apply hnothing stored (Table.mem_committed.mpr hstored) row.toNewEnquiry
        have hid : stored.id = row.id := congrArg Prod.fst hkey
        rw [hid]
        exact Config.mem_own.mp (mem_of_mem_ledger (Or.inr (Or.inl hrow)))
      · rintro _ hkey stored hstored rfl
        exact hnothing stored hstored stored.toNewEnquiry
          (Config.mem_own.mp (mem_of_mem_ledger (Or.inr (Or.inr hkey))))
    · rintro ⟨hnone, hgivenUp⟩ stored hstored v hinsert
      have hcommitted := committed_nil_of_failed rfl hout
        fun q e hq hmem => hnone q e hq (Config.mem_own.mp hmem)
      rcases hc.inserter hstored hinsert with hmem | hmem
      · rw [hcommitted] at hmem
        cases hmem
      · exact hgivenUp _ hmem stored hstored rfl

end Runs

section Samples

def identicalCalls : ℕ → Call .sample := fun _ => .createEnquiry sampleInput sampleContext

/-- An undisturbed call does everything. -/
theorem createEnquiry_allOrNothing_sample :
    AllOrNothing (sampleRun identicalCalls (undisturbed 0 9)) 0 := by
  have hquiet := not_mem_of_undisturbed (c := sampleRun identicalCalls (undisturbed 0 9)) (by rfl)
  have hnone : (ledger ((sampleRun identicalCalls (undisturbed 0 9)).own 0)).abandoned = [] := by
    rfl
  have hgivenUp : GivenUpUncommitted (sampleRun identicalCalls (undisturbed 0 9)) 0 := by
    intro key hkey
    rw [hnone] at hkey
    cases hkey
  exact (createEnquiry_allOrNothing_iff (reachable_sampleRun (by rfl)) rfl
    (Or.inl ⟨_, by rfl⟩)).mpr ⟨fun q e _ => hquiet 0 q e, hgivenUp⟩

/-- What Redis answers a write when its memory is used up. -/
def outOfMemory : NativeError :=
  ⟨"OOM command not allowed when used memory > 'maxmemory'.", none, none⟩

def Operation.isRollback : Operation → Bool
  | .rollback => true
  | _ => false

/-- A job is rejected after the commit: the call throws, its row stays, the queues are
empty, and the identical retry is answered with a conflict. -/
theorem createEnquiry_not_allOrNothing :
    let c := sampleRun identicalCalls
      (undisturbed 0 7 ++ [.serve 0 (.rejects outOfMemory)] ++ undisturbed 1 6)
    Reachable .sample identicalCalls c ∧ c.program 0 = .throw (.native outOfMemory) ∧
      (∀ e, (0, ⟨.rollback, .error e⟩) ∉ c.trace) ∧ ¬ AllOrNothing c 0 ∧
      c.program 1 = .throw (conflictError duplicateMessage) ∧
      c.world.crmSyncQueue = [] ∧ c.world.emailQueue = [] := by
  intro c
  have hthrew : c.program 0 = .throw (.native outOfMemory) := by rfl
  have htrace : ∀ e, (0, ⟨.rollback, .error e⟩) ∉ c.trace := by
    intro e he
    have hnone : (c.trace.all
        fun x => !(isRejection x.2 && x.2.request.isRollback)) = true := by rfl
    cases List.all_eq_true.mp hnone _ he
  refine ⟨reachable_sampleRun (by rfl), hthrew, htrace, ?_, by rfl, by rfl, by rfl⟩
  unfold AllOrNothing
  rw [hthrew]
  intro hnothing
  have hrow : ∃ stored ∈ c.world.enquiryRows, stored.id = 1 :=
    ⟨_, List.mem_of_getElem? (i := 0) rfl, by rfl⟩
  obtain ⟨stored, hstored, hid⟩ := hrow
  refine hnothing stored hstored (newEnquiry .sample sampleInput sampleContext) ?_
  rw [hid]
  exact List.mem_of_getElem? (i := 3) rfl

end Samples

end PropertyPlatform
