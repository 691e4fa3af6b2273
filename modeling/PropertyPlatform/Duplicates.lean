import PropertyPlatform.AllOrNothing

/-!
# No enquiry is stored twice

The fingerprint is a hash of the normalized content, and its unique index decides
between concurrent inserts. A conflict is reported exactly for content that is
committed.
-/

namespace PropertyPlatform

open Js Async Program

def EnquiryRecord.content (P : Platform) (row : EnquiryRecord) : Content :=
  normalize P row.email row.phone row.propertyId row.message

section Persistence

variable {P : Platform} {ι : Type} [DecidableEq ι] {calls : ι → Call P} {c c' : System ι}

theorem World.TableStep.persists {w w' : World ι} {i : ι} {e : Event signature}
    (h : w.TableStep i e w') {row : EnquiryRecord} (hrow : row ∈ w.enquiryRows) :
    ∃ row' ∈ w'.enquiryRows, rowKey row' = rowKey row := by
  cases h with
  | action a haction htable =>
    exact ⟨row, by rw [World.enquiryRows, htable]; exact Table.committed_act a hrow, rfl⟩
  | insert v he hfits hfresh hw' =>
    exact ⟨row, by rw [hw']; exact Table.committed_act (.insert (w.newRow v)) hrow, rfl⟩
  | update u hq hunlocked hfound hw' =>
    refine ⟨row.apply (w.now / 1000) u, ?_, World.rowKey_apply _ _ _⟩
    rw [hw', World.enquiryRows, Table.committed_update]
    exact List.mem_map_of_mem hrow
  | none haction htable => exact ⟨row, by rwa [World.enquiryRows, htable], rfl⟩

theorem World.drift_persists {w w' : World ι} {d : Drift ι} (h : World.drift d w = some w')
    {row : EnquiryRecord} (hrow : row ∈ w.enquiryRows) : row ∈ w'.enquiryRows := by
  cases World.drifted_of_drift h with
  | settled commits id => exact Table.committed_settle commits _ hrow
  | crashed i => exact Table.committed_act .discard hrow
  | _ => exact hrow

theorem step_persists (h : Step (server P) c c') {row : EnquiryRecord}
    (hrow : row ∈ c.world.enquiryRows) :
    ∃ row' ∈ c'.world.enquiryRows, rowKey row' = rowKey row := by
  cases h with
  | serve hprogram hserve => exact (World.served_of_serve hserve).2.tableStep.persists hrow
  | drift hdrift => exact ⟨row, World.drift_persists hdrift hrow, rfl⟩

/-- A committed enquiry stays committed. -/
theorem run_persists (h : Run (server P) c c') {row : EnquiryRecord}
    (hrow : row ∈ c.world.enquiryRows) :
    ∃ row' ∈ c'.world.enquiryRows, rowKey row' = rowKey row := by
  induction h with
  | refl => exact ⟨row, hrow, rfl⟩
  | tail _ hstep ih =>
    obtain ⟨row₁, hrow₁, hkey₁⟩ := ih
    obtain ⟨row₂, hrow₂, hkey₂⟩ := step_persists hstep hrow₁
    exact ⟨row₂, hrow₂, hkey₂.trans hkey₁⟩

end Persistence

section Content

variable {P : Platform} {ι : Type} [DecidableEq ι] {calls : ι → Call P} {c c' : System ι}

/-- Every insert of a run inserts what some validated input says. -/
theorem Reachable.inserted_input (h : Reachable P calls c) {i : ι} {v : NewEnquiry}
    {r : Except Err ℕ} (hmem : (i, ⟨.insertEnquiry v, r⟩) ∈ c.trace) :
    ∃ (input : CreateEnquiryInput P) (ctx : CreateEnquiryContext), v = newEnquiry P input ctx := by
  have hfoot := h.footprint_of_mem hmem
  cases hcall : calls i <;> rw [hcall] at hfoot
  · exact ⟨_, _, hfoot⟩
  · cases hfoot with
    | limiter l hq => cases hq
    | idempotency hq => exact hq.elim
    | create input hvalid hq => exact ⟨input, _, hq⟩
  · exact hfoot.elim
  · exact hfoot.elim

theorem Reachable.row_input (h : Reachable P calls c) {row : EnquiryRecord}
    (hrow : row ∈ c.world.enquiries.contents) : ∃ input : CreateEnquiryInput P,
      row.content P = input.content ∧ row.fingerprint = P.sha256 input.content.joined := by
  obtain ⟨i, hi⟩ := h.consistent.inserted hrow
  obtain ⟨input, ctx, hv⟩ := h.inserted_input hi
  exact ⟨input, by rw [EnquiryRecord.content, hv]; rfl, by rw [hv]; rfl⟩

/-- No two rows have the same normalized content. -/
theorem Reachable.content_nodup (h : Reachable P calls c) :
    (c.world.enquiryRows.map (EnquiryRecord.content P)).Nodup := by
  have hprint : (c.world.enquiryRows.map fun row => row.fingerprint).Nodup :=
    h.consistent.fingerprints_unique.sublist ((Table.committed_sublist _).map _)
  have hhash : (c.world.enquiryRows.map fun row => row.fingerprint) =
      (c.world.enquiryRows.map (EnquiryRecord.content P)).map fun x => P.sha256 x.joined := by
    rw [List.map_map]
    refine List.map_congr_left fun row hrow => ?_
    obtain ⟨input, hcontent, hfingerprint⟩ :=
      h.row_input (Table.mem_contents_of_committed hrow)
    rw [Function.comp_apply, hcontent, hfingerprint]
  rw [hhash] at hprint
  exact hprint.of_map _

variable {i j : ι} {input input' : CreateEnquiryInput P} {ctx ctx' : CreateEnquiryContext}

/-- A call that returned has committed a row of its content. -/
theorem Reachable.returned_row (h : Reachable P calls c)
    (hi : calls i = .createEnquiry input ctx) {row? : Option EnquiryRecord}
    (hdone : c.program i = .pure row?) : ∃ stored ∈ c.world.enquiryRows,
      stored.content P = input.content ∧
        (i, ⟨.insertEnquiry (newEnquiry P input ctx), .ok stored.id⟩) ∈ c.trace := by
  obtain ⟨row, -, hout⟩ := (h.createOutcome hi).1 row? hdone
  obtain ⟨hcommitted, -⟩ := of_created (by simp) hout
  have hinsert := Config.mem_own.mp (mem_of_mem_ledger (Or.inr (Or.inl hcommitted)))
  obtain ⟨stored, hstored, hkey⟩ := h.consistent.represents.committed_stored i _ hcommitted
  have hvalues : row.toNewEnquiry = newEnquiry P input ctx := by
    have hfoot := h.footprint_of_mem hinsert
    rw [hi] at hfoot
    exact hfoot
  have hstoredValues : stored.toNewEnquiry = newEnquiry P input ctx :=
    (congrArg Prod.snd hkey).trans hvalues
  have hid : stored.id = row.id := congrArg Prod.fst hkey
  refine ⟨stored, Table.mem_committed.mpr hstored, ?_, ?_⟩
  · rw [EnquiryRecord.content, hstoredValues]
    rfl
  · rw [hid]
    rw [rowKey, hvalues] at hinsert
    exact hinsert

/-- Of the calls with one content at most one returns a row. -/
theorem Reachable.returned_once (h : Reachable P calls c)
    (hi : calls i = .createEnquiry input ctx) (hj : calls j = .createEnquiry input' ctx')
    (hcontent : input.content = input'.content) {row? row?' : Option EnquiryRecord}
    (hdone : c.program i = .pure row?) (hdone' : c.program j = .pure row?') : i = j := by
  obtain ⟨stored, hstored, hc, hinsert⟩ := h.returned_row hi hdone
  obtain ⟨stored', hstored', hc', hinsert'⟩ := h.returned_row hj hdone'
  have hsame : stored = stored' :=
    List.inj_on_of_nodup_map h.content_nodup hstored hstored' (hc.trans (hcontent.trans hc'.symm))
  rw [← hsame] at hinsert'
  exact (h.consistent.inserted_once i j _ _ _ hinsert hinsert').1

end Content

section Histories

variable {v : NewEnquiry} {h : History}

theorem mapDuplicate_native {n : NativeError} (hn : n.isDuplicateEntry = false) :
    mapDuplicate (.native n) = .native n := by
  simp [mapDuplicate, Err.isDuplicateEntry, hn]

theorem mapDuplicate_duplicate {n : NativeError} (hn : n.isDuplicateEntry = true) :
    mapDuplicate (.native n) = conflictError duplicateMessage := by
  simp [mapDuplicate, Err.isDuplicateEntry, hn]

theorem duplicate_of_conflict {n : NativeError}
    (h : mapDuplicate (.native n) = conflictError duplicateMessage) :
    n.isDuplicateEntry = true := by
  cases hn : n.isDuplicateEntry with
  | true => rfl
  | false =>
    rw [mapDuplicate_native hn] at h
    cases h

/-- A conflict comes from a rejected insert, or from a queue that uses MySQL's code. -/
theorem rejected_of_conflict {err : Err} (hout : CreateOutcome v [] (.error err) h)
    (herr : err = conflictError duplicateMessage) :
    (∃ n, n.isDuplicateEntry = true ∧
      (⟨.insertEnquiry v, .error (.native n)⟩ : Event signature) ∈ h ∧
      ∀ v' id, (⟨.insertEnquiry v', .ok id⟩ : Event signature) ∉ h) ∨
    ∃ q n, q.isEnqueue = true ∧ n.isDuplicateEntry = true ∧
      (⟨q, .error (.native n)⟩ : Event signature) ∈ h := by
  cases hout with
  | crmSyncRejected row n h htx =>
    exact Or.inr ⟨_, n, rfl, duplicate_of_conflict herr,
      List.mem_append_right _ (List.mem_singleton_self _)⟩
  | emailRejected row n h htx =>
    exact Or.inr ⟨_, n, rfl, duplicate_of_conflict herr,
      List.mem_append_right _ (List.mem_singleton_self _)⟩
  | failed err h htx =>
    have hnative : ∀ n : NativeError, n.isDuplicateEntry = false → err ≠ .native n := by
      rintro n hn rfl
      rw [mapDuplicate_native hn] at herr
      cases herr
    cases htx with
    | unavailable n hn => exact absurd rfl (hnative n hn)
    | rollbackFailed err n hn h hcause => exact absurd rfl (hnative n hn)
    | rolledBack err h hcause =>
      cases hcause with
      | notBegun n hn => exact absurd rfl (hnative n hn)
      | notCommitted a n hn h hfn => exact absurd rfl (hnative n hn)
      | threw err h hfn =>
        cases hfn with
        | lookupFailed n hn => exact absurd rfl (hnative n hn)
        | readFailed ids hids id n hn => exact absurd rfl (hnative n hn)
        | notPublished =>
          simp [mapDuplicate, notPublished, notFoundError, conflictError,
            Err.isDuplicateEntry] at herr
        | insertFailed ids hids n =>
          refine Or.inl ⟨n, duplicate_of_conflict herr, by simp, ?_⟩
          intro v' id hmem
          simp [opened] at hmem

/-- A call whose only rejection is the duplicate insert ends with the conflict. -/
theorem conflict_of_rejected {o : Except Err EnquiryRecord} (hout : CreateOutcome v [] o h)
    (hnoInsert : ∀ v' id, (⟨.insertEnquiry v', .ok id⟩ : Event signature) ∉ h)
    (hundisturbed : ∀ q e, (⟨q, .error e⟩ : Event signature) ∈ h →
      ∃ v' n, q = .insertEnquiry v' ∧ e = .native n ∧ n.isDuplicateEntry = true)
    (hpublished : ∃ ids, ids ≠ [] ∧
      (⟨.selectPublishedProperty v.propertyId, .ok ids⟩ : Event signature) ∈ h) :
    o = .error (conflictError duplicateMessage) ∧ ∀ e ∈ h, e.request.isEnqueue = false := by
  have hreturned : ∀ row h', (∀ x ∈ h', x ∈ h) →
      ¬ TransactionOutcome (InsertOutcome v (opened [])) [] (.ok (some row)) h' :=
    fun row h' hsub htx => hnoInsert _ _ (hsub _ (insert_mem_of_committed htx).2)
  cases hout with
  | created row h htx => exact absurd htx (hreturned row h fun x hx => by simp [hx])
  | crmSyncRejected row n h htx => exact absurd htx (hreturned row h fun x hx => by simp [hx])
  | emailRejected row n h htx => exact absurd htx (hreturned row h fun x hx => by simp [hx])
  | failed err h htx =>
    refine ⟨?_, not_enqueue_of_transaction (by simp) htx⟩
    have hrejected : ∀ q e, (∀ v', q ≠ .insertEnquiry v') →
        (⟨q, .error e⟩ : Event signature) ∉ h := by
      intro q e hq hmem
      obtain ⟨v', n, hv', -⟩ := hundisturbed q e hmem
      exact hq v' hv'
    cases htx with
    | unavailable n hn => exact absurd (by simp) (hrejected .getConnection (.native n) (by simp))
    | rollbackFailed err n hn h hcause =>
      exact absurd (by simp) (hrejected .rollback (.native n) (by simp))
    | rolledBack err h hcause =>
      cases hcause with
      | notBegun n hn =>
        exact absurd (by simp) (hrejected .beginTransaction (.native n) (by simp))
      | notCommitted a n hn h hfn =>
        exact absurd (by simp) (hrejected .commit (.native n) (by simp))
      | threw err h hfn =>
        cases hfn with
        | lookupFailed n hn =>
          exact absurd (by simp)
            (hrejected (.selectPublishedProperty v.propertyId) (.native n) (by simp))
        | readFailed ids hids id n hn =>
          exact absurd (by simp) (hrejected (.selectEnquiry id) (.native n) (by simp))
        | notPublished =>
          obtain ⟨ids, hids, hmem⟩ := hpublished
          simp [opened] at hmem
          exact absurd hmem hids
        | insertFailed ids hids n =>
          obtain ⟨v', n', -, hn', hdup⟩ :=
            hundisturbed (.insertEnquiry v) (.native n) (by simp)
          cases hn'
          rw [mapDuplicate_duplicate hdup]

end Histories

section Conflicts

variable {P : Platform} {ι : Type} [DecidableEq ι] {calls : ι → Call P} {c c' : System ι} {i : ι}
variable {input : CreateEnquiryInput P} {ctx : CreateEnquiryContext}

theorem World.Served.duplicate {w w' : World ι} {v : NewEnquiry} {n : NativeError}
    (h : w.Served P i (.insertEnquiry v) (.error (.native n)) w')
    (hn : n.isDuplicateEntry = true) : w' = w ∧ ∃ row, row.fingerprint = v.fingerprint ∧
      ((.committed, row) ∈ w.enquiries.rows ∨ (.of i, row) ∈ w.enquiries.rows) := by
  cases h with
  | answered h =>
    rcases insertEnquiry_cases h with ⟨n', hn', rfl, hdup⟩ | ⟨hr, -⟩
    · cases hn'
      exact ⟨rfl, hdup hn⟩
    · cases hr
  | lost h hauto he => cases hauto
  | rejected he =>
    simp [Operation.mayReject, Operation.isSynchronous, Operation.isSql, hn] at he

/-- A duplicate is reported for a committed fingerprint, or for one the call itself holds. -/
def DuplicatesSourced (c : System ι) : Prop :=
  ∀ i v n, (i, ⟨.insertEnquiry v, .error (.native n)⟩) ∈ c.trace → n.isDuplicateEntry = true →
    (∃ row ∈ c.world.enquiryRows, row.fingerprint = v.fingerprint) ∨
      ∃ v' id, (i, ⟨.insertEnquiry v', .ok id⟩) ∈ c.trace

theorem Reachable.duplicatesSourced (h : Reachable P calls c) : DuplicatesSourced c := by
  refine h.induct (fun _ _ _ _ _ hmem => (List.not_mem_nil hmem).elim) ?_ ?_
  · intro c i q k r w' hc ih hprogram hlive hserved j v n hmem hn
    rcases List.mem_append.mp hmem with hmem | hmem
    · rcases ih j v n hmem hn with ⟨row, hrow, hprint⟩ | ⟨v', id, hinsert⟩
      · obtain ⟨row', hrow', hkey⟩ := hserved.tableStep.persists hrow
        exact Or.inl ⟨row', hrow',
          (congrArg (fun x => NewEnquiry.fingerprint x.2) hkey).trans hprint⟩
      · exact Or.inr ⟨v', id, List.mem_append_left _ hinsert⟩
    · cases List.mem_singleton.mp hmem
      obtain ⟨rfl, row, hprint, hrow | hrow⟩ := hserved.duplicate hn
      · exact Or.inl ⟨row, Table.mem_committed.mpr hrow, hprint⟩
      · have hpending := (hc.consistent.represents.of_pending _ row hrow).2
        exact Or.inr ⟨_, _, List.mem_append_left _
          (Config.mem_own.mp (mem_of_mem_ledger (Or.inl hpending)))⟩
  · intro c d w' _ ih hdrift j v n hmem hn
    rcases ih j v n hmem hn with ⟨row, hrow, hprint⟩ | hinsert
    · exact Or.inl ⟨row, World.drift_persists hdrift hrow, hprint⟩
    · exact Or.inr hinsert

/-- A committed content is never inserted again. -/
theorem no_insert_of_committed (hrun : Run (server P) c c')
    {v : NewEnquiry} {stored : EnquiryRecord} (hstored : stored ∈ c.world.enquiryRows)
    (hprint : stored.fingerprint = v.fingerprint)
    (hnone : ∀ id, (i, ⟨.insertEnquiry v, .ok id⟩) ∉ c.trace) :
    ∀ id, (i, ⟨.insertEnquiry v, .ok id⟩) ∉ c'.trace := by
  induction hrun with
  | refl => exact hnone
  | tail hrun hstep ih =>
    obtain ⟨row, hrow, hkey⟩ := run_persists hrun hstored
    cases hstep with
    | drift => exact ih
    | serve hprogram hserve =>
      intro id hmem
      rcases List.mem_append.mp hmem with hmem | hmem
      · exact ih id hmem
      · cases List.mem_singleton.mp hmem
        cases (World.served_of_serve hserve).2.tableStep with
        | action a haction htable hid hinsert =>
          cases a with
          | insert row => exact hinsert row rfl
          | _ => cases haction
        | update u hq => cases hq
        | none haction => cases haction
        | insert v' he hfits hfresh hw' =>
          cases he
          refine hfresh row (Table.mem_contents_of_committed hrow) ?_
          exact (congrArg (fun x => NewEnquiry.fingerprint x.2) hkey).trans hprint

/-- The call neither inserts, nor updates, nor adds a job: its steps change nothing that
the other calls can see. -/
theorem unchanged_of_step (hc : Reachable P calls c) (hstep : StepOf P i c c')
    (hi : calls i = .createEnquiry input ctx)
    (hinsert : ∀ v id, (i, ⟨.insertEnquiry v, .ok id⟩) ∉ c'.trace)
    (hjobs : ∀ e ∈ c'.own i, e.request.isEnqueue = false) :
    c'.world.enquiryRows = c.world.enquiryRows ∧
      c'.world.crmSyncQueue = c.world.crmSyncQueue ∧ c'.world.emailQueue = c.world.emailQueue := by
  obtain ⟨q, k, choice, r, w', hprogram, hserve, rfl⟩ := hstep
  have hserved := (World.served_of_serve hserve).2
  have hlast : (⟨q, r⟩ : Event signature) ∈ (c.answered i q r k w').own i := by simp
  refine ⟨?_, ?_⟩
  · cases hserved.tableStep with
    | action a haction htable hid ha =>
      change w'.enquiryRows = _
      have hnone : ∀ row, (.of i, row) ∉ c.world.enquiries.rows := by
        intro row hrow
        have hpending := (hc.consistent.represents.of_pending i row hrow).2
        exact hinsert _ _ (List.mem_append_left _
          (Config.mem_own.mp (mem_of_mem_ledger (Or.inl hpending))))
      rw [World.enquiryRows, World.enquiryRows, htable, Table.committed,
        Table.rows_act hnone ha, ← Table.committed]
    | insert v he =>
      cases he
      exact absurd (Config.mem_own.mp hlast) (hinsert v _)
    | update u hq =>
      simp only at hq
      subst hq
      have hfoot := hc.footprint_of_await hprogram
      rw [hi] at hfoot
      exact hfoot.elim
    | none haction htable =>
      change w'.enquiryRows = _
      rw [World.enquiryRows, htable, ← World.enquiryRows]
  · cases hserved.queueStep with
    | crmSync job he =>
      cases he
      cases hjobs _ hlast
    | email job he =>
      cases he
      cases hjobs _ hlast
    | none hcrm hemail hcrmQueue hemailQueue => exact ⟨hcrmQueue, hemailQueue⟩

/-- The call has found its property published. -/
def FoundPublished (c : System ι) (i : ι) (input : CreateEnquiryInput P) : Prop :=
  ∃ ids, ids ≠ [] ∧ (i, ⟨.selectPublishedProperty input.propertyId, .ok ids⟩) ∈ c.trace

/-- Nothing the call awaited was rejected, except its insert for a duplicate entry. -/
def OnlyDuplicates (c : System ι) (i : ι) : Prop :=
  ∀ q e, (i, ⟨q, .error e⟩) ∈ c.trace →
    ∃ v n, q = .insertEnquiry v ∧ e = .native n ∧ n.isDuplicateEntry = true

/-- A call that comes to its insert when the content is committed throws the conflict and
changes nothing. -/
theorem Reachable.conflict_of_committed (h : Reachable P calls c) (hrun : Run (server P) c c')
    (hi : calls i = .createEnquiry input ctx)
    (hcommitted : ∃ stored ∈ c.world.enquiryRows, stored.content P = input.content)
    (hbefore : ∀ v r, (i, ⟨.insertEnquiry v, r⟩) ∉ c.trace) (hfinished : Finished c' i)
    (hpublished : FoundPublished c' i input) (hundisturbed : OnlyDuplicates c' i) :
    c'.program i = .throw (conflictError duplicateMessage) ∧
      ∀ a b, Reachable P calls a → StepOf P i a b → Run (server P) b c' →
        b.world.enquiryRows = a.world.enquiryRows ∧
          b.world.crmSyncQueue = a.world.crmSyncQueue ∧
          b.world.emailQueue = a.world.emailQueue := by
  obtain ⟨stored, hstored, hcontent⟩ := hcommitted
  have hprint : stored.fingerprint = (newEnquiry P input ctx).fingerprint := by
    obtain ⟨input', hcontent', hprint'⟩ := h.row_input (Table.mem_contents_of_committed hstored)
    rw [hprint', ← hcontent', hcontent]
    rfl
  have hnone := no_insert_of_committed hrun hstored hprint fun id => hbefore _ _
  have hc' := h.run hrun
  have hinsert : ∀ v id, (⟨.insertEnquiry v, .ok id⟩ : Event signature) ∉ c'.own i := by
    intro v id hmem
    have hmem := Config.mem_own.mp hmem
    have hfoot := hc'.footprint_of_mem hmem
    rw [hi] at hfoot
    obtain rfl : v = newEnquiry P input ctx := hfoot
    exact hnone id hmem
  have hall := fun o (hout : CreateOutcome (newEnquiry P input ctx) [] o (c'.own i)) =>
    conflict_of_rejected hout hinsert
      (fun q e hmem => hundisturbed q e (Config.mem_own.mp hmem))
      (by
        obtain ⟨ids, hids, hmem⟩ := hpublished
        exact ⟨ids, hids, Config.mem_own.mpr hmem⟩)
  obtain ⟨hreturned, hthrew⟩ := hc'.createOutcome hi
  rcases hfinished with ⟨row?, hrow⟩ | ⟨err, herr⟩
  · obtain ⟨row, -, hout⟩ := hreturned row? hrow
    cases (hall _ hout).1
  · obtain ⟨hconflict, hquiet⟩ := hall _ (hthrew err herr)
    cases hconflict
    refine ⟨herr, fun a b ha hstep hab => ?_⟩
    refine unchanged_of_step ha hstep hi (fun v id hmem => ?_) fun e he => ?_
    · exact hinsert v id (hab.mem_own (Config.mem_own.mpr hmem))
    · exact hquiet e (hab.mem_own he)

/-- The conflict is only thrown over a committed row of the same content. -/
theorem Reachable.committed_of_conflict (h : Reachable P calls c) (hP : P.Separates)
    (hqueues : ∀ q n, q.isEnqueue = true → (i, ⟨q, .error (.native n)⟩) ∈ c.trace →
      n.isDuplicateEntry = false)
    (hi : calls i = .createEnquiry input ctx)
    (hthrew : c.program i = .throw (conflictError duplicateMessage)) :
    ∃ stored ∈ c.world.enquiryRows, stored.content P = input.content := by
  rcases rejected_of_conflict ((h.createOutcome hi).2 _ hthrew) rfl with
    ⟨n, hn, hmem, hnone⟩ | ⟨q, n, hq, hn, hmem⟩
  · rcases h.duplicatesSourced i _ n (Config.mem_own.mp hmem) hn with
      ⟨stored, hstored, hprint⟩ | ⟨v', id, hinsert⟩
    · obtain ⟨input', hcontent, hprint'⟩ := h.row_input (Table.mem_contents_of_committed hstored)
      refine ⟨stored, hstored, hcontent.trans (hP.content_eq ?_)⟩
      rw [← hprint', hprint]
      rfl
    · exact absurd (Config.mem_own.mpr hinsert) (hnone v' id)
  · rw [hqueues q n hq (Config.mem_own.mp hmem)] at hn
    cases hn

/-- An insert never waits for a row whose content is committed. -/
theorem exists_step_of_committed (h : Reachable P calls c)
    (hi : calls i = .createEnquiry input ctx) (hlive : c.world.crashed i = false)
    (hcommitted : ∃ stored ∈ c.world.enquiryRows, stored.content P = input.content)
    (hunfinished : ¬ Finished c i) : ∃ c', StepOf P i c c' := by
  cases hprogram : c.program i with
  | pure row? => exact absurd (Or.inl ⟨row?, hprogram⟩) hunfinished
  | throw err => exact absurd (Or.inr ⟨err, hprogram⟩) hunfinished
  | await q k =>
    have hanswer : ∃ x, c.world.answer P i q = some x := by
      have hfoot := h.footprint_of_await hprogram
      rw [hi] at hfoot
      cases q with
      | insertEnquiry v =>
        obtain rfl : v = newEnquiry P input ctx := hfoot
        obtain ⟨stored, hstored, hcontent⟩ := hcommitted
        obtain ⟨input', hcontent', hprint⟩ :=
          h.row_input (Table.mem_contents_of_committed hstored)
        have hsame : stored.fingerprint = (newEnquiry P input ctx).fingerprint := by
          rw [hprint, ← hcontent', hcontent]
          rfl
        change ∃ x, c.world.insertEnquiry P i (newEnquiry P input ctx) = some x
        unfold World.insertEnquiry
        have hdup : (c.world.enquiries.rows.any fun x =>
            x.2.fingerprint == (newEnquiry P input ctx).fingerprint &&
              (x.1 == .committed || x.1 == .of i)) = true :=
          List.any_eq_true.mpr ⟨_, Table.mem_committed.mp hstored, by simp [hsame]⟩
        split_ifs
        · exact ⟨_, rfl⟩
        · exact ⟨_, rfl⟩
      | updateEnquiry u => exact hfoot.elim
      | insertWebhookEvent v => exact hfoot.elim
      | setNx key record ttl => exact hfoot.elim
      | _ => exact ⟨_, rfl⟩
    obtain ⟨⟨r, w'⟩, hx⟩ := hanswer
    refine ⟨_, q, k, .resolves, r, w', hprogram, ?_, rfl⟩
    simp [World.serve, hlive, hx]

/-- Duplicate prevention, as the callers of `createEnquiry` see it. -/
structure DuplicatesPrevented (P : Platform) (calls : ι → Call P) (c : System ι) : Prop where
  content_nodup : (c.world.enquiryRows.map (EnquiryRecord.content P)).Nodup
  returned_once : ∀ i j (input input' : CreateEnquiryInput P) ctx ctx' row row',
    calls i = .createEnquiry input ctx → calls j = .createEnquiry input' ctx' →
    input.content = input'.content → c.program i = .pure (some row) →
    c.program j = .pure (some row') → i = j
  /-- From a state where the content is committed and the call has not come to its insert,
  the call is never kept waiting, and it ends with the conflict. -/
  conflict : ∀ i (input : CreateEnquiryInput P) ctx, calls i = .createEnquiry input ctx →
    (∃ stored ∈ c.world.enquiryRows, stored.content P = input.content) →
    (∀ v r, (i, ⟨.insertEnquiry v, r⟩) ∉ c.trace) → ∀ c', Run (server P) c c' →
    (c'.world.crashed i = false → ¬ Finished c' i → ∃ c'', StepOf P i c' c'') ∧
      (Finished c' i → FoundPublished c' i input → OnlyDuplicates c' i →
        c'.program i = .throw (conflictError duplicateMessage) ∧
          ∀ a b, Reachable P calls a → StepOf P i a b → Run (server P) b c' →
            b.world.enquiryRows = a.world.enquiryRows ∧
              b.world.crmSyncQueue = a.world.crmSyncQueue ∧
              b.world.emailQueue = a.world.emailQueue)
  conflict_only : ∀ i (input : CreateEnquiryInput P) ctx, calls i = .createEnquiry input ctx →
    c.program i = .throw (conflictError duplicateMessage) →
    ∃ stored ∈ c.world.enquiryRows, stored.content P = input.content

theorem duplicatesPrevented (hP : P.Separates) (h : Reachable P calls c)
    (hqueues : ∀ i q n, q.isEnqueue = true → (i, ⟨q, .error (.native n)⟩) ∈ c.trace →
      n.isDuplicateEntry = false) : DuplicatesPrevented P calls c where
  content_nodup := h.content_nodup
  returned_once _ _ _ _ _ _ _ _ hi hj hcontent hdone hdone' :=
    h.returned_once hi hj hcontent hdone hdone'
  conflict i input ctx hi hcommitted hbefore c' hrun := by
    refine ⟨fun hlive hunfinished => ?_, h.conflict_of_committed hrun hi hcommitted hbefore⟩
    obtain ⟨stored, hstored, hcontent⟩ := hcommitted
    obtain ⟨row, hrow, hkey⟩ := run_persists hrun hstored
    refine exists_step_of_committed (h.run hrun) hi hlive ⟨row, hrow, ?_⟩ hunfinished
    have hvalues : row.toNewEnquiry = stored.toNewEnquiry := congrArg Prod.snd hkey
    rw [← hcontent, EnquiryRecord.content, hvalues, ← EnquiryRecord.content]
  conflict_only i input ctx hi hthrew := h.committed_of_conflict hP (hqueues i) hi hthrew

end Conflicts

section Samples

/-- Two identical calls, the second one after the first has committed. -/
theorem duplicatesPrevented_sample :
    DuplicatesPrevented .sample identicalCalls
      (sampleRun identicalCalls (undisturbed 0 9 ++ undisturbed 1 6)) := by
  have hquiet : ∀ q, q.isEnqueue = true → ∀ i n,
      (i, (⟨q, .error (.native n)⟩ : Event signature)) ∉
        (sampleRun identicalCalls (undisturbed 0 9 ++ undisturbed 1 6)).trace := by
    intro q hq i n hmem
    have hnone : ((sampleRun identicalCalls (undisturbed 0 9 ++ undisturbed 1 6)).trace.all
        fun x => !(isRejection x.2 && x.2.request.isEnqueue)) = true := by rfl
    have hx := List.all_eq_true.mp hnone _ hmem
    simp [isRejection, hq] at hx
  exact duplicatesPrevented Platform.separates_sample (reachable_sampleRun (by rfl))
    fun i q n hq hmem => absurd hmem (hquiet q hq i n)

end Samples

end PropertyPlatform
