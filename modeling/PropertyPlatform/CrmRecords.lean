import PropertyPlatform.Statuses

/-!
# Who decides the CRM reference of an enquiry

Every attempt of a crm-sync job writes an id of its own making, and webhooks write the id the
CRM sends. Each update overwrites the one before, so the reference is only stable when no
attempt writes to an enquiry that has one already.
-/

namespace PropertyPlatform

open Js Async Program

variable {P : Platform} {ι : Type} [DecidableEq ι] {calls : ι → Call P} {a b c : System ι} {i : ι}

def isCrmSync : Call P → Bool
  | .crmSyncJob _ => true
  | _ => false

/-- The last applied update of this enquiry. -/
def lastUpdate (updates : List (ι × CrmUpdate)) (id : ℕ) : Option (ι × CrmUpdate) :=
  (updates.filter fun x => decide (x.2.enquiryId = id)).getLast?

/-- At most one generated id was written for the enquiry, and none replaced one that a
webhook had set. -/
structure ReferenceStable (calls : ι → Call P) (updates : List (ι × CrmUpdate)) (id : ℕ) :
    Prop where
  one : ∀ x ∈ updates, ∀ y ∈ updates, isCrmSync (calls x.1) = true → isCrmSync (calls y.1) = true →
    x.2.enquiryId = id → y.2.enquiryId = id → x.2.crmRecordId = y.2.crmRecordId
  kept : ∀ l y, l ++ [y] <+: updates → isCrmSync (calls y.1) = true → y.2.enquiryId = id →
    ∀ x, lastUpdate l id = some x → isWebhook (calls x.1) = true →
      y.2.crmRecordId = x.2.crmRecordId

/-- An attempt's update takes effect only on an enquiry without a reference. -/
def SyncsUnsynced (calls : ι → Call P) (a b : System ι) : Prop :=
  ∀ i u, isCrmSync (calls i) = true → b.world.updates = a.world.updates ++ [(i, u)] →
    ∀ row ∈ a.world.enquiryRows, row.id = u.enquiryId → row.crmRecordId = none

theorem column_crmRecordId :
    Column EnquiryRecord.crmRecordId (fun _ u => some u.crmRecordId) none where
  new _ _ hnone := hnone
  apply now u row := by
    by_cases h : row.id = u.enquiryId
    · obtain ⟨updatedAt, hrow⟩ := apply_of_eq now h
      rw [hrow, if_pos h.symm]
    · rw [apply_of_ne h, if_neg (Ne.symm h)]

omit [DecidableEq ι] in
theorem ne_of_column_none {updates : List (ι × CrmUpdate)} {id : ℕ}
    (h : columnAfter (fun _ u => some u.crmRecordId) none updates id = none) :
    ∀ x ∈ updates, x.2.enquiryId ≠ id := by
  induction updates using List.reverseRecOn with
  | nil => exact fun x hx => (List.not_mem_nil hx).elim
  | append_singleton updates y ih =>
    rw [columnAfter_append] at h
    split_ifs at h with hy
    intro x hx
    rcases List.mem_append.mp hx with hx | hx
    · exact ih h x hx
    · rw [List.mem_singleton.mp hx]
      exact hy

/-- An update is applied to an enquiry that is there. -/
theorem updates_step (hstep : Step (server P) a b) : b.world.updates = a.world.updates ∨
    ∃ i u, b.world.updates = a.world.updates ++ [(i, u)] ∧
      a.world.hasEnquiry u.enquiryId = true := by
  cases hstep with
  | serve hprogram hserve =>
    cases (World.served_of_serve hserve).2.tableStep with
    | action _ _ _ _ _ hupdates => exact Or.inl hupdates
    | insert v _ _ _ hw' => exact Or.inl (by rw [Config.answered_world, hw']; rfl)
    | update u _ _ hfound hw' =>
      exact Or.inr ⟨_, u, by rw [Config.answered_world, hw'], hfound⟩
    | none _ _ _ hupdates => exact Or.inl hupdates
  | drift hdrift => exact Or.inl (World.updates_of_drift hdrift)

/-- An attempt's update is the first of its enquiry. -/
def SyncFirst (calls : ι → Call P) (updates : List (ι × CrmUpdate)) : Prop :=
  updates.Pairwise fun x y => isCrmSync (calls y.1) = true → x.2.enquiryId ≠ y.2.enquiryId

theorem SyncFirst.step (ha : Reachable P calls a) (h : SyncFirst calls a.world.updates)
    (hstep : Step (server P) a b) (hok : SyncsUnsynced calls a b) :
    SyncFirst calls b.world.updates := by
  rcases updates_step hstep with hsame | ⟨i, u, hupdates, hfound⟩
  · rw [hsame]
    exact h
  · rw [hupdates]
    refine List.pairwise_append.mpr ⟨h, List.pairwise_singleton _ _, fun x hx y hy hsync => ?_⟩
    rw [List.mem_singleton.mp hy] at hsync ⊢
    obtain ⟨row, hrow, hid⟩ := World.hasEnquiry_iff.mp hfound
    have hnone := hok i u hsync hupdates row hrow hid
    rw [ha.columnLogged column_crmRecordId row (Table.mem_contents_of_committed hrow), hid] at hnone
    exact ne_of_column_none hnone x hx

omit [DecidableEq ι] in
theorem SyncFirst.stable {updates : List (ι × CrmUpdate)} (h : SyncFirst calls updates) (id : ℕ) :
    ReferenceStable calls updates id := by
  constructor
  · have hforall := List.Pairwise.forall_of_forall_of_flip
      (R := fun x y : ι × CrmUpdate => isCrmSync (calls x.1) = true → isCrmSync (calls y.1) = true →
        x.2.enquiryId = id → y.2.enquiryId = id → x.2.crmRecordId = y.2.crmRecordId)
      (fun _ _ _ _ _ _ => rfl)
      (h.imp fun hne _ hsync hx hy => absurd (hx.trans hy.symm) (hne hsync))
      (h.imp fun hne hsync _ hx hy => absurd (hy.trans hx.symm) (hne hsync))
    exact fun x hx y hy => hforall hx hy
  · intro l y hprefix hsync hid x hlast _
    have hpair := (List.pairwise_append.mp (h.sublist hprefix.sublist)).2.2
    obtain ⟨hx, hxid⟩ := List.mem_filter.mp (List.mem_of_getLast? hlast)
    have hne := hpair x hx y (List.mem_singleton_self y) hsync
    exact absurd ((of_decide_eq_true hxid).trans hid.symm) hne

/-- While no attempt writes to an enquiry that has a reference, every reference is stable. -/
theorem referenceStable_of_unsynced {now : ℕ} {properties : ℕ → Option PropertyStatus}
    (hrun : RunWhere (server P) (SyncsUnsynced calls) (start P calls now properties) c) (id : ℕ) :
    ReferenceStable calls c.world.updates id := by
  have hfirst : SyncFirst calls c.world.updates := by
    refine hrun.invariant (P := fun c => SyncFirst calls c.world.updates) ?_ ?_
    · exact List.Pairwise.nil
    · exact fun a b ha h hstep hok => h.step ⟨now, properties, ha.run⟩ hstep hok
  exact hfirst.stable id

section Samples

/-- Call 0 makes enquiry 1, call 1 is a webhook for it, and the others are attempts. -/
def syncsUnsynced (c : System ℕ) : Move ℕ Choice (Drift ℕ) → Bool
  | .serve i _ =>
    match c.program i with
    | .await (.updateEnquiry u) _ => !isCrmSync (webhookCalls i) ||
        c.world.enquiryRows.all fun row => row.id != u.enquiryId || row.crmRecordId.isNone
    | _ => true
  | .drift _ => true

theorem syncsUnsynced_of_check (c : System ℕ) (m : Move ℕ Choice (Drift ℕ)) (c' : System ℕ)
    (hplay : c.play (server .sample) m = some c') (hcheck : syncsUnsynced c m = true) :
    SyncsUnsynced webhookCalls c c' := by
  intro i u hsync hupdates row hrow hid
  have hlength : c'.world.updates ≠ c.world.updates := by
    rw [hupdates]
    exact fun heq => by simp at heq
  cases m with
  | drift d =>
    obtain ⟨w, hd, rfl⟩ := Option.map_eq_some_iff.mp hplay
    exact absurd (World.updates_of_drift hd) hlength
  | serve i' choice =>
    cases hprogram : c.program i' with
    | pure a => simp [Config.play, hprogram] at hplay
    | throw e => simp [Config.play, hprogram] at hplay
    | await q k =>
      simp only [Config.play, hprogram] at hplay
      obtain ⟨⟨r, w⟩, hserve, rfl⟩ := Option.map_eq_some_iff.mp hplay
      cases (World.served_of_serve hserve).2.tableStep with
      | action _ _ _ _ _ hsame => exact absurd hsame hlength
      | insert v _ _ _ hw' => exact absurd (by rw [Config.answered_world, hw']; rfl) hlength
      | update u' hq _ _ hw' =>
        simp only at hq
        subst hq
        have happend : c.world.updates ++ [(i', u')] = c.world.updates ++ [(i, u)] := by
          rw [← hupdates, Config.answered_world, hw']
        cases List.append_cancel_left happend
        simp only [syncsUnsynced, hprogram, hsync, Bool.not_true, Bool.false_or] at hcheck
        simpa [hid] using List.all_eq_true.mp hcheck row hrow
      | none _ _ _ hsame => exact absurd hsame hlength

/-- One attempt takes effect, and then a webhook sets another reference. -/
theorem referenceStable_sample : ReferenceStable webhookCalls
    (sampleRun webhookCalls (undisturbed 0 9 ++ undisturbed 2 3 ++ undisturbed 1 6)).world.updates
    1 := by
  have hrun : RunWhere (server .sample) (SyncsUnsynced webhookCalls) (sampleStart webhookCalls)
      (sampleRun webhookCalls (undisturbed 0 9 ++ undisturbed 2 3 ++ undisturbed 1 6)) :=
    Config.runWhere_after syncsUnsynced_of_check (by rfl)
  exact referenceStable_of_unsynced hrun 1

/-- The acknowledgement of an attempt's update is lost, a webhook sets its own reference, and
a second later the job is attempted again. -/
def repeatedSync : System ℕ := sampleRun webhookCalls
  (undisturbed 0 9 ++ undisturbed 2 2 ++ [.serve 2 (.lost timesOut)] ++ undisturbed 1 6 ++
    [.drift (.tick 1000)] ++ undisturbed 3 3)

theorem reachable_repeatedSync : Reachable .sample webhookCalls repeatedSync :=
  reachable_sampleRun (by rfl)

/-- The enquiry was given two generated references, and the second replaced the webhook's. -/
theorem not_referenceStable : ¬ ∀ (calls : ℕ → Call .sample) (c : System ℕ) (id : ℕ),
    Reachable .sample calls c → ReferenceStable calls c.world.updates id := by
  intro hclaim
  have hstable := hclaim webhookCalls repeatedSync 1 reachable_repeatedSync
  have hupdates : repeatedSync.world.updates = [(2, ⟨1, "crm_1_0", none⟩),
      (1, ⟨1, "crm-7", some .contacted⟩), (3, ⟨1, "crm_1_1000", none⟩)] := by rfl
  rw [hupdates] at hstable
  have hsame := hstable.one (2, ⟨1, "crm_1_0", none⟩) (by simp) (3, ⟨1, "crm_1_1000", none⟩)
    (by simp) rfl rfl rfl rfl
  exact absurd hsame (by decide)

end Samples

end PropertyPlatform
