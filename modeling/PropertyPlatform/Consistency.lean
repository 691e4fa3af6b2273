import PropertyPlatform.Effects

/-!
# The enquiries table in every reachable state

The ledger of a call is computed from its own history alone. In every reachable
state the table is what the ledgers of all calls say, ids and fingerprints are
unique, and every stored row was inserted by exactly one call.
-/

namespace PropertyPlatform

open Js Async

/-- What an update never changes: the id and the inserted values. -/
def rowKey (row : EnquiryRecord) : ℕ × NewEnquiry := (row.id, row.toNewEnquiry)

/-- What an answered statement does to the rows its session controls. -/
def actionOf : Event signature → Option (Action (ℕ × NewEnquiry))
  | ⟨.beginTransaction, .ok _⟩ => some .begin
  | ⟨.insertEnquiry v, .ok id⟩ => some (.insert (id, v))
  | ⟨.commit, .ok _⟩ => some .commit
  | ⟨.commit, .error _⟩ => some .discard
  | ⟨.rollback, .ok _⟩ => some .discard
  | ⟨.release, _⟩ => some .release
  | _ => none

def book (l : Ledger (ℕ × NewEnquiry)) (e : Event signature) : Ledger (ℕ × NewEnquiry) :=
  match actionOf e with
  | some a => l.act a
  | none => l

/-- The account a call can keep of its own rows. -/
def ledger (h : History) : Ledger (ℕ × NewEnquiry) := h.foldl book .empty

@[simp] theorem ledger_nil : ledger [] = .empty := rfl

@[simp] theorem ledger_append (h es : History) : ledger (h ++ es) = es.foldl book (ledger h) := by
  simp [ledger]

theorem ledger_concat (h : History) (e : Event signature) :
    ledger (h ++ [e]) = book (ledger h) e := by
  simp [ledger]

theorem actionOf_of_idle {e : Event signature} (h : World.idle e = true) : actionOf e = none := by
  rcases e with ⟨q, _ | a⟩ <;> cases q <;> first | rfl | cases h

theorem book_of_some {l : Ledger (ℕ × NewEnquiry)} {e : Event signature}
    {a : Action (ℕ × NewEnquiry)} (h : actionOf e = some a) : book l e = l.act a := by
  simp [book, h]

theorem book_of_none {l : Ledger (ℕ × NewEnquiry)} {e : Event signature}
    (h : actionOf e = none) : book l e = l := by
  simp [book, h]

/-- A ledger only speaks of rows its own history inserted. -/
theorem mem_of_mem_ledger {h : History} {x : ℕ × NewEnquiry}
    (hx : x ∈ (ledger h).pending ∨ x ∈ (ledger h).committed ∨ x ∈ (ledger h).abandoned) :
    (⟨.insertEnquiry x.2, .ok x.1⟩ : Event signature) ∈ h := by
  induction h using List.reverseRecOn with
  | nil => simp [Ledger.empty] at hx
  | append_singleton h e ih =>
    rw [ledger_concat] at hx
    cases ha : actionOf e with
    | none =>
      rw [book_of_none ha] at hx
      exact List.mem_append_left _ (ih hx)
    | some a =>
      rw [book_of_some ha] at hx
      cases a with
      | insert y =>
        have he : e = ⟨.insertEnquiry y.2, .ok y.1⟩ := by
          unfold actionOf at ha
          split at ha <;> cases ha
          rfl
        have hx : (x ∈ (ledger h).pending ∨ x ∈ (ledger h).committed ∨
            x ∈ (ledger h).abandoned) ∨ x = y := by
          unfold Ledger.act at hx
          split_ifs at hx <;> simp only [List.mem_append, List.mem_singleton] at hx <;> tauto
        rcases hx with hx | rfl
        · exact List.mem_append_left _ (ih hx)
        · exact List.mem_append_right _ (by simp [he])
      | _ =>
        refine List.mem_append_left _ (ih ?_)
        simp only [Ledger.act, List.mem_append, List.not_mem_nil] at hx
        tauto

variable {P : Platform} {ι : Type} [DecidableEq ι]

namespace World

@[simp] theorem apply_id (now : ℕ) (u : CrmUpdate) (row : EnquiryRecord) :
    (row.apply now u).id = row.id := by
  unfold EnquiryRecord.apply
  split_ifs with hid
  · simp only
    split_ifs <;> rfl
  · rfl

@[simp] theorem apply_values (now : ℕ) (u : CrmUpdate) (row : EnquiryRecord) :
    (row.apply now u).toNewEnquiry = row.toNewEnquiry := by
  unfold EnquiryRecord.apply
  split_ifs with hid
  · simp only
    split_ifs <;> rfl
  · rfl

theorem rowKey_apply (now : ℕ) (u : CrmUpdate) (row : EnquiryRecord) :
    rowKey (row.apply now u) = rowKey row := by
  simp [rowKey]

/-- What a served operation does to the table of enquiries. -/
inductive TableStep (w : World ι) (i : ι) (e : Event signature) (w' : World ι) : Prop where
  | action (a : Action EnquiryRecord) (haction : actionOf e = some (a.map rowKey))
      (htable : w'.enquiries = w.enquiries.act i a) (hid : w'.nextEnquiryId = w.nextEnquiryId)
      (hinsert : ∀ row, a ≠ .insert row) (hupdates : w'.updates = w.updates)
  | insert (v : NewEnquiry) (he : e = ⟨.insertEnquiry v, .ok w.nextEnquiryId⟩)
      (hfits : v.fits = true)
      (hfresh : ∀ row ∈ w.enquiries.contents, row.fingerprint ≠ v.fingerprint)
      (hw' : w' = { w.act i (.insert (w.newRow v)) with nextEnquiryId := w.nextEnquiryId + 1 })
  | update (u : CrmUpdate) (hq : e.request = .updateEnquiry u)
      (hunlocked : w.isLocked u.enquiryId = false) (hfound : w.hasEnquiry u.enquiryId = true)
      (hw' : w' = { w with
        enquiries := w.enquiries.update (EnquiryRecord.apply (w.now / 1000) u)
        updates := w.updates ++ [(i, u)] })
  | none (haction : actionOf e = none) (htable : w'.enquiries = w.enquiries)
      (hid : w'.nextEnquiryId = w.nextEnquiryId) (hupdates : w'.updates = w.updates)

theorem Effect.tableStep {w w' : World ι} {i : ι} {e : Event signature}
    (h : w.Effect P i e w') : w.TableStep i e w' := by
  cases h with
  | idle hidle => exact .none (actionOf_of_idle hidle) rfl rfl rfl
  | began => exact .action .begin rfl rfl rfl (by simp) rfl
  | committed => exact .action .commit rfl rfl rfl (by simp) rfl
  | commitFailed err => exact .action .discard rfl rfl rfl (by simp) rfl
  | rolledBack => exact .action .discard rfl rfl rfl (by simp) rfl
  | released => exact .action .release rfl rfl rfl (by simp) rfl
  | inserted v hfits hfresh => exact .insert v rfl hfits hfresh rfl
  | updated u r hunlocked hfound => exact .update u rfl hunlocked hfound rfl
  | _ => exact .none rfl rfl rfl rfl

theorem Served.tableStep {w w' : World ι} {i : ι} {q : Operation} {r : Except Err q.Reply}
    (h : w.Served P i q r w') : w.TableStep i ⟨q, r⟩ w' :=
  h.effect.tableStep

end World

structure Consistent (c : System ι) : Prop where
  represents : Represents rowKey c.world.crashed c.world.enquiries fun i => ledger (c.own i)
  ids_unique : (c.world.enquiries.contents.map EnquiryRecord.id).Nodup
  fingerprints_unique : (c.world.enquiries.contents.map fun row => row.fingerprint).Nodup
  next_pos : 0 < c.world.nextEnquiryId
  inserted_below : ∀ i v id, (i, ⟨.insertEnquiry v, .ok id⟩) ∈ c.trace →
    0 < id ∧ id < c.world.nextEnquiryId
  inserted_once : ∀ i j v v' id, (i, ⟨.insertEnquiry v, .ok id⟩) ∈ c.trace →
    (j, ⟨.insertEnquiry v', .ok id⟩) ∈ c.trace → i = j ∧ v = v'

namespace Consistent

variable {c : System ι}

/-- Every stored row was inserted by a call. -/
theorem inserted (h : Consistent c) {row : EnquiryRecord}
    (hrow : row ∈ c.world.enquiries.contents) :
    ∃ i, (i, ⟨.insertEnquiry row.toNewEnquiry, .ok row.id⟩) ∈ c.trace := by
  obtain ⟨⟨tx, row⟩, hmem, rfl⟩ := List.mem_map.mp hrow
  have hledger : ∃ i, rowKey row ∈ (ledger (c.own i)).pending ∨
      rowKey row ∈ (ledger (c.own i)).committed ∨ rowKey row ∈ (ledger (c.own i)).abandoned := by
    cases tx with
    | committed =>
      obtain ⟨i, hi⟩ := h.represents.committed_source row hmem
      exact ⟨i, Or.inr hi⟩
    | of i => exact ⟨i, Or.inl (h.represents.of_pending i row hmem).2⟩
    | detached =>
      obtain ⟨i, hi⟩ := h.represents.detached_source row hmem
      exact ⟨i, Or.inr (Or.inr hi)⟩
  obtain ⟨i, hi⟩ := hledger
  exact ⟨i, Config.mem_own.mp (mem_of_mem_ledger hi)⟩

theorem id_below (h : Consistent c) {row : EnquiryRecord}
    (hrow : row ∈ c.world.enquiries.contents) : row.id < c.world.nextEnquiryId := by
  obtain ⟨i, hi⟩ := h.inserted hrow
  exact (h.inserted_below i _ _ hi).2

theorem initial (calls : ι → Call P) (now : ℕ) (properties : ℕ → Option PropertyStatus) :
    Consistent (start P calls now properties) where
  represents := Represents.initial
  ids_unique := List.nodup_nil
  fingerprints_unique := List.nodup_nil
  next_pos := Nat.one_pos
  inserted_below _ _ _ h := by cases h
  inserted_once _ _ _ _ _ h := by cases h

theorem own_answered (c : System ι) (i : ι) (q : Operation) (r : Except Err q.Reply)
    (k : Except Err q.Reply → Promise (Option EnquiryRecord)) (w : World ι) :
    (fun j => ledger ((c.answered i q r k w).own j)) =
      Function.update (fun j => ledger (c.own j)) i (book (ledger (c.own i)) ⟨q, r⟩) := by
  funext j
  by_cases hij : j = i
  · subst j
    rw [Config.own_answered_self, Function.update_self, ledger_concat]
  · rw [Config.own_answered_ne hij, Function.update_of_ne hij]

theorem represents_step (h : Consistent c) {i : ι} {q : Operation} {r : Except Err q.Reply}
    {k : Except Err q.Reply → Promise (Option EnquiryRecord)} {w' : World ι}
    (hlive : c.world.crashed i = false) (hcrashed : w'.crashed = c.world.crashed)
    (hstep : c.world.TableStep i ⟨q, r⟩ w') :
    Represents rowKey w'.crashed w'.enquiries
      fun j => ledger ((c.answered i q r k w').own j) := by
  rw [own_answered, hcrashed]
  cases hstep with
  | action a haction htable =>
    rw [htable, book_of_some haction]
    exact h.represents.act hlive a
  | insert v he hfits hfresh hw' =>
    have haction : actionOf ⟨q, r⟩ = some ((Action.insert (c.world.newRow v)).map rowKey) := by
      rw [he]
      rfl
    have htable : w'.enquiries = c.world.enquiries.act i (.insert (c.world.newRow v)) := by
      rw [hw']
      rfl
    rw [htable, book_of_some haction]
    exact h.represents.act hlive _
  | update u hq hunlocked hfound hw' =>
    simp only at hq
    subst hq
    have haction : actionOf ⟨.updateEnquiry u, r⟩ = none := rfl
    have htable : w'.enquiries =
        c.world.enquiries.update (EnquiryRecord.apply (c.world.now / 1000) u) := by rw [hw']
    rw [htable, book_of_none haction, Function.update_eq_self]
    exact h.represents.update (World.rowKey_apply _ u)
  | none haction htable =>
    rw [htable, book_of_none haction, Function.update_eq_self]
    exact h.represents

variable {i : ι} {q : Operation} {r : Except Err q.Reply}
variable {k : Except Err q.Reply → Promise (Option EnquiryRecord)} {w' : World ι}

theorem next_le (hstep : c.world.TableStep i ⟨q, r⟩ w') :
    c.world.nextEnquiryId ≤ w'.nextEnquiryId := by
  cases hstep with
  | action a haction htable hid => exact hid.ge
  | insert v he hfits hfresh hw' => rw [hw']; exact Nat.le_succ _
  | update u hq hunlocked hfound hw' => rw [hw']
  | none haction htable hid => exact hid.ge

/-- An insert is an old one, or it has just been given the next id. -/
theorem insert_of_answered (hstep : c.world.TableStep i ⟨q, r⟩ w') {j : ι} {v : NewEnquiry}
    {id : ℕ} (hmem : (j, ⟨.insertEnquiry v, .ok id⟩) ∈ (c.answered i q r k w').trace) :
    (j, ⟨.insertEnquiry v, .ok id⟩) ∈ c.trace ∨
      (id = c.world.nextEnquiryId ∧ w'.nextEnquiryId = id + 1 ∧
        (i, (⟨q, r⟩ : Event signature)) = (j, ⟨.insertEnquiry v, .ok id⟩)) := by
  rcases Config.mem_answered.mp hmem with hold | hnew
  · exact Or.inl hold
  · refine Or.inr ?_
    cases hnew
    cases hstep with
    | action a haction htable hid hinsert =>
      cases a with
      | insert row => exact absurd rfl (hinsert row)
      | _ => cases haction
    | insert v he hfits hfresh hw' =>
      cases he
      exact ⟨rfl, by rw [hw'], rfl⟩
    | update u hq => cases hq
    | none haction => cases haction

/-- What an update leaves alone stays unique if every new row brings a new value. -/
theorem nodup_step {β : Type} {key : EnquiryRecord → β} (hstep : c.world.TableStep i ⟨q, r⟩ w')
    (h : (c.world.enquiries.contents.map key).Nodup)
    (hkey : ∀ now u row, key (EnquiryRecord.apply now u row) = key row)
    (hfresh : ∀ v, (∀ row ∈ c.world.enquiries.contents, row.fingerprint ≠ v.fingerprint) →
      ∀ row ∈ c.world.enquiries.contents, key row ≠ key (c.world.newRow v)) :
    (w'.enquiries.contents.map key).Nodup := by
  cases hstep with
  | action a haction htable hid hinsert =>
    rw [htable]
    exact Table.nodup_act h fun row ha => absurd ha (hinsert row)
  | insert v he hfits hnew hw' =>
    have htable : w'.enquiries = c.world.enquiries.act i (.insert (c.world.newRow v)) := by
      rw [hw']
      rfl
    rw [htable]
    refine Table.nodup_act h fun row ha hmem => ?_
    cases ha
    obtain ⟨row', hrow', heq⟩ := List.mem_map.mp hmem
    exact hfresh v hnew row' hrow' heq
  | update u hq hunlocked hfound hw' =>
    have htable : w'.enquiries =
        c.world.enquiries.update (EnquiryRecord.apply (c.world.now / 1000) u) := by rw [hw']
    rw [htable, Table.contents_update key _ (hkey _ u)]
    exact h
  | none haction htable => exact htable ▸ h

theorem serve_step (h : Consistent c) (hlive : c.world.crashed i = false)
    (hserved : c.world.Served P i q r w') : Consistent (c.answered i q r k w') := by
  have hstep := hserved.tableStep
  refine ⟨h.represents_step hlive hserved.crashed hstep, ?_, ?_, ?_, ?_, ?_⟩
  · refine nodup_step hstep h.ids_unique (fun now u row => World.apply_id now u row) ?_
    exact fun v _ row hrow => (h.id_below hrow).ne
  · refine nodup_step hstep h.fingerprints_unique (fun now u row => ?_) fun v hnew => hnew
    exact congrArg NewEnquiry.fingerprint (World.apply_values now u row)
  · exact Nat.lt_of_lt_of_le h.next_pos (next_le hstep)
  · intro j v id hmem
    rcases insert_of_answered hstep hmem with hold | ⟨hid, hnext, -⟩
    · obtain ⟨hpos, hbelow⟩ := h.inserted_below j v id hold
      exact ⟨hpos, Nat.lt_of_lt_of_le hbelow (next_le hstep)⟩
    · rw [Config.answered_world, hnext, hid]
      exact ⟨h.next_pos, Nat.lt_succ_self _⟩
  · intro j j' v v' id hmem hmem'
    rcases insert_of_answered hstep hmem with hold | ⟨hid, -, he⟩ <;>
      rcases insert_of_answered hstep hmem' with hold' | ⟨hid', -, he'⟩
    · exact h.inserted_once j j' v v' id hold hold'
    · exact absurd (h.inserted_below j v id hold).2 (by rw [hid']; exact lt_irrefl _)
    · exact absurd (h.inserted_below j' v' id hold').2 (by rw [hid]; exact lt_irrefl _)
    · cases he.symm.trans he'
      exact ⟨rfl, rfl⟩

theorem drift_step (h : Consistent c) {d : Drift ι} {w' : World ι}
    (hdrift : World.drift d c.world = some w') : Consistent { c with world := w' } := by
  cases World.drifted_of_drift hdrift with
  | settled commits id =>
    have hsub := c.world.enquiries.contents_settle commits fun r => r.id == id
    exact ⟨h.1.settle commits fun r => r.id == id, h.2.sublist (hsub.map _),
      h.3.sublist (hsub.map _), h.4, h.5, h.6⟩
  | crashed i =>
    exact ⟨h.1.die i, Table.nodup_act h.2 (by simp), Table.nodup_act h.3 (by simp), h.4, h.5, h.6⟩
  | _ => exact ⟨h.1, h.2, h.3, h.4, h.5, h.6⟩

end Consistent

theorem Reachable.consistent {calls : ι → Call P} {c : System ι} (h : Reachable P calls c) :
    Consistent c :=
  h.induct (fun now properties => Consistent.initial calls now properties)
    (fun _ _ _ _ _ _ _ hc _ hlive hserved => hc.serve_step hlive hserved)
    (fun _ _ _ _ hc hdrift => hc.drift_step hdrift)

end PropertyPlatform
