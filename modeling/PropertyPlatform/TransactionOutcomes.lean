import PropertyPlatform.KeyedRequests
import PropertyPlatform.Outcomes

/-!
# What `withTransaction` does with its connection

Any of its five steps may fail, the rollback in the `catch` included. Then the error of the
callback is lost, and the connection goes back to the pool with its transaction open.
-/

namespace PropertyPlatform

open Js Async Program

section Connection

/-- What a callback leaves to `withTransaction`. -/
def Operation.isControl : Operation → Bool
  | getConnection | beginTransaction | commit | rollback | release => true
  | _ => false

/-- What an answered request does to the statements of its connection. A rejected commit has
discarded them, a rejected rollback has not. -/
def connectionAction : Event signature → Option (Action (Event signature))
  | ⟨.getConnection, _⟩ => none
  | ⟨.beginTransaction, .ok _⟩ => some .begin
  | ⟨.beginTransaction, .error _⟩ => none
  | ⟨.commit, .ok _⟩ => some .commit
  | ⟨.commit, .error _⟩ => some .discard
  | ⟨.rollback, .ok _⟩ => some .discard
  | ⟨.rollback, .error _⟩ => none
  | ⟨.release, _⟩ => some .release
  | e => some (.insert e)

def onConnection (l : Ledger (Event signature)) (e : Event signature) : Ledger (Event signature) :=
  match connectionAction e with
  | some a => l.act a
  | none => l

/-- Which statements are pending, committed, or left in an open transaction. -/
def connection (h : History) : Ledger (Event signature) := h.foldl onConnection .empty

theorem connection_append (h es : History) :
    connection (h ++ es) = es.foldl onConnection (connection h) := by
  simp [connection]

/-- A statement of a callback becomes part of the open transaction. -/
theorem onConnection_statement {l : Ledger (Event signature)} {e : Event signature}
    (hopen : l.isOpen = true) (he : e.request.isControl = false) :
    onConnection l e = { l with pending := l.pending ++ [e] } := by
  have haction : connectionAction e = some (.insert e) := by
    obtain ⟨q, r⟩ := e
    cases q <;> first | rfl | cases he
  rw [onConnection, haction]
  exact if_pos hopen

theorem connection_opened {g : History} (hg : ∀ e ∈ g, e.request.isControl = false) :
    connection (opened [] ++ g) = ⟨true, g, [], []⟩ := by
  induction g using List.reverseRecOn with
  | nil => rfl
  | append_singleton g e ih =>
    rw [List.forall_mem_append, List.forall_mem_singleton] at hg
    rw [← List.append_assoc, connection_append, ih hg.1]
    exact onConnection_statement rfl hg.2

def insertedRow : Event signature → Option (ℕ × NewEnquiry)
  | ⟨.insertEnquiry v, .ok id⟩ => some (id, v)
  | _ => none

theorem actionOf_eq_bind (e : Event signature) :
    actionOf e = (connectionAction e).bind (Action.filterMap insertedRow) := by
  obtain ⟨q, r⟩ := e
  cases q <;> cases r <;> rfl

/-- The rows a call accounts for are those of the statements on its connection. -/
theorem ledger_eq_connection (h : History) : ledger h = (connection h).filterMap insertedRow := by
  induction h using List.reverseRecOn with
  | nil => rfl
  | append_singleton h e ih =>
    rw [ledger_concat, ih, connection_append]
    change book _ e = (onConnection (connection h) e).filterMap insertedRow
    rw [book, actionOf_eq_bind, onConnection]
    cases connectionAction e with
    | none => rfl
    | some a =>
      rw [Option.bind_some]
      refine Eq.trans ?_ (Ledger.filterMap_act insertedRow (connection h) a).symm
      cases a.filterMap insertedRow <;> rfl

end Connection

section Law

variable {α : Type}

def releasing : Event signature := ⟨.release, .ok ()⟩

/-- In the history the callback was run and ended with this outcome. -/
def Ran (fn : Promise α) (h : History) (o : Except Err α) : Prop :=
  ∃ g rest, h = opened [] ++ g ++ rest ∧ fn.Leads g (.ofOutcome o)

/-- The connection is released once and last, when no transaction is open on it. -/
def HandedBack (h : History) : Prop :=
  ∃ g, h = g ++ [releasing] ∧ (∀ e ∈ g, e.request ≠ .release) ∧ (connection g).isOpen = false

/-- What `withTransaction` owes its caller and the next user of the connection. -/
structure TransactionKept (fn : Promise α) (h : History) (o : Except Err α) : Prop where
  handedBack : (⟨.getConnection, .ok ()⟩ : Event signature) ∈ h → HandedBack h
  returned : ∀ a, o = .ok a → Ran fn h (.ok a) ∧ (⟨.commit, .ok ()⟩ : Event signature) ∈ h
  thrown : ∀ e, Ran fn h (.error e) → o = .error e ∧
    (connection h).committed = [] ∧ (connection h).abandoned = []

/-- The error after the `catch`: that of the rollback comes first. -/
def afterRollback (err : Err) : Except Err Unit → Err
  | .ok _ => err
  | .error e => e

/-- Every way `withTransaction` can end. -/
inductive TransactionRun (fn : Promise α) : Except Err α → History → Prop where
  | unavailable (e : Err) : TransactionRun fn (.error e) [⟨.getConnection, .error e⟩]
  | notBegun (e : Err) (r : Except Err Unit) :
      TransactionRun fn (.error (afterRollback e r))
        ([⟨.getConnection, .ok ()⟩, ⟨.beginTransaction, .error e⟩] ++
          [⟨.rollback, r⟩, releasing])
  | threw (g : History) (e : Err) (hfn : fn.Leads g (.throw e)) (r : Except Err Unit) :
      TransactionRun fn (.error (afterRollback e r)) (opened [] ++ g ++ [⟨.rollback, r⟩, releasing])
  | notCommitted (g : History) (a : α) (hfn : fn.Leads g (.pure a)) (e : Err)
      (r : Except Err Unit) :
      TransactionRun fn (.error (afterRollback e r))
        (opened [] ++ g ++ [⟨.commit, .error e⟩, ⟨.rollback, r⟩, releasing])
  | committed (g : History) (a : α) (hfn : fn.Leads g (.pure a)) :
      TransactionRun fn (.ok a) (opened [] ++ g ++ [⟨.commit, .ok ()⟩, releasing])

abbrev Runs {β : Type} (p : Promise β) (post : Except Err β → History → Prop) (h : History) :
    Prop :=
  p.Ensures prompt (fun _ => True) post h

variable {fn : Promise α} {h : History} {o : Except Err α}

theorem runs_call {q : Operation} {post : Except Err q.Reply → History → Prop}
    (hreply : ∀ r, prompt h q r → post r (h ++ [⟨q, r⟩])) : Runs (call q) post h :=
  ensures_perform.mpr fun r hr => ⟨trivial, hreply r hr⟩

theorem runs_release {post : Except Err Unit → History → Prop}
    (hok : post (.ok ()) (h ++ [releasing])) : Runs (call .release) post h := by
  refine runs_call fun r hr => ?_
  obtain ⟨a, rfl⟩ := hr rfl
  exact hok

/-- The `catch` and the `finally`. -/
theorem runs_aborted {err : Err} {post : Except Err α → History → Prop}
    (hpost : ∀ r, post (.error (afterRollback err r)) (h ++ [⟨.rollback, r⟩] ++ [releasing])) :
    Runs (call .rollback >>= fun _ => (Program.throw err : Promise α))
      (afterwards prompt (fun _ => True) post (call .release)) h := by
  refine ensures_bind.mpr (runs_call fun r _ => ?_)
  cases r with
  | ok a => exact runs_release (hpost (.ok a))
  | error e => exact runs_release (hpost (.error e))

theorem runs_withTransaction (fn : Promise α) :
    Runs (withTransaction fn) (TransactionRun fn) [] := by
  unfold withTransaction
  refine ensures_bind.mpr (runs_call fun r _ => ?_)
  cases r with
  | error e => exact .unavailable e
  | ok _ =>
    refine ensures_finalizing.mpr (ensures_catching.mpr ?_)
    refine ensures_bind.mpr (runs_call fun r _ => ?_)
    cases r with
    | error e => exact runs_aborted fun r => .notBegun e r
    | ok _ =>
      have hfn : Runs fn (fun o h => ∃ g, h = opened [] ++ g ∧ fn.Leads g (.ofOutcome o))
          (opened [] ++ []) := Leads.start.ensures_ends (opened [])
      refine ensures_bind.mpr (hfn.mono fun o h hran => ?_)
      obtain ⟨g, rfl, hg⟩ := hran
      cases o with
      | error e =>
        refine runs_aborted fun r => ?_
        rw [List.append_assoc]
        exact .threw g e hg r
      | ok a =>
        refine ensures_bind.mpr (runs_call fun r _ => ?_)
        cases r with
        | error e =>
          refine runs_aborted fun r => ?_
          rw [List.append_assoc, List.append_assoc]
          exact .notCommitted g a hg e r
        | ok _ =>
          refine runs_release ?_
          rw [List.append_assoc]
          exact .committed g a hg

/-- A run that has ended is one of the listed ones. -/
theorem transactionRun_of_leads (hlead : (withTransaction fn).Leads h (.ofOutcome o))
    (hprompt : ∀ e ∈ h, Prompt e) : TransactionRun fn o h := by
  have hend := (hlead.ensures (runs_withTransaction fn) trivial fun e he _ => hprompt e he).2
  cases o <;> exact hend

/-- The history of a callback that has run is its own part of the run. -/
theorem Ran.unique {x : Except Err α} {g rest : History} (hran : Ran fn (opened [] ++ g ++ rest) o)
    (hg : fn.Leads g (.ofOutcome x)) : o = x := by
  obtain ⟨g', rest', heq, hg'⟩ := hran
  rw [List.append_assoc, List.append_assoc] at heq
  obtain ⟨-, hprogram⟩ := hg'.ends_once hg (ended_ofOutcome (S := signature) o)
    (ended_ofOutcome (S := signature) x) (List.append_cancel_left heq).symm
  cases o <;> cases x <;> cases hprogram <;> rfl

theorem Ran.begun (hran : Ran fn h o) : (⟨.beginTransaction, .ok ()⟩ : Event signature) ∈ h := by
  obtain ⟨g, rest, rfl, -⟩ := hran
  simp [opened]

theorem handedBack_of {g : History} {e : Event signature} (hg : ∀ x ∈ g, x.request ≠ .release)
    (he : e.request ≠ .release) (hclosed : (onConnection (connection g) e).isOpen = false) :
    HandedBack (g ++ [e, releasing]) := by
  refine ⟨g ++ [e], by rw [List.append_assoc]; rfl, ?_, ?_⟩
  · rw [List.forall_mem_append, List.forall_mem_singleton]
    exact ⟨hg, he⟩
  · rwa [connection_append]

/-- The last event is not part of what is handed back. -/
theorem HandedBack.closed {g : History} {e : Event signature}
    (h : HandedBack (g ++ [e, releasing])) :
    (onConnection (connection g) e).isOpen = false := by
  obtain ⟨g', heq, -, hclosed⟩ := h
  have hsplit : g ++ [e] ++ [releasing] = g' ++ [releasing] := by
    rw [← heq, List.append_assoc]
    rfl
  rw [← List.append_cancel_right hsplit, connection_append] at hclosed
  exact hclosed

theorem not_release_of_statements {g : History} (hg : ∀ e ∈ g, e.request.isControl = false) :
    ∀ e ∈ opened [] ++ g, e.request ≠ .release := by
  intro e he heq
  rcases List.mem_append.mp he with he | he
  · simp only [opened, List.nil_append, List.mem_append, List.mem_singleton] at he
    rcases he with rfl | rfl <;> cases heq
  · have hcontrol := hg e he
    rw [heq] at hcontrol
    cases hcontrol

/-- The one failure that is not made up for: the callback threw and the rollback was
rejected. -/
def RollbackLost (fn : Promise α) (h : History) : Prop :=
  (∃ e, Ran fn h (.error e)) ∧ ∃ e, (⟨.rollback, .error e⟩ : Event signature) ∈ h

/-- Unless the callback threw, only the connection and a returned value matter. -/
theorem transactionKept_of_not_threw (hnot : ∀ e, ¬ Ran fn h (.error e)) (hback : HandedBack h)
    (hreturned : ∀ a, o = .ok a → Ran fn h (.ok a) ∧
      (⟨.commit, .ok ()⟩ : Event signature) ∈ h) :
    TransactionKept fn h o ↔ ¬ RollbackLost fn h := by
  refine iff_of_true ⟨fun _ => hback, hreturned, fun e hran => absurd hran (hnot e)⟩ ?_
  rintro ⟨⟨e, hran⟩, -⟩
  exact hnot e hran

theorem transactionKept_of_threw {g : History} {e : Err} {r : Except Err Unit}
    (hg : fn.Leads g (.throw e)) (hstatements : ∀ x ∈ g, x.request.isControl = false) :
    TransactionKept fn (opened [] ++ g ++ [⟨.rollback, r⟩, releasing])
        (.error (afterRollback e r)) ↔
      ¬ RollbackLost fn (opened [] ++ g ++ [⟨.rollback, r⟩, releasing]) := by
  have hran : Ran fn (opened [] ++ g ++ [⟨.rollback, r⟩, releasing]) (.error e) := ⟨g, _, rfl, hg⟩
  cases r with
  | ok a =>
    refine iff_of_true ⟨fun _ => ?_, by simp, fun e' hran' => ?_⟩ ?_
    · apply handedBack_of (not_release_of_statements hstatements) (by simp)
      rw [connection_opened hstatements]
      rfl
    · cases hran'.unique (x := .error e) hg
      rw [connection_append, connection_opened hstatements]
      exact ⟨rfl, rfl, rfl⟩
    · rintro ⟨-, e', hmem⟩
      simp only [List.mem_append, List.mem_cons, List.not_mem_nil, or_false] at hmem
      rcases hmem with (hmem | hmem) | hmem | hmem
      · simp [opened] at hmem
      · cases hstatements _ hmem
      · cases hmem
      · cases hmem
  | error e' =>
    refine iff_of_false ?_ (not_not_intro ⟨⟨e, hran⟩, e', by simp⟩)
    intro hkept
    have hclosed := (hkept.handedBack (by simp [opened])).closed
    rw [connection_opened hstatements] at hclosed
    cases hclosed

/-- `withTransaction` keeps its word unless the callback threw and the rollback was
rejected. -/
theorem transactionKept_iff {fn : Promise α} {h : History} {o : Except Err α}
    (hfn : fn.Uses fun q : Operation => q.isControl = false)
    (hlead : (withTransaction fn).Leads h (.ofOutcome o)) (hprompt : ∀ e ∈ h, Prompt e) :
    TransactionKept fn h o ↔ ¬ RollbackLost fn h := by
  cases transactionRun_of_leads hlead hprompt with
  | unavailable e =>
    have hnot : ∀ o' : Except Err α, ¬ Ran fn [⟨.getConnection, .error e⟩] o' := by
      intro o' hran
      simpa using hran.begun
    refine iff_of_true ⟨by simp, by simp, fun e' hran => absurd hran (hnot _)⟩ ?_
    rintro ⟨⟨e', hran⟩, -⟩
    exact hnot _ hran
  | notBegun e r =>
    apply transactionKept_of_not_threw
    · intro e' hran
      simpa [releasing] using hran.begun
    · apply handedBack_of (by simp) (by simp)
      cases r <;> rfl
    · simp
  | threw g e hg r => exact transactionKept_of_threw hg (hg.uses hfn).1
  | notCommitted g a hg e r =>
    have hstatements := (hg.uses hfn).1
    apply transactionKept_of_not_threw
    · intro e' hran
      cases hran.unique (x := .ok a) hg
    · have hback : HandedBack (opened [] ++ g ++ [⟨.commit, .error e⟩] ++
          [⟨.rollback, r⟩, releasing]) := by
        apply handedBack_of _ (by simp)
        · rw [connection_append, connection_opened hstatements]
          cases r <;> rfl
        · rw [List.forall_mem_append, List.forall_mem_singleton]
          exact ⟨not_release_of_statements hstatements, by simp⟩
      rwa [List.append_assoc (opened [] ++ g)] at hback
    · simp
  | committed g a hg =>
    have hstatements := (hg.uses hfn).1
    apply transactionKept_of_not_threw
    · intro e' hran
      cases hran.unique (x := .ok a) hg
    · apply handedBack_of (not_release_of_statements hstatements) (by simp)
      rw [connection_opened hstatements]
      rfl
    · rintro a' ⟨⟩
      exact ⟨⟨g, _, rfl, hg⟩, by simp⟩

end Law

/-- The callback of `createEnquiry` sends statements only. -/
theorem statements_insertPublished (v : NewEnquiry) :
    (insertPublished v).Uses fun q : Operation => q.isControl = false := by
  unfold insertPublished
  refine uses_bind ((uses_perform _).mpr rfl) fun ids => ?_
  split_ifs
  · exact uses_throw _
  · refine uses_bind ((uses_perform _).mpr rfl) fun _ => ?_
    exact uses_bind ((uses_perform _).mpr rfl) fun _ => uses_pure _

section Samples

/-- The callback of an enquiry for a property that is not published. -/
def sampleCallback : Promise (Option EnquiryRecord) :=
  insertPublished (newEnquiry .sample sampleInput sampleContext)

/-- The lookup finds nothing, and the rollback is answered with `r`. -/
def unpublishedHistory (r : Except Err Unit) : History :=
  opened [] ++ [⟨.selectPublishedProperty 1, .ok []⟩] ++ [⟨.rollback, r⟩, releasing]

def notFoundSample : Err := notFoundError "Property 1 not found or not published"

theorem leads_lookup :
    sampleCallback.Leads [⟨.selectPublishedProperty 1, .ok []⟩] (.throw notFoundSample) := by
  have hlookup := Leads.answered (Leads.start (p := sampleCallback)) (.ok [])
  exact hlookup

theorem leads_unpublished (r : Except Err Unit) : (withTransaction sampleCallback).Leads
    (unpublishedHistory r) (.ofOutcome (.error (afterRollback notFoundSample r))) := by
  have hconnection := Leads.answered (Leads.start (p := withTransaction sampleCallback)) (.ok ())
  have hlookup := (hconnection.answered (.ok ())).answered (.ok [])
  cases r with
  | ok a => exact (hlookup.answered (.ok ())).answered (.ok ())
  | error e => exact (hlookup.answered (.error e)).answered (.ok ())

theorem prompt_unpublished (r : Except Err Unit) : ∀ e ∈ unpublishedHistory r, Prompt e := by
  intro e he hq
  simp only [unpublishedHistory, opened, List.nil_append, List.mem_append, List.mem_cons,
    List.not_mem_nil, or_false] at he
  rcases he with ((rfl | rfl) | rfl) | rfl | rfl
  · cases hq
  · cases hq
  · cases hq
  · cases hq
  · exact ⟨(), rfl⟩

/-- With the rollback done the caller is told that the property was not found. -/
theorem transactionKept_sample :
    TransactionKept sampleCallback (unpublishedHistory (.ok ())) (.error notFoundSample) := by
  refine (transactionKept_iff (statements_insertPublished _) (leads_unpublished (.ok ()))
    (prompt_unpublished _)).mpr ?_
  rintro ⟨-, e, hmem⟩
  simp [unpublishedHistory, opened, releasing] at hmem

/-- The rollback is rejected: the 404 is lost and the transaction stays open. -/
theorem not_transactionKept : ¬ ∀ (fn : Promise (Option EnquiryRecord)) (h : History)
    (o : Except Err (Option EnquiryRecord)), fn.Uses (fun q : Operation => q.isControl = false) →
      (withTransaction fn).Leads h (.ofOutcome o) → (∀ e ∈ h, Prompt e) →
      TransactionKept fn h o := by
  intro hclaim
  have hkept := hclaim sampleCallback _ _ (statements_insertPublished _)
    (leads_unpublished (.error (.native timesOut))) (prompt_unpublished _)
  have hran : Ran sampleCallback (unpublishedHistory (.error (.native timesOut)))
      (.error notFoundSample) := ⟨_, _, rfl, leads_lookup⟩
  cases (hkept.thrown _ hran).1

end Samples

end PropertyPlatform
