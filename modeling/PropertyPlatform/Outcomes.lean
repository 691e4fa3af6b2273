import PropertyPlatform.Replies

/-!
# Every way the services can end

For each program the possible outcomes are listed together with the history that
leads to them. Nothing is said here about interleavings: the histories are the
program's own.
-/

namespace PropertyPlatform

open Js Async Program

abbrev Ends {α : Type} (p : Promise α) (post : Except Err α → History → Prop) (h : History) :
    Prop :=
  p.Ensures honest (fun _ => True) post h

section Calls

variable {q : Operation} {post : Except Err q.Reply → History → Prop} {h : History}

theorem ends_call (hok : ∀ a, honest h q (.ok a) → post (.ok a) (h ++ [⟨q, .ok a⟩]))
    (herror : ∀ n, honest h q (.error (.native n)) →
      post (.error (.native n)) (h ++ [⟨q, .error (.native n)⟩])) : Ends (call q) post h := by
  rw [Ends, ensures_perform]
  intro r hr
  refine ⟨trivial, ?_⟩
  cases r with
  | ok a => exact hok a hr
  | error e =>
    obtain ⟨n, rfl⟩ := hr.native
    exact herror n hr

/-- Statements other than an insert are never rejected as duplicates. -/
theorem ends_sql (hsql : q.isSql = true) (hq : ∀ v, q ≠ .insertEnquiry v)
    (hok : ∀ a, honest h q (.ok a) → post (.ok a) (h ++ [⟨q, .ok a⟩]))
    (herror : ∀ n : NativeError, n.isDuplicateEntry = false →
      post (.error (.native n)) (h ++ [⟨q, .error (.native n)⟩])) : Ends (call q) post h := by
  refine ends_call hok fun n hn => herror n ?_
  obtain ⟨n', hn', hdup⟩ := hn.not_duplicate hsql hq
  cases hn'
  exact hdup

theorem ends_synchronous (hq : q.isSynchronous = true)
    (hok : ∀ a, post (.ok a) (h ++ [⟨q, .ok a⟩])) : Ends (call q) post h := by
  refine ends_call (fun a _ => hok a) fun n hn => ?_
  obtain ⟨a, ha⟩ := hn.synchronous hq
  cases ha

end Calls

section Transactions

variable {α : Type} (fnPost : Except Err α → History → Prop) (h₀ : History)

/-- The start of every transaction. -/
def opened : History := h₀ ++ [⟨.getConnection, .ok ()⟩] ++ [⟨.beginTransaction, .ok ()⟩]

/-- What makes `withTransaction` roll back. -/
inductive Aborted : Err → History → Prop where
  | notBegun (n : NativeError) (hn : n.isDuplicateEntry = false) :
      Aborted (.native n) (h₀ ++ [⟨.getConnection, .ok ()⟩] ++
        [⟨.beginTransaction, .error (.native n)⟩])
  | threw (err : Err) (h : History) (hfn : fnPost (.error err) h) : Aborted err h
  | notCommitted (a : α) (n : NativeError) (hn : n.isDuplicateEntry = false) (h : History)
      (hfn : fnPost (.ok a) h) : Aborted (.native n) (h ++ [⟨.commit, .error (.native n)⟩])

inductive TransactionOutcome : Except Err α → History → Prop where
  | unavailable (n : NativeError) (hn : n.isDuplicateEntry = false) :
      TransactionOutcome (.error (.native n)) (h₀ ++ [⟨.getConnection, .error (.native n)⟩])
  | rolledBack (err : Err) (h : History) (hcause : Aborted fnPost h₀ err h) :
      TransactionOutcome (.error err) (h ++ [⟨.rollback, .ok ()⟩] ++ [⟨.release, .ok ()⟩])
  | rollbackFailed (err : Err) (n : NativeError) (hn : n.isDuplicateEntry = false) (h : History)
      (hcause : Aborted fnPost h₀ err h) :
      TransactionOutcome (.error (.native n))
        (h ++ [⟨.rollback, .error (.native n)⟩] ++ [⟨.release, .ok ()⟩])
  | committed (a : α) (h : History) (hfn : fnPost (.ok a) h) :
      TransactionOutcome (.ok a) (h ++ [⟨.commit, .ok ()⟩] ++ [⟨.release, .ok ()⟩])

variable {fnPost h₀}

/-- The `catch` and `finally` of `withTransaction`. -/
theorem ends_aborted {err : Err} {h : History} (hcause : Aborted fnPost h₀ err h) :
    Ends (call .rollback >>= fun _ => (Program.throw err : Promise α))
      (afterwards honest (fun _ => True) (TransactionOutcome fnPost h₀) (call .release)) h := by
  rw [Ends, bind_eq, ensures_bind]
  refine ends_sql rfl (by simp) (fun _ _ => ?_) fun n hn => ?_
  · exact ends_synchronous rfl fun _ => .rolledBack err h hcause
  · exact ends_synchronous rfl fun _ => .rollbackFailed err n hn h hcause

theorem ends_withTransaction {fn : Promise α} (hfn : Ends fn fnPost (opened h₀)) :
    Ends (withTransaction fn) (TransactionOutcome fnPost h₀) h₀ := by
  unfold withTransaction
  rw [Ends, bind_eq, ensures_bind]
  refine ends_sql rfl (by simp) (fun _ _ => ?_) fun n hn => .unavailable n hn
  rw [andThen_ok, ensures_finalizing, ensures_catching, bind_eq, ensures_bind]
  refine ends_sql rfl (by simp) (fun _ _ => ?_) fun n hn => ends_aborted (.notBegun n hn)
  rw [andThen_ok, bind_eq, ensures_bind]
  refine Ensures.mono hfn fun o h ho => ?_
  cases o with
  | error err => exact ends_aborted (.threw err h ho)
  | ok a =>
    rw [andThen_ok, bind_eq, ensures_bind]
    refine ends_sql rfl (by simp) (fun _ _ => ?_) fun n hn =>
      ends_aborted (.notCommitted a n hn h ho)
    exact ends_synchronous rfl fun _ => .committed a h ho

end Transactions

section CreateEnquiry

variable (v : NewEnquiry) (h₀ : History)

def notPublished : Err :=
  notFoundError ("Property " ++ natToString v.propertyId ++ " not found or not published")

inductive InsertOutcome : Except Err (Option EnquiryRecord) → History → Prop where
  | lookupFailed (n : NativeError) (hn : n.isDuplicateEntry = false) :
      InsertOutcome (.error (.native n))
        (h₀ ++ [⟨.selectPublishedProperty v.propertyId, .error (.native n)⟩])
  | notPublished :
      InsertOutcome (.error (notPublished v))
        (h₀ ++ [⟨.selectPublishedProperty v.propertyId, .ok []⟩])
  | insertFailed (ids : List ℕ) (hids : ids ≠ []) (n : NativeError) :
      InsertOutcome (.error (.native n))
        (h₀ ++ [⟨.selectPublishedProperty v.propertyId, .ok ids⟩] ++
          [⟨.insertEnquiry v, .error (.native n)⟩])
  | readFailed (ids : List ℕ) (hids : ids ≠ []) (id : ℕ) (n : NativeError)
      (hn : n.isDuplicateEntry = false) :
      InsertOutcome (.error (.native n))
        (h₀ ++ [⟨.selectPublishedProperty v.propertyId, .ok ids⟩] ++
          [⟨.insertEnquiry v, .ok id⟩] ++ [⟨.selectEnquiry id, .error (.native n)⟩])
  | inserted (ids : List ℕ) (hids : ids ≠ []) (id : ℕ) (rows : List EnquiryRecord)
      (row : EnquiryRecord) (hrow : rows.head? = some row) (hkey : rowKey row = (id, v)) :
      InsertOutcome (.ok (some row))
        (h₀ ++ [⟨.selectPublishedProperty v.propertyId, .ok ids⟩] ++
          [⟨.insertEnquiry v, .ok id⟩] ++ [⟨.selectEnquiry id, .ok rows⟩])

theorem ends_insertPublished (hopen : (ledger h₀).isOpen = true) :
    Ends (insertPublished v) (InsertOutcome v h₀) h₀ := by
  unfold insertPublished
  rw [Ends, bind_eq, ensures_bind]
  refine ends_sql rfl (by simp) (fun ids _ => ?_) fun n hn => .lookupFailed n hn
  rw [andThen_ok]
  by_cases hids : ids = []
  · subst hids
    exact InsertOutcome.notPublished
  · rw [if_neg (by simpa using hids), bind_eq, ensures_bind]
    refine ends_call (fun id _ => ?_) fun n _ => .insertFailed ids hids n
    rw [andThen_ok, bind_eq, ensures_bind]
    refine ends_sql rfl (by simp) (fun rows hrows => ?_) fun n hn => .readFailed ids hids id n hn
    obtain ⟨row, hrow, hkey⟩ := hrows.2 v (by
      simp [book, actionOf, Ledger.act, hopen])
    rw [andThen_ok, hrow]
    exact InsertOutcome.inserted ids hids id rows row hrow hkey

/-- `createEnquiry` after the values to insert have been computed. -/
inductive CreateOutcome : Except Err EnquiryRecord → History → Prop where
  | failed (err : Err) (h : History)
      (htx : TransactionOutcome (InsertOutcome v (opened h₀)) h₀ (.error err) h) :
      CreateOutcome (.error (mapDuplicate err)) h
  | crmSyncRejected (row : EnquiryRecord) (n : NativeError) (h : History)
      (htx : TransactionOutcome (InsertOutcome v (opened h₀)) h₀ (.ok (some row)) h) :
      CreateOutcome (.error (mapDuplicate (.native n)))
        (h ++ [⟨.addCrmSyncJob ⟨"crm-sync-" ++ natToString row.id, row.id⟩, .error (.native n)⟩])
  | emailRejected (row : EnquiryRecord) (n : NativeError) (h : History)
      (htx : TransactionOutcome (InsertOutcome v (opened h₀)) h₀ (.ok (some row)) h) :
      CreateOutcome (.error (mapDuplicate (.native n)))
        (h ++ [⟨.addCrmSyncJob ⟨"crm-sync-" ++ natToString row.id, row.id⟩, .ok ()⟩] ++
          [⟨.addEmailJob (confirmation row), .error (.native n)⟩])
  | created (row : EnquiryRecord) (h : History)
      (htx : TransactionOutcome (InsertOutcome v (opened h₀)) h₀ (.ok (some row)) h) :
      CreateOutcome (.ok row)
        (h ++ [⟨.addCrmSyncJob ⟨"crm-sync-" ++ natToString row.id, row.id⟩, .ok ()⟩] ++
          [⟨.addEmailJob (confirmation row), .ok ()⟩])

variable {h₀}

theorem isOpen_opened : (ledger (opened h₀)).isOpen = true := by
  simp [opened, book, actionOf, Ledger.act]

variable {P : Platform}

theorem ends_createEnquiry (input : CreateEnquiryInput P) (ctx : CreateEnquiryContext) :
    Ends (createEnquiry P input ctx) (CreateOutcome (newEnquiry P input ctx) h₀) h₀ := by
  unfold createEnquiry
  rw [Ends, ensures_catching, bind_eq, ensures_bind]
  refine Ensures.mono (ends_withTransaction (ends_insertPublished _ _ isOpen_opened))
    fun o h ho => ?_
  cases o with
  | error err => exact CreateOutcome.failed err h ho
  | ok row? =>
    cases row? with
    | none => cases ho with
      | committed _ h hfn => cases hfn
    | some row =>
      rw [andThen_ok]
      simp only
      rw [bind_eq, ensures_bind]
      refine ends_call (fun _ _ => ?_) fun n _ => .crmSyncRejected row n h ho
      rw [andThen_ok, bind_eq, ensures_bind]
      refine ends_call (fun _ _ => ?_) fun n _ => .emailRejected row n h ho
      exact CreateOutcome.created row h ho

end CreateEnquiry

end PropertyPlatform
