import PropertyPlatform.Consistency

/-!
# What a call may rely on

The replies any call gets in any run: errors come from libraries, only an insert is
rejected as a duplicate, and a session reads back the row it has just inserted.
-/

namespace PropertyPlatform

open Js Async

/-- The row a session has inserted and not yet committed is the one it reads. -/
def readsOwn (h : History) : (q : Operation) → Except Err q.Reply → Prop
  | .selectEnquiry id, .ok rows => ∀ v, (id, v) ∈ (ledger h).pending →
      ∃ row, rows.head? = some row ∧ rowKey row = (id, v)
  | _, _ => True

def honest : Protocol signature := fun h q r =>
  (∀ e, r = .error e → q.isSynchronous = false ∧ ∃ n, e = .native n ∧
    (q.isSql = true → n.isDuplicateEntry = true → ∃ v, q = .insertEnquiry v)) ∧
  readsOwn h q r

section Errors

variable {h : History} {q : Operation} {r : Except Err q.Reply}

theorem honest.native {e : Err} (hr : honest h q (.error e)) : ∃ n, e = .native n := by
  obtain ⟨-, n, hn, -⟩ := hr.1 e rfl
  exact ⟨n, hn⟩

theorem honest.not_duplicate {e : Err} (hr : honest h q (.error e)) (hsql : q.isSql = true)
    (hq : ∀ v, q ≠ .insertEnquiry v) : ∃ n, e = .native n ∧ n.isDuplicateEntry = false := by
  obtain ⟨-, n, hn, hdup⟩ := hr.1 e rfl
  refine ⟨n, hn, ?_⟩
  cases hd : n.isDuplicateEntry with
  | false => rfl
  | true =>
    obtain ⟨v, hv⟩ := hdup hsql hd
    exact absurd hv (hq v)

/-- What is not awaited always succeeds. -/
theorem honest.synchronous (hr : honest h q r) (hq : q.isSynchronous = true) :
    ∃ a, r = .ok a := by
  cases r with
  | ok a => exact ⟨a, rfl⟩
  | error e =>
    have hsync := (hr.1 e rfl).1
    rw [hq] at hsync
    cases hsync

end Errors

variable {P : Platform} {ι : Type} [DecidableEq ι]

namespace World

theorem error_of_answer {w w' : World ι} {i : ι} {q : Operation} {e : Err}
    (h : w.answer P i q = some (.error e, w')) : q.isSynchronous = false ∧ ∃ n, e = .native n ∧
      (q.isSql = true → n.isDuplicateEntry = true → ∃ v, q = .insertEnquiry v) := by
  cases q with
  | insertEnquiry v =>
    rcases insertEnquiry_cases h with ⟨n, hn, -, -⟩ | ⟨hr, -⟩
    · cases hn
      exact ⟨rfl, n, rfl, fun _ _ => ⟨v, rfl⟩⟩
    · cases hr
  | updateEnquiry u =>
    rcases updateEnquiry_cases h with ⟨-, hn⟩ | ⟨-, -, hr, -⟩
    · cases e with
      | native n => exact ⟨rfl, n, rfl, fun _ hdup => absurd hdup (by simp [hn n rfl])⟩
      | app a =>
        simp only [answer, updateEnquiry] at h
        split_ifs at h <;> cases h
    · cases hr
  | insertWebhookEvent v =>
    rcases insertWebhookEvent_cases h with ⟨n, hn, -, hdup, -⟩ | ⟨hr, -⟩
    · cases hn
      exact ⟨rfl, n, rfl, fun _ hd => absurd hd (by simp [hdup])⟩
    · cases hr
  | setNx key record ttl =>
    simp only [answer] at h
    split_ifs at h <;> cases h
  | _ => cases h

theorem error_of_mayReject {q : Operation} {n : NativeError} (h : q.mayReject n = true) :
    q.isSynchronous = false ∧ ∃ n', Err.native n = .native n' ∧
      (q.isSql = true → n'.isDuplicateEntry = true → ∃ v, q = .insertEnquiry v) := by
  unfold Operation.mayReject at h
  simp only [Bool.and_eq_true, Bool.not_eq_true', Bool.and_eq_false_iff] at h
  refine ⟨h.1, n, rfl, fun hsql hdup => ?_⟩
  rcases h.2 with h2 | h2
  · rw [hsql] at h2
    cases h2
  · rw [hdup] at h2
    cases h2

theorem Served.error {w w' : World ι} {i : ι} {q : Operation} {e : Err}
    (h : w.Served P i q (.error e) w') : q.isSynchronous = false ∧ ∃ n, e = .native n ∧
      (q.isSql = true → n.isDuplicateEntry = true → ∃ v, q = .insertEnquiry v) := by
  cases h with
  | answered h => exact error_of_answer h
  | lost h hauto he => exact error_of_mayReject he
  | rejected he => exact error_of_mayReject he

/-- Ids are unique, so the row read back is the pending one. -/
theorem reads_own {c : System ι} (hc : Consistent c) {i : ι} (hlive : c.world.crashed i = false)
    {id : ℕ} {v : NewEnquiry} (hpending : (id, v) ∈ (ledger (c.own i)).pending) :
    ∃ row, (c.world.selectEnquiry i id).head? = some row ∧ rowKey row = (id, v) := by
  obtain ⟨row, hrow, hkey⟩ := hc.represents.pending_stored i hlive _ hpending
  have hid : row.id = id := congrArg Prod.fst hkey
  have hmem : row ∈ c.world.selectEnquiry i id := by
    unfold selectEnquiry
    exact List.mem_map.mpr ⟨_, List.mem_filter.mpr ⟨hrow, by simp [hid]⟩, rfl⟩
  have hsame : ∀ row' ∈ c.world.selectEnquiry i id, row' = row := by
    intro row' hrow'
    obtain ⟨x, hx, rfl⟩ := List.mem_map.mp hrow'
    obtain ⟨hx, hcond⟩ := List.mem_filter.mp hx
    simp only [Bool.and_eq_true, beq_iff_eq] at hcond
    exact Table.eq_of_key hc.ids_unique (List.mem_map.mpr ⟨_, hx, rfl⟩)
      (List.mem_map.mpr ⟨_, hrow, rfl⟩) (hcond.1.trans hid.symm)
  cases hsel : c.world.selectEnquiry i id with
  | nil => rw [hsel] at hmem; cases hmem
  | cons row' rest =>
    have heq := hsame row' (by rw [hsel]; exact List.mem_cons_self)
    exact ⟨row', rfl, by rw [heq, hkey]⟩

end World

/-- Every reply of every run is honest. -/
theorem obeys_honest (calls : ι → Call P) (now : ℕ) (properties : ℕ → Option PropertyStatus) :
    Obeys (fun _ : ι => honest) (server P) (start P calls now properties) := by
  intro c i q choice r w hrun hserve
  obtain ⟨hlive, hserved⟩ := World.served_of_serve hserve
  refine ⟨fun e he => ?_, ?_⟩
  · subst he
    exact hserved.error
  · have hreachable : Reachable P calls c := ⟨now, properties, hrun⟩
    have hc := hreachable.consistent
    cases q with
    | selectEnquiry id =>
      cases r with
      | error e => trivial
      | ok rows =>
        cases hserved with
        | answered h =>
          cases h
          exact fun v hv => World.reads_own hc hlive hv
    | _ => trivial

end PropertyPlatform
