import PropertyPlatform.KeyedRequests

/-!
# What Redis remembers of a key

Everything stored or in flight was written by a request that had claimed the key.
While no entry of the key expires, the claimant is unique, so at most one request
passes the middleware and every replay repeats what that request sends.
-/

namespace PropertyPlatform

open Js Async Program

variable {P : Platform} {ι : Type} [DecidableEq ι] {calls : ι → Call P} {c c' : System ι} {i : ι}
variable {k : String}

/-- The response a completion of this key carries. -/
def completionOf (k : String) (e : Event signature) : Option Response :=
  match e.request with
  | .set k' (.completed response) _ => if k' = k then some response else none
  | _ => none

/-- The completions of a key, in the order they were sent. -/
def written (k : String) (trace : List (ι × Event signature)) : List Response :=
  trace.filterMap fun x => completionOf k x.2

section Steps

/-- What one answered operation does to Redis. -/
inductive World.RedisStep (w : World ι) : Event signature → World ι → Prop where
  | claimed {k : String} {record : IdempotencyRecord} {ttl : ℕ} {r : Except Err Bool}
      {w' : World ι} (hfree : w.entry k = none) (hr : r ≠ .ok false)
      (hredis : w'.redis =
        Function.update w.redis k (some ⟨record, w.now + ttl * 1000⟩))
      (hinflight : w'.inflight = w.inflight) (hnow : w'.now = w.now) :
      RedisStep w ⟨.setNx k record ttl, r⟩ w'
  | issued {k : String} {record : IdempotencyRecord} {ttl : ℕ} {w' : World ι}
      (hredis : w'.redis = w.redis) (hinflight : w'.inflight = w.inflight ++ [⟨k, record, ttl⟩])
      (hnow : w'.now = w.now) : RedisStep w ⟨.set k record ttl, .ok ()⟩ w'
  | other {e : Event signature} {w' : World ι} (hredis : w'.redis = w.redis)
      (hinflight : w'.inflight = w.inflight) (hnow : w'.now = w.now)
      (hclaim : ∀ k record ttl, e ≠ ⟨.setNx k record ttl, .ok true⟩)
      (hset : ∀ k record ttl r, e ≠ ⟨.set k record ttl, r⟩)
      (hget : ∀ k x, e = ⟨.get k, .ok x⟩ → x = (w.entry k).map RedisEntry.record) :
      RedisStep w e w'

/-- A lookup finds what is stored. -/
theorem World.Served.get {w w' : World ι} {q : Operation} {r : Except Err q.Reply}
    (h : w.Served P i q r w') {x : Option IdempotencyRecord}
    (he : (⟨q, r⟩ : Event signature) = ⟨.get k, .ok x⟩) :
    x = (w.entry k).map RedisEntry.record := by
  cases he
  cases h with
  | answered h => cases h; rfl

theorem World.Served.redisStep {w w' : World ι} {q : Operation} {r : Except Err q.Reply}
    (h : w.Served P i q r w') : w.RedisStep ⟨q, r⟩ w' := by
  have hget := fun k x => h.get (k := k) (x := x)
  cases h.effect with
  | idle hidle =>
    refine .other rfl rfl rfl (fun k record ttl heq => ?_) (fun k record ttl r heq => ?_) hget
    · rw [heq] at hidle
      cases hidle
    · rw [heq] at hidle
      cases hidle
  | claimed key record ttl r hfree hr => exact .claimed hfree hr rfl rfl rfl
  | issued key record ttl => exact .issued rfl rfl rfl
  | _ => exact .other rfl rfl rfl (by simp) (by simp) (by simp)

/-- What a move of the environment does to Redis. -/
inductive World.RedisDrift (w w' : World ι) : Prop where
  | applied {n : ℕ} {x : InflightWrite} (hx : w.inflight[n]? = some x)
      (hredis : w'.redis =
        Function.update w.redis x.key (some ⟨x.record, w.now + x.ttlSeconds * 1000⟩))
      (hinflight : w'.inflight = w.inflight.eraseIdx n) (hnow : w'.now = w.now)
  | dropped {n : ℕ} (hredis : w'.redis = w.redis)
      (hinflight : w'.inflight = w.inflight.eraseIdx n) (hnow : w'.now = w.now)
  | other (hredis : w'.redis = w.redis) (hinflight : w'.inflight = w.inflight)
      (hnow : w.now ≤ w'.now)

theorem World.redisDrift_of_drift {w w' : World ι} {d : Drift ι} (h : drift d w = some w') :
    w.RedisDrift w' := by
  cases d with
  | tick ms => cases h; exact .other rfl rfl (Nat.le_add_right _ _)
  | applyWrite n =>
    obtain ⟨x, hx, rfl⟩ := Option.map_eq_some_iff.mp h
    exact .applied hx rfl rfl rfl
  | dropWrite n =>
    obtain ⟨x, -, rfl⟩ := Option.map_eq_some_iff.mp h
    exact .dropped rfl rfl rfl
  | _ => cases h; exact .other rfl rfl le_rfl

/-- Time never runs backwards. -/
theorem now_le_of_step (h : Step (server P) c c') : c.world.now ≤ c'.world.now := by
  cases h with
  | serve hprogram hserve =>
    rw [Config.answered_world]
    cases (World.served_of_serve hserve).2.redisStep with
    | claimed hfree hr hredis hinflight hnow => exact hnow.ge
    | issued hredis hinflight hnow => exact hnow.ge
    | other hredis hinflight hnow => exact hnow.ge
  | drift hdrift =>
    cases World.redisDrift_of_drift hdrift with
    | applied hx hredis hinflight hnow => exact hnow.ge
    | dropped hredis hinflight hnow => exact hnow.ge
    | other hredis hinflight hnow => exact hnow

end Steps

section Sources

/-- The number of stored completions of a key: one or none. -/
def World.storedCompletions (w : World ι) (k : String) : ℕ :=
  match w.redis k with
  | some ⟨.completed _, _⟩ => 1
  | _ => 0

def World.inflightCompletions (w : World ι) (k : String) : ℕ :=
  w.inflight.countP fun x => x.key == k

/-- Every completion in Redis, on its way there or read from there was written before. -/
structure Sourced (c : System ι) : Prop where
  inflight : ∀ x ∈ c.world.inflight, ∃ response, x.record = .completed response ∧
    x.ttlSeconds = idempotencyTtlSeconds ∧ response ∈ written x.key c.trace
  stored : ∀ k e, c.world.redis k = some e → e.record = .processing ∨
    ∃ response, e.record = .completed response ∧ response ∈ written k c.trace
  found : ∀ i k response, (i, lookingUp k (.ok (some (.completed response)))) ∈ c.trace →
    response ∈ written k c.trace
  budget : ∀ k, c.world.inflightCompletions k + c.world.storedCompletions k ≤
    (written k c.trace).length

omit [DecidableEq ι] in
theorem written_append (k : String) (trace : List (ι × Event signature)) (i : ι)
    (e : Event signature) :
    written k (trace ++ [(i, e)]) = written k trace ++ (completionOf k e).toList := by
  unfold written
  rw [List.filterMap_append]
  cases h : completionOf k e <;> simp [h]

omit [DecidableEq ι] in
theorem mem_written_append {trace : List (ι × Event signature)} {response : Response}
    (h : response ∈ written k trace) (i : ι) (e : Event signature) :
    response ∈ written k (trace ++ [(i, e)]) := by
  rw [written_append]
  exact List.mem_append_left _ h

/-- Only a completion is ever set, and only the marker is ever claimed. -/
theorem Reachable.set_completed (h : Reachable P calls c) {record : IdempotencyRecord} {ttl : ℕ}
    {resume : Except Err Unit → Promise (Option EnquiryRecord)}
    (hq : c.program i = .await (.set k record ttl) resume) :
    (∃ response, record = .completed response) ∧ ttl = idempotencyTtlSeconds := by
  have hfoot := h.footprint_of_await hq
  cases hcall : calls i with
  | postEnquiry req route =>
    rw [hcall] at hfoot
    cases hfoot with
    | limiter l hq => cases hq
    | idempotency hq => exact hq.2
    | create input hvalid hq => exact hq.elim
  | _ => rw [hcall] at hfoot; exact hfoot.elim

theorem Reachable.setNx_processing (h : Reachable P calls c) {record : IdempotencyRecord}
    {ttl : ℕ} {resume : Except Err Bool → Promise (Option EnquiryRecord)}
    (hq : c.program i = .await (.setNx k record ttl) resume) :
    record = .processing ∧ ttl = idempotencyTtlSeconds := by
  have hfoot := h.footprint_of_await hq
  cases hcall : calls i with
  | postEnquiry req route =>
    rw [hcall] at hfoot
    cases hfoot with
    | limiter l hq => cases hq
    | idempotency hq => exact hq.2
    | create input hvalid hq => exact hq.elim
  | _ => rw [hcall] at hfoot; exact hfoot.elim

omit [DecidableEq ι] in
theorem World.record_of_entry {w : World ι} {record : IdempotencyRecord}
    (h : (w.entry k).map RedisEntry.record = some record) :
    ∃ e, w.redis k = some e ∧ e.record = record := by
  obtain ⟨e, he, rfl⟩ := Option.map_eq_some_iff.mp h
  exact ⟨e, (Option.filter_eq_some_iff.mp he).1, rfl⟩

omit [DecidableEq ι] in
theorem length_written_append (k : String) (trace : List (ι × Event signature)) (i : ι)
    (e : Event signature) :
    (written k (trace ++ [(i, e)])).length =
      (written k trace).length + (completionOf k e).toList.length := by
  rw [written_append, List.length_append]

omit [DecidableEq ι] in
theorem World.storedCompletions_update {w w' : World ι} {e : RedisEntry}
    (h : w'.redis = Function.update w.redis k (some e)) (k' : String) :
    w'.storedCompletions k' = if k' = k then
      (match e.record with
        | .processing => 0
        | .completed _ => 1) else w.storedCompletions k' := by
  unfold storedCompletions
  rw [h]
  split_ifs with hk
  · subst hk
    rw [Function.update_self]
    rcases e with ⟨_ | _, _⟩ <;> rfl
  · rw [Function.update_of_ne hk]

omit [DecidableEq ι] in
theorem World.storedCompletions_congr {w w' : World ι} (h : w'.redis = w.redis) (k : String) :
    w'.storedCompletions k = w.storedCompletions k := by
  unfold storedCompletions
  rw [h]

omit [DecidableEq ι] in
/-- Applying or dropping a write takes it out of flight. -/
theorem World.inflightCompletions_erase {w w' : World ι} {n : ℕ} {x : InflightWrite}
    (hx : w.inflight[n]? = some x) (h : w'.inflight = w.inflight.eraseIdx n) (k : String) :
    w'.inflightCompletions k + (if x.key = k then 1 else 0) = w.inflightCompletions k := by
  obtain ⟨hn, rfl⟩ := List.getElem?_eq_some_iff.mp hx
  unfold inflightCompletions
  rw [h, ← (List.getElem_cons_eraseIdx_perm hn).countP_eq, List.countP_cons]
  simp

section Served

variable {q : Operation} {r : Except Err q.Reply} {w' : World ι}
variable {resume : Except Err q.Reply → Promise (Option EnquiryRecord)}

theorem Sourced.inflight_step (h : Sourced c) (hc : Reachable P calls c)
    (hq : c.program i = .await q resume) (hserved : c.world.Served P i q r w') :
    ∀ x ∈ w'.inflight, ∃ response, x.record = .completed response ∧
      x.ttlSeconds = idempotencyTtlSeconds ∧
        response ∈ written x.key (c.trace ++ [(i, ⟨q, r⟩)]) := by
  have hold : ∀ x ∈ c.world.inflight, ∃ response, x.record = .completed response ∧
      x.ttlSeconds = idempotencyTtlSeconds ∧
        response ∈ written x.key (c.trace ++ [(i, ⟨q, r⟩)]) := by
    intro x hx
    obtain ⟨response, hrecord, httl, hmem⟩ := h.inflight x hx
    exact ⟨response, hrecord, httl, mem_written_append hmem _ _⟩
  cases hserved.redisStep with
  | @issued k record ttl _ hredis hinflight hnow =>
    obtain ⟨⟨response, rfl⟩, rfl⟩ := hc.set_completed hq
    intro x hx
    rw [hinflight] at hx
    rcases List.mem_append.mp hx with hx | hx
    · exact hold x hx
    · rw [List.mem_singleton.mp hx]
      refine ⟨response, rfl, rfl, ?_⟩
      rw [written_append]
      exact List.mem_append_right _ (by simp [completionOf])
  | claimed hfree hr hredis hinflight hnow =>
    rw [hinflight]
    exact hold
  | other hredis hinflight hnow hclaim hset hget =>
    rw [hinflight]
    exact hold

theorem Sourced.stored_step (h : Sourced c) (hc : Reachable P calls c)
    (hq : c.program i = .await q resume) (hserved : c.world.Served P i q r w') {e : RedisEntry}
    (he : w'.redis k = some e) : e.record = .processing ∨
      ∃ response, e.record = .completed response ∧
        response ∈ written k (c.trace ++ [(i, ⟨q, r⟩)]) := by
  have hold : c.world.redis k = some e → e.record = .processing ∨
      ∃ response, e.record = .completed response ∧
        response ∈ written k (c.trace ++ [(i, ⟨q, r⟩)]) := by
    intro he
    rcases h.stored k e he with hp | ⟨response, hrecord, hmem⟩
    · exact Or.inl hp
    · exact Or.inr ⟨response, hrecord, mem_written_append hmem _ _⟩
  cases hserved.redisStep with
  | @claimed k' record ttl r _ hfree hr hredis hinflight hnow =>
    obtain ⟨rfl, rfl⟩ := hc.setNx_processing hq
    rw [hredis] at he
    by_cases hk : k = k'
    · subst hk
      rw [Function.update_self] at he
      cases he
      exact Or.inl rfl
    · rw [Function.update_of_ne hk] at he
      exact hold he
  | issued hredis hinflight hnow =>
    rw [hredis] at he
    exact hold he
  | other hredis hinflight hnow hclaim hset hget =>
    rw [hredis] at he
    exact hold he

theorem Sourced.found_step (h : Sourced c) (hserved : c.world.Served P i q r w') {j : ι}
    {response : Response} (hmem : (j, lookingUp k (.ok (some (.completed response)))) ∈
      c.trace ++ [(i, (⟨q, r⟩ : Event signature))]) :
    response ∈ written k (c.trace ++ [(i, ⟨q, r⟩)]) := by
  rcases List.mem_append.mp hmem with hmem | hmem
  · exact mem_written_append (h.found j k response hmem) _ _
  · obtain ⟨-, he⟩ := Prod.mk.inj (List.mem_singleton.mp hmem)
    have hentry := hserved.get he.symm
    obtain ⟨e, hredis, hrecord⟩ := World.record_of_entry hentry.symm
    rcases h.stored k e hredis with hp | ⟨response', hrecord', hold⟩
    · rw [hrecord] at hp
      cases hp
    · rw [hrecord] at hrecord'
      cases hrecord'
      exact mem_written_append hold _ _

theorem Sourced.budget_step (h : Sourced c) (hc : Reachable P calls c)
    (hq : c.program i = .await q resume) (hserved : c.world.Served P i q r w') (k : String) :
    w'.inflightCompletions k + w'.storedCompletions k ≤
      (written k (c.trace ++ [(i, ⟨q, r⟩)])).length := by
  have hold := h.budget k
  rw [length_written_append]
  cases hserved.redisStep with
  | @claimed k' record ttl r _ hfree hr hredis hinflight hnow =>
    obtain ⟨rfl, rfl⟩ := hc.setNx_processing hq
    rw [World.storedCompletions_update hredis]
    unfold World.inflightCompletions at hold ⊢
    rw [hinflight]
    dsimp only
    split_ifs <;> omega
  | @issued k' record ttl _ hredis hinflight hnow =>
    obtain ⟨⟨response, rfl⟩, rfl⟩ := hc.set_completed hq
    rw [World.storedCompletions_congr hredis]
    unfold World.inflightCompletions at hold ⊢
    rw [hinflight, List.countP_append]
    by_cases hk : k' = k
    · simp [completionOf, hk]
      omega
    · simp [completionOf, hk]
      omega
  | other hredis hinflight hnow hclaim hset hget =>
    rw [World.storedCompletions_congr hredis]
    unfold World.inflightCompletions at hold ⊢
    rw [hinflight]
    omega

theorem Sourced.serve_step (h : Sourced c) (hc : Reachable P calls c)
    (hq : c.program i = .await q resume) (hserved : c.world.Served P i q r w') :
    Sourced (c.answered i q r resume w') where
  inflight := h.inflight_step hc hq hserved
  stored _ _ he := h.stored_step hc hq hserved he
  found _ _ _ hmem := h.found_step hserved hmem
  budget k := h.budget_step hc hq hserved k

end Served

omit [DecidableEq ι] in
theorem World.RedisDrift.inflight_sublist {w w' : World ι} (h : w.RedisDrift w') :
    w'.inflight.Sublist w.inflight := by
  cases h with
  | applied hx hredis hinflight hnow =>
    rw [hinflight]
    exact List.eraseIdx_sublist _ _
  | dropped hredis hinflight hnow =>
    rw [hinflight]
    exact List.eraseIdx_sublist _ _
  | other hredis hinflight hnow => rw [hinflight]

omit [DecidableEq ι] in
theorem Sourced.stored_drift (h : Sourced c) {w' : World ι} (hdrift : c.world.RedisDrift w')
    {e : RedisEntry} (he : w'.redis k = some e) : e.record = .processing ∨
      ∃ response, e.record = .completed response ∧ response ∈ written k c.trace := by
  cases hdrift with
  | @applied n x hx hredis hinflight hnow =>
    obtain ⟨response, hrecord, -, hmem⟩ := h.inflight x (List.mem_of_getElem? hx)
    rw [hredis] at he
    by_cases hk : k = x.key
    · subst hk
      rw [Function.update_self] at he
      cases he
      exact Or.inr ⟨response, hrecord, hmem⟩
    · rw [Function.update_of_ne hk] at he
      exact h.stored k e he
  | dropped hredis hinflight hnow =>
    rw [hredis] at he
    exact h.stored k e he
  | other hredis hinflight hnow =>
    rw [hredis] at he
    exact h.stored k e he

omit [DecidableEq ι] in
/-- A write that is applied moves from one side of the sum to the other. -/
theorem Sourced.budget_drift (h : Sourced c) {w' : World ι} (hdrift : c.world.RedisDrift w')
    (k : String) : w'.inflightCompletions k + w'.storedCompletions k ≤
      (written k c.trace).length := by
  have hold := h.budget k
  have hle : w'.inflightCompletions k ≤ c.world.inflightCompletions k :=
    hdrift.inflight_sublist.countP_le
  cases hdrift with
  | @applied n x hx hredis hinflight hnow =>
    obtain ⟨response, hrecord, -, -⟩ := h.inflight x (List.mem_of_getElem? hx)
    have herase := World.inflightCompletions_erase hx hinflight k
    simp only [World.storedCompletions_update hredis, hrecord]
    split_ifs with hk
    · subst hk
      rw [if_pos rfl] at herase
      omega
    · omega
  | dropped hredis hinflight hnow =>
    rw [World.storedCompletions_congr hredis]
    omega
  | other hredis hinflight hnow =>
    rw [World.storedCompletions_congr hredis]
    omega

theorem Sourced.drift_step (h : Sourced c) {d : Drift ι} {w' : World ι}
    (hdrift : World.drift d c.world = some w') : Sourced { c with world := w' } where
  inflight x hx := h.inflight x
    ((World.redisDrift_of_drift hdrift).inflight_sublist.subset hx)
  stored _ _ he := h.stored_drift (World.redisDrift_of_drift hdrift) he
  found := h.found
  budget := h.budget_drift (World.redisDrift_of_drift hdrift)

theorem Reachable.sourced (h : Reachable P calls c) : Sourced c := by
  refine h.induct (fun _ _ => ⟨?_, ?_, ?_, ?_⟩)
    (fun _ _ _ _ _ _ hc ih hq _ hserved => ih.serve_step hc hq hserved)
    (fun _ _ _ _ ih hdrift => ih.drift_step hdrift)
  · exact fun _ hx => (List.not_mem_nil hx).elim
  · exact fun _ _ he => by cases he
  · exact fun _ _ _ hmem => (List.not_mem_nil hmem).elim
  · exact fun _ => le_rfl

end Sources

section Owners

/-- No entry of the key is past its lifetime. -/
def Unexpired (k : String) (c : System ι) : Prop :=
  ∀ e, c.world.redis k = some e → c.world.now ≤ e.expiresAt

omit [DecidableEq ι] in
theorem entry_of_unexpired (h : Unexpired k c) : c.world.entry k = c.world.redis k := by
  unfold World.entry
  cases hredis : c.world.redis k with
  | none => rfl
  | some e => simp [h e hredis]

/-- A key is free until somebody claims it, and claimed once. -/
structure Owned (k : String) (c : System ι) : Prop where
  free : c.world.redis k = none → ∀ i, (i, claiming k (.ok true)) ∉ c.trace
  unique : ∀ i j, (i, claiming k (.ok true)) ∈ c.trace → (j, claiming k (.ok true)) ∈ c.trace →
    i = j

omit [DecidableEq ι] in
theorem Owned.frame (h : Owned k c) {e : Event signature} (he : e ≠ claiming k (.ok true))
    {w' : World ι} (hredis : w'.redis k = none → c.world.redis k = none)
    {programs : ι → Promise (Option EnquiryRecord)} :
    Owned k ⟨w', programs, c.trace ++ [(i, e)]⟩ := by
  have hold : ∀ j, (j, claiming k (.ok true)) ∈ c.trace ++ [(i, e)] →
      (j, claiming k (.ok true)) ∈ c.trace := by
    intro j hmem
    rcases List.mem_append.mp hmem with hmem | hmem
    · exact hmem
    · obtain ⟨-, heq⟩ := Prod.mk.inj (List.mem_singleton.mp hmem)
      exact absurd heq.symm he
  exact ⟨fun hnone j hmem => h.free (hredis hnone) j (hold j hmem),
    fun j j' hj hj' => h.unique j j' (hold j hj) (hold j' hj')⟩

theorem Owned.serve_step (h : Owned k c) (hunexpired : Unexpired k c) {q : Operation}
    {r : Except Err q.Reply} {resume : Except Err q.Reply → Promise (Option EnquiryRecord)}
    {w' : World ι} (hserved : c.world.Served P i q r w') :
    Owned k (c.answered i q r resume w') := by
  cases hserved.redisStep with
  | @claimed k' record ttl r _ hfree hr hredis hinflight hnow =>
    by_cases hk : k' = k
    · subst hk
      rw [entry_of_unexpired hunexpired] at hfree
      refine ⟨fun hnone => ?_, fun j j' hj hj' => ?_⟩
      · rw [Config.answered_world, hredis, Function.update_self] at hnone
        cases hnone
      · have hnew : ∀ j, (j, claiming k' (.ok true)) ∈
            c.trace ++ [(i, (⟨.setNx k' record ttl, r⟩ : Event signature))] → j = i := by
          intro j hmem
          rcases List.mem_append.mp hmem with hmem | hmem
          · exact absurd hmem (h.free hfree j)
          · exact (Prod.mk.inj (List.mem_singleton.mp hmem)).1
        rw [hnew j hj, hnew j' hj']
    · refine h.frame (fun heq => ?_) fun hnone => ?_
      · cases heq
        exact hk rfl
      · rwa [hredis, Function.update_of_ne (Ne.symm hk)] at hnone
  | issued hredis hinflight hnow =>
    exact h.frame (fun heq => by cases heq) fun hnone => by rwa [hredis] at hnone
  | other hredis hinflight hnow hclaim =>
    exact h.frame (hclaim _ _ _) fun hnone => by rwa [hredis] at hnone

theorem Owned.drift_step (h : Owned k c) {d : Drift ι} {w' : World ι}
    (hdrift : World.drift d c.world = some w') : Owned k { c with world := w' } := by
  refine ⟨fun hnone => h.free ?_, h.unique⟩
  cases World.redisDrift_of_drift hdrift with
  | @applied n x hx hredis hinflight hnow =>
    by_cases hk : k = x.key
    · simp only [hredis, hk, Function.update_self] at hnone
      cases hnone
    · simpa only [hredis, Function.update_of_ne hk] using hnone
  | dropped hredis hinflight hnow => simpa only [hredis] using hnone
  | other hredis hinflight hnow => simpa only [hredis] using hnone

/-- A run during which no entry of the key expires. -/
def ReachableUnexpired (P : Platform) (calls : ι → Call P) (k : String) (c : System ι) : Prop :=
  ∃ now properties, RunWhere (server P) (fun _ c' => Unexpired k c')
    (start P calls now properties) c

theorem ReachableUnexpired.reachable (h : ReachableUnexpired P calls k c) :
    Reachable P calls c := by
  obtain ⟨now, properties, hrun⟩ := h
  exact ⟨now, properties, hrun.run⟩

theorem ReachableUnexpired.owned (h : ReachableUnexpired P calls k c) :
    Unexpired k c ∧ Owned k c := by
  obtain ⟨now, properties, hrun⟩ := h
  refine RunWhere.invariant (P := fun c => Unexpired k c ∧ Owned k c) hrun ⟨?_, ?_, ?_⟩
    fun a b _ ⟨hunexpired, howned⟩ hstep hnext => ⟨hnext, ?_⟩
  · intro e he
    cases he
  · exact fun _ _ hmem => List.not_mem_nil hmem
  · exact fun _ _ hmem => (List.not_mem_nil hmem).elim
  · cases hstep with
    | serve hprogram hserved =>
      exact howned.serve_step hunexpired (World.served_of_serve hserved).2
    | drift hdrift => exact howned.drift_step hdrift

end Owners

end PropertyPlatform
