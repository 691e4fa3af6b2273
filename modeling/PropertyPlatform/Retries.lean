import PropertyPlatform.Replays

/-!
# What a retry meets

A claimed key stays taken for its whole lifetime, whatever becomes of the claimant. A
retry is answered with the stored response once the completion has arrived, and is
left without an answer before.
-/

namespace PropertyPlatform

open Js Async Program

variable {P : Platform} {ι : Type} [DecidableEq ι] {calls : ι → Call P} {a b c c' : System ι}
variable {i j : ι} {k path key : String}

section Lifetime

/-- A step by which the key is claimed. -/
def ClaimsAt (P : Platform) (k : String) (i : ι) (a b : System ι) : Prop :=
  Step (server P) a b ∧ b.trace = a.trace ++ [(i, claiming k (.ok true))]

/-- The moment until which a claim made now keeps its key. -/
def lifetimeEnd (c : System ι) : ℕ := c.world.now + idempotencyTtlSeconds * 1000

/-- The key is taken at least until a moment, and was not claimed again. -/
structure Held (k : String) (deadline : ℕ) (b c : System ι) : Prop where
  time : deadline ≤ lifetimeEnd c
  taken : ∃ e, c.world.redis k = some e ∧ deadline ≤ e.expiresAt
  claims : ∀ j, (j, claiming k (.ok true)) ∈ c.trace → (j, claiming k (.ok true)) ∈ b.trace

theorem last_event {e : Event signature} (h : Step (server P) a b)
    (htrace : b.trace = a.trace ++ [(i, e)]) :
    a.world.RedisStep e b.world ∧ ∃ k, a.program i = .await e.request k := by
  cases h with
  | @serve j q resume choice r w' hprogram hserve =>
    rw [Config.answered_trace] at htrace
    have hlast := List.append_cancel_left htrace
    cases hlast
    exact ⟨(World.served_of_serve hserve).2.redisStep, resume, hprogram⟩
  | drift hdrift =>
    have hlength := congrArg List.length htrace
    simp at hlength

theorem Held.of_claim (hclaim : ClaimsAt P k i a b) :
    Held k (lifetimeEnd a) b b := by
  obtain ⟨hstep, htrace⟩ := hclaim
  obtain ⟨hredis, resume, hprogram⟩ := last_event hstep htrace
  refine ⟨?_, ?_, fun j hj => hj⟩
  · exact Nat.add_le_add_right (now_le_of_step hstep) _
  · cases hredis with
    | claimed hfree hr hredis hinflight hnow =>
      refine ⟨_, by rw [hredis, Function.update_self], ?_⟩
      exact le_refl (lifetimeEnd a)
    | other hredis hinflight hnow hset => exact absurd rfl (hset _ _ _)

theorem Held.step {d : ℕ} (h : Held k d b c) (hc : Reachable P calls c)
    (hstep : Step (server P) c c') (hnow : c'.world.now ≤ d) : Held k d b c' := by
  obtain ⟨htime, ⟨e, he, hexpires⟩, hclaims⟩ := h
  have hmono := now_le_of_step hstep
  have htime' : d ≤ lifetimeEnd c' := htime.trans (Nat.add_le_add_right hmono _)
  have hentry : c.world.entry k = some e := by
    have hlive : c.world.now ≤ e.expiresAt := by omega
    simp [World.entry, he, hlive]
  cases hstep with
  | @serve j q resume choice r w' hprogram hserve =>
    have hnoclaim : (⟨q, r⟩ : Event signature) ≠ claiming k (.ok true) →
        ∀ j', (j', claiming k (.ok true)) ∈ c.trace ++ [(j, (⟨q, r⟩ : Event signature))] →
          (j', claiming k (.ok true)) ∈ b.trace := by
      intro hne j' hmem
      rcases List.mem_append.mp hmem with hmem | hmem
      · exact hclaims j' hmem
      · exact absurd (Prod.mk.inj (List.mem_singleton.mp hmem)).2.symm hne
    cases (World.served_of_serve hserve).2.redisStep with
    | @claimed k' record ttl r _ hfree hr hredis hinflight hnow' =>
      by_cases hk : k' = k
      · subst hk
        rw [hentry] at hfree
        cases hfree
      · refine ⟨htime', ⟨e, ?_, hexpires⟩, hnoclaim fun heq => ?_⟩
        · rw [Config.answered_world, hredis, Function.update_of_ne (Ne.symm hk), he]
        · cases heq
          exact hk rfl
    | issued hredis hinflight hnow' =>
      exact ⟨htime', ⟨e, by rw [Config.answered_world, hredis, he], hexpires⟩,
        hnoclaim fun heq => by cases heq⟩
    | other hredis hinflight hnow' hclaim =>
      exact ⟨htime', ⟨e, by rw [Config.answered_world, hredis, he], hexpires⟩,
        hnoclaim (hclaim _ _ _)⟩
  | drift hdrift =>
    cases World.redisDrift_of_drift hdrift with
    | @applied n x hx hredis hinflight hnow' =>
      by_cases hk : k = x.key
      · obtain ⟨response, -, httl, -⟩ := hc.sourced.inflight x (List.mem_of_getElem? hx)
        refine ⟨htime', ⟨⟨x.record, c.world.now + x.ttlSeconds * 1000⟩, ?_, ?_⟩, hclaims⟩
        · simp only [hredis, hk, Function.update_self]
        · rw [httl]
          exact htime
      · refine ⟨htime', ⟨e, ?_, hexpires⟩, hclaims⟩
        simp only [hredis, Function.update_of_ne hk, he]
    | dropped hredis hinflight hnow' => exact ⟨htime', ⟨e, by rw [hredis, he], hexpires⟩, hclaims⟩
    | other hredis hinflight hnow' => exact ⟨htime', ⟨e, by rw [hredis, he], hexpires⟩, hclaims⟩

theorem Held.run {d : ℕ} (h : Held k d b b) (hb : Reachable P calls b)
    (hrun : Run (server P) b c) (hnow : c.world.now ≤ d) : Held k d b c := by
  have hwhere : RunWhere (server P) (fun _ c' => c'.world.now ≤ d) b c :=
    RunWhere.of_run (fun c => c.world.now ≤ d) hrun
      (fun _ _ hstep hle => (now_le_of_step hstep).trans hle) (fun _ _ _ hle => hle) hnow
  exact RunWhere.invariant hwhere h fun a' b' ha' hheld hstep hle =>
    hheld.step (hb.run ha'.run) hstep hle

/-- Whatever became of the claimant, no request sent after its claim passes the middleware
before the lifetime of the claim is over. -/
theorem retry_never_passes (ha : Reachable P calls a)
    (hclaim : ClaimsAt P (redisKey path key) i a b) (hrun : Run (server P) b c)
    (hnow : c.world.now ≤ lifetimeEnd a) (hkey : key ≠ "") (hj : HasPair calls path key j)
    (hlater : ∀ x ∈ b.trace, x.1 ≠ j) : (j, passing) ∉ c.trace := by
  intro hpassing
  have hb : Reachable P calls b := ha.run (.single hclaim.1)
  have hheld := (Held.of_claim hclaim).run hb hrun hnow
  have hclaimed := (hb.run hrun).claimed_of_passing hj hkey hpassing
  exact hlater _ (hheld.claims j hclaimed) rfl

/-- The claimant was stopped by the server: it sent a 5xx response, its process died, or
its completion is neither stored nor on its way. -/
inductive ServerFailure (k : String) (c : System ι) (i : ι) : Prop where
  | response (response : Response) (hsent : (i, sending response) ∈ c.trace)
      (hstatus : 500 ≤ response.statusCode)
  | crash (hcrashed : c.world.crashed i = true)
  | lost (response : Response) (hwritten : (i, completing k response) ∈ c.trace)
      (hinflight : ∀ x ∈ c.world.inflight, x.key ≠ k)
      (hstored : ∃ expiresAt, c.world.entry k = some ⟨.processing, expiresAt⟩)

end Lifetime

section Order

/-- The response was sent before any step of the other request. -/
def SentBefore (trace : List (ι × Event signature)) (i : ι) (response : Response) (j : ι) : Prop :=
  ∃ before after, trace = before ++ (i, sending response) :: after ∧ ∀ x ∈ before, x.1 ≠ j

omit [DecidableEq ι] in
theorem SentBefore.mem {trace : List (ι × Event signature)} {response : Response}
    (h : SentBefore trace i response j) : (i, sending response) ∈ trace := by
  obtain ⟨before, after, rfl, -⟩ := h
  exact List.mem_append_right _ List.mem_cons_self

omit [DecidableEq ι] in
theorem sentBefore_append {trace : List (ι × Event signature)} {x : ι × Event signature}
    {response : Response} (h : SentBefore (trace ++ [x]) i response j) :
    SentBefore trace i response j ∨ (x = (i, sending response) ∧ ∀ y ∈ trace, y.1 ≠ j) := by
  obtain ⟨before, after, heq, hbefore⟩ := h
  rcases List.eq_nil_or_concat after with rfl | ⟨rest, y, rfl⟩
  · obtain ⟨htrace, hx⟩ := List.append_inj' heq rfl
    cases htrace
    exact Or.inr ⟨List.singleton_inj.mp hx, hbefore⟩
  · rw [List.concat_eq_append, ← List.cons_append, ← List.append_assoc] at heq
    obtain ⟨htrace, -⟩ := List.append_inj' heq rfl
    exact Or.inl ⟨before, rest, htrace, hbefore⟩

/-- A request of the pair had been answered before this one arrived. -/
def IsRetry (calls : ι → Call P) (path key : String) (c : System ι) (j : ι) : Prop :=
  ∃ i response, HasPair calls path key i ∧ SentBefore c.trace i response j

/-- A step of a run in which the entry of the pair lives on, the limiters let its requests
pass, and a retry has its commands accepted and looks up a stored completion. -/
structure RetriesServed (calls : ι → Call P) (path key : String) (a b : System ι) : Prop where
  unexpired : Unexpired (redisKey path key) b
  limiters : ∀ j l r, HasPair calls path key j → b.trace = a.trace ++ [(j, limiting l r)] →
    r = .ok true
  accepted : ∀ j e, HasPair calls path key j → IsRetry calls path key a j →
    b.trace = a.trace ++ [(j, e)] → e.request.onKey (redisKey path key) → ∃ x, e.reply = .ok x
  stored : ∀ j r, HasPair calls path key j → IsRetry calls path key a j →
    b.trace = a.trace ++ [(j, lookingUp (redisKey path key) r)] →
    ∃ response expiresAt, a.world.entry (redisKey path key) = some ⟨.completed response, expiresAt⟩

/-- Every retry is answered with the response that was sent before it. -/
def RetriesReplayed (calls : ι → Call P) (path key : String) (c : System ι) : Prop :=
  ∀ i j response, HasPair calls path key i → HasPair calls path key j →
    SentBefore c.trace i response j →
    (∀ response', (j, sending response') ∈ c.trace → response' = response) ∧
    ((c.program j).Ended → (j, sending response) ∈ c.trace)

end Order

section Replies

attribute [local simp] admitted limiting claiming passing completing sending lookingUp

/-- Where the response of a keyed request comes from. -/
theorem KeyedPath.source_of_sending {fate : Fate} {trail : History}
    (hpath : KeyedPath k fate trail) {response : Response} (h : sending response ∈ trail) :
    (∃ l r, r ≠ .ok true ∧ limiting l r ∈ trail) ∨ completing k response ∈ trail ∨
      lookingUp k (.ok (some (.completed response))) ∈ trail := by
  cases hpath with
  | limitedFirst r hr response' => exact Or.inl ⟨.general, r, hr, by simp⟩
  | limitedNext r hr response' => exact Or.inl ⟨.enquiry, r, hr, by simp⟩
  | answered response' =>
    have heq : response = response' := by simpa using h
    exact Or.inr (Or.inl (by simp [heq]))
  | replayed response' =>
    have heq : response = response' := by simpa using h
    exact Or.inr (Or.inr (by simp [heq]))
  | _ => simp at h

/-- An ended request was answered, or its claim or its lookup failed. -/
theorem KeyedPath.sent_or_stranded {fate : Fate} {trail : History}
    (hpath : KeyedPath k fate trail) (hfate : fate ≠ .underway) :
    (∃ response, sending response ∈ trail) ∨ (∃ e, claiming k (.error e) ∈ trail) ∨
      ∃ r, (∀ response, r ≠ .ok (some (.completed response))) ∧ lookingUp k r ∈ trail := by
  cases hpath with
  | limitedFirst r hr response => exact Or.inl ⟨response, by simp⟩
  | limitedNext r hr response => exact Or.inl ⟨response, by simp⟩
  | answered response => exact Or.inl ⟨response, by simp⟩
  | replayed response => exact Or.inl ⟨response, by simp⟩
  | claimRejected e => exact Or.inr (Or.inl ⟨e, by simp⟩)
  | stranded r hr => exact Or.inr (Or.inr ⟨r, hr, by simp⟩)
  | _ => exact absurd rfl hfate

end Replies

section Runs

/-- What the conditions on the steps have made of the trace. -/
structure RetriesAccepted (calls : ι → Call P) (path key : String) (c : System ι) : Prop where
  limiters : ∀ j l r, HasPair calls path key j → (j, limiting l r) ∈ c.trace → r = .ok true
  accepted : ∀ j e, HasPair calls path key j → IsRetry calls path key c j → (j, e) ∈ c.trace →
    e.request.onKey (redisKey path key) → ∃ x, e.reply = .ok x
  stored : ∀ j r, HasPair calls path key j → IsRetry calls path key c j →
    (j, lookingUp (redisKey path key) r) ∈ c.trace →
    ∃ response, r = .ok (some (.completed response))

omit [DecidableEq ι] in
/-- A request that has touched its key does not become a retry later. -/
theorem IsRetry.of_append {x : ι × Event signature} (hb : b.trace = a.trace ++ [x])
    (h : IsRetry calls path key b j) {e : Event signature} (he : (j, e) ∈ b.trace)
    (hk : e.request.onKey k) : IsRetry calls path key a j := by
  obtain ⟨i, response, hi, hsent⟩ := h
  rw [hb] at hsent he
  rcases sentBefore_append hsent with hsent | ⟨rfl, hnone⟩
  · exact ⟨i, response, hi, hsent⟩
  · exfalso
    rcases List.mem_append.mp he with he | he
    · exact hnone _ he rfl
    · cases List.mem_singleton.mp he
      exact hk

/-- What a lookup finds is what is stored. -/
theorem reply_of_lookingUp (hstep : Step (server P) a b) {r : Except Err (Option IdempotencyRecord)}
    (htrace : b.trace = a.trace ++ [(j, lookingUp k r)]) {found : Option IdempotencyRecord}
    (hr : r = .ok found) : found = (a.world.entry k).map RedisEntry.record := by
  subst hr
  cases (last_event hstep htrace).1 with
  | other hredis hinflight hnow hclaim hset hget => exact hget k found rfl

theorem RetriesAccepted.step (h : RetriesAccepted calls path key a) (hstep : Step (server P) a b)
    (hserved : RetriesServed calls path key a b) : RetriesAccepted calls path key b := by
  have hcases : b.trace = a.trace ∨ ∃ x, b.trace = a.trace ++ [x] := by
    cases hstep with
    | serve => exact Or.inr ⟨_, rfl⟩
    | drift => exact Or.inl rfl
  rcases hcases with hsame | ⟨x, hb⟩
  · obtain ⟨hlimiters, haccepted, hstored⟩ := h
    unfold IsRetry at haccepted hstored
    rw [← hsame] at hlimiters haccepted hstored
    exact ⟨hlimiters, haccepted, hstored⟩
  · have hnew : ∀ j e, (j, e) ∈ b.trace → (j, e) ∈ a.trace ∨ b.trace = a.trace ++ [(j, e)] := by
      intro j e hmem
      rw [hb] at hmem ⊢
      rcases List.mem_append.mp hmem with hmem | hmem
      · exact Or.inl hmem
      · rw [List.mem_singleton.mp hmem]
        exact Or.inr rfl
    refine ⟨fun j l r hj hmem => ?_, fun j e hj hretry hmem hk => ?_,
      fun j r hj hretry hmem => ?_⟩
    · rcases hnew j _ hmem with hold | htrace
      · exact h.limiters j l r hj hold
      · exact hserved.limiters j l r hj htrace
    · have hretry' := hretry.of_append hb hmem hk
      rcases hnew j e hmem with hold | htrace
      · exact h.accepted j e hj hretry' hold hk
      · exact hserved.accepted j e hj hretry' htrace hk
    · have hretry' := hretry.of_append (k := redisKey path key) hb hmem rfl
      rcases hnew j _ hmem with hold | htrace
      · exact h.stored j r hj hretry' hold
      · obtain ⟨found, hr⟩ := hserved.accepted j _ hj hretry' htrace rfl
        obtain ⟨response, expiresAt, hentry⟩ := hserved.stored j r hj hretry' htrace
        have hfound := reply_of_lookingUp hstep htrace hr
        rw [hentry] at hfound
        exact ⟨response, hr.trans (congrArg Except.ok hfound)⟩

/-- The response of any request of the pair was written by a claimant. -/
theorem Reachable.written_of_sending (h : Reachable P calls c)
    (haccepted : RetriesAccepted calls path key c) (hkey : key ≠ "")
    (hj : HasPair calls path key j) {response : Response}
    (hsent : (j, sending response) ∈ c.trace) :
    response ∈ written (redisKey path key) c.trace := by
  obtain ⟨req, route, hcall, hk⟩ := hj.usesKey hkey
  obtain ⟨fate, htrail⟩ := h.onPath hcall hk
  rcases htrail.source_of_sending ((mem_front_own rfl).mpr hsent) with
    ⟨l, r, hr, hlimited⟩ | hcompleting | hlookup
  · exact absurd (haccepted.limiters j l r hj ((mem_front_own rfl).mp hlimited)) hr
  · exact List.mem_filterMap.mpr
      ⟨_, (mem_front_own rfl).mp hcompleting, by simp [completing, completionOf]⟩
  · exact h.sourced.found j _ response ((mem_front_own rfl).mp hlookup)

/-- A run in which retries are served has every retry answered with the first response. -/
theorem retriesReplayed {now : ℕ} {properties : ℕ → Option PropertyStatus}
    (h : RunWhere (server P) (RetriesServed calls path key) (start P calls now properties) c)
    (hkey : key ≠ "") : RetriesReplayed calls path key c := by
  have hc : Reachable P calls c := ⟨now, properties, h.run⟩
  have hunexpired : ReachableUnexpired P calls (redisKey path key) c :=
    ⟨now, properties, Relation.ReflTransGen.mono (fun _ _ hs => ⟨hs.1, hs.2.unexpired⟩) _ _ h⟩
  have howned := hunexpired.owned.2
  have haccepted : RetriesAccepted calls path key c := by
    refine RunWhere.invariant h ⟨?_, ?_, ?_⟩ fun a b _ ha hstep hserved => ha.step hstep hserved
    · exact fun _ _ _ _ hmem => (List.not_mem_nil hmem).elim
    · exact fun _ _ _ _ hmem => (List.not_mem_nil hmem).elim
    · exact fun _ _ _ _ hmem => (List.not_mem_nil hmem).elim
  intro i j response hi hj hbefore
  have hsame : ∀ response', (j, sending response') ∈ c.trace → response' = response := by
    intro response' hsent
    have hfirst := hc.written_of_sending haccepted hkey hi hbefore.mem
    have hnext := hc.written_of_sending haccepted hkey hj hsent
    exact hc.written_unique howned hnext hfirst
  refine ⟨hsame, fun hended => ?_⟩
  obtain ⟨req, route, hcall, hk⟩ := hj.usesKey hkey
  obtain ⟨fate, hfate, htrail⟩ := hc.settled hcall hk hended
  have hretry : IsRetry calls path key c j := ⟨i, response, hi, hbefore⟩
  rcases htrail.sent_or_stranded hfate with ⟨response', hsent⟩ | ⟨e, hclaim⟩ | ⟨r, hr, hlookup⟩
  · have hmem := (mem_front_own (c := c) rfl).mp hsent
    exact hsame response' hmem ▸ hmem
  · obtain ⟨x, hx⟩ := haccepted.accepted j _ hj hretry ((mem_front_own rfl).mp hclaim) rfl
    cases hx
  · obtain ⟨response', hresponse'⟩ :=
      haccepted.stored j r hj hretry ((mem_front_own rfl).mp hlookup)
    exact absurd hresponse' (hr response')

end Runs

section Samples

def beforeClaim : System ℕ := sampleRun retriedCalls (undisturbed 0 2)

def afterClaim : System ℕ := sampleRun retriedCalls (undisturbed 0 3)

/-- MySQL refuses the claimant's connection, and the 500 it is answered with is stored. -/
def claimantFailed : System ℕ :=
  afterClaim.after (server .sample)
    (undisturbed 0 1 ++ [.serve 0 (.rejects timesOut)] ++ undisturbed 0 2 ++
      [.drift (.applyWrite 0)])

/-- The same submission is sent again. -/
def retriedInVain : System ℕ := claimantFailed.after (server .sample) (undisturbed 1 5)

theorem claimsAt_sample :
    ClaimsAt .sample (redisKey samplePath sampleHeader) 0 beforeClaim afterClaim :=
  ⟨Config.step_of_play (m := .serve 0 .resolves) (by rfl), by rfl⟩

theorem reachable_beforeClaim : Reachable .sample retriedCalls beforeClaim :=
  reachable_sampleRun (by rfl)

theorem run_claimantFailed : Run (server .sample) afterClaim claimantFailed :=
  Config.run_after (by rfl)

theorem run_retriedInVain : Run (server .sample) claimantFailed retriedInVain :=
  Config.run_after (by rfl)

theorem hasPair_retriedCalls (i : ℕ) : HasPair retriedCalls samplePath sampleHeader i :=
  ⟨sampleEnquiry "Jane Doe", rfl, rfl, rfl, rfl⟩

theorem not_in_trace_of_all {c : System ℕ} {j : ℕ}
    (h : (c.trace.all fun x => x.1 != j) = true) : ∀ x ∈ c.trace, x.1 ≠ j := by
  intro x hx
  simpa using List.all_eq_true.mp h x hx

theorem retry_never_passes_sample : (1, passing) ∉ retriedInVain.trace := by
  have hnow : retriedInVain.world.now = 0 := by rfl
  refine retry_never_passes reachable_beforeClaim claimsAt_sample
    (run_claimantFailed.trans run_retriedInVain) ?_ (by decide) (hasPair_retriedCalls 1)
    (not_in_trace_of_all (by rfl))
  rw [hnow]
  exact Nat.zero_le _

/-- After a 500 the same submission is answered with the stored 500. -/
theorem not_retry_passes : ¬ ∀ (calls : ℕ → Call .sample) (a b d c : System ℕ) (i j : ℕ)
    (path key : String), Reachable .sample calls a →
      ClaimsAt .sample (redisKey path key) i a b → Run (server .sample) b d →
      ServerFailure (redisKey path key) d i → (ledger (d.own i)).committed = [] →
      Run (server .sample) d c → c.world.now ≤ lifetimeEnd a → key ≠ "" →
      HasPair calls path key j → calls j = calls i → (∀ x ∈ d.trace, x.1 ≠ j) →
      (c.program j).Ended → (j, passing) ∈ c.trace := by
  intro hclaim
  have hfailed : ServerFailure (redisKey samplePath sampleHeader) claimantFailed 0 :=
    .response ⟨500, _⟩ (List.mem_of_getElem? (i := 6) rfl) (by decide)
  have hnow : retriedInVain.world.now = 0 := by rfl
  refine retry_never_passes_sample (hclaim retriedCalls _ _ _ _ 0 1 samplePath sampleHeader
    reachable_beforeClaim claimsAt_sample run_claimantFailed hfailed (by rfl) run_retriedInVain ?_
    (by decide) (hasPair_retriedCalls 1) rfl (not_in_trace_of_all (by rfl)) trivial)
  rw [hnow]
  exact Nat.zero_le _

/-- The retry overtakes the completion of the answered request. -/
def overtakingRetry : System ℕ := sampleRun retriedCalls (undisturbed 0 15 ++ undisturbed 1 4)

theorem not_retriesReplayed : ¬ ∀ (calls : ℕ → Call .sample) (c : System ℕ) (path key : String),
    ReachableUnexpired .sample calls (redisKey path key) c →
      (∀ i, c.world.crashed i = false) → key ≠ "" → RetriesReplayed calls path key c := by
  intro hclaim
  have hreplayed := hclaim retriedCalls overtakingRetry samplePath sampleHeader
    (reachableUnexpired_sampleRun _ (by rfl) (by rfl)) (fun _ => rfl) (by decide)
  have hbefore : ∃ response, SentBefore overtakingRetry.trace 0 response 1 :=
    ⟨_, overtakingRetry.trace.take 14, overtakingRetry.trace.drop 15, rfl, by
      intro x hx
      have hall : ((overtakingRetry.trace.take 14).all fun x => x.1 != 1) = true := by rfl
      simpa using List.all_eq_true.mp hall x hx⟩
  obtain ⟨response, hbefore⟩ := hbefore
  have hsent := (hreplayed 0 1 response (hasPair_retriedCalls 0) (hasPair_retriedCalls 1)
    hbefore).2 trivial
  have hnone : responses (overtakingRetry.own 1) = [] := by rfl
  have hmem := mem_responses.mpr ⟨_, Config.mem_own.mpr hsent⟩
  rw [hnone] at hmem
  cases hmem

/-- The event shows that a retry was served. -/
def isServed : Event signature → Bool
  | ⟨.rateLimit _, .ok withinLimit⟩ => withinLimit
  | ⟨.get _, .ok (some (.completed _))⟩ => true
  | ⟨.get _, .ok _⟩ => false
  | ⟨_, .error _⟩ => false
  | _ => true

theorem retriesServed_of_all {calls : ℕ → Call .sample} {a b : System ℕ} (path key : String)
    (hstep : Step (server .sample) a b) (hnow : b.world.now = 0)
    (hall : (b.trace.all fun x => isServed x.2) = true) : RetriesServed calls path key a b := by
  have hlast : ∀ j e, b.trace = a.trace ++ [(j, e)] → isServed e = true := by
    intro j e htrace
    exact List.all_eq_true.mp hall (j, e)
      (htrace ▸ List.mem_append_right _ (List.mem_singleton_self _))
  refine ⟨fun e _ => ?_, fun j l r _ htrace => ?_, fun j e _ _ htrace hk => ?_,
    fun j r _ _ htrace => ?_⟩
  · rw [hnow]
    exact Nat.zero_le _
  · have hserved := hlast j _ htrace
    rcases r with e | _ | _
    · cases hserved
    · cases hserved
    · rfl
  · have hserved := hlast j e htrace
    rcases e with ⟨q, _ | x⟩
    · cases q <;> cases hserved
    · exact ⟨x, rfl⟩
  · have hserved := hlast j _ htrace
    rcases r with e | _ | _ | response
    · cases hserved
    · cases hserved
    · cases hserved
    · have hfound := reply_of_lookingUp hstep htrace rfl
      obtain ⟨⟨record, expiresAt⟩, hentry, hrecord⟩ := Option.map_eq_some_iff.mp hfound.symm
      simp only at hrecord
      subst hrecord
      exact ⟨response, expiresAt, hentry⟩

theorem retriesReplayed_sample :
    RetriesReplayed retriedCalls samplePath sampleHeader replayedRetry := by
  have hrun : Run (server .sample) (sampleStart retriedCalls) replayedRetry :=
    run_sampleRun (by rfl)
  have hserved : RunWhere (server .sample) (RetriesServed retriedCalls samplePath sampleHeader)
      (sampleStart retriedCalls) replayedRetry := by
    refine RunWhere.of_run
      (fun c => c.world.now = 0 ∧ (c.trace.all fun x => isServed x.2) = true) hrun ?_ ?_
      ⟨by rfl, by rfl⟩
    · rintro a b hstep ⟨hnow, hall⟩
      refine ⟨Nat.le_zero.mp (hnow ▸ now_le_of_step hstep), List.all_eq_true.mpr fun x hx => ?_⟩
      exact List.all_eq_true.mp hall x (hstep.trace_prefix.subset hx)
    · exact fun a b hstep hgood => retriesServed_of_all _ _ hstep hgood.1 hgood.2
  exact retriesReplayed hserved (by decide)

end Samples

end PropertyPlatform
