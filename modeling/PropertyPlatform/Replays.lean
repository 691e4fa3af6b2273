import PropertyPlatform.Idempotency

/-!
# One request per key, and its response for all

Requests are told apart by their path and their key. The path contains no colon, so the
name of the Redis entry determines both.
-/

namespace PropertyPlatform

open Js Async Program

variable {P : Platform} {ι : Type} [DecidableEq ι] {calls : ι → Call P} {c c' : System ι}
variable {i j : ι} {k path key : String}

section Keys

theorem colon_not_mem_path (h : matchesEnquiryRoute path = true) : ':' ∉ path.toList := by
  intro hmem
  have hlower : ':' ∈ path.toList.map Char.toLower := List.mem_map.mpr ⟨':', hmem, by decide⟩
  unfold matchesEnquiryRoute at h
  rw [Bool.or_eq_true, beq_iff_eq, beq_iff_eq] at h
  rcases h with h | h <;>
  · have hchars := congrArg String.toList h
    rw [String.toList_ofList] at hchars
    rw [hchars] at hlower
    revert hlower
    decide

theorem redisKey_injective {path' key' : String} (h : matchesEnquiryRoute path = true)
    (h' : matchesEnquiryRoute path' = true) (heq : redisKey path key = redisKey path' key') :
    path = path' ∧ key = key' := by
  have hchars := congrArg String.toList heq
  simp only [redisKey, String.toList_append, List.append_assoc] at hchars
  have hrest := List.append_cancel_left hchars
  obtain ⟨hpath, hkey⟩ := append_separator_inj (colon_not_mem_path h) (colon_not_mem_path h') hrest
  exact ⟨String.toList_injective hpath, String.toList_injective hkey⟩

/-- The call is a request with this path and this key. -/
def HasPair (calls : ι → Call P) (path key : String) (i : ι) : Prop :=
  ∃ req route, calls i = .postEnquiry req route ∧ req.path = path ∧ req.idempotencyKey = some key

/-- Operations on one Redis entry. -/
def Operation.onKey (k : String) : Operation → Prop
  | setNx k' _ _ | get k' | set k' _ _ => k' = k
  | _ => False

theorem Reachable.enquiry_of_onKey (h : Reachable P calls c) {e : Event signature}
    (he : (i, e) ∈ c.trace) (hk : e.request.onKey k) :
    ∃ req route, calls i = .postEnquiry req route ∧ req.usesKey k := by
  have hfoot := h.footprint_of_mem he
  rcases e with ⟨q, r⟩
  cases hcall : calls i with
  | postEnquiry req route =>
    rw [hcall] at hfoot
    refine ⟨req, route, rfl, ?_⟩
    cases hfoot with
    | limiter l hq => subst hq; exact hk.elim
    | idempotency hq =>
      cases q with
      | setNx k' record ttl => cases hk; exact hq.1
      | get k' => cases hk; exact hq
      | set k' record ttl => cases hk; exact hq.1
      | _ => exact hk.elim
    | create input hvalid hq => cases q <;> first | exact hk.elim | exact hq.elim
  | _ =>
    rw [hcall] at hfoot
    cases q <;> first | exact hk.elim | exact hfoot.elim

omit [DecidableEq ι] in
theorem HasPair.usesKey (h : HasPair calls path key i) (hkey : key ≠ "") :
    ∃ req route, calls i = .postEnquiry req route ∧ req.usesKey (redisKey path key) := by
  obtain ⟨req, route, hi, rfl, hreq⟩ := h
  exact ⟨req, route, hi, key, hreq, hkey, rfl⟩

omit [DecidableEq ι] in
theorem hasPair_of_usesKey {req : Request} {route : matchesEnquiryRoute req.path = true}
    (hi : calls i = .postEnquiry req route) (hk : req.usesKey (redisKey path key))
    (hpath : matchesEnquiryRoute path = true) : HasPair calls path key i := by
  obtain ⟨key', hreq, -, heq⟩ := hk
  obtain ⟨rfl, rfl⟩ := redisKey_injective hpath route heq
  exact ⟨req, route, hi, rfl, hreq⟩

end Keys

section Paths

attribute [local simp] admitted limiting claiming passing completing sending lookingUp

variable {fate : Fate} {trail : History}

theorem KeyedPath.completions_le (hpath : KeyedPath k fate trail) :
    (trail.filterMap (completionOf k)).length ≤ 1 := by
  cases hpath <;> simp [List.filterMap_cons, completionOf]

theorem KeyedPath.completing_of_completion (hpath : KeyedPath k fate trail)
    {response : Response} (h : response ∈ trail.filterMap (completionOf k)) :
    completing k response ∈ trail := by
  cases hpath <;> simp [completionOf] at h ⊢ <;> exact h.symm

theorem isFront_of_completionOf {e : Event signature} (h : (completionOf k e).isSome = true) :
    e.request.isFront = true := by
  rcases e with ⟨q, r⟩
  cases q <;> first | rfl | cases h

theorem onKey_of_completionOf {e : Event signature} {response : Response}
    (h : completionOf k e = some response) : e.request.onKey k := by
  rcases e with ⟨q, r⟩
  cases q with
  | set k' record ttl =>
    cases record with
    | processing => cases h
    | completed response' =>
      simp only [completionOf] at h
      split_ifs at h with hk
      exact hk
  | _ => cases h

theorem KeyedPath.passes_le (hpath : KeyedPath k fate trail) : passes trail ≤ 1 := by
  cases hpath <;> simp [passes]

end Paths

section Owners

/-- A request that stored a completion. -/
theorem Reachable.writer (h : Reachable P calls c) {response : Response}
    (hmem : response ∈ written k c.trace) : ∃ i, (i, completing k response) ∈ c.trace := by
  obtain ⟨⟨i, e⟩, hx, he⟩ := List.mem_filterMap.mp hmem
  simp only at he
  obtain ⟨req, route, hi, hk⟩ := h.enquiry_of_onKey hx (onKey_of_completionOf he)
  obtain ⟨fate, hpath⟩ := h.onPath hi hk
  refine ⟨i, Config.mem_own.mp ((mem_front rfl).mp (hpath.completing_of_completion ?_))⟩
  rw [filterMap_front fun e => isFront_of_completionOf]
  exact List.mem_filterMap.mpr ⟨e, Config.mem_own.mpr hx, he⟩

/-- The path of a request that touched the entry of a key. -/
theorem Reachable.path_of_mem (h : Reachable P calls c) {e : Event signature}
    (he : (i, e) ∈ c.trace) (hk : e.request.onKey k) :
    ∃ fate, KeyedPath k fate (front (c.own i)) := by
  obtain ⟨req, route, hi, husesKey⟩ := h.enquiry_of_onKey he hk
  exact h.onPath hi husesKey

theorem mem_front_own {e : Event signature} (hfront : e.request.isFront = true) :
    e ∈ front (c.own i) ↔ (i, e) ∈ c.trace := by
  rw [mem_front hfront, Config.mem_own]

theorem Reachable.claimed_of_completing (h : Reachable P calls c) {response : Response}
    (hmem : (i, completing k response) ∈ c.trace) :
    (i, passing) ∈ c.trace ∧ (i, claiming k (.ok true)) ∈ c.trace := by
  obtain ⟨fate, hpath⟩ := h.path_of_mem (k := k) hmem rfl
  have hpass := hpath.passing_of_completing ((mem_front_own rfl).mpr hmem)
  exact ⟨(mem_front_own rfl).mp hpass,
    (mem_front_own rfl).mp (hpath.claimed_of_passing hpass)⟩

/-- A key with one claimant has one completion at most. -/
theorem Reachable.written_le (h : Reachable P calls c) (howned : Owned k c) :
    (written k c.trace).length ≤ 1 := by
  cases hwritten : written k c.trace with
  | nil => exact Nat.zero_le 1
  | cons response rest =>
    obtain ⟨i, hi⟩ := h.writer (k := k) (hwritten ▸ List.mem_cons_self)
    have hsame : ∀ x ∈ c.trace, (completionOf k x.2).isSome = true → x.1 = i := by
      intro x hx hsome
      obtain ⟨response', hresponse'⟩ := Option.isSome_iff_exists.mp hsome
      obtain ⟨fate, hpath⟩ := h.path_of_mem (k := k) hx (onKey_of_completionOf hresponse')
      have hcompletion : response' ∈ (front (c.own x.1)).filterMap (completionOf k) := by
        rw [filterMap_front fun e => isFront_of_completionOf]
        exact List.mem_filterMap.mpr ⟨x.2, Config.mem_own.mpr hx, hresponse'⟩
      have hmem := (mem_front_own rfl).mp (hpath.completing_of_completion hcompletion)
      exact howned.unique _ _ (h.claimed_of_completing hmem).2 (h.claimed_of_completing hi).2
    rw [← hwritten, written, Config.filterMap_trace (completionOf k) hsame,
      ← filterMap_front fun e => isFront_of_completionOf]
    obtain ⟨fate, hpath⟩ := h.path_of_mem (k := k) hi rfl
    exact hpath.completions_le

theorem Reachable.written_unique (h : Reachable P calls c) (howned : Owned k c)
    {response response' : Response} (hr : response ∈ written k c.trace)
    (hr' : response' ∈ written k c.trace) : response = response' := by
  have hle := h.written_le howned
  rcases hwritten : written k c.trace with _ | ⟨first, rest⟩
  · rw [hwritten] at hr
    cases hr
  · rw [hwritten] at hr hr' hle
    have hlength : rest.length ≤ 0 := Nat.le_of_succ_le_succ hle
    obtain rfl : rest = [] := List.length_eq_zero_iff.mp (Nat.le_zero.mp hlength)
    rw [List.mem_singleton.mp hr, List.mem_singleton.mp hr']

end Owners

section Moves

/-- The only ways the entry of a key may change. -/
inductive EntryMove : Option RedisEntry → Option RedisEntry → Prop where
  | stays (entry : Option RedisEntry) : EntryMove entry entry
  | claimed (expiresAt : ℕ) : EntryMove none (some ⟨.processing, expiresAt⟩)
  | completed (response : Response) (claimedUntil expiresAt : ℕ) :
      EntryMove (some ⟨.processing, claimedUntil⟩) (some ⟨.completed response, expiresAt⟩)

theorem EntryMove.of_eq {entry entry' : Option RedisEntry} (h : entry' = entry) :
    EntryMove entry entry' :=
  h ▸ .stays entry

/-- A completion arrives while the marker of its key is still there. -/
theorem Reachable.processing_of_inflight (h : Reachable P calls c) (howned : Owned k c)
    {x : InflightWrite} (hx : x ∈ c.world.inflight) (hk : x.key = k) :
    ∃ claimedUntil, c.world.redis k = some ⟨.processing, claimedUntil⟩ := by
  subst hk
  obtain ⟨response, -, -, hwritten⟩ := h.sourced.inflight x hx
  cases hredis : c.world.redis x.key with
  | none =>
    obtain ⟨i, hi⟩ := h.writer hwritten
    exact absurd (h.claimed_of_completing hi).2 (howned.free hredis i)
  | some e =>
    rcases e with ⟨_ | response', expiresAt⟩
    · exact ⟨expiresAt, rfl⟩
    · exfalso
      have hbudget := h.sourced.budget x.key
      have hle := h.written_le howned
      have hstored : c.world.storedCompletions x.key = 1 := by
        rw [World.storedCompletions, hredis]
      have hinflight : 0 < c.world.inflightCompletions x.key :=
        List.countP_pos_iff.mpr ⟨x, hx, by simp⟩
      omega

theorem Reachable.entryMove (h : Reachable P calls c) (hunexpired : Unexpired k c)
    (howned : Owned k c) (hstep : Step (server P) c c') (hnext : Unexpired k c') :
    EntryMove (c.world.entry k) (c'.world.entry k) := by
  rw [entry_of_unexpired hunexpired, entry_of_unexpired hnext]
  cases hstep with
  | @serve i q resume choice r w' hprogram hserve =>
    rw [Config.answered_world]
    cases (World.served_of_serve hserve).2.redisStep with
    | @claimed k' record ttl r _ hfree hr hredis hinflight hnow =>
      obtain ⟨rfl, rfl⟩ := h.setNx_processing hprogram
      rw [hredis]
      by_cases hk : k = k'
      · subst hk
        rw [entry_of_unexpired hunexpired] at hfree
        rw [hfree, Function.update_self]
        exact .claimed _
      · rw [Function.update_of_ne hk]
        exact .stays _
    | issued hredis hinflight hnow => exact .of_eq (congrFun hredis k)
    | other hredis hinflight hnow => exact .of_eq (congrFun hredis k)
  | drift hdrift =>
    cases World.redisDrift_of_drift hdrift with
    | @applied n x hx hredis hinflight hnow =>
      have hmem := List.mem_of_getElem? hx
      simp only [hredis]
      by_cases hk : k = x.key
      · obtain ⟨claimedUntil, hprocessing⟩ := h.processing_of_inflight howned hmem hk.symm
        obtain ⟨response, hrecord, -, -⟩ := h.sourced.inflight x hmem
        rw [hprocessing, hk, Function.update_self, hrecord]
        exact .completed response _ _
      · rw [Function.update_of_ne hk]
        exact .stays _
    | dropped hredis hinflight hnow => exact .of_eq (congrFun hredis k)
    | other hredis hinflight hnow => exact .of_eq (congrFun hredis k)

end Moves

section Replays

/-- The request sends this response and no other, in this run and however it goes on. -/
def AnswersWith (P : Platform) (c : System ι) (i : ι) (response : Response) : Prop :=
  ∀ c', Run (server P) c c' →
    (∀ response', (i, sending response') ∈ c'.trace → response' = response) ∧
    ((c'.program i).Ended → (i, sending response) ∈ c'.trace)

theorem Reachable.answersWith (h : Reachable P calls c) {response : Response}
    (hmem : (i, completing k response) ∈ c.trace) : AnswersWith P c i response := by
  intro c' hrun
  have h' := h.run hrun
  have hmem' : (i, completing k response) ∈ c'.trace := hrun.trace_prefix.subset hmem
  obtain ⟨req, route, hi, hk⟩ := h'.enquiry_of_onKey (k := k) hmem' rfl
  have hcompleting := (mem_front_own (c := c') rfl).mpr hmem'
  refine ⟨fun response' hsent => ?_, fun hended => ?_⟩
  · obtain ⟨fate, hpath⟩ := h'.onPath hi hk
    exact hpath.response_of_completing hcompleting ((mem_front_own rfl).mpr hsent)
  · obtain ⟨fate, hfate, hpath⟩ := h'.settled hi hk hended
    exact (mem_front_own rfl).mp (hpath.sent_of_completing hfate hcompleting)

/-- What holds of the requests with one path and key. -/
structure KeyRespected (P : Platform) (calls : ι → Call P) (c : System ι) (path key : String) :
    Prop where
  passed_once : ∀ i j, HasPair calls path key i → HasPair calls path key j →
    (i, passing) ∈ c.trace → (j, passing) ∈ c.trace → i = j
  passes_le : ∀ i, HasPair calls path key i → passes (c.own i) ≤ 1
  moves : ∀ c', Step (server P) c c' → Unexpired (redisKey path key) c' →
    EntryMove (c.world.entry (redisKey path key)) (c'.world.entry (redisKey path key))
  replays : ∀ j r response, HasPair calls path key j →
    (j, lookingUp (redisKey path key) r) ∈ c.trace → (j, sending response) ∈ c.trace →
    ∃ i, i ≠ j ∧ HasPair calls path key i ∧ (i, passing) ∈ c.trace ∧ AnswersWith P c i response

theorem Reachable.claimed_of_passing (h : Reachable P calls c) (hpair : HasPair calls path key i)
    (hkey : key ≠ "") (hpassing : (i, passing) ∈ c.trace) :
    (i, claiming (redisKey path key) (.ok true)) ∈ c.trace := by
  obtain ⟨req, route, hi, hk⟩ := hpair.usesKey hkey
  obtain ⟨fate, hpath⟩ := h.onPath hi hk
  exact (mem_front_own rfl).mp (hpath.claimed_of_passing ((mem_front_own rfl).mpr hpassing))

/-- A response that was looked up was stored by another request, which had claimed the key. -/
theorem Reachable.replayed (h : Reachable P calls c) (hpath : matchesEnquiryRoute path = true)
    {r : Except Err (Option IdempotencyRecord)} {response : Response}
    (hlookup : (j, lookingUp (redisKey path key) r) ∈ c.trace)
    (hsent : (j, sending response) ∈ c.trace) :
    ∃ i, i ≠ j ∧ HasPair calls path key i ∧
      (i, completing (redisKey path key) response) ∈ c.trace := by
  obtain ⟨fate, htrail⟩ := h.path_of_mem (k := redisKey path key) hlookup rfl
  have hlookup' := (mem_front_own (c := c) rfl).mpr hlookup
  have hr := htrail.response_of_lookingUp hlookup' ((mem_front_own rfl).mpr hsent)
  subst hr
  obtain ⟨i, hi⟩ := h.writer (h.sourced.found j _ response hlookup)
  obtain ⟨req, route, hcall, hk⟩ := h.enquiry_of_onKey (k := redisKey path key) hi rfl
  refine ⟨i, ?_, hasPair_of_usesKey hcall hk hpath, hi⟩
  rintro rfl
  have htrue := (mem_front_own rfl).mpr (h.claimed_of_completing hi).2
  have hfalse := htrail.taken_of_lookingUp hlookup'
  cases htrail.claim_unique htrue hfalse

theorem keyRespected (h : ReachableUnexpired P calls (redisKey path key) c)
    (hpath : matchesEnquiryRoute path = true) (hkey : key ≠ "") :
    KeyRespected P calls c path key := by
  have hc := h.reachable
  obtain ⟨hunexpired, howned⟩ := h.owned
  refine ⟨fun i j hi hj hpi hpj => ?_, fun i hi => ?_, fun c' hstep hnext => ?_,
    fun j r response hj hlookup hsent => ?_⟩
  · exact howned.unique i j (hc.claimed_of_passing hi hkey hpi) (hc.claimed_of_passing hj hkey hpj)
  · obtain ⟨req, route, hcall, hk⟩ := hi.usesKey hkey
    obtain ⟨fate, htrail⟩ := hc.onPath hcall hk
    rw [← passes_front]
    exact htrail.passes_le
  · exact hc.entryMove hunexpired howned hstep hnext
  · obtain ⟨i, hne, hi, hcompleting⟩ := hc.replayed hpath hlookup hsent
    exact ⟨i, hne, hi, (hc.claimed_of_completing hcompleting).1, hc.answersWith hcompleting⟩

end Replays

section Samples

/-- The first request is answered and its completion stored, then the second one arrives. -/
def replayedRetry : System ℕ :=
  sampleRun retriedCalls (undisturbed 0 15 ++ [.drift (.applyWrite 0)] ++ undisturbed 1 5)

/-- As long as the clock stands still, nothing expires. -/
theorem reachableUnexpired_sampleRun {calls : ℕ → Call .sample}
    {ms : List (Move ℕ Choice (Drift ℕ))} (k : String)
    (h : ((sampleStart calls).replay (server .sample) ms).isSome = true)
    (hnow : (sampleRun calls ms).world.now = 0) :
    ReachableUnexpired .sample calls k (sampleRun calls ms) := by
  refine ⟨0, _, RunWhere.of_run (fun c => c.world.now = 0) (run_sampleRun h) ?_ ?_ hnow⟩
  · exact fun a b hstep hb => Nat.le_zero.mp (hb ▸ now_le_of_step hstep)
  · intro a b _ hb e _
    rw [hb]
    exact Nat.zero_le _

theorem keyRespected_sample :
    KeyRespected .sample retriedCalls replayedRetry samplePath sampleHeader ∧
      responses (replayedRetry.own 1) = responses (replayedRetry.own 0) :=
  ⟨keyRespected (reachableUnexpired_sampleRun _ (by rfl) (by rfl)) rfl (by decide), by rfl⟩

end Samples

end PropertyPlatform
