import PropertyPlatform.Cache.Provenance

/-!
# How long an entry can be relied on

An entry is written with its own stamp, by which its age is judged, and with an expiry of
six hours, after which Redis drops it. A request in the window of the age test is answered
from the cache exactly when the expiry does not come first, provided that writes take
effect in the order of their stamps.
-/

namespace PropertyPlatform.Cache

open Js Async Program

variable {E : Settings} {ι : Type} [DecidableEq ι] {calls : ι → Call} {a b c c' : System ι}
variable {t : Task ι} {i : ι} {key : String} {ttl stale : Seconds} {q : CmsQuery}

/-- The step is one event of some task. -/
def StepEvent (a b : System ι) (t : Task ι) (e : Event) : Prop := b.trace = a.trace ++ [(t, e)]

/-- The step does not delete the key. -/
def NotInvalidated (key : String) (a b : System ι) : Prop :=
  ∀ t keys r, StepEvent a b t ⟨.del keys, r⟩ → key ∉ keys

/-- The step does not replace an entry of the key by one with an earlier stamp. -/
def InOrder (key : String) (a b : System ι) : Prop :=
  ∀ t envelope exSeconds r, StepEvent a b t ⟨.set key envelope exSeconds, r⟩ →
    ∀ x ∈ a.world.redis, x.key = key → x.envelope.cachedAt ≤ envelope.cachedAt

/-- The step writes the envelope under the key, and Redis acknowledges it. -/
def Writes (E : Settings) (key : String) (envelope : CacheEnvelope) (a b : System ι) : Prop :=
  Step (server E) a b ∧
    ∃ t exSeconds, StepEvent a b t ⟨.set key envelope exSeconds, .ok ()⟩

theorem stepEvent_answered {op : Operation} {r : Except Err op.Reply}
    {k : Except Err op.Reply → Promise (Option Page)} {w : World ι} {t' : Task ι} {e : Event} :
    StepEvent c (c.answered t op r k w) t' e ↔ t = t' ∧ (⟨op, r⟩ : Event) = e := by
  simp [StepEvent]

omit [DecidableEq ι] in
theorem not_stepEvent_drift {w : World ι} {e : Event} :
    ¬ StepEvent c { c with world := w } t e := by
  simp [StepEvent]

section Kept

/-- Since time `s` the key has an entry that is no older, and it will not expire for the
whole expiry after `s`. -/
def KeptSince (key : String) (s : ℕ) (w : World ι) : Prop :=
  s ≤ w.now ∧ ∃ x ∈ w.redis, x.key = key ∧ s ≤ x.envelope.cachedAt ∧
    s + cacheExpirySeconds * 1000 ≤ x.expiresAt

/-- Request `i` came after `s`, and what it has read is no older, unless it came after the
expiry. -/
def ReadsSince (key : String) (s : ℕ) (i : ι) (w : World ι) : Prop :=
  ∀ z ∈ w.journal, z.task = .request i → s ≤ z.time ∧
    ∀ reply, z.event = ⟨.get key, .ok reply⟩ →
      (∃ envelope, reply = some envelope ∧ s ≤ envelope.cachedAt) ∨
        s + cacheExpirySeconds * 1000 < z.time

theorem KeptSince.start (ha : Reachable E calls a) {envelope : CacheEnvelope}
    (hwrites : Writes E key envelope a b) : KeptSince key envelope.cachedAt b.world := by
  obtain ⟨hstep, t, exSeconds, hevent⟩ := hwrites
  have hb : Reachable E calls b := ha.run (.single hstep)
  rcases step_cases hstep with ⟨d, w, -, rfl⟩ | ⟨t', op, k, r, w, -, hserved, rfl⟩
  · exact absurd hevent not_stepEvent_drift
  · obtain ⟨rfl, heq⟩ := stepEvent_answered.mp hevent
    cases heq
    obtain rfl := hserved.of_set
    obtain ⟨hex, hstamp⟩ := hb.stamped_before
    refine ⟨hstamp, _, World.mem_store.mpr (Or.inl rfl), rfl, le_rfl, ?_⟩
    rw [hex]
    exact Nat.add_le_add_right hstamp _

theorem KeptSince.step (ha : Reachable E calls a) {s : ℕ} (h : KeptSince key s a.world)
    (hstep : Step (server E) a b) (horder : InOrder key a b) (hkept : NotInvalidated key a b) :
    KeptSince key s b.world := by
  obtain ⟨hnow, x, hx, hxkey, hstamp, hexpires⟩ := h
  rcases step_cases hstep with ⟨d, w, hd, rfl⟩ | ⟨t, op, k, r, w, -, hserved, rfl⟩
  · cases d with
    | tick ms =>
      cases hd
      exact ⟨hnow.trans (Nat.le_add_right _ _), x, hx, hxkey, hstamp, hexpires⟩
    | edit q body =>
      cases hd
      exact ⟨hnow, x, hx, hxkey, hstamp, hexpires⟩
  · rw [Config.answered_world]
    refine ⟨hnow.trans_eq hserved.now.symm, ?_⟩
    cases hserved with
    | stored key' envelope exSeconds r =>
      by_cases hkey : key' = key
      · subst hkey
        have hb : Reachable E calls _ := ha.run (.single hstep)
        obtain ⟨hex, hcached⟩ := hb.stamped_before
        have hle := horder t envelope exSeconds r (stepEvent_answered.mpr ⟨rfl, rfl⟩) x hx hxkey
        refine ⟨_, World.mem_store.mpr (Or.inl rfl), rfl, hstamp.trans hle, ?_⟩
        rw [hex]
        exact Nat.add_le_add_right ((hstamp.trans hle).trans hcached) _
      · refine ⟨x, World.mem_store.mpr (Or.inr ⟨hx, ?_⟩), hxkey, hstamp, hexpires⟩
        exact fun heq => hkey (heq.symm.trans hxkey)
    | erased keys r =>
      have hnot := hkept t keys r (stepEvent_answered.mpr ⟨rfl, rfl⟩)
      exact ⟨x, World.mem_erase.mpr ⟨hx, hxkey ▸ hnot⟩, hxkey, hstamp, hexpires⟩
    | _ => exact ⟨x, hx, hxkey, hstamp, hexpires⟩

/-- A read finds the entry, or it comes after the expiry. -/
theorem KeptSince.read (ha : Reachable E calls a) {s : ℕ} (h : KeptSince key s a.world)
    {reply : Option CacheEnvelope} {w : World ι}
    (hserved : a.world.Served E t (.get key) (.ok reply) w) :
    (∃ envelope, reply = some envelope ∧ s ≤ envelope.cachedAt) ∨
      s + cacheExpirySeconds * 1000 < a.world.now := by
  obtain ⟨-, x, hx, rfl, hstamp, hexpires⟩ := h
  obtain ⟨-, rfl⟩ := hserved.of_get
  by_cases halive : a.world.now ≤ x.expiresAt
  · rw [World.entry_of_mem ha.sourced.keys hx halive]
    exact Or.inl ⟨_, rfl, hstamp⟩
  · exact Or.inr (lt_of_le_of_lt hexpires (not_le.mp halive))

theorem ReadsSince.step (ha : Reachable E calls a) {s : ℕ} (hkept : KeptSince key s a.world)
    (h : ReadsSince key s i a.world) (hstep : Step (server E) a b) :
    ReadsSince key s i b.world := by
  rcases step_cases hstep with ⟨d, w, hd, rfl⟩ | ⟨t, op, k, r, w, -, hserved, rfl⟩
  · cases d <;> cases hd <;> exact h
  · intro z hz htask
    rw [Config.answered_world, mem_journal_log hserved] at hz
    rcases hz with hz | rfl
    · exact h z hz htask
    · refine ⟨hkept.1, fun reply hget => ?_⟩
      cases hget
      exact hkept.read ha hserved

/-- Along a run that keeps the entry, everything a request reads is no older. -/
theorem ReadsSince.run (ha : Reachable E calls a) {envelope : CacheEnvelope}
    (hwrites : Writes E key envelope a b) (hnew : b.own (.request i) = [])
    (hrun : RunWhere (server E) (fun c c' => InOrder key c c' ∧ NotInvalidated key c c') b c) :
    ReadsSince key envelope.cachedAt i c.world := by
  have hb : Reachable E calls b := ha.run (.single hwrites.1)
  have hboth := hrun.invariant
    (P := fun c => KeptSince key envelope.cachedAt c.world ∧
      ReadsSince key envelope.cachedAt i c.world) ⟨KeptSince.start ha hwrites, ?_⟩ ?_
  · exact hboth.2
  · intro z hz htask
    have hmem := hb.timed.own_of_mem hz
    rw [htask, hnew] at hmem
    cases hmem
  · intro c c' hc hInv hstep hok
    have hcr : Reachable E calls c := hb.run hc.run
    exact ⟨hInv.1.step hcr hstep hok.1 hok.2, hInv.2.step hcr hInv.1 hstep⟩

end Kept

section Progress

/-- Only a refresh waits for another task. -/
def Operation.atOnce : Operation → Bool
  | .detached => false
  | _ => true

theorem uses_fetcher (q : CmsQuery) :
    (fetcher q).Uses fun op : Operation => op.atOnce = true := by
  cases q with
  | properties first after =>
    refine uses_catching (uses_bind ((uses_perform _).mpr rfl) fun _ => ?_) fun _ => trivial
    exact (uses_perform _).mpr rfl
  | property slug =>
    refine uses_catching (uses_bind ((uses_perform _).mpr rfl) fun _ =>
      uses_bind ((uses_perform _).mpr rfl) fun page => ?_) fun e => ?_
    · obtain ⟨version, body⟩ := page
      cases body <;> trivial
    · cases e <;> trivial

theorem uses_fetchAndWrite (key : String) (q : CmsQuery) :
    (fetchAndWrite key (fetcher q)).Uses fun op : Operation => op.atOnce = true :=
  uses_bind (uses_fetcher q) fun _ => uses_bind (uses_bind ((uses_perform _).mpr rfl) fun _ =>
    (uses_perform _).mpr rfl) fun _ => trivial

theorem uses_getOrSetWithSWR (key : String) (ttl stale : Seconds) (q : CmsQuery) :
    (getOrSetWithSWR key ttl stale (fetcher q)).Uses fun op : Operation => op.atOnce = true := by
  refine uses_bind ((uses_perform _).mpr rfl) fun reply => ?_
  cases reply with
  | none => exact uses_fetchAndWrite key q
  | some envelope =>
    refine uses_bind ((uses_perform _).mpr rfl) fun now => ?_
    simp only
    split_ifs
    · trivial
    · exact uses_bind ((uses_perform _).mpr rfl) fun _ => trivial
    · exact uses_fetchAndWrite key q

/-- Whatever a request awaits, it can be answered at once. -/
theorem Reachable.request_proceeds (h : Reachable E calls c)
    (hi : calls i = .getOrSetWithSWR key ttl stale q) {op : Operation}
    {k : Except Err op.Reply → Promise (Option Page)}
    (hawait : c.program (.request i) = .await op k) :
    ∃ r w, (server E).serve (.request i) op .resolves c.world = some (r, w) := by
  obtain ⟨now, cms, hrun⟩ := h
  have huses : (taskProgram E calls (.request i)).Uses fun op : Operation => op.atOnce = true := by
    rw [taskProgram, hi]
    exact uses_bind (uses_getOrSetWithSWR key ttl stale q) fun _ => trivial
  have hleft := (hrun.uses huses).2
  rw [hawait] at hleft
  cases op with
  | detached => cases hleft.1
  | _ => exact ⟨_, _, rfl⟩

end Progress

section Window

/-- A request that found an entry in its window takes its answer from it. -/
theorem RequestRun.served {h : History} {o : Option (Except Err Page)} {s : ℕ}
    (hrun : RequestRun key ttl stale q h o)
    (hread : ∀ reply, ⟨.get key, .ok reply⟩ ∈ h →
      ∃ envelope, reply = some envelope ∧ s ≤ envelope.cachedAt)
    (hclock : ∀ n : ℕ, ⟨.dateNow, .ok n⟩ ∈ h → (ttl.add stale).exceeds ((n : ℤ) - s) = true)
    (hup : ∀ op e, op.isRedis = true → (⟨op, .error e⟩ : Event) ∉ h) :
    (∀ e ∈ h, e.request.isFetch = false) ∧ h.length ≤ 3 ∧
      ∀ outcome, o = some outcome → ∃ envelope, outcome = .ok envelope.data ∧
        ⟨.get key, .ok (some envelope)⟩ ∈ h ∧ s ≤ envelope.cachedAt := by
  cases hrun with
  | start => exact ⟨by simp, by simp, fun _ ho => by cases ho⟩
  | unread e => exact absurd (by simp) (hup (.get key) e rfl)
  | missing hfetch =>
    obtain ⟨envelope, henvelope, -⟩ := hread none (by simp)
    cases henvelope
  | read envelope => exact ⟨by simp [Operation.isFetch], by simp, fun _ ho => by cases ho⟩
  | fresh envelope n _ =>
    refine ⟨by simp [Operation.isFetch], by simp, fun outcome ho => ?_⟩
    cases ho
    obtain ⟨_, heq, hstamp⟩ := hread (some envelope) (by simp)
    cases heq
    exact ⟨envelope, rfl, by simp, hstamp⟩
  | aged envelope n _ _ => exact ⟨by simp [Operation.isFetch], by simp, fun _ ho => by cases ho⟩
  | stale envelope n _ _ =>
    refine ⟨by simp [Operation.isFetch], by simp, fun outcome ho => ?_⟩
    cases ho
    obtain ⟨_, heq, hstamp⟩ := hread (some envelope) (by simp)
    cases heq
    exact ⟨envelope, rfl, by simp, hstamp⟩
  | expired envelope n _ hexpired hfetch =>
    obtain ⟨_, heq, hstamp⟩ := hread (some envelope) (by simp)
    cases heq
    have hle : (n : ℤ) - envelope.cachedAt ≤ n - s := by omega
    have hage := Seconds.exceeds_of_le (hclock n (by simp)) hle
    rw [hexpired] at hage
    cases hage

/-- Request `i` came after a value for its key had been written at time `s`, and it read the
cache and the clock before `s` + ttl + 600 seconds. -/
structure ArrivesInTime (E : Settings) (calls : ι → Call) (i : ι) (q : CmsQuery) (s : ℕ)
    (b c : System ι) : Prop where
  call : calls i = .fetch E q
  arrives : b.own (.request i) = []
  inTime : ∀ z ∈ c.world.journal, z.task = .request i →
    z.event.request = .get q.cacheKey ∨ z.event.request = .dateNow →
      E.ttlSeconds.sumExceeds staleSeconds ((z.time : ℤ) - s) = true
  up : RedisUp c

/-- The request does not turn to the CMS. It comes to its end in at most three events, none of
which it has to wait for, and ends with a value it read, stamped `s` or later. -/
structure ServedFromCache (E : Settings) (c : System ι) (i : ι) (key : String) (s : ℕ) :
    Prop where
  unfetched : ∀ e ∈ c.own (.request i), e.request.isFetch = false
  short : (c.own (.request i)).length ≤ 3
  proceeds : ∀ op k, c.program (.request i) = .await op k →
    ∃ r w, (server E).serve (.request i) op .resolves c.world = some (r, w)
  unfailed : ∀ e, c.program (.request i) ≠ .throw e
  answered : ∀ page?, c.program (.request i) = .pure page? → ∃ envelope,
    page? = some envelope.data ∧ ⟨.get key, .ok (some envelope)⟩ ∈ c.own (.request i) ∧
      s ≤ envelope.cachedAt

/-- Where the window ends before the expiry, the request finds the entry. -/
theorem ArrivesInTime.reads_entry {s : ℕ} (harrives : ArrivesInTime E calls i q s b c)
    (hlife : E.ttlSeconds.sumExceeds staleSeconds 21600001 = false) (hT : Timed c)
    (hreads : ReadsSince q.cacheKey s i c.world) :
    ∀ reply, ⟨.get q.cacheKey, .ok reply⟩ ∈ c.own (.request i) →
      ∃ envelope, reply = some envelope ∧ s ≤ envelope.cachedAt := by
  intro reply hmem
  obtain ⟨z, hz, htask, hevent⟩ := hT.mem_own.mp hmem
  refine ((hreads z hz htask).2 reply hevent).resolve_right fun hlate => ?_
  have hage := harrives.inTime z hz htask (Or.inl (by rw [hevent]))
  rw [cacheExpirySeconds] at hlate
  rw [Seconds.sumExceeds_of_le hage (by omega)] at hlife
  cases hlife

/-- Where rounding loses no millisecond of the window, the request finds the entry in it. -/
theorem ArrivesInTime.clock_in_window {s : ℕ} (harrives : ArrivesInTime E calls i q s b c)
    (hrounds : ∀ ms : ℕ, E.ttlSeconds.sumExceeds staleSeconds ms = true →
      (E.ttlSeconds.add staleSeconds).exceeds ms = true)
    (hT : Timed c) (hreads : ReadsSince q.cacheKey s i c.world) :
    ∀ n : ℕ, ⟨.dateNow, .ok n⟩ ∈ c.own (.request i) →
      (E.ttlSeconds.add staleSeconds).exceeds ((n : ℤ) - s) = true := by
  intro n hmem
  obtain ⟨z, hz, htask, hevent⟩ := hT.mem_own.mp hmem
  have htime : z.time = n := hT.clock z hz n hevent
  have hle : s ≤ n := htime ▸ (hreads z hz htask).1
  have hage := harrives.inTime z hz htask (Or.inr (by rw [hevent]))
  rw [htime, ← Nat.cast_sub hle] at hage
  rw [← Nat.cast_sub hle]
  exact hrounds _ hage

theorem servedFromCache_of_lifetime
    (hlife : E.ttlSeconds.sumExceeds staleSeconds 21600001 = false)
    (hrounds : ∀ ms : ℕ, E.ttlSeconds.sumExceeds staleSeconds ms = true →
      (E.ttlSeconds.add staleSeconds).exceeds ms = true)
    (ha : Reachable E calls a) {envelope : CacheEnvelope}
    (hwrites : Writes E q.cacheKey envelope a b)
    (hrun : RunWhere (server E) (fun c c' => InOrder q.cacheKey c c' ∧
      NotInvalidated q.cacheKey c c') b c)
    (harrives : ArrivesInTime E calls i q envelope.cachedAt b c) :
    ServedFromCache E c i q.cacheKey envelope.cachedAt := by
  have hc : Reachable E calls c := (ha.run (.single hwrites.1)).run hrun.run
  have hT := hc.timed
  have hreads := ReadsSince.run ha hwrites harrives.arrives hrun
  obtain ⟨⟨o, hshape⟩, hreturned, hthrown⟩ := hc.request_run harrives.call
  have hread := harrives.reads_entry hlife hT hreads
  have hclock := harrives.clock_in_window hrounds hT hreads
  have hup : ∀ op e, op.isRedis = true → (⟨op, .error e⟩ : Event) ∉ c.own (.request i) :=
    fun op e hop hmem => harrives.up _ op e hop (Config.mem_own.mp hmem)
  have hserved := hshape.served hread hclock hup
  constructor
  · exact hserved.1
  · exact hserved.2.1
  · exact fun op k hawait => hc.request_proceeds harrives.call hawait
  · intro e hdone
    obtain ⟨_, heq, -⟩ := ((hthrown e hdone).served hread hclock hup).2.2 _ rfl
    cases heq
  · intro page? hdone
    obtain ⟨page, rfl⟩ := hc.returns_page harrives.call hdone
    obtain ⟨envelope', heq, hmem, hstamp⟩ :=
      ((hreturned page hdone).served hread hclock hup).2.2 _ rfl
    exact ⟨envelope', congrArg some (Except.ok.inj heq), hmem, hstamp⟩

variable (E) in
/-- For every run whose writes of the key take effect in the order of their stamps: from the
write of a value on, each request in the window is served from the cache. -/
def ServesWhileUsable : Prop :=
  ∀ (ι : Type) [DecidableEq ι] (calls : ι → Call) (a b c : System ι) (i : ι) (q : CmsQuery)
    (envelope : CacheEnvelope), Reachable E calls a → Writes E q.cacheKey envelope a b →
      RunWhere (server E) (fun c c' => InOrder q.cacheKey c c' ∧ NotInvalidated q.cacheKey c c')
        b c →
      ArrivesInTime E calls i q envelope.cachedAt b c →
      ServedFromCache E c i q.cacheKey envelope.cachedAt

/-- Nothing is lost to rounding where the TTL is a whole number of seconds. -/
theorem servesWhileUsable_ofNat {n : ℕ} (hn : n ≤ 21000) :
    ServesWhileUsable { E with ttlSeconds := .ofNat n } := by
  intro ι _ calls a b c i q envelope ha hwrites hrun harrives
  apply servedFromCache_of_lifetime _ _ ha hwrites hrun harrives
  · rw [Bool.eq_false_iff, Ne, staleSeconds, (Seconds.sumExceeds_ofNat (by omega)).1]
    push_cast
    omega
  · intro ms hms
    rw [staleSeconds, (Seconds.sumExceeds_ofNat (by omega)).1] at hms
    rwa [staleSeconds, (Seconds.sumExceeds_ofNat (by omega)).2]

end Window

section Outage

/-- Request `i` goes through the events while the clock stands, and writes nothing. -/
structure Aside (E : Settings) (key : String) (i : ι) (events : History) (c c' : System ι) :
    Prop where
  run : RunWhere (server E) (fun c c' => InOrder key c c' ∧ NotInvalidated key c c') c c'
  trace : c'.trace = c.trace ++ events.map fun e => (Task.request i, e)
  now : c'.world.now = c.world.now
  journal : ∃ rest, c'.world.journal = c.world.journal ++ rest ∧ ∀ z ∈ rest, z.time = c.world.now

theorem harmless_answered {op : Operation} {r : Except Err op.Reply}
    {k : Except Err op.Reply → Promise (Option Page)} {w : World ι} (hop : op.isWrite = false) :
    InOrder key c (c.answered t op r k w) ∧ NotInvalidated key c (c.answered t op r k w) := by
  constructor
  · intro t' envelope exSeconds r' hevent
    obtain ⟨-, heq⟩ := stepEvent_answered.mp hevent
    cases heq
    cases hop
  · intro t' keys r' hevent
    obtain ⟨-, heq⟩ := stepEvent_answered.mp hevent
    cases heq
    cases hop

theorem Aside.refl : Aside E key i [] c c where
  run := .refl
  trace := (List.append_nil _).symm
  now := rfl
  journal := ⟨[], (List.append_nil _).symm, fun _ hz => (List.not_mem_nil hz).elim⟩

theorem Aside.step {events : History} (h : Aside E key i events c c') {op : Operation}
    {k : Except Err op.Reply → Promise (Option Page)} {choice : Choice} {r : Except Err op.Reply}
    {w : World ι} (hawait : c'.program (.request i) = .await op k) (hop : op.isWrite = false)
    (hserve : (server E).serve (.request i) op choice c'.world = some (r, w)) :
    Aside E key i (events ++ [⟨op, r⟩]) c (c'.answered (.request i) op r k w) := by
  obtain ⟨w₀, hserved, rfl⟩ := World.served_of_serve hserve
  obtain ⟨rest, hjournal, hrest⟩ := h.journal
  constructor
  · exact .tail h.run ⟨.serve hawait hserve, harmless_answered hop⟩
  · rw [Config.answered_trace, h.trace, List.append_assoc, List.map_append]
    rfl
  · exact hserved.now.trans h.now
  · refine ⟨rest ++ [c'.world.next (.request i) ⟨op, r⟩], ?_, fun z hz => ?_⟩
    · rw [Config.answered_world, hserved.journal_log, hjournal, List.append_assoc]
    · rcases List.mem_append.mp hz with hz | hz
      · exact hrest z hz
      · rw [List.mem_singleton.mp hz]
        exact h.now

/-- What is left of a request that has to fetch. -/
def fetchLeft (q : CmsQuery) : Promise (Option Page) :=
  (fetchAndWrite q.cacheKey (fetcher q)).bind fun page => .pure (some page)

theorem fetchLeft_eq (q : CmsQuery) (e : NativeError) : ∃ k₁ k₂ err,
    fetchLeft q = .await (.query q) k₁ ∧ k₁ (.ok ()) = .await (.response q) k₂ ∧
      k₂ (.error (.native e)) = .throw err := by
  cases q <;> exact ⟨_, _, _, rfl, rfl, rfl⟩

/-- Without the CMS a fetch can only fail. -/
theorem Aside.fetch_fails {events : History} (h : Aside E key i events c c')
    (hleft : c'.program (.request i) = fetchLeft q) (e : NativeError) :
    ∃ c'' err, Aside E key i
      (events ++ [⟨.query q, .ok ()⟩] ++ [⟨.response q, .error (.native e)⟩]) c c'' ∧
        c''.program (.request i) = .throw err := by
  obtain ⟨k₁, k₂, err, h₁, h₂, h₃⟩ := fetchLeft_eq q e
  have hquery := h.step (hleft.trans h₁) rfl
    (show (server E).serve (.request i) (.query q) .resolves c'.world = some (.ok (), _) from rfl)
  have hresponse := hquery.step (Config.answered_program_self.trans h₂) rfl
    (show (server E).serve (.request i) (.response q) (.rejects e) _ =
      some (.error (.native e), _) from rfl)
  refine ⟨_, err, hresponse, ?_⟩
  rw [Config.answered_program_self, h₃]

/-- Left to itself, with the CMS down, request `i` throws. -/
def Fails (E : Settings) (key : String) (i : ι) (c : System ι) : Prop :=
  ∃ events c' err, Aside E key i events c c' ∧ c'.program (.request i) = .throw err ∧
    ∀ op e, op.isRedis = true → (⟨op, .error e⟩ : Event) ∉ events

theorem program_fetch (E : Settings) (q : CmsQuery) : ∃ k,
    (Call.fetch E q).program E = .await (.get q.cacheKey) k ∧ k (.ok none) = fetchLeft q ∧
      ∀ envelope, ∃ k', k (.ok (some envelope)) = .await .dateNow k' ∧ ∀ n : ℕ,
        E.ttlSeconds.exceeds ((n : ℤ) - envelope.cachedAt) = false →
        (E.ttlSeconds.add staleSeconds).exceeds ((n : ℤ) - envelope.cachedAt) = false →
        k' (.ok n) = fetchLeft q := by
  refine ⟨_, rfl, rfl, fun envelope => ⟨_, rfl, fun n hfresh husable => ?_⟩⟩
  simp only [Program.bind, hfresh, husable, Bool.false_eq_true, ↓reduceIte]
  rfl

/-- Without an entry a request has to fetch. -/
theorem fails_of_miss (hprogram : c.program (.request i) = (Call.fetch E q).program E)
    (hentry : c.world.entry q.cacheKey = none) (e : NativeError) : Fails E key i c := by
  obtain ⟨k, h₁, h₂, -⟩ := program_fetch E q
  have hserve : (server E).serve (.request i) (.get q.cacheKey) .resolves c.world =
      some (.ok none, c.world.log (.request i) ⟨.get q.cacheKey, .ok none⟩) := by
    simp only [server, World.serve, World.respond, World.answer, hentry, Option.map_some,
      Option.map_none]
  have hstart : Aside E key i [] c c := Aside.refl
  have hget := hstart.step (hprogram.trans h₁) rfl hserve
  obtain ⟨c', err, haside, hthrow⟩ :=
    hget.fetch_fails (Config.answered_program_self.trans h₂) e
  refine ⟨_, c', err, haside, hthrow, fun op e' hop hmem => ?_⟩
  simp only [List.nil_append, List.cons_append, List.mem_cons, List.not_mem_nil, or_false] at hmem
  rcases hmem with heq | heq | heq <;> cases heq
  cases hop

/-- So it has where the age of the entry does not pass the test of the code. -/
theorem fails_of_expired (hprogram : c.program (.request i) = (Call.fetch E q).program E)
    {x : Entry} (hentry : c.world.entry q.cacheKey = some x)
    (hfresh : E.ttlSeconds.exceeds ((c.world.now : ℤ) - x.envelope.cachedAt) = false)
    (husable : (E.ttlSeconds.add staleSeconds).exceeds
      ((c.world.now : ℤ) - x.envelope.cachedAt) = false) (e : NativeError) :
    Fails E key i c := by
  obtain ⟨k, h₁, -, h₂⟩ := program_fetch E q
  obtain ⟨k', h₃, h₄⟩ := h₂ x.envelope
  have hserve : (server E).serve (.request i) (.get q.cacheKey) .resolves c.world =
      some (.ok (some x.envelope),
        c.world.log (.request i) ⟨.get q.cacheKey, .ok (some x.envelope)⟩) := by
    simp only [server, World.serve, World.respond, World.answer, hentry, Option.map_some]
  have hstart : Aside E key i [] c c := Aside.refl
  have hget := hstart.step (hprogram.trans h₁) rfl hserve
  have hclock := hget.step (Config.answered_program_self.trans h₃) rfl
    (show (server E).serve (.request i) .dateNow .resolves _ = some (.ok c.world.now, _) from rfl)
  obtain ⟨c', err, haside, hthrow⟩ := hclock.fetch_fails
    (Config.answered_program_self.trans (h₄ c.world.now hfresh husable)) e
  refine ⟨_, c', err, haside, hthrow, fun op e' hop hmem => ?_⟩
  simp only [List.nil_append, List.cons_append, List.mem_cons, List.not_mem_nil, or_false] at hmem
  rcases hmem with heq | heq | heq | heq <;> cases heq
  cases hop

end Outage

section Samples

/-- Everybody asks for one property. -/
def seaView : CmsQuery := .property "sea-view"

variable (E) in
def askers : ℕ → Call := fun _ => .fetch E seaView

variable (E) in
def askersRun (ms : Moves) : System ℕ :=
  (start E (askers E) 0 fun _ => samplePage 0).after (server E) ms

theorem reachable_askersRun {ms : Moves}
    (h : ((start E (askers E) 0 fun _ => samplePage 0).replay (server E) ms).isSome = true) :
    Reachable E (askers E) (askersRun E ms) :=
  ⟨0, _, Config.run_after h⟩

def cmsDown : NativeError := ⟨"The operation was aborted due to timeout", none, none⟩

variable (E) in
/-- Request 0 is about to write what it fetched. -/
def unwritten : System ℕ := askersRun E (undisturbed (.request 0) 4)

variable (E) in
def justWritten : System ℕ := askersRun E (undisturbed (.request 0) 5)

theorem reachable_unwritten : Reachable E (askers E) (unwritten E) :=
  reachable_askersRun (by rfl)

theorem writes_justWritten :
    Writes E seaView.cacheKey ⟨samplePage 0, 0⟩ (unwritten E) (justWritten E) :=
  ⟨Config.step_of_play (m := .serve (.request 0) .resolves) rfl, .request 0, cacheExpirySeconds,
    rfl⟩

variable (E) in
/-- Some milliseconds after the write. -/
def later (ms : ℕ) : System ℕ :=
  { justWritten E with
    world := { (justWritten E).world with now := (justWritten E).world.now + ms } }

theorem now_later (ms : ℕ) : (later E ms).world.now = ms := by
  have hnow : (justWritten E).world.now = 0 := rfl
  rw [later, hnow, Nat.zero_add]

theorem redis_later (ms : ℕ) : (later E ms).world.redis =
    [⟨seaView.cacheKey, ⟨samplePage 0, 0⟩, 0 + cacheExpirySeconds * 1000⟩] := rfl

/-- The entry is there for six hours. -/
theorem entry_later (ms : ℕ) : (later E ms).world.entry seaView.cacheKey =
    if ms ≤ 21600000 then
      some ⟨seaView.cacheKey, ⟨samplePage 0, 0⟩, 0 + cacheExpirySeconds * 1000⟩
    else none := by
  have hexpiry : 0 + cacheExpirySeconds * 1000 = 21600000 := by decide
  rw [World.entry, World.keys, redis_later, now_later]
  by_cases hms : ms ≤ 21600000
  · simp [hms, hexpiry]
  · simp [hms, hexpiry]

omit [DecidableEq ι] in
theorem harmless_drift {w : World ι} : InOrder key c { c with world := w } ∧
    NotInvalidated key c { c with world := w } :=
  ⟨fun _ _ _ _ hevent => absurd hevent not_stepEvent_drift,
    fun _ _ _ hevent => absurd hevent not_stepEvent_drift⟩

theorem fails_later {ms : ℕ} (hms : 21600000 < ms ∨
    (E.ttlSeconds.add staleSeconds).exceeds ms = false) : Fails E key 1 (later E ms) := by
  have hentry := entry_later (E := E) ms
  split_ifs at hentry with halive
  · have husable := hms.resolve_left (not_lt.mpr halive)
    have hfresh : E.ttlSeconds.exceeds ms = false := by
      by_contra hfresh
      rw [Seconds.exceeds_add (by simpa using hfresh) rfl] at husable
      cases husable
    exact fails_of_expired (q := seaView) rfl hentry (by simpa [now_later] using hfresh)
      (by simpa [now_later] using husable) cmsDown
  · exact fails_of_miss (q := seaView) rfl hentry cmsDown

/-- An age in the window at which the entry is gone, or not taken, ends with a request that
fails. -/
theorem outage_run {ms : ℕ} (hwindow : E.ttlSeconds.sumExceeds staleSeconds ms = true)
    (hms : 21600000 < ms ∨ (E.ttlSeconds.add staleSeconds).exceeds ms = false) :
    ∃ c, RunWhere (server E) (fun c c' => InOrder seaView.cacheKey c c' ∧
        NotInvalidated seaView.cacheKey c c') (justWritten E) c ∧
      ArrivesInTime E (askers E) 1 seaView 0 (justWritten E) c ∧
      ¬ ServedFromCache E c 1 seaView.cacheKey 0 := by
  have hdrift : Step (server E) (justWritten E) (later E ms) :=
    Config.step_of_play (m := .drift (.tick ms)) rfl
  have hnew : (justWritten E).own (.request 1) = [] := rfl
  have hfails : Fails E seaView.cacheKey 1 (later E ms) := fails_later hms
  obtain ⟨events, c, err, haside, hthrow, hup⟩ := hfails
  refine ⟨c, .head ⟨hdrift, harmless_drift⟩ haside.run, ⟨rfl, hnew, fun z hz htask _ => ?_, ?_⟩,
    fun hserved => hserved.unfailed err hthrow⟩
  · obtain ⟨rest, hjournal, hrest⟩ := haside.journal
    rw [hjournal] at hz
    rcases List.mem_append.mp hz with hz | hz
    · have hother : ((justWritten E).world.journal.all fun z => z.task != .request 1) = true := rfl
      have hz := List.all_eq_true.mp hother z hz
      rw [htask] at hz
      cases hz
    · rw [hrest z hz, now_later]
      simpa using hwindow
  · intro t op e hop hmem
    rw [haside.trace] at hmem
    rcases List.mem_append.mp hmem with hmem | hmem
    · have hanswered : ((justWritten E).trace.all fun x => match x.2.reply with
          | .ok _ => true
          | .error _ => false) = true := rfl
      have hx := List.all_eq_true.mp hanswered _ hmem
      cases hx
    · obtain ⟨event, hevent, heq⟩ := List.mem_map.mp hmem
      cases heq
      exact hup op e hop hevent

/-- Every request in the window is served from the cache exactly when ttl + 600 seconds end
with the six hours of the expiry, and the code's test of an age agrees with the window at every
millisecond of it. -/
theorem servesWhileUsable_iff (E : Settings) :
    ServesWhileUsable E ↔ E.ttlSeconds.sumExceeds staleSeconds 21600001 = false ∧
      ∀ ms : ℕ, E.ttlSeconds.sumExceeds staleSeconds ms = true →
        (E.ttlSeconds.add staleSeconds).exceeds ms = true := by
  constructor
  · intro hserves
    have hnever : ∀ ms : ℕ, E.ttlSeconds.sumExceeds staleSeconds ms = true →
        ¬ (21600000 < ms ∨ (E.ttlSeconds.add staleSeconds).exceeds ms = false) := by
      intro ms hwindow hms
      obtain ⟨c, hrun, harrives, hfails⟩ := outage_run hwindow hms
      exact hfails (hserves ℕ (askers E) (unwritten E) (justWritten E) c 1 seaView _
        reachable_unwritten writes_justWritten hrun harrives)
    constructor
    · by_contra hlong
      exact hnever 21600001 (by simpa using hlong) (Or.inl (by decide))
    · intro ms hwindow
      by_contra hunusable
      exact hnever ms hwindow (Or.inr (by simpa using hunusable))
  · rintro ⟨hlife, hrounds⟩ ι _ calls a b c i q envelope ha hwrites hrun harrives
    exact servedFromCache_of_lifetime hlife hrounds ha hwrites hrun harrives

/-- A TTL of 30000 seconds. -/
def longSettings : Settings := { sampleSettings with ttlSeconds := .ofNat 30000 }

theorem not_servesWhileUsable : ¬ ∀ (calls : ℕ → Call) (a b c : System ℕ) (i : ℕ) (q : CmsQuery)
    (envelope : CacheEnvelope), Reachable longSettings calls a →
      Writes longSettings q.cacheKey envelope a b →
      RunWhere (server longSettings) (NotInvalidated q.cacheKey) b c →
      ArrivesInTime longSettings calls i q envelope.cachedAt b c →
      ServedFromCache longSettings c i q.cacheKey envelope.cachedAt := by
  intro hclaim
  have hwindow : (Seconds.ofNat 30000).sumExceeds staleSeconds (21600001 : ℕ) = true := rfl
  obtain ⟨c, hrun, harrives, hfails⟩ := outage_run (E := longSettings) hwindow
    (Or.inl (by decide))
  refine hfails (hclaim _ _ _ c 1 seaView _ reachable_unwritten writes_justWritten ?_ harrives)
  exact Relation.ReflTransGen.mono (fun _ _ h => ⟨h.1, h.2.2⟩) _ _ hrun

end Samples

end PropertyPlatform.Cache
