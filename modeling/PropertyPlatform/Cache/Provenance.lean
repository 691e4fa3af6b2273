import PropertyPlatform.Cache.Timeline

/-!
# Where cached values come from

An entry was written by a task that had fetched it, and a read returns what was written
before. The stamp of an entry is taken before it is written, and the age of an entry after
it is read, so the age test bounds the time between the two.
-/

namespace PropertyPlatform.Cache

open Js Async Program

variable {E : Settings} {ι : Type} [DecidableEq ι] {calls : ι → Call} {c c' : System ι}
variable {t : Task ι} {i : ι} {key : String} {ttl stale : Seconds} {q : CmsQuery}

section Entries

variable {w : World ι} {x : Entry}

omit [DecidableEq ι] in
theorem World.mem_of_entry (h : w.entry key = some x) :
    x ∈ w.redis ∧ x.key = key ∧ w.now ≤ x.expiresAt := by
  have hmem := List.mem_filter.mp (List.mem_of_find?_eq_some h)
  have hkey := List.find?_some h
  exact ⟨hmem.1, by simpa using hkey, by simpa using hmem.2⟩

omit [DecidableEq ι] in
/-- With one entry a key, the entry of a key is the one that is stored and alive. -/
theorem World.entry_of_mem (hnodup : (w.redis.map Entry.key).Nodup) (hx : x ∈ w.redis)
    (halive : w.now ≤ x.expiresAt) : w.entry x.key = some x := by
  have hkeys : x ∈ w.keys := List.mem_filter.mpr ⟨hx, by simpa using halive⟩
  cases hentry : w.entry x.key with
  | none => exact absurd (List.find?_eq_none.mp hentry x hkeys) (by simp)
  | some y =>
    obtain ⟨hy, hkey, -⟩ := World.mem_of_entry hentry
    rw [List.inj_on_of_nodup_map hnodup hy hx hkey]

omit [DecidableEq ι] in
theorem World.mem_store {envelope : CacheEnvelope} {exSeconds : ℕ} :
    x ∈ (w.store key envelope exSeconds).redis ↔
      x = ⟨key, envelope, w.now + exSeconds * 1000⟩ ∨ (x ∈ w.redis ∧ x.key ≠ key) := by
  simp [World.store, List.mem_filter]

omit [DecidableEq ι] in
theorem World.mem_erase {keys : List String} :
    x ∈ (w.erase keys).redis ↔ x ∈ w.redis ∧ x.key ∉ keys := by
  simp [World.erase, List.mem_filter]

/-- The entries that one operation may leave. -/
theorem World.Served.mem_redis {w' : World ι} {q : Operation} {r : Except Err q.Reply}
    (h : w.Served E t q r w') (hx : x ∈ w'.redis) :
    (∃ envelope exSeconds r', (⟨q, r⟩ : Event) = ⟨.set x.key envelope exSeconds, r'⟩ ∧
      x = ⟨x.key, envelope, w.now + exSeconds * 1000⟩) ∨ x ∈ w.redis := by
  cases h with
  | stored key envelope exSeconds =>
    rcases World.mem_store.mp hx with rfl | ⟨hx, -⟩
    · exact Or.inl ⟨envelope, exSeconds, _, rfl, rfl⟩
    · exact Or.inr hx
  | erased keys => exact Or.inr (World.mem_erase.mp hx).1
  | _ => exact Or.inr hx

end Entries

/-- The entry was written by the event of this record. -/
def Entry.WrittenBy (x : Entry) (y : Record ι) : Prop :=
  ∃ exSeconds r, y.event = ⟨.set x.key x.envelope exSeconds, r⟩ ∧
    x.expiresAt = y.time + exSeconds * 1000

/-- Redis holds one entry a key, each written by some event, and so was what was read. -/
structure Sourced (c : System ι) : Prop where
  keys : (c.world.redis.map Entry.key).Nodup
  entries : ∀ x ∈ c.world.redis, ∃ y ∈ c.world.journal, x.WrittenBy y
  reads : ∀ z ∈ c.world.journal, ∀ key envelope, z.event = ⟨.get key, .ok (some envelope)⟩ →
    ∃ y ∈ c.world.journal, ∃ exSeconds r, y.event = ⟨.set key envelope exSeconds, r⟩ ∧
      y.seq < z.seq

theorem World.Served.nodup_keys {w w' : World ι} {q : Operation} {r : Except Err q.Reply}
    (h : w.Served E t q r w') (hkeys : (w.redis.map Entry.key).Nodup) :
    (w'.redis.map Entry.key).Nodup := by
  cases h with
  | stored key envelope exSeconds =>
    rw [World.store, List.map_cons, List.nodup_cons]
    refine ⟨fun hmem => ?_, hkeys.sublist (List.filter_sublist.map _)⟩
    obtain ⟨x, hx, hxkey⟩ := List.mem_map.mp hmem
    have hne : x.key ≠ key := by simpa using (List.mem_filter.mp hx).2
    exact hne hxkey
  | erased keys => exact hkeys.sublist (List.filter_sublist.map _)
  | _ => exact hkeys

theorem Sourced.serve_step (h : Sourced c) (hT : Timed c) {q : Operation}
    {r : Except Err q.Reply} {k : Except Err q.Reply → Promise (Option Page)} {w : World ι}
    (hserved : c.world.Served E t q r w) : Sourced (c.answered t q r k (w.log t ⟨q, r⟩)) := by
  have hmem : ∀ {y : Record ι}, y ∈ c.world.journal → y ∈ (w.log t ⟨q, r⟩).journal :=
    fun hy => (mem_journal_log hserved).mpr (Or.inl hy)
  refine ⟨hserved.nodup_keys h.keys, fun x hx => ?_, fun z hz key envelope hget => ?_⟩
  · rcases hserved.mem_redis hx with ⟨envelope, exSeconds, r', hevent, hxeq⟩ | hx
    · refine ⟨_, (mem_journal_log hserved).mpr (Or.inr rfl), exSeconds, r', ?_, ?_⟩
      · rw [hxeq]
        exact hevent
      · rw [hxeq]
        rfl
    · obtain ⟨y, hy, hwritten⟩ := h.entries x hx
      exact ⟨y, hmem hy, hwritten⟩
  · rw [Config.answered_world, mem_journal_log hserved] at hz
    rcases hz with hz | rfl
    · obtain ⟨y, hy, hset⟩ := h.reads z hz key envelope hget
      exact ⟨y, hmem hy, hset⟩
    · cases hget
      obtain ⟨x, hentry, rfl⟩ := Option.map_eq_some_iff.mp hserved.of_get.2.symm
      obtain ⟨hx, rfl, -⟩ := World.mem_of_entry hentry
      obtain ⟨y, hy, exSeconds, r, hset, -⟩ := h.entries x hx
      exact ⟨y, hmem hy, exSeconds, r, hset, (hT.past y hy).1⟩

theorem Reachable.sourced (h : Reachable E calls c) : Sourced c := by
  refine h.induct (fun now cms => ⟨.nil, ?_, ?_⟩)
    (fun c t q k r w hc hInv _ hserved => hInv.serve_step hc.timed hserved) ?_
  · exact fun _ hx => (List.not_mem_nil hx).elim
  · exact fun _ hx => (List.not_mem_nil hx).elim
  · intro c d w _ hInv hd
    cases d <;> cases hd <;> exact ⟨hInv.keys, hInv.entries, hInv.reads⟩

section Explanations

/-- The task works for a call that caches under the key, and its fetcher was given the page. -/
def Fetched (calls : ι → Call) (c : System ι) (t : Task ι) (key : String) (page : Page) : Prop :=
  ∃ ttl stale q, calls t.owner = .getOrSetWithSWR key ttl stale q ∧ accepts q page = true ∧
    (t, ⟨.response q, .ok page⟩) ∈ c.trace

/-- Call `i` read the page from an entry that `writeCache` of some task had stamped and
written less than the given time before. -/
def ReadWithin (calls : ι → Call) (c : System ι) (i : ι) (key : String) (page : Page)
    (limit : Seconds) : Prop :=
  ∃ y ∈ c.world.journal, ∃ z ∈ c.world.journal, ∃ (cachedAt : ℕ) (r : Except Err Unit),
    y.event = ⟨.set key ⟨page, cachedAt⟩ cacheExpirySeconds, r⟩ ∧
    z.task = .request i ∧ z.event = ⟨.get key, .ok (some ⟨page, cachedAt⟩)⟩ ∧
    Fetched calls c y.task key page ∧ cachedAt ≤ y.time ∧ y.time ≤ z.time ∧
    limit.exceeds ((z.time : ℤ) - cachedAt) = true

/-- A fetcher of the history was not given a page it accepts. -/
def FetchFailed (h : History) : Prop :=
  ∃ q, (∃ e, ⟨.response q, .error e⟩ ∈ h) ∨
    ∃ page, accepts q page = false ∧ ⟨.response q, .ok page⟩ ∈ h

/-- No Redis command was rejected. -/
def RedisUp (c : System ι) : Prop :=
  ∀ t (op : Operation) e, op.isRedis = true → (t, ⟨op, .error e⟩) ∉ c.trace

/-- What a task wrote it had fetched, and it took the stamp before it wrote. -/
theorem Reachable.written (h : Reachable E calls c) {y : Record ι} (hy : y ∈ c.world.journal)
    {envelope : CacheEnvelope} {exSeconds : ℕ} {r : Except Err Unit}
    (hset : y.event = ⟨.set key envelope exSeconds, r⟩) : exSeconds = cacheExpirySeconds ∧
      Fetched calls c y.task key envelope.data ∧ envelope.cachedAt ≤ y.time := by
  have hT := h.timed
  have hown := hT.own_of_mem hy
  rw [hset] at hown
  obtain ⟨hex, ttl, stale, q, before, hwrote⟩ := h.wrote hown
  refine ⟨hex, ⟨ttl, stale, q, hwrote.call, hwrote.accepted, ?_⟩, ?_⟩
  · rw [← Config.mem_own, hwrote.own]
    simp
  · have hsplit : c.own y.task = (before ++ [⟨.query q, .ok ()⟩, ⟨.response q, .ok envelope.data⟩,
        ⟨.dateNow, .ok envelope.cachedAt⟩]) ++ [⟨.set key envelope exSeconds, r⟩] := by
      rw [hwrote.own, hex, List.append_assoc]
      rfl
    have hstamp : (⟨.dateNow, .ok envelope.cachedAt⟩ : Event) ∈ c.own y.task := by
      rw [hwrote.own]
      simp
    obtain ⟨z, hz, htask, hevent⟩ := hT.mem_own.mp hstamp
    have hlt := hT.seq_lt hsplit hz htask (by simp [hevent]) hy rfl (by
      rw [hset]
      intro hmem
      rcases List.mem_append.mp hmem with hmem | hmem
      · cases hwrote.unfetched _ hmem
      · simp at hmem)
    rw [← hT.clock z hz _ hevent]
    exact hT.time_le hz hy hlt.le

/-- A write takes effect no earlier than its stamp says. -/
theorem Reachable.stamped_before {envelope : CacheEnvelope} {exSeconds : ℕ}
    {r : Except Err Unit} {k : Except Err Unit → Promise (Option Page)}
    (h : Reachable E calls (c.answered t (.set key envelope exSeconds) r k
      ((c.world.store key envelope exSeconds).log t ⟨.set key envelope exSeconds, r⟩))) :
    exSeconds = cacheExpirySeconds ∧ envelope.cachedAt ≤ c.world.now := by
  have hstored : c.world.Served E t (.set key envelope exSeconds) r
    (c.world.store key envelope exSeconds) := .stored key envelope exSeconds r
  obtain ⟨hex, -, hstamp⟩ := h.written ((mem_journal_log hstored).mpr (Or.inr rfl)) rfl
  exact ⟨hex, hstamp⟩

/-- The age is taken after the read. -/
theorem Reachable.read_before (h : Reachable E calls c) {envelope : CacheEnvelope} {n : ℕ}
    {rest : History} (hown : c.own (.request i) =
      ⟨.get key, .ok (some envelope)⟩ :: ⟨.dateNow, .ok n⟩ :: rest)
    (hrest : ∀ e ∈ rest, e.request ≠ .get key) {z : Record ι} (hz : z ∈ c.world.journal)
    (htask : z.task = .request i) (hget : z.event = ⟨.get key, .ok (some envelope)⟩) :
    z.time ≤ n := by
  have hT := h.timed
  have hclock : (⟨.dateNow, .ok n⟩ : Event) ∈ c.own (.request i) := by
    rw [hown]
    simp
  obtain ⟨y, hy, hytask, hevent⟩ := hT.mem_own.mp hclock
  have hsplit : c.own (.request i) = [⟨.get key, .ok (some envelope)⟩] ++
      ⟨.dateNow, .ok n⟩ :: rest := hown
  have hlt := hT.seq_lt hsplit hz htask (by
      rw [hget]
      intro hmem
      rcases List.mem_cons.mp hmem with hmem | hmem
      · cases hmem
      · exact hrest _ hmem rfl) hy hytask (by simp [hevent])
  rw [← hT.clock y hy _ hevent]
  exact hT.time_le hz hy hlt.le

/-- A value that passes the age test of the code was read within its limit. -/
theorem Reachable.readWithin (h : Reachable E calls c) {envelope : CacheEnvelope} {n : ℕ}
    {rest : History} (hown : c.own (.request i) =
      ⟨.get key, .ok (some envelope)⟩ :: ⟨.dateNow, .ok n⟩ :: rest)
    (hrest : ∀ e ∈ rest, e.request ≠ .get key) {limit : Seconds}
    (hage : limit.exceeds ((n : ℤ) - envelope.cachedAt) = true) :
    ReadWithin calls c i key envelope.data limit := by
  have hT := h.timed
  have hget : (⟨.get key, .ok (some envelope)⟩ : Event) ∈ c.own (.request i) := by
    rw [hown]
    simp
  obtain ⟨z, hz, htask, hevent⟩ := hT.mem_own.mp hget
  obtain ⟨y, hy, exSeconds, r, hset, hlt⟩ := h.sourced.reads z hz _ _ hevent
  obtain ⟨rfl, hfetched, hstamp⟩ := h.written hy hset
  refine ⟨y, hy, z, hz, envelope.cachedAt, r, hset, htask, hevent, hfetched, hstamp,
    hT.time_le hy hz hlt.le, ?_⟩
  have hle := h.read_before hown hrest hz htask hevent
  exact Seconds.exceeds_of_le hage (by omega)

/-- A fetch that failed is the end of the task's dealings with the cache. -/
theorem FetchRun.unwritten_of_failed {h : History} {o : Option (Except Err Page)}
    (hrun : FetchRun key q h o) (hfailed : FetchFailed h) :
    ∀ e ∈ h, e.request.isWrite = false := by
  obtain ⟨q', ⟨e, hmem⟩ | ⟨page, hpage, hmem⟩⟩ := hfailed
  · cases hrun <;> simp_all [Operation.isWrite]
  · cases hrun <;> simp_all [Operation.isWrite]

/-- How long a value may be served after it was written. -/
def window (ttl stale : Seconds) : Seconds := if stale.isNegative then ttl else ttl.add stale

theorem exceeds_window {ms : ℤ} (h : ttl.exceeds ms = true) :
    (window ttl stale).exceeds ms = true := by
  unfold window
  split_ifs with hstale
  · exact h
  · exact Seconds.exceeds_add h (by simpa using hstale)

theorem exceeds_window_of_add {ms : ℤ} (h : (ttl.add stale).exceeds ms = true) :
    (window ttl stale).exceeds ms = true := by
  unfold window
  split_ifs with hstale
  · exact Seconds.exceeds_of_add h hstale
  · exact h

theorem fetched_of_written (ht : calls t.owner = .getOrSetWithSWR key ttl stale q)
    {before part : History} {page : Page} (hown : c.own t = before ++ part)
    (hfetch : FetchRun key q part (some (.ok page))) :
    Fetched calls c t key page := by
  cases hfetch with
  | written _ hpage s =>
    refine ⟨ttl, stale, q, ht, hpage, ?_⟩
    rw [← Config.mem_own, hown]
    simp

theorem failed_of_error {h : History} {e : Err} (hfetch : FetchRun key q h (some (.error e)))
    (hup : ∀ op e, op.isRedis = true → (⟨op, .error e⟩ : Event) ∉ h) : FetchFailed h := by
  cases hfetch with
  | failed e' => exact ⟨q, Or.inl ⟨e', by simp⟩⟩
  | refused page _ hpage => exact ⟨q, Or.inr ⟨page, hpage, by simp⟩⟩
  | unwritten page hpage s e =>
    exact absurd (by simp) (hup (.set key ⟨page, s⟩ cacheExpirySeconds) e rfl)

theorem FetchFailed.append {h : History} (hfailed : FetchFailed h) (before : History) :
    FetchFailed (before ++ h) := by
  obtain ⟨q, ⟨e, hmem⟩ | ⟨page, hpage, hmem⟩⟩ := hfailed
  · exact ⟨q, Or.inl ⟨e, List.mem_append_right _ hmem⟩⟩
  · exact ⟨q, Or.inr ⟨page, hpage, List.mem_append_right _ hmem⟩⟩

/-- A value a request returns was fetched or read within the window. -/
theorem Reachable.explained (h : Reachable E calls c)
    (hi : calls i = .getOrSetWithSWR key ttl stale q) {page : Page}
    (hrun : RequestRun key ttl stale q (c.own (.request i)) (some (.ok page))) :
    Fetched calls c (.request i) key page ∨ ReadWithin calls c i key page (window ttl stale) := by
  generalize hown : c.own (.request i) = l at hrun
  generalize hok : some (Except.ok page) = o at hrun
  cases hrun with
  | missing hfetch =>
    rw [← hok] at hfetch
    exact Or.inl (fetched_of_written hi (hown.trans List.singleton_append.symm) hfetch)
  | expired envelope n _ _ hfetch =>
    rw [← hok] at hfetch
    have hsplit : c.own (.request i) = [⟨.get key, .ok (some envelope)⟩, ⟨.dateNow, .ok n⟩] ++ _ :=
      hown
    exact Or.inl (fetched_of_written hi hsplit hfetch)
  | fresh envelope n hfresh =>
    cases hok
    exact Or.inr (h.readWithin hown (by simp) (exceeds_window hfresh))
  | stale envelope n _ husable =>
    cases hok
    exact Or.inr (h.readWithin hown (by simp) (exceeds_window_of_add husable))
  | _ => cases hok

/-- The rejections of Redis apart, a request throws because its own fetch failed. -/
theorem RequestRun.failed_of_error {h : History} {e : Err}
    (hrun : RequestRun key ttl stale q h (some (.error e)))
    (hup : ∀ op e, op.isRedis = true → (⟨op, .error e⟩ : Event) ∉ h) : FetchFailed h := by
  cases hrun with
  | unread e => exact absurd (by simp) (hup (.get key) e rfl)
  | missing hfetch =>
    exact (Cache.failed_of_error hfetch fun op e hop hmem =>
      hup op e hop (List.mem_cons_of_mem _ hmem)).append [_]
  | expired envelope n _ _ hfetch =>
    exact (Cache.failed_of_error hfetch fun op e hop hmem =>
      hup op e hop (List.mem_cons_of_mem _ (List.mem_cons_of_mem _ hmem))).append [_, _]

/-- A task whose fetch failed writes nothing. -/
theorem Reachable.idle_of_failed (h : Reachable E calls c) (hfailed : FetchFailed (c.own t)) :
    ∀ e ∈ c.own t, e.request.isWrite = false := by
  have hfetch : ∃ e ∈ c.own t, e.request.isFetch = true := by
    obtain ⟨q, ⟨e, hmem⟩ | ⟨page, -, hmem⟩⟩ := hfailed
    · exact ⟨_, hmem, rfl⟩
    · exact ⟨_, hmem, rfl⟩
  obtain ⟨e, he, hfetch⟩ := hfetch
  obtain ⟨key, ttl, stale, q, hcall⟩ := h.isFetch_owner he hfetch
  obtain ⟨before, part, o, hown, hrun, hbefore⟩ := h.fetch_run hcall
  rw [hown] at hfailed ⊢
  have hpart : FetchFailed part := by
    obtain ⟨q', ⟨e, hmem⟩ | ⟨page, hpage, hmem⟩⟩ := hfailed
    · refine ⟨q', Or.inl ⟨e, (List.mem_append.mp hmem).resolve_left fun hmem => ?_⟩⟩
      cases (hbefore _ hmem).1
    · refine ⟨q', Or.inr ⟨page, hpage, (List.mem_append.mp hmem).resolve_left fun hmem => ?_⟩⟩
      cases (hbefore _ hmem).1
  intro e he
  rcases List.mem_append.mp he with he | he
  · exact (hbefore e he).2
  · exact hrun.unwritten_of_failed hpart e he

theorem World.Served.redis_of_idle {w w' : World ι} {op : Operation} {r : Except Err op.Reply}
    (h : w.Served E t op r w') (hop : op.isWrite = false) : w'.redis = w.redis := by
  cases h with
  | stored => cases hop
  | erased => cases hop
  | _ => rfl

/-- Every value returned was fetched in the same call or read within its window, a request
throws only when its own fetch failed, and a failed fetch changes no entry. -/
theorem cached_values_explained (h : Reachable E calls c)
    (hi : calls i = .getOrSetWithSWR key ttl stale q) :
    (∀ page, c.program (.request i) = .pure (some page) →
      Fetched calls c (.request i) key page ∨
        ReadWithin calls c i key page (window ttl stale)) ∧
    (∀ e, RedisUp c → c.program (.request i) = .throw e → FetchFailed (c.own (.request i))) ∧
    ∀ t op k choice r w, c.program t = .await op k → c.world.serve E t op choice = some (r, w) →
      FetchFailed (c.own t ++ [⟨op, r⟩]) → w.redis = c.world.redis := by
  obtain ⟨-, hreturned, hthrown⟩ := h.request_run hi
  refine ⟨fun page hdone => h.explained hi (hreturned page hdone), fun e hup hdone => ?_, ?_⟩
  · refine (hthrown e hdone).failed_of_error fun op e hop hmem => ?_
    exact hup _ op e hop (Config.mem_own.mp hmem)
  · intro t op k choice r w hprogram hserve hfailed
    have hnext : Reachable E calls (c.answered t op r k w) :=
      h.run (.single (.serve (V := server E) hprogram hserve))
    have hidle := hnext.idle_of_failed (t := t) (by rwa [Config.own_answered_self])
    rw [Config.own_answered_self] at hidle
    have hop : op.isWrite = false :=
      hidle _ (List.mem_append_right _ (List.mem_singleton_self _))
    obtain ⟨w₀, hserved, rfl⟩ := World.served_of_serve hserve
    exact hserved.redis_of_idle hop

end Explanations

section Samples

/-- The default settings, with every key in one slot of the keyspace. -/
def sampleSettings : Settings := ⟨.ofNat 300, 1, fun _ => 0⟩

def samplePage (version : ℕ) : Page := ⟨version, .object [("slug", .str "sea-view")]⟩

def sampleStart (calls : ℕ → Call) : System ℕ :=
  start sampleSettings calls 0 fun _ => samplePage 0

abbrev Moves := List (Move (Task ℕ) Choice Drift)

/-- Steps of one task that nothing disturbs. -/
def undisturbed (t : Task ℕ) (n : ℕ) : Moves := List.replicate n (.serve t .resolves)

def sampleRun (calls : ℕ → Call) (ms : Moves) : System ℕ :=
  (sampleStart calls).after (server sampleSettings) ms

theorem reachable_sampleRun {calls : ℕ → Call} {ms : Moves}
    (h : ((sampleStart calls).replay (server sampleSettings) ms).isSome = true) :
    Reachable sampleSettings calls (sampleRun calls ms) :=
  ⟨0, _, Config.run_after h⟩

/-- Two requests for one property; the second has a negative grace window. -/
def seaViewCalls : ℕ → Call
  | 0 => .fetch sampleSettings (.property "sea-view")
  | _ => .getOrSetWithSWR "wpcms:property:sea-view" (.ofNat 300) (.ofInt (-100))
      (.property "sea-view")

/-- The second request comes 250 seconds after the first has written. -/
def servedFresh : System ℕ := sampleRun seaViewCalls
  (undisturbed (.request 0) 5 ++ [.drift (.tick 250000)] ++ undisturbed (.request 1) 2)

theorem reachable_servedFresh : Reachable sampleSettings seaViewCalls servedFresh :=
  reachable_sampleRun (by rfl)

theorem not_fetched_of_trace {calls : ℕ → Call} {c : System ℕ} {i : ℕ} {key : String}
    {page : Page} (h : (c.trace.all fun x => x.1 != .request i || !x.2.request.isFetch) = true) :
    ¬ Fetched calls c (.request i) key page := by
  rintro ⟨ttl, stale, q, -, -, hmem⟩
  simpa [Operation.isFetch] using List.all_eq_true.mp h _ hmem

def askingCalls : ℕ → Call := fun _ => .fetch sampleSettings (.property "sea-view")

/-- The second request comes 400 seconds after the first has written. -/
def servedStale : System ℕ := sampleRun askingCalls
  (undisturbed (.request 0) 5 ++ [.drift (.tick 400000)] ++ undisturbed (.request 1) 3)

theorem reachable_servedStale : Reachable sampleSettings askingCalls servedStale :=
  reachable_sampleRun (by rfl)

/-- The second request read its value within the window. -/
theorem cached_values_sample :
    ReadWithin askingCalls servedStale 1 "wpcms:property:sea-view" (samplePage 0)
      (window (.ofNat 300) staleSeconds) :=
  ((cached_values_explained (i := 1) reachable_servedStale rfl).1 _ rfl).resolve_left
    (not_fetched_of_trace (by rfl))

/-- An entry that a `GET` has found is at least 250 seconds old. -/
def readsOld (time : ℕ) : Event → Bool
  | ⟨.get _, .ok (some envelope)⟩ => decide (envelope.cachedAt + 250000 ≤ time)
  | _ => true

/-- With a grace window of minus 100 seconds, a value 250 seconds old is still served. -/
theorem not_read_within_sum : ¬ ∀ (calls : ℕ → Call) (c : System ℕ) (i : ℕ) (key : String)
    (ttl stale : Seconds) (q : CmsQuery) (page : Page), Reachable sampleSettings calls c →
      calls i = .getOrSetWithSWR key ttl stale q → c.program (.request i) = .pure (some page) →
      Fetched calls c (.request i) key page ∨ ReadWithin calls c i key page (ttl.add stale) := by
  intro hclaim
  rcases hclaim seaViewCalls servedFresh 1 _ _ _ _ _ reachable_servedFresh rfl rfl with
    hfetched | hread
  · exact not_fetched_of_trace (by rfl) hfetched
  · obtain ⟨y, -, z, hz, cachedAt, r, -, htask, hget, -, -, -, hage⟩ := hread
    have htimes : (servedFresh.world.journal.all fun x => x.task != .request 1 ||
        readsOld x.time x.event) = true := by rfl
    have hx := List.all_eq_true.mp htimes z hz
    rw [htask, hget] at hx
    have hle : cachedAt + 250000 ≤ z.time := by simpa [readsOld] using hx
    have hlimit : ((Seconds.ofNat 300).add (.ofInt (-100))).exceeds 250000 = true :=
      Seconds.exceeds_of_le hage (by omega)
    cases hlimit

end Samples

end PropertyPlatform.Cache
