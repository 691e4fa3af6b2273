import PropertyPlatform.Cache.Lifetime

/-!
# How often the CMS is asked

Nothing keeps two requests from fetching the same key at once. When every fetch is decided
after the earlier ones of its key have been written, two fetches of a key are at least a TTL
apart, as long as the TTL is not longer than an entry lives.
-/

namespace PropertyPlatform.Cache

open Js Async Program

variable {E : Settings} {ι : Type} [DecidableEq ι] {calls : ι → Call} {a b c c' : System ι}
variable {t : Task ι} {i : ι} {key : String} {ttl stale : Seconds} {q : CmsQuery}

/-- The record of a fetch that starts for the key. -/
def FetchStart (key : String) (x : Record ι) : Prop :=
  ∃ q, q.cacheKey = key ∧ x.event = ⟨.query q, .ok ()⟩

/-- The record of a write of the key that Redis acknowledged. -/
def Written (key : String) (w : Record ι) : Prop :=
  ∃ envelope exSeconds, w.event = ⟨.set key envelope exSeconds, .ok ()⟩

/-- What one fetch fetched was written before another task's request read the key. -/
def WrittenBeforeRead (key : String) (journal : List (Record ι)) (fetching deciding : Task ι) :
    Prop :=
  ∃ w ∈ journal, ∃ z ∈ journal, w.task = fetching ∧ Written key w ∧
    z.task = .request deciding.owner ∧ z.event.request = .get key ∧ w.seq < z.seq

/-- A fetch of the key starts in this step only if the earlier ones had been written before
the read on which it was decided. -/
def DecidesAlone (key : String) (a b : System ι) : Prop :=
  ∀ t q, q.cacheKey = key → StepEvent a b t ⟨.query q, .ok ()⟩ →
    ∀ x ∈ a.world.journal, FetchStart key x → WrittenBeforeRead key a.world.journal x.task t

/-- Two fetches of the key start at least a TTL apart. -/
def OncePerTtl (E : Settings) (key : String) (c : System ι) : Prop :=
  ∀ x ∈ c.world.journal, ∀ y ∈ c.world.journal, FetchStart key x → FetchStart key y →
    x.seq < y.seq → E.ttlSeconds.exceeds ((y.time : ℤ) - x.time) = false

section Decisions

/-- A refresh starts only after its request has detached it. -/
structure Detaching (c : System ι) : Prop where
  flag : ∀ i, c.world.detached i = true →
    ∃ z ∈ c.world.journal, z.task = .request i ∧ z.event = ⟨.detach, .ok ()⟩
  order : ∀ y ∈ c.world.journal, y.event = ⟨.detached, .ok ()⟩ →
    ∃ z ∈ c.world.journal, z.task = .request y.task.owner ∧ z.event = ⟨.detach, .ok ()⟩ ∧
      z.seq < y.seq

theorem Detaching.serve_step (h : Detaching c) (hT : Timed c) {op : Operation}
    {r : Except Err op.Reply} {k : Except Err op.Reply → Promise (Option Page)} {w : World ι}
    (hserved : c.world.Served E t op r w) : Detaching (c.answered t op r k (w.log t ⟨op, r⟩)) := by
  have hmem : ∀ {y : Record ι}, y ∈ c.world.journal → y ∈ (w.log t ⟨op, r⟩).journal :=
    fun hy => (mem_journal_log hserved).mpr (Or.inl hy)
  constructor
  · intro i hi
    have hcases : c.world.detached i = true ∨
        t = .request i ∧ (⟨op, r⟩ : Event) = ⟨.detach, .ok ()⟩ := by
      cases hserved with
      | detach j ht =>
        by_cases hij : i = j
        · exact Or.inr ⟨hij ▸ ht, rfl⟩
        · exact Or.inl ((Function.update_of_ne hij _ _).symm.trans hi)
      | _ => exact Or.inl hi
    rcases hcases with hi | ⟨rfl, hevent⟩
    · obtain ⟨z, hz, hdetach⟩ := h.flag i hi
      exact ⟨z, hmem hz, hdetach⟩
    · exact ⟨_, (mem_journal_log hserved).mpr (Or.inr rfl), rfl, hevent⟩
  · intro y hy hevent
    rw [Config.answered_world, mem_journal_log hserved] at hy
    rcases hy with hy | rfl
    · obtain ⟨z, hz, hdetach⟩ := h.order y hy hevent
      exact ⟨z, hmem hz, hdetach⟩
    · cases hevent
      cases hserved with
      | detached j ht hdetached =>
        obtain ⟨z, hz, htask, hdetach⟩ := h.flag j hdetached
        refine ⟨z, hmem hz, ?_, hdetach, (hT.past z hz).1⟩
        rw [htask]
        exact congrArg (fun t => Task.request (Task.owner t)) ht.symm

theorem Reachable.detaching (h : Reachable E calls c) : Detaching c := by
  refine h.induct (fun now cms => ⟨fun i hi => (by cases hi), fun y hy => (by cases hy)⟩)
    (fun c t q k r w hc hInv _ hserved => hInv.serve_step hc.timed hserved) ?_
  intro c d w _ hInv hd
  cases d <;> cases hd <;> exact ⟨hInv.flag, hInv.order⟩

/-- A fetch and its write only send, await, stamp and set. -/
theorem FetchRun.operations {h : History} {o : Option (Except Err Page)}
    (hrun : FetchRun key q h o) : ∀ e ∈ h, e.request.isFetch = true ∨ e.request = .dateNow := by
  cases hrun <;> simp [Operation.isFetch]

/-- What a request read, and when, if it went on to fetch or to detach its refresh. -/
def Decided (key : String) (ttl : Seconds) (z : Record ι) (time : ℕ) : Prop :=
  z.time ≤ time ∧ (z.event = ⟨.get key, .ok none⟩ ∨
    ∃ (envelope : CacheEnvelope) (n : ℕ), z.event = ⟨.get key, .ok (some envelope)⟩ ∧
      ttl.exceeds ((n : ℤ) - envelope.cachedAt) = false ∧ n ≤ time)

theorem FetchRun.not_get {key' : String} {part : History} {o : Option (Except Err Page)}
    (hrun : FetchRun key' q part o) : ∀ e ∈ part, e.request ≠ .get key := by
  intro e he heq
  rcases hrun.operations e he with hop | hop <;> rw [heq] at hop <;> cases hop

/-- The read is the first event of a request. -/
theorem Timed.read_first (hT : Timed c) {r : Except Err (Option CacheEnvelope)} {rest : History}
    (hown : c.own (.request i) = [⟨.get key, r⟩] ++ rest)
    (hrest : ∀ e ∈ rest, e.request ≠ .get key) {y z : Record ι} (hy : y ∈ c.world.journal)
    (hytask : y.task = .request i) (hyget : y.event ≠ ⟨.get key, r⟩)
    (hz : z ∈ c.world.journal) (hztask : z.task = .request i) (hget : z.event.request = .get key) :
    z.event = ⟨.get key, r⟩ ∧ z.time ≤ y.time := by
  have hzrest : z.event ∉ rest := fun hmem => hrest _ hmem hget
  have hyfirst : y.event ∉ [(⟨.get key, r⟩ : Event)] :=
    fun hmem => hyget (List.mem_singleton.mp hmem)
  have hlt := hT.seq_lt hown hz hztask hzrest hy hytask hyfirst
  have hzown : z.event ∈ c.own (.request i) := hztask ▸ hT.own_of_mem hz
  rw [hown] at hzown
  exact ⟨List.mem_singleton.mp ((List.mem_append.mp hzown).resolve_right hzrest),
    hT.time_le hz hy hlt.le⟩

/-- The age test is the second. -/
theorem Timed.clock_second (hT : Timed c) {r : Except Err (Option CacheEnvelope)} {n : ℕ}
    {rest : History} (hown : c.own (.request i) = [⟨.get key, r⟩] ++ ⟨.dateNow, .ok n⟩ :: rest)
    {y : Record ι} (hy : y ∈ c.world.journal) (hytask : y.task = .request i)
    (hyget : y.event ≠ ⟨.get key, r⟩) : n ≤ y.time := by
  obtain ⟨x, hx, -, hxevent, hlocate⟩ := hT.locate hown
  rw [← hT.clock x hx n hxevent]
  rcases hlocate y hy hytask with rfl | ⟨hmem, -⟩ | ⟨-, hlt⟩
  · exact le_rfl
  · exact absurd (List.mem_singleton.mp hmem) hyget
  · exact hT.time_le hx hy hlt.le

theorem Reachable.decided_request (h : Reachable E calls c)
    (hcall : calls i = .getOrSetWithSWR key ttl stale q) {y z : Record ι}
    (hy : y ∈ c.world.journal) (hytask : y.task = .request i)
    (hevent : y.event.request = .query q ∨ y.event.request = .detach)
    (hz : z ∈ c.world.journal) (hztask : z.task = .request i) (hget : z.event.request = .get key) :
    Decided key ttl z y.time := by
  have hT := h.timed
  obtain ⟨o, hrun⟩ := (h.request_run hcall).1
  have hyown : y.event ∈ c.own (.request i) := hytask ▸ hT.own_of_mem hy
  have hyget : ∀ r, y.event ≠ ⟨.get key, r⟩ := by
    rintro r heq
    rw [heq] at hevent
    rcases hevent with hevent | hevent <;> cases hevent
  have hyclock : ∀ r, y.event ≠ ⟨.dateNow, r⟩ := by
    rintro r heq
    rw [heq] at hevent
    rcases hevent with hevent | hevent <;> cases hevent
  generalize hown : c.own (.request i) = l at hrun
  cases hrun with
  | missing hfetch =>
    obtain ⟨hzevent, htime⟩ := hT.read_first hown hfetch.not_get hy hytask (hyget _) hz hztask hget
    exact ⟨htime, Or.inl hzevent⟩
  | @expired envelope n haged _ part _ hfetch =>
    have hrest : ∀ e ∈ (⟨.dateNow, .ok n⟩ : Event) :: part, e.request ≠ .get key := by
      intro e he
      rcases List.mem_cons.mp he with rfl | he
      · exact fun heq => by cases heq
      · exact hfetch.not_get e he
    obtain ⟨hzevent, htime⟩ := hT.read_first hown hrest hy hytask (hyget _) hz hztask hget
    exact ⟨htime, Or.inr ⟨envelope, n, hzevent, haged,
      hT.clock_second hown hy hytask (hyget _)⟩⟩
  | stale envelope n haged _ =>
    have hrest : ∀ e ∈ [(⟨.dateNow, .ok n⟩ : Event), ⟨.detach, .ok ()⟩], e.request ≠ .get key := by
      simp
    obtain ⟨hzevent, htime⟩ := hT.read_first hown hrest hy hytask (hyget _) hz hztask hget
    exact ⟨htime, Or.inr ⟨envelope, n, hzevent, haged,
      hT.clock_second hown hy hytask (hyget _)⟩⟩
  | start => rw [hown] at hyown; cases hyown
  | unread e => exact absurd (List.mem_singleton.mp (hown ▸ hyown)) (hyget _)
  | read envelope => exact absurd (List.mem_singleton.mp (hown ▸ hyown)) (hyget _)
  | fresh envelope n _ =>
    rw [hown] at hyown
    rcases List.mem_cons.mp hyown with heq | hmem
    · exact absurd heq (hyget _)
    · exact absurd (List.mem_singleton.mp hmem) (hyclock _)
  | aged envelope n _ _ =>
    rw [hown] at hyown
    rcases List.mem_cons.mp hyown with heq | hmem
    · exact absurd heq (hyget _)
    · exact absurd (List.mem_singleton.mp hmem) (hyclock _)

/-- A fetch was decided by its request, a refresh before it was detached. -/
theorem Reachable.decided (h : Reachable E calls c) {y z : Record ι}
    (hcall : calls y.task.owner = .getOrSetWithSWR key ttl stale q) (hy : y ∈ c.world.journal)
    (hquery : y.event = ⟨.query q, .ok ()⟩) (hz : z ∈ c.world.journal)
    (hztask : z.task = .request y.task.owner) (hget : z.event.request = .get key) :
    Decided key ttl z y.time := by
  have hT := h.timed
  cases htask : y.task with
  | request i =>
    rw [htask] at hcall hztask
    exact h.decided_request hcall hy htask (Or.inl (by rw [hquery])) hz hztask hget
  | refresh i =>
    rw [htask] at hcall hztask
    have hyown : y.event ∈ c.own (.refresh i) := htask ▸ hT.own_of_mem hy
    have hrun := h.refresh_run (i := i) hcall
    generalize hown : c.own (.refresh i) = l at hrun
    cases hrun with
    | waiting => rw [hown] at hyown; cases hyown
    | @started part _ hfetch =>
      obtain ⟨x, hx, hxtask, hxevent, hlocate⟩ :=
        hT.locate (show c.own (.refresh i) = [] ++ _ :: part from hown)
      have hxy : x.seq ≤ y.seq := by
        rcases hlocate y hy htask with rfl | ⟨hmem, -⟩ | ⟨-, hlt⟩
        · exact le_rfl
        · cases hmem
        · exact hlt.le
      obtain ⟨d, hd, hdtask, hdevent, hdx⟩ := h.detaching.order x hx hxevent
      rw [hxtask] at hdtask
      have hle := hT.time_le hd hy (hdx.le.trans hxy)
      obtain ⟨htime, hevent⟩ := h.decided_request hcall hd hdtask (Or.inr (by rw [hdevent])) hz
        hztask hget
      refine ⟨htime.trans hle, hevent.imp_right ?_⟩
      rintro ⟨envelope, n, hzevent, haged, hn⟩
      exact ⟨envelope, n, hzevent, haged, hn.trans hle⟩

end Decisions

section Starts

/-- What is written was fetched by the same task: its fetches start before the stamp. -/
theorem Reachable.started (h : Reachable E calls c) {envelope : CacheEnvelope} {exSeconds : ℕ}
    {r : Except Err Unit} (hset : ⟨.set key envelope exSeconds, r⟩ ∈ c.own t) :
    (∃ x ∈ c.world.journal, x.task = t ∧ ∃ ttl stale q,
      calls t.owner = .getOrSetWithSWR key ttl stale q ∧ x.event = ⟨.query q, .ok ()⟩) ∧
    ∀ x ∈ c.world.journal, x.task = t → ∀ q, x.event = ⟨.query q, .ok ()⟩ →
      x.time ≤ envelope.cachedAt := by
  have hT := h.timed
  obtain ⟨hex, ttl, stale, q, before, hwrote⟩ := h.wrote hset
  constructor
  · obtain ⟨x, hx, htask, hevent, -⟩ := hT.locate hwrote.own
    exact ⟨x, hx, htask, ttl, stale, q, hwrote.call, hevent⟩
  · intro x hx htask q' hevent
    obtain ⟨m, hm, -, hmevent, hlocate⟩ := hT.locate (hwrote.own.trans
      (List.append_assoc before [_, _] [_, _]).symm)
    rw [← hT.clock m hm _ hmevent]
    rcases hlocate x hx htask with rfl | ⟨-, hlt⟩ | ⟨hmem, -⟩
    · exact le_rfl
    · exact hT.time_le hx hm hlt.le
    · rw [hevent] at hmem
      simp at hmem

/-- A task that writes has not written before. -/
theorem Reachable.unwritten (h : Reachable E calls c) {envelope : CacheEnvelope} {exSeconds : ℕ}
    {r : Except Err Unit} {k : Except Err Unit → Promise (Option Page)} {w' : World ι}
    (hb : Reachable E calls (c.answered t (.set key envelope exSeconds) r k w')) :
    ∀ w ∈ c.world.journal, w.task = t → ∀ envelope' exSeconds' r',
      w.event ≠ ⟨.set key envelope' exSeconds', r'⟩ := by
  intro w hw htask envelope' exSeconds' r' hevent
  have hset : (⟨.set key envelope exSeconds, r⟩ : Event) ∈
      (c.answered t (.set key envelope exSeconds) r k w').own t := by
    rw [Config.own_answered_self]
    simp
  obtain ⟨-, ttl, stale, q, before, hwrote⟩ := hb.wrote hset
  have hown := hwrote.own
  rw [Config.own_answered_self] at hown
  have hbefore : c.own t = before ++ [⟨.query q, .ok ()⟩, ⟨.response q, .ok envelope.data⟩,
      ⟨.dateNow, .ok envelope.cachedAt⟩] :=
    (List.append_inj' (hown.trans (List.append_assoc before [_, _, _] [_]).symm) rfl).1
  have hmem := h.timed.mem_own.mpr ⟨w, hw, htask, hevent⟩
  rw [hbefore] at hmem
  rcases List.mem_append.mp hmem with hmem | hmem
  · cases hwrote.unfetched _ hmem
  · simp at hmem

/-- A task writes once. -/
theorem Reachable.set_unique (h : Reachable E calls c) {e e' : CacheEnvelope} {n n' : ℕ}
    {key' : String} {r r' : Except Err Unit} (hset : ⟨.set key e n, r⟩ ∈ c.own t)
    (hset' : ⟨.set key' e' n', r'⟩ ∈ c.own t) : e = e' := by
  obtain ⟨rfl, ttl, stale, q, before, hwrote⟩ := h.wrote hset
  rw [hwrote.own] at hset'
  rcases List.mem_append.mp hset' with hmem | hmem
  · cases hwrote.unfetched _ hmem
  · simp only [List.mem_cons, Async.Event.mk.injEq, reduceCtorEq, false_and, List.not_mem_nil,
      or_false, false_or, Operation.set.injEq] at hmem
    exact hmem.1.2.1.symm

/-- A task fetches before it writes. -/
theorem Reachable.query_before_set (h : Reachable E calls c) {x y : Record ι}
    (hx : x ∈ c.world.journal) (hquery : x.event = ⟨.query q, .ok ()⟩)
    (hy : y ∈ c.world.journal) (htask : y.task = x.task) (hwritten : Written key y) :
    x.seq < y.seq := by
  obtain ⟨envelope, exSeconds, hset⟩ := hwritten
  have hown := h.timed.own_of_mem hy
  rw [hset, htask] at hown
  obtain ⟨rfl, ttl, stale, q', before, hwrote⟩ := h.wrote hown
  refine h.timed.seq_lt (hwrote.own.trans (List.append_assoc before [_, _, _] [_]).symm) hx rfl ?_
    hy htask ?_
  · rw [hquery]
    simp
  · rw [hset]
    intro hmem
    rcases List.mem_append.mp hmem with hmem | hmem
    · cases hwrote.unfetched _ hmem
    · simp at hmem

/-- Only invalidations delete. -/
theorem Reachable.not_deleted (h : Reachable E calls c)
    (hcall : calls t.owner = .getOrSetWithSWR key ttl stale q) (keys : List String)
    (r : Except Err Unit) : ⟨.del keys, r⟩ ∉ c.own t := by
  obtain ⟨before, part, o, hown, hfetch, hbefore⟩ := h.fetch_run hcall
  rw [hown]
  intro hmem
  rcases List.mem_append.mp hmem with hmem | hmem
  · cases (hbefore _ hmem).2
  · rcases hfetch.operations _ hmem with hop | hop <;> cases hop

end Starts

section Spacing

/-- Everybody uses the cache by the two services, and nobody invalidates. -/
def AllFetch (E : Settings) (calls : ι → Call) : Prop := ∀ i, ∃ q, calls i = .fetch E q

/-- Every fetch that has started was decided after the earlier ones had been written. -/
def Alone (key : String) (w : World ι) : Prop :=
  ∀ x ∈ w.journal, ∀ y ∈ w.journal, FetchStart key x → FetchStart key y → x.seq < y.seq →
    WrittenBeforeRead key w.journal x.task y.task

omit [DecidableEq ι] in
theorem WrittenBeforeRead.mono {l l' : List (Record ι)} {t t' : Task ι}
    (h : WrittenBeforeRead key l t t') (hsub : ∀ x ∈ l, x ∈ l') :
    WrittenBeforeRead key l' t t' := by
  obtain ⟨w, hw, z, hz, hrest⟩ := h
  exact ⟨w, hsub w hw, z, hsub z hz, hrest⟩

theorem Alone.step (ha : Reachable E calls a) (h : Alone key a.world)
    (hstep : Step (server E) a b) (hok : DecidesAlone key a b) : Alone key b.world := by
  rcases step_cases hstep with ⟨d, w, hd, rfl⟩ | ⟨t, op, k, r, w, -, hserved, rfl⟩
  · cases d <;> cases hd <;> exact h
  · have hmem : ∀ x ∈ a.world.journal, x ∈ (w.log t ⟨op, r⟩).journal :=
      fun x hx => (mem_journal_log hserved).mpr (Or.inl hx)
    intro x hx y hy hxs hys hlt
    rw [Config.answered_world, mem_journal_log hserved] at hx hy
    rcases hy with hy | rfl
    · rcases hx with hx | rfl
      · exact (h x hx y hy hxs hys hlt).mono hmem
      · exact absurd (ha.timed.past y hy).1 hlt.not_gt
    · rcases hx with hx | rfl
      · obtain ⟨q, hq, hevent⟩ := hys
        exact (hok t q hq (stepEvent_answered.mpr ⟨rfl, hevent⟩) x hx hxs).mono hmem
      · exact absurd hlt (lt_irrefl _)

/-- The fetch behind a write of the key. -/
theorem Reachable.fetchStart_of_set (h : Reachable E calls c) (hcalls : AllFetch E calls)
    {envelope : CacheEnvelope} {exSeconds : ℕ} {r : Except Err Unit}
    (hset : ⟨.set key envelope exSeconds, r⟩ ∈ c.own t) :
    ∃ x ∈ c.world.journal, x.task = t ∧ FetchStart key x ∧ x.time ≤ envelope.cachedAt := by
  obtain ⟨⟨x, hx, htask, ttl, stale, q, hcall, hevent⟩, hstamp⟩ := h.started hset
  obtain ⟨q', hq'⟩ := hcalls t.owner
  rw [hq'] at hcall
  cases hcall
  exact ⟨x, hx, htask, ⟨q, rfl, hevent⟩, hstamp x hx htask q hevent⟩

/-- The read on which a fetch of the key was decided. -/
theorem Reachable.fetch_decided (h : Reachable E calls c) (hcalls : AllFetch E calls)
    {y z : Record ι} (hy : y ∈ c.world.journal) (hstart : FetchStart key y)
    (hz : z ∈ c.world.journal) (hztask : z.task = .request y.task.owner)
    (hget : z.event.request = .get key) : Decided key E.ttlSeconds z y.time := by
  obtain ⟨q, hqkey, hquery⟩ := hstart
  obtain ⟨q', hq'⟩ := hcalls y.task.owner
  obtain ⟨before, part, o, hown, hfetch, hbefore⟩ := h.fetch_run hq'
  have hpart : ⟨.query q, .ok ()⟩ ∈ part := by
    refine (List.mem_append.mp (hown ▸ hquery ▸ h.timed.own_of_mem hy)).resolve_left fun hmem => ?_
    cases (hbefore _ hmem).1
  have hqq : q = q' := by
    cases hfetch <;> simp at hpart <;> exact hpart
  subst hqq
  subst hqkey
  exact h.decided hq' hy hquery hz hztask hget

/-- When fetches are decided one after the other, writes take effect in the order of their
stamps. -/
theorem Alone.inOrder (ha : Reachable E calls a) (hcalls : AllFetch E calls)
    (h : Alone key a.world) (hstep : Step (server E) a b) : InOrder key a b := by
  intro t envelope exSeconds r hevent x hx hxkey
  have hb : Reachable E calls b := ha.run (.single hstep)
  rcases step_cases hstep with ⟨d, w, -, rfl⟩ | ⟨t', op, k, r', w, -, hserved, rfl⟩
  · exact absurd hevent not_stepEvent_drift
  · obtain ⟨rfl, heq⟩ := stepEvent_answered.mp hevent
    cases heq
    have hset : (⟨.set key envelope exSeconds, r⟩ : Event) ∈
        (a.answered t' (.set key envelope exSeconds) r k (w.log t' ⟨_, r⟩)).own t' := by
      rw [Config.own_answered_self]
      simp
    obtain ⟨z, hz, hztask, hzstart, hzstamp⟩ := hb.fetchStart_of_set hcalls hset
    have hza : z ∈ a.world.journal := by
      refine ((mem_journal_log hserved).mp hz).resolve_right fun heq => ?_
      obtain ⟨q, -, hquery⟩ := hzstart
      rw [heq] at hquery
      cases hquery
    -- The entry was written by an earlier fetch, whose write came before the new one began.
    obtain ⟨y, hy, exSeconds', r', hyset, -⟩ := ha.sourced.entries x hx
    rw [hxkey] at hyset
    have hyown : (⟨.set key x.envelope exSeconds', r'⟩ : Event) ∈ a.own y.task :=
      ha.timed.mem_own.mpr ⟨y, hy, rfl, hyset⟩
    obtain ⟨z', hz', hztask', hzstart', -⟩ := ha.fetchStart_of_set hcalls hyown
    have hystamp := (ha.written hy hyset).2.2
    rcases lt_trichotomy z'.seq z.seq with hlt | heq | hlt
    · obtain ⟨w', hw', g, hg, hwtask, ⟨e, n, hwevent⟩, hgtask, hget, hwg⟩ :=
        h z' hz' z hza hzstart' hzstart hlt
      have hwown : (⟨.set key e n, .ok ()⟩ : Event) ∈ a.own y.task :=
        ha.timed.mem_own.mpr ⟨w', hw', hwtask.trans hztask', hwevent⟩
      cases ha.set_unique hyown hwown
      have hgz := (ha.fetch_decided hcalls hza hzstart hg hgtask hget).1
      calc x.envelope.cachedAt ≤ w'.time := (ha.written hw' hwevent).2.2
        _ ≤ g.time := ha.timed.time_le hw' hg hwg.le
        _ ≤ z.time := hgz
        _ ≤ envelope.cachedAt := hzstamp
    · have hyt : y.task = t' := by rw [← hztask', ha.timed.eq_of_seq hz' hza heq, hztask]
      exact absurd hyset (ha.unwritten hb y hy hyt _ _ _)
    · obtain ⟨w', hw', -, -, hwtask, ⟨e, n, hwevent⟩, -⟩ := h z hza z' hz' hzstart hzstart' hlt
      exact absurd hwevent (ha.unwritten hb w' hw' (hwtask.trans hztask) _ _ _)

omit [DecidableEq ι] in
theorem KeptSince.mono {s s' : ℕ} {w : World ι} (h : KeptSince key s' w) (hle : s ≤ s') :
    KeptSince key s w := by
  obtain ⟨hnow, x, hx, hxkey, hstamp, hexpires⟩ := h
  have hexpires' := le_trans (Nat.add_le_add_right hle _) hexpires
  exact ⟨hle.trans hnow, x, hx, hxkey, hle.trans hstamp, hexpires'⟩

/-- Once a fetch has been written, the entry is kept, and reads find it or come too late. -/
structure Spaced (key : String) (w : World ι) : Prop where
  alone : Alone key w
  kept : ∀ x ∈ w.journal, FetchStart key x → ∀ y ∈ w.journal, y.task = x.task → Written key y →
    KeptSince key x.time w
  reads : ∀ x ∈ w.journal, FetchStart key x → ∀ y ∈ w.journal, y.task = x.task →
    Written key y → ∀ z ∈ w.journal, y.seq < z.seq → ∀ reply, z.event = ⟨.get key, .ok reply⟩ →
      (∃ envelope, reply = some envelope ∧ x.time ≤ envelope.cachedAt) ∨
        x.time + cacheExpirySeconds * 1000 < z.time

theorem notInvalidated_of_allFetch (ha : Reachable E calls a) (hcalls : AllFetch E calls)
    (hstep : Step (server E) a b) : NotInvalidated key a b := by
  intro t keys r hevent hmem
  have hb : Reachable E calls b := ha.run (.single hstep)
  obtain ⟨q, hq⟩ := hcalls t.owner
  refine hb.not_deleted hq keys r ?_
  rw [Config.mem_own, hevent]
  simp

theorem Spaced.step (ha : Reachable E calls a) (hcalls : AllFetch E calls)
    (h : Spaced key a.world) (hstep : Step (server E) a b) (hok : DecidesAlone key a b) :
    Spaced key b.world := by
  have halone := h.alone.step ha hstep hok
  have horder := h.alone.inOrder ha hcalls hstep
  have hkept : NotInvalidated key a b := notInvalidated_of_allFetch ha hcalls hstep
  have hb : Reachable E calls b := ha.run (.single hstep)
  have hkeep : ∀ {s : ℕ}, KeptSince key s a.world → KeptSince key s b.world :=
    fun hs => hs.step ha hstep horder hkept
  rcases step_cases hstep with ⟨d, w, hd, rfl⟩ | ⟨t, op, k, r, w, -, hserved, rfl⟩
  · cases d <;> cases hd <;>
      exact ⟨halone, fun x hx hs y hy ht hw => hkeep (h.kept x hx hs y hy ht hw), h.reads⟩
  · have hbefore : ∀ x ∈ (w.log t ⟨op, r⟩).journal, FetchStart key x →
        ∀ y ∈ (w.log t ⟨op, r⟩).journal, y.task = x.task → Written key y → x.seq < y.seq := by
      rintro x hx ⟨q, -, hquery⟩ y hy ht hw
      exact hb.query_before_set hx hquery hy ht hw
    -- What comes before some record was there before this step.
    have hold : ∀ x ∈ (w.log t ⟨op, r⟩).journal, ∀ y ∈ (w.log t ⟨op, r⟩).journal,
        x.seq < y.seq → x ∈ a.world.journal := by
      intro x hx y hy hlt
      refine ((mem_journal_log hserved).mp hx).resolve_right fun heq => ?_
      rcases (mem_journal_log hserved).mp hy with hy | rfl
      · exact absurd (ha.timed.past y hy).1 (heq ▸ hlt).not_gt
      · exact absurd (heq ▸ hlt) (lt_irrefl _)
    refine ⟨halone, fun x hx hs y hy ht hw => ?_, fun x hx hs y hy ht hw z hz hlt reply hget => ?_⟩
    · have hxa := hold x hx y hy (hbefore x hx hs y hy ht hw)
      rcases (mem_journal_log hserved).mp hy with hya | rfl
      · exact hkeep (h.kept x hxa hs y hya ht hw)
      · obtain ⟨envelope, exSeconds, hset⟩ := hw
        cases hset
        obtain ⟨q, -, hquery⟩ := hs
        have hown : (⟨.set key envelope exSeconds, .ok ()⟩ : Event) ∈
            (a.answered t (.set key envelope exSeconds) (.ok ()) k
              (w.log t ⟨.set key envelope exSeconds, .ok ()⟩)).own t := by
          rw [Config.own_answered_self]
          simp
        have hstamp := (hb.started hown).2 x hx ht.symm q hquery
        have hwrites : Writes E key envelope a _ :=
          ⟨hstep, t, exSeconds, stepEvent_answered.mpr ⟨rfl, rfl⟩⟩
        exact (KeptSince.start ha hwrites).mono hstamp
    · have hya := hold y hy z hz hlt
      have hxa := hold x hx y hy (hbefore x hx hs y hy ht hw)
      rcases (mem_journal_log hserved).mp hz with hza | rfl
      · exact h.reads x hxa hs y hya ht hw z hza hlt reply hget
      · cases hget
        exact (h.kept x hxa hs y hya ht hw).read ha hserved

/-- While no fetch is decided before the earlier ones have been written, and no entry outlives
a TTL, the CMS is asked once per TTL. -/
theorem oncePerTtl_of_decidesAlone (hlife : E.ttlSeconds.exceeds 21600001 = false)
    (hcalls : AllFetch E calls) {now : ℕ} {cms : CmsQuery → Page}
    (hrun : RunWhere (server E) (DecidesAlone key) (start E calls now cms) c) :
    OncePerTtl E key c := by
  have hc : Reachable E calls c := ⟨now, cms, hrun.run⟩
  have hspaced : Spaced key c.world := by
    refine hrun.invariant (P := fun c => Spaced key c.world) ⟨?_, ?_, ?_⟩ ?_
    · exact fun x hx => by cases hx
    · exact fun x hx => by cases hx
    · exact fun x hx => by cases hx
    · intro a b ha hInv hstep hok
      exact hInv.step ⟨now, cms, ha.run⟩ hcalls hstep hok
  intro x hx y hy hxs hys hlt
  obtain ⟨w, hw, z, hz, hwtask, hwritten, hztask, hget, hwz⟩ := hspaced.alone x hx y hy hxs hys hlt
  obtain ⟨hzy, hevent⟩ := hc.fetch_decided hcalls hy hys hz hztask hget
  have hxy := hc.timed.time_le hx hy hlt.le
  by_contra hsoon
  have hsoon : E.ttlSeconds.exceeds ((y.time : ℤ) - x.time) = true := by simpa using hsoon
  have hlate : ∀ n : ℕ, x.time + cacheExpirySeconds * 1000 < n → n ≤ y.time → False := by
    intro n hn hny
    rw [cacheExpirySeconds] at hn
    rw [Seconds.exceeds_of_le hsoon (by omega)] at hlife
    cases hlife
  have hreads := hspaced.reads x hx hxs w hw hwtask hwritten z hz hwz
  rcases hevent with hevent | ⟨envelope, n, hevent, haged, hny⟩
  · rcases hreads none hevent with ⟨_, heq, -⟩ | hexp
    · cases heq
    · exact hlate z.time hexp hzy
  · rcases hreads _ hevent with ⟨_, heq, hstamp⟩ | hexp
    · cases heq
      rw [Seconds.exceeds_of_le hsoon (by omega)] at haged
      cases haged
    · exact hlate z.time hexp hzy

end Spacing

section Samples

def startsFetch (x : Record ℕ) : Bool :=
  match x.event.request with
  | .query _ => true
  | _ => false

/-- A run with one fetch decides it alone. -/
theorem decidesAlone_of_single {a b : System ℕ} (hstep : Step (server E) a b)
    (hb : (b.world.journal.filter startsFetch).length ≤ 1) : DecidesAlone key a b := by
  intro t q _ hevent x hx hstart
  rcases step_cases hstep with ⟨d, w, -, rfl⟩ | ⟨t', op, k, r, w, -, hserved, rfl⟩
  · exact absurd hevent not_stepEvent_drift
  · obtain ⟨rfl, heq⟩ := stepEvent_answered.mp hevent
    cases heq
    rw [Config.answered_world, hserved.journal_log, List.filter_append, List.length_append] at hb
    have hnew : ([a.world.next t' ⟨.query q, .ok ()⟩].filter startsFetch).length = 1 := rfl
    have hmem : x ∈ a.world.journal.filter startsFetch := by
      obtain ⟨q', -, hquery⟩ := hstart
      exact List.mem_filter.mpr ⟨hx, by rw [startsFetch, hquery]⟩
    have hpos := List.length_pos_of_mem hmem
    omega

theorem filter_journal_le {a b : System ℕ} (hstep : Step (server E) a b)
    (hb : (b.world.journal.filter startsFetch).length ≤ 1) :
    (a.world.journal.filter startsFetch).length ≤ 1 := by
  rcases step_cases hstep with ⟨d, w, hd, rfl⟩ | ⟨t, op, k, r, w, -, hserved, rfl⟩
  · cases d <;> cases hd <;> exact hb
  · rw [Config.answered_world, hserved.journal_log, List.filter_append, List.length_append] at hb
    omega

theorem allFetch_askers : AllFetch E (askers E) := fun _ => ⟨seaView, rfl⟩

/-- Request 0 misses and fetches, and request 1 is served what it wrote. -/
theorem oncePerTtl_sample : OncePerTtl sampleSettings seaView.cacheKey
    (askersRun sampleSettings (undisturbed (.request 0) 5 ++ undisturbed (.request 1) 2)) := by
  have hrun : RunWhere (server sampleSettings) (DecidesAlone seaView.cacheKey)
      (start sampleSettings (askers sampleSettings) 0 fun _ => samplePage 0)
      (askersRun sampleSettings (undisturbed (.request 0) 5 ++ undisturbed (.request 1) 2)) := by
    refine RunWhere.of_run (fun c => (c.world.journal.filter startsFetch).length ≤ 1)
      (Config.run_after (by rfl)) ?_ ?_ (by decide)
    · exact fun a b hstep hb => filter_journal_le hstep hb
    · exact fun a b hstep hb => decidesAlone_of_single hstep hb
  exact oncePerTtl_of_decidesAlone rfl allFetch_askers hrun

/-- Both requests miss before either has fetched. -/
def bothMissed : System ℕ := askersRun sampleSettings
  ([.serve (.request 0) .resolves, .serve (.request 1) .resolves] ++
    undisturbed (.request 0) 4 ++ undisturbed (.request 1) 4)

theorem reachable_bothMissed : Reachable sampleSettings (askers sampleSettings) bothMissed :=
  reachable_askersRun (by rfl)

/-- Two requests that miss together both ask the CMS, and both fetches succeed. -/
theorem not_oncePerTtl : ¬ ∀ (calls : ℕ → Call) (c : System ℕ) (key : String),
    AllFetch sampleSettings calls → Reachable sampleSettings calls c →
      (∀ x ∈ c.world.journal, FetchStart key x →
        ∃ y ∈ c.world.journal, y.task = x.task ∧ Written key y) →
      OncePerTtl sampleSettings key c := by
  intro hclaim
  have hsecond : bothMissed.world.journal[2]? = some ⟨2, 0, .request 0, ⟨.query seaView, .ok ()⟩⟩ :=
    rfl
  have hsixth : bothMissed.world.journal[6]? = some ⟨6, 0, .request 1, ⟨.query seaView, .ok ()⟩⟩ :=
    rfl
  have hspaced := hclaim _ bothMissed seaView.cacheKey allFetch_askers reachable_bothMissed ?_
    _ (List.mem_of_getElem? hsecond) _ (List.mem_of_getElem? hsixth) ⟨_, rfl, rfl⟩ ⟨_, rfl, rfl⟩
    (by decide)
  · cases hspaced
  · intro x hx hstart
    have hwriters : bothMissed.world.journal.all (fun x => !startsFetch x ||
        (x.task == .request 0 || x.task == .request 1)) = true := rfl
    have hfifth : bothMissed.world.journal[5]? = some ⟨5, 0, .request 0,
      ⟨.set seaView.cacheKey ⟨samplePage 0, 0⟩ cacheExpirySeconds, .ok ()⟩⟩ := rfl
    have hninth : bothMissed.world.journal[9]? = some ⟨9, 0, .request 1,
      ⟨.set seaView.cacheKey ⟨samplePage 0, 0⟩ cacheExpirySeconds, .ok ()⟩⟩ := rfl
    have hx := List.all_eq_true.mp hwriters x hx
    obtain ⟨q, -, hquery⟩ := hstart
    simp only [startsFetch, hquery, Bool.not_true, Bool.false_or, Bool.or_eq_true,
      beq_iff_eq] at hx
    rcases hx with htask | htask
    · exact ⟨_, List.mem_of_getElem? hfifth, htask.symm, _, _, rfl⟩
    · exact ⟨_, List.mem_of_getElem? hninth, htask.symm, _, _, rfl⟩

end Samples

end PropertyPlatform.Cache
