import PropertyPlatform.Cache.Histories
import PropertyPlatform.Cache.World

/-!
# Runs of the cache

What one operation does to the world is said once, by `World.Served`. The journal of every
reachable state is in the order of time, and each task's part of it follows the patterns of
`RequestRun` and `RefreshRun`.
-/

namespace PropertyPlatform.Cache

open Js Async Program

variable {E : Settings} {ι : Type} [DecidableEq ι] {calls : ι → Call} {c c' : System ι}
variable {t : Task ι} {i : ι}

/-- The reply to one operation and the world after it. -/
inductive World.Served (E : Settings) (w : World ι) (t : Task ι) :
    (q : Operation) → Except Err q.Reply → World ι → Prop where
  | rejected {q : Operation} (e : NativeError) (hq : q.mayReject = true) :
      Served E w t q (.error (.native e)) w
  | read (key : String) : Served E w t (.get key) (.ok ((w.entry key).map Entry.envelope)) w
  | stored (key : String) (envelope : CacheEnvelope) (exSeconds : ℕ) (r : Except Err Unit) :
      Served E w t (.set key envelope exSeconds) r (w.store key envelope exSeconds)
  | scanned (cursor : ℕ) (pattern : String) :
      Served E w t (.scan cursor pattern) (.ok (w.scan E cursor pattern)) w
  | erased (keys : List String) (r : Except Err Unit) : Served E w t (.del keys) r (w.erase keys)
  | clock : Served E w t .dateNow (.ok w.now) w
  | queried (q : CmsQuery) : Served E w t (.query q) (.ok ()) w
  | responded (q : CmsQuery) : Served E w t (.response q) (.ok (w.cms q)) w
  | detach (i : ι) (ht : t = .request i) :
      Served E w t .detach (.ok ()) { w with detached := Function.update w.detached i true }
  | detached (i : ι) (ht : t = .refresh i) (hdetached : w.detached i = true) :
      Served E w t .detached (.ok ()) w

theorem World.Served.of_get {w w' : World ι} {key : String} {reply : Option CacheEnvelope}
    (h : w.Served E t (.get key) (.ok reply) w') :
    w' = w ∧ reply = (w.entry key).map Entry.envelope := by
  cases h
  exact ⟨rfl, rfl⟩

theorem World.Served.of_set {w w' : World ι} {key : String} {envelope : CacheEnvelope}
    {exSeconds : ℕ} {a : Unit} (h : w.Served E t (.set key envelope exSeconds) (.ok a) w') :
    w' = w.store key envelope exSeconds := by
  cases h
  rfl

theorem World.served_of_answer {w w' : World ι} {q : Operation} {r : Except Err q.Reply}
    (h : w.answer E t q = some (r, w')) : w.Served E t q r w' := by
  cases q with
  | get key => cases h; exact .read key
  | set key envelope exSeconds => cases h; exact .stored key envelope exSeconds _
  | scan cursor pattern => cases h; exact .scanned cursor pattern
  | del keys => cases h; exact .erased keys _
  | dateNow => cases h; exact .clock
  | query q => cases h; exact .queried q
  | response q => cases h; exact .responded q
  | detach =>
    cases t with
    | request i => cases h; exact .detach i rfl
    | refresh i => cases h
  | detached =>
    cases t with
    | request i => cases h
    | refresh i =>
      simp only [World.answer] at h
      split_ifs at h with hdetached
      cases h
      exact .detached i rfl hdetached

theorem World.served_of_serve {w w' : World ι} {q : Operation} {choice : Choice}
    {r : Except Err q.Reply} (h : w.serve E t q choice = some (r, w')) :
    ∃ w₀, w.Served E t q r w₀ ∧ w' = w₀.log t ⟨q, r⟩ := by
  obtain ⟨⟨r', w₀⟩, hrespond, heq⟩ := Option.map_eq_some_iff.mp h
  cases heq
  refine ⟨w₀, ?_, rfl⟩
  cases choice with
  | resolves => exact served_of_answer hrespond
  | rejects e =>
    simp only [World.respond] at hrespond
    split_ifs at hrespond with hq
    cases hrespond
    exact .rejected e hq
  | lost e =>
    simp only [World.respond] at hrespond
    split_ifs at hrespond with hq
    obtain ⟨⟨r'', w''⟩, hanswer, heq⟩ := Option.map_eq_some_iff.mp hrespond
    cases heq
    cases q with
    | set key envelope exSeconds => cases hanswer; exact .stored key envelope exSeconds _
    | del keys => cases hanswer; exact .erased keys _
    | _ => cases hq

/-- Induction over the runs of the cache. -/
theorem Reachable.induct {Inv : System ι → Prop} (h : Reachable E calls c)
    (hstart : ∀ now cms, Inv (start E calls now cms))
    (hserve : ∀ c t q k r w, Reachable E calls c → Inv c → c.program t = .await q k →
      c.world.Served E t q r w → Inv (c.answered t q r k (w.log t ⟨q, r⟩)))
    (hdrift : ∀ c d w, Reachable E calls c → Inv c → World.drift d c.world = some w →
      Inv { c with world := w }) : Inv c := by
  obtain ⟨now, cms, hrun⟩ := h
  refine hrun.invariant (hstart now cms) fun a b ha hInv hstep => ?_
  cases hstep with
  | serve hprogram hserved =>
    obtain ⟨w₀, hw₀, rfl⟩ := World.served_of_serve hserved
    exact hserve _ _ _ _ _ _ ⟨now, cms, ha⟩ hInv hprogram hw₀
  | drift hd => exact hdrift _ _ _ ⟨now, cms, ha⟩ hInv hd

/-- A step answers one task or moves the world. -/
theorem step_cases (h : Step (server E) c c') :
    (∃ d w, World.drift d c.world = some w ∧ c' = { c with world := w }) ∨
      ∃ t q k r w, c.program t = .await q k ∧ c.world.Served E t q r w ∧
        c' = c.answered t q r k (w.log t ⟨q, r⟩) := by
  cases h with
  | serve hprogram hserve =>
    obtain ⟨w₀, hserved, rfl⟩ := World.served_of_serve hserve
    exact Or.inr ⟨_, _, _, _, _, hprogram, hserved, rfl⟩
  | drift hd => exact Or.inl ⟨_, _, hd, rfl⟩

theorem Reachable.run (h : Reachable E calls c) (hrun : Run (server E) c c') :
    Reachable E calls c' := by
  obtain ⟨now, cms, h⟩ := h
  exact ⟨now, cms, h.trans hrun⟩

theorem World.Served.now {w w' : World ι} {q : Operation} {r : Except Err q.Reply}
    (h : w.Served E t q r w') : w'.now = w.now := by
  cases h <;> rfl

theorem World.Served.journal {w w' : World ι} {q : Operation} {r : Except Err q.Reply}
    (h : w.Served E t q r w') : w'.journal = w.journal := by
  cases h <;> rfl

theorem World.Served.answers {w w' : World ι} {q : Operation} {r : Except Err q.Reply}
    (h : w.Served E t q r w') (hq : q.mayReject = false) : ∃ a, r = .ok a := by
  cases h with
  | rejected e hq' => rw [hq] at hq'; cases hq'
  | stored => cases hq
  | erased => cases hq
  | _ => exact ⟨_, rfl⟩

section Journal

/-- The record of the next event. -/
def World.next (w : World ι) (t : Task ι) (e : Event) : Record ι := ⟨w.journal.length, w.now, t, e⟩

theorem World.Served.journal_log {w w' : World ι} {q : Operation} {r : Except Err q.Reply}
    (h : w.Served E t q r w') : (w'.log t ⟨q, r⟩).journal = w.journal ++ [w.next t ⟨q, r⟩] := by
  rw [World.log, h.journal, h.now]
  rfl

theorem mem_journal_log {w w' : World ι} {q : Operation} {r : Except Err q.Reply}
    (h : w.Served E t q r w') {x : Record ι} :
    x ∈ (w'.log t ⟨q, r⟩).journal ↔ x ∈ w.journal ∨ x = w.next t ⟨q, r⟩ := by
  rw [h.journal_log, List.mem_append, List.mem_singleton]

/-- The journal is the trace, in the order of time. -/
structure Timed (c : System ι) : Prop where
  trace : c.world.journal.map (fun x => (x.task, x.event)) = c.trace
  sorted : c.world.journal.Pairwise fun x y => x.seq < y.seq ∧ x.time ≤ y.time
  past : ∀ x ∈ c.world.journal, x.seq < c.world.journal.length ∧ x.time ≤ c.world.now
  clock : ∀ x ∈ c.world.journal, ∀ n, x.event = ⟨.dateNow, .ok n⟩ → x.time = n

omit [DecidableEq ι] in
theorem timed_start (now : ℕ) (cms : CmsQuery → Page) : Timed (start E calls now cms) :=
  ⟨rfl, .nil, fun _ hx => (List.not_mem_nil hx).elim, fun _ hx => (List.not_mem_nil hx).elim⟩

theorem Timed.serve_step (h : Timed c) {q : Operation} {r : Except Err q.Reply}
    {k : Except Err q.Reply → Promise (Option Page)} {w : World ι}
    (hserved : c.world.Served E t q r w) : Timed (c.answered t q r k (w.log t ⟨q, r⟩)) := by
  have hjournal := hserved.journal_log
  refine ⟨?_, ?_, fun x hx => ?_, fun x hx n hn => ?_⟩
  · rw [Config.answered_world, hjournal, List.map_append, h.trace]
    rfl
  · rw [Config.answered_world, hjournal, List.pairwise_append]
    refine ⟨h.sorted, List.pairwise_singleton _ _, fun x hx y hy => ?_⟩
    rw [List.mem_singleton.mp hy]
    exact h.past x hx
  · rw [Config.answered_world, mem_journal_log hserved] at hx
    have hnow : (w.log t ⟨q, r⟩).now = c.world.now := hserved.now
    rw [Config.answered_world, hjournal, hnow, List.length_append, List.length_singleton]
    rcases hx with hx | rfl
    · exact ⟨Nat.lt_succ_of_lt (h.past x hx).1, (h.past x hx).2⟩
    · exact ⟨Nat.lt_succ_self _, le_rfl⟩
  · rw [Config.answered_world, mem_journal_log hserved] at hx
    rcases hx with hx | rfl
    · exact h.clock x hx n hn
    · cases hn
      cases hserved
      rfl

theorem Reachable.timed (h : Reachable E calls c) : Timed c := by
  refine h.induct timed_start (fun c t q k r w _ hInv _ hserved => hInv.serve_step hserved) ?_
  intro c d w _ hInv hd
  cases d with
  | tick ms =>
    cases hd
    exact ⟨hInv.trace, hInv.sorted,
      fun x hx => ⟨(hInv.past x hx).1, le_trans (hInv.past x hx).2 (Nat.le_add_right _ _)⟩,
      hInv.clock⟩
  | edit q body =>
    cases hd
    exact ⟨hInv.trace, hInv.sorted, hInv.past, hInv.clock⟩

/-- The records of one task. -/
def timeline (c : System ι) (t : Task ι) : List (Record ι) :=
  c.world.journal.filter fun x => decide (x.task = t)

theorem mem_timeline {x : Record ι} : x ∈ timeline c t ↔ x ∈ c.world.journal ∧ x.task = t := by
  simp [timeline, List.mem_filter]

theorem Timed.own_eq (h : Timed c) (t : Task ι) : c.own t = (timeline c t).map Record.event := by
  rw [Config.own, ← h.trace, List.filterMap_map, timeline, ← List.filterMap_eq_map,
    ← List.filterMap_eq_filter, List.filterMap_filterMap]
  refine List.filterMap_congr fun x _ => ?_
  by_cases hx : x.task = t <;> simp [Option.guard, hx]

theorem Timed.mem_own (h : Timed c) {e : Event} :
    e ∈ c.own t ↔ ∃ x ∈ c.world.journal, x.task = t ∧ x.event = e := by
  rw [h.own_eq, List.mem_map]
  constructor
  · rintro ⟨x, hx, rfl⟩
    rw [mem_timeline] at hx
    exact ⟨x, hx.1, hx.2, rfl⟩
  · rintro ⟨x, hx, htask, rfl⟩
    exact ⟨x, mem_timeline.mpr ⟨hx, htask⟩, rfl⟩

theorem Timed.own_of_mem (h : Timed c) {x : Record ι} (hx : x ∈ c.world.journal) :
    x.event ∈ c.own x.task :=
  h.mem_own.mpr ⟨x, hx, rfl, rfl⟩

omit [DecidableEq ι] in
theorem Timed.time_le (h : Timed c) {x y : Record ι} (hx : x ∈ c.world.journal)
    (hy : y ∈ c.world.journal) (hxy : x.seq ≤ y.seq) : x.time ≤ y.time := by
  have hforall := List.Pairwise.forall_of_forall_of_flip
    (R := fun x y : Record ι => x.seq ≤ y.seq → x.time ≤ y.time) (fun _ _ _ => le_rfl)
    (h.sorted.imp fun hlt _ => hlt.2) (h.sorted.imp fun hlt hle => absurd hlt.1 (not_lt.mpr hle))
  exact hforall hx hy hxy

omit [DecidableEq ι] in
theorem Timed.eq_of_seq (h : Timed c) {x y : Record ι} (hx : x ∈ c.world.journal)
    (hy : y ∈ c.world.journal) (hxy : x.seq = y.seq) : x = y := by
  have hforall := List.Pairwise.forall_of_forall_of_flip
    (R := fun x y : Record ι => x.seq = y.seq → x = y) (fun _ _ _ => rfl)
    (h.sorted.imp fun hlt heq => absurd heq hlt.1.ne)
    (h.sorted.imp fun hlt heq => absurd heq.symm hlt.1.ne)
  exact hforall hx hy hxy

/-- The events of one task stand in the journal in the task's own order. -/
theorem Timed.seq_lt (h : Timed c) {l₁ l₂ : History} (hown : c.own t = l₁ ++ l₂) {x y : Record ι}
    (hx : x ∈ c.world.journal) (hxt : x.task = t) (hx₂ : x.event ∉ l₂)
    (hy : y ∈ c.world.journal) (hyt : y.task = t) (hy₁ : y.event ∉ l₁) : x.seq < y.seq := by
  rw [h.own_eq] at hown
  obtain ⟨r₁, r₂, hrecords, rfl, rfl⟩ := List.map_eq_append_iff.mp hown
  have hsorted : (timeline c t).Pairwise fun x y => x.seq < y.seq ∧ x.time ≤ y.time :=
    h.sorted.filter _
  have hxr : x ∈ r₁ ++ r₂ := hrecords ▸ mem_timeline.mpr ⟨hx, hxt⟩
  have hyr : y ∈ r₁ ++ r₂ := hrecords ▸ mem_timeline.mpr ⟨hy, hyt⟩
  rw [hrecords, List.pairwise_append] at hsorted
  have hx₁ : x ∈ r₁ := (List.mem_append.mp hxr).resolve_right fun hmem =>
    hx₂ (List.mem_map_of_mem hmem)
  have hy₂ : y ∈ r₂ := (List.mem_append.mp hyr).resolve_left fun hmem =>
    hy₁ (List.mem_map_of_mem hmem)
  exact (hsorted.2.2 x hx₁ y hy₂).1

/-- One event of a task has a record, and the task's other records lie around it as in the
task's own history. -/
theorem Timed.locate (h : Timed c) {l₁ l₂ : History} {e : Event}
    (hown : c.own t = l₁ ++ e :: l₂) : ∃ x ∈ c.world.journal, x.task = t ∧ x.event = e ∧
      ∀ y ∈ c.world.journal, y.task = t →
        y = x ∨ (y.event ∈ l₁ ∧ y.seq < x.seq) ∨ (y.event ∈ l₂ ∧ x.seq < y.seq) := by
  rw [h.own_eq] at hown
  obtain ⟨r₁, r₂, hrecords, rfl, hrest⟩ := List.map_eq_append_iff.mp hown
  obtain ⟨x, r₃, rfl, rfl, rfl⟩ := List.map_eq_cons_iff.mp hrest
  have hsorted : (timeline c t).Pairwise fun x y => x.seq < y.seq ∧ x.time ≤ y.time :=
    h.sorted.filter _
  have hxr : x ∈ timeline c t := by
    rw [hrecords]
    simp
  obtain ⟨hx, hxt⟩ := mem_timeline.mp hxr
  rw [hrecords, List.pairwise_append, List.pairwise_cons] at hsorted
  refine ⟨x, hx, hxt, rfl, fun y hy hyt => ?_⟩
  have hyr : y ∈ r₁ ++ x :: r₃ := hrecords ▸ mem_timeline.mpr ⟨hy, hyt⟩
  rcases List.mem_append.mp hyr with hyr | hyr
  · exact Or.inr (Or.inl ⟨List.mem_map_of_mem hyr, (hsorted.2.2 y hyr x List.mem_cons_self).1⟩)
  · rcases List.mem_cons.mp hyr with rfl | hyr
    · exact Or.inl rfl
    · exact Or.inr (Or.inr ⟨List.mem_map_of_mem hyr, (hsorted.2.1.1 y hyr).1⟩)

end Journal

section Tasks

variable {key : String} {ttl stale : Seconds} {q : CmsQuery}

theorem obeys_answers (now : ℕ) (cms : CmsQuery → Page) :
    Obeys (fun _ => answers) (server E) (start E calls now cms) := by
  intro c t q choice r w _ hserve hq
  obtain ⟨w₀, hserved, -⟩ := World.served_of_serve hserve
  exact hserved.answers hq

/-- The history of a request fits its outcome. -/
theorem Reachable.request_run (h : Reachable E calls c)
    (hi : calls i = .getOrSetWithSWR key ttl stale q) :
    (∃ o, RequestRun key ttl stale q (c.own (.request i)) o) ∧
      (∀ page, c.program (.request i) = .pure (some page) →
        RequestRun key ttl stale q (c.own (.request i)) (some (.ok page))) ∧
      ∀ e, c.program (.request i) = .throw e →
        RequestRun key ttl stale q (c.own (.request i)) (some (.error e)) := by
  obtain ⟨now, cms, hrun⟩ := h
  have hprogram := request_ensures E key ttl stale q
  rw [← hi] at hprogram
  obtain ⟨hinv, hrest⟩ := hrun.ensures (fun _ => fun h => ∃ o, RequestRun key ttl stale q h o)
    (fun _ => _) (obeys_answers now cms) (.request i) ⟨_, .start⟩ hprogram
  refine ⟨hinv, fun page hdone => ?_, fun e hdone => ?_⟩
  · rw [hdone] at hrest
    exact hrest
  · rw [hdone] at hrest
    exact hrest

/-- A request never ends without a page or an exception. -/
theorem Reachable.returns_page (h : Reachable E calls c)
    (hi : calls i = .getOrSetWithSWR key ttl stale q) {page? : Option Page}
    (hdone : c.program (.request i) = .pure page?) : ∃ page, page? = some page := by
  obtain ⟨now, cms, hrun⟩ := h
  have hleads := hrun.leads (.request i)
  rw [taskProgram, hi, Call.program] at hleads
  obtain ⟨p, -, heq⟩ := hleads.of_bind_pure
  rw [hdone] at heq
  cases p with
  | pure page =>
    cases heq
    exact ⟨page, rfl⟩
  | throw e => cases heq
  | await op k => cases heq

theorem Reachable.refresh_run (h : Reachable E calls c)
    (hi : calls i = .getOrSetWithSWR key ttl stale q) :
    RefreshRun key q (c.own (.refresh i)) := by
  obtain ⟨now, cms, hrun⟩ := h
  have hprogram := refresh_ensures key ttl stale q
  rw [← hi] at hprogram
  exact (hrun.ensures (fun _ => RefreshRun key q) (fun _ => _) (obeys_answers now cms) (.refresh i)
    .waiting hprogram).1

/-- The operations of a fetch and of the write after it. -/
def Operation.isFetch : Operation → Bool
  | .query _ | .response _ | .set _ _ _ => true
  | _ => false

theorem RequestRun.fetch {h : History} {o : Option (Except Err Page)}
    (hrun : RequestRun key ttl stale q h o) : ∃ before part o', h = before ++ part ∧
      FetchRun key q part o' ∧
      ∀ e ∈ before, e.request.isFetch = false ∧ e.request.isWrite = false := by
  cases hrun with
  | missing hfetch =>
    exact ⟨[⟨.get key, .ok none⟩], _, _, rfl, hfetch,
      by simp [Operation.isFetch, Operation.isWrite]⟩
  | expired envelope n _ _ hfetch =>
    exact ⟨[⟨.get key, .ok (some envelope)⟩, ⟨.dateNow, .ok n⟩], _, _, rfl, hfetch,
      by simp [Operation.isFetch, Operation.isWrite]⟩
  | _ =>
    exact ⟨_, [], none, (List.append_nil _).symm, .idle,
      by simp [Operation.isFetch, Operation.isWrite]⟩

theorem RefreshRun.fetch {h : History} (hrun : RefreshRun key q h) : ∃ before part o,
    h = before ++ part ∧ FetchRun key q part o ∧
      ∀ e ∈ before, e.request.isFetch = false ∧ e.request.isWrite = false := by
  cases hrun with
  | waiting => exact ⟨[], [], none, rfl, .idle, by simp⟩
  | started hfetch =>
    exact ⟨[⟨.detached, .ok ()⟩], _, _, rfl, hfetch,
      by simp [Operation.isFetch, Operation.isWrite]⟩

/-- Every task of a cached call fetches once at most, after all it does besides. -/
theorem Reachable.fetch_run (h : Reachable E calls c)
    (ht : calls t.owner = .getOrSetWithSWR key ttl stale q) : ∃ before part o,
      c.own t = before ++ part ∧ FetchRun key q part o ∧
        ∀ e ∈ before, e.request.isFetch = false ∧ e.request.isWrite = false := by
  cases t with
  | request i =>
    obtain ⟨o, hrun⟩ := (h.request_run ht).1
    exact hrun.fetch
  | refresh i =>
    exact (h.refresh_run ht).fetch

/-- The commands of an invalidation. -/
def Operation.clears : Operation → Bool
  | .scan _ _ | .del _ => true
  | _ => false

theorem uses_scanStream (pattern : String) (n : ℕ) :
    (scanStream pattern n).Uses fun op : Operation => op.clears = true := by
  induction n with
  | zero => trivial
  | succ n ih => exact uses_bind ((uses_perform _).mpr rfl) fun _ => uses_bind ih fun _ => trivial

theorem uses_invalidateCacheByPrefix (start : String) :
    (Cache.invalidateCacheByPrefix E start).Uses fun op : Operation => op.clears = true := by
  refine uses_bind (uses_scanStream _ _) fun keys => ?_
  split_ifs
  · trivial
  · exact (uses_perform _).mpr rfl

theorem uses_invalidatePropertyCache (slug : Option String) :
    (Cache.invalidatePropertyCache E slug).Uses fun op : Operation => op.clears = true := by
  refine uses_bind ?_ fun _ => uses_invalidateCacheByPrefix _
  cases slug with
  | none => trivial
  | some slug =>
    simp only
    split_ifs
    · trivial
    · exact uses_invalidateCacheByPrefix _

theorem isFetch_of_clears (op : Operation) (h : op.clears = true) : op.isFetch = false := by
  cases op with
  | scan | del => rfl
  | _ => cases h

/-- Only calls of `getOrSetWithSWR` fetch. -/
theorem Reachable.isFetch_owner (h : Reachable E calls c) {e : Event} (he : e ∈ c.own t)
    (hfetch : e.request.isFetch = true) :
    ∃ key ttl stale q, calls t.owner = .getOrSetWithSWR key ttl stale q := by
  obtain ⟨now, cms, hrun⟩ := h
  have hnone : (taskProgram E calls t).Uses (fun op : Operation => op.isFetch = false) → False := by
    intro huses
    have hop := (hrun.uses huses).1 e he
    rw [hfetch] at hop
    cases hop
  cases hcall : calls t.owner with
  | getOrSetWithSWR key ttl stale q => exact ⟨_, _, _, _, rfl⟩
  | invalidateCache key =>
    refine (hnone ?_).elim
    cases t <;> simp only [taskProgram, Task.owner] at hcall ⊢ <;> rw [hcall]
    · exact uses_bind ((uses_perform _).mpr rfl) fun _ => trivial
    · trivial
  | invalidateCacheByPrefix start =>
    refine (hnone ?_).elim
    cases t <;> simp only [taskProgram, Task.owner] at hcall ⊢ <;> rw [hcall]
    · exact uses_bind ((uses_invalidateCacheByPrefix _).mono isFetch_of_clears) fun _ => trivial
    · trivial
  | invalidatePropertyCache slug =>
    refine (hnone ?_).elim
    cases t <;> simp only [taskProgram, Task.owner] at hcall ⊢ <;> rw [hcall]
    · exact uses_bind ((uses_invalidatePropertyCache _).mono isFetch_of_clears) fun _ => trivial
    · trivial

/-- Task `t` fetched what it wrote: its history ends with the fetch, the stamp and the write. -/
structure Wrote (calls : ι → Call) (c : System ι) (t : Task ι) (key : String)
    (envelope : CacheEnvelope) (r : Except Err Unit) (ttl stale : Seconds) (q : CmsQuery)
    (before : History) : Prop where
  call : calls t.owner = .getOrSetWithSWR key ttl stale q
  accepted : accepts q envelope.data = true
  unfetched : ∀ e ∈ before, e.request.isFetch = false
  own : c.own t = before ++ [⟨.query q, .ok ()⟩, ⟨.response q, .ok envelope.data⟩,
    ⟨.dateNow, .ok envelope.cachedAt⟩, ⟨.set key envelope cacheExpirySeconds, r⟩]

theorem Reachable.wrote (h : Reachable E calls c) {envelope : CacheEnvelope} {exSeconds : ℕ}
    {r : Except Err Unit} (hset : ⟨.set key envelope exSeconds, r⟩ ∈ c.own t) :
    exSeconds = cacheExpirySeconds ∧
      ∃ ttl stale q before, Wrote calls c t key envelope r ttl stale q before := by
  obtain ⟨key', ttl, stale, q, hcall⟩ := h.isFetch_owner hset rfl
  obtain ⟨before, part, o, hown, hfetch, hbefore⟩ := h.fetch_run hcall
  have hpart : ⟨.set key envelope exSeconds, r⟩ ∈ part := by
    rw [hown] at hset
    refine (List.mem_append.mp hset).resolve_left fun hmem => ?_
    cases (hbefore _ hmem).1
  cases hfetch with
  | written page hpage s =>
    simp only [List.mem_cons, Async.Event.mk.injEq, reduceCtorEq, false_and, List.not_mem_nil,
      or_false, false_or, Operation.set.injEq] at hpart
    obtain ⟨⟨rfl, rfl, rfl⟩, hr⟩ := hpart
    cases hr
    exact ⟨rfl, ttl, stale, q, before, hcall, hpage, fun e he => (hbefore e he).1, hown⟩
  | unwritten page hpage s e =>
    simp only [List.mem_cons, Async.Event.mk.injEq, reduceCtorEq, false_and, List.not_mem_nil,
      or_false, false_or, Operation.set.injEq] at hpart
    obtain ⟨⟨rfl, rfl, rfl⟩, hr⟩ := hpart
    cases hr
    exact ⟨rfl, ttl, stale, q, before, hcall, hpage, fun e he => (hbefore e he).1, hown⟩
  | _ => simp at hpart

end Tasks

end PropertyPlatform.Cache
