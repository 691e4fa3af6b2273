import PropertyPlatform.Cache.Lifetime

/-!
# What an invalidation clears

An invalidation scans Redis slot by slot and deletes the keys it has seen, while requests and
refreshes go on writing what they fetched before. Nothing older than the invalidation is left
behind when each write either carries what the CMS still has, or has seen neither a write nor
a scan of its key since its fetch.
-/

namespace PropertyPlatform.Cache

open Js Async Program

variable {E : Settings} {ι : Type} [DecidableEq ι] {calls : ι → Call} {a b c c' : System ι}
variable {t : Task ι} {i j : ι} {key slug : String} {q : CmsQuery} {v : ℕ}

section Scans

/-- The pattern under which the entry of a slug is looked for. -/
def slugPattern (slug : String) : String := (CmsQuery.property slug).cacheKey ++ "*"

/-- Every slot was scanned, and what the scan had found was deleted after it. -/
def Clears (cursors : ℕ) (pattern : String) (h : History) : Prop :=
  ∀ n < cursors, ∃ l₁ l₂ keys, h = l₁ ++ ⟨.scan n pattern, .ok keys⟩ :: l₂ ∧
    (∀ e ∈ l₁, e.request.isWrite = false) ∧
    ∀ key ∈ keys, ∃ ks, key ∈ ks ∧ (⟨.del ks, .ok ()⟩ : Event) ∈ l₂

theorem Clears.append {cursors : ℕ} {pattern : String} {h : History} (hc : Clears cursors pattern h)
    (rest : History) : Clears cursors pattern (h ++ rest) := by
  intro n hn
  obtain ⟨l₁, l₂, keys, rfl, hl₁, hdel⟩ := hc n hn
  refine ⟨l₁, l₂ ++ rest, keys, by simp, hl₁, fun key hkey => ?_⟩
  obtain ⟨ks, hks, hmem⟩ := hdel key hkey
  exact ⟨ks, hks, List.mem_append_left _ hmem⟩

/-- The events of a scan of the first slots, and what they found. -/
def ScansInto (cursors : ℕ) (pattern : String) (keys : List String) (part : History) : Prop :=
  (∀ e ∈ part, e.request.isWrite = false) ∧ ∀ n < cursors, ∃ l₁ l₂ chunk,
    part = l₁ ++ ⟨.scan n pattern, .ok chunk⟩ :: l₂ ∧ chunk ⊆ keys

theorem scanStream_ensures (pattern : String) (cursors : ℕ) (before : History) :
    (scanStream pattern cursors).Ensures Protocol.any (fun _ => True)
      (fun o h => ∀ keys, o = .ok keys →
        ∃ part, h = before ++ part ∧ ScansInto cursors pattern keys part) before := by
  induction cursors generalizing before with
  | zero =>
    intro keys hkeys
    refine ⟨[], (List.append_nil _).symm, fun e he => (by cases he), fun n hn => ?_⟩
    exact absurd hn (Nat.not_lt_zero n)
  | succ cursors ih =>
    simp only [scanStream, bind_eq, ensures_bind]
    intro r _
    refine ⟨trivial, ?_⟩
    cases r with
    | error e => exact fun keys hkeys => by cases hkeys
    | ok chunk =>
      change ((scanStream pattern cursors).bind _).Ensures _ _ _ _
      rw [ensures_bind]
      refine (ih (before ++ [⟨.scan cursors pattern, .ok chunk⟩])).mono fun o h hpost => ?_
      cases o with
      | error e => exact fun keys hkeys => by cases hkeys
      | ok found =>
        rintro keys ⟨⟩
        obtain ⟨part, rfl, hreads, hslots⟩ := hpost found rfl
        refine ⟨⟨.scan cursors pattern, .ok chunk⟩ :: part, by simp, fun e he => ?_, fun n hn => ?_⟩
        · rcases List.mem_cons.mp he with rfl | he
          · rfl
          · exact hreads e he
        · rcases Nat.lt_succ_iff_lt_or_eq.mp hn with hn | rfl
          · obtain ⟨l₁, l₂, chunk', rfl, hsub⟩ := hslots n hn
            exact ⟨⟨.scan cursors pattern, .ok chunk⟩ :: l₁, l₂, chunk', rfl,
              fun key hkey => List.mem_append_right _ (hsub hkey)⟩
          · exact ⟨[], part, chunk, rfl, fun key hkey => List.mem_append_left _ hkey⟩

theorem invalidateCacheByPrefix_ensures (E : Settings) (start : String) :
    (Cache.invalidateCacheByPrefix E start).Ensures Protocol.any (fun _ => True)
      (fun o h => ∀ u, o = .ok u → Clears E.cursors (start ++ "*") h) [] := by
  rw [Cache.invalidateCacheByPrefix, bind_eq, ensures_bind]
  refine (scanStream_ensures (start ++ "*") E.cursors []).mono fun o h hpost => ?_
  cases o with
  | error e => exact fun u hu => by cases hu
  | ok keys =>
    obtain ⟨part, hpart, hreads, hslots⟩ := hpost keys rfl
    obtain rfl : h = part := hpart
    rw [andThen_ok]
    have hsplit : ∀ rest : History, (∀ key ∈ keys, ∃ ks, key ∈ ks ∧
        (⟨.del ks, .ok ()⟩ : Event) ∈ rest) → Clears E.cursors (start ++ "*") (h ++ rest) := by
      intro rest hrest n hn
      obtain ⟨l₁, l₂, chunk, rfl, hsub⟩ := hslots n hn
      refine ⟨l₁, l₂ ++ rest, chunk, by simp, fun e he => hreads e (by simp [he]), ?_⟩
      intro key hkey
      obtain ⟨ks, hks, hmem⟩ := hrest key (hsub hkey)
      exact ⟨ks, hks, List.mem_append_right _ hmem⟩
    split_ifs with hempty
    · intro u _
      rw [← List.append_nil h]
      refine hsplit [] fun key hkey => ?_
      rw [List.isEmpty_iff.mp hempty] at hkey
      cases hkey
    · intro r _
      refine ⟨trivial, ?_⟩
      cases r with
      | error e => exact fun u hu => by cases hu
      | ok u => exact fun _ _ => hsplit _ fun key hkey => ⟨keys, hkey, List.mem_singleton_self _⟩

theorem invalidatePropertyCache_ensures (E : Settings) (hslug : slug ≠ "") :
    ((Call.invalidatePropertyCache (some slug)).program E).Ensures Protocol.any (fun _ => True)
      (fun o h => ∀ u, o = .ok u → Clears E.cursors (slugPattern slug) h) [] := by
  simp only [Call.program, Cache.invalidatePropertyCache, bind_eq, ensures_bind]
  rw [if_neg hslug]
  refine (invalidateCacheByPrefix_ensures E _).mono fun o h hpost => ?_
  cases o with
  | error e => exact fun u hu => by cases hu
  | ok _ =>
    -- What the second half adds does not matter.
    have hclears : Clears E.cursors (slugPattern slug) h := hpost _ rfl
    have hkeep : (Cache.invalidateCacheByPrefix E "wpcms:properties:").Ensures Protocol.any
        (fun h => Clears E.cursors (slugPattern slug) h)
        (fun _ h => Clears E.cursors (slugPattern slug) h) h :=
      (uses_invalidateCacheByPrefix _).ensures (fun h op r hc _ _ => hc.append [⟨op, r⟩]) hclears
    refine (hkeep.weaken (fun _ _ _ h => h) fun _ _ => trivial).mono fun o h hc => ?_
    cases o with
    | ok _ => exact fun u _ => hc
    | error e => exact fun u hu => by cases hu

/-- An invalidation that has completed has deleted all that it found. -/
theorem Reachable.clears (h : Reachable E calls c) (hslug : slug ≠ "")
    (hj : calls j = .invalidatePropertyCache (some slug))
    (hdone : c.program (.request j) = .pure none) :
    Clears E.cursors (slugPattern slug) (c.own (.request j)) := by
  obtain ⟨now, cms, hrun⟩ := h
  have hprogram := invalidatePropertyCache_ensures E hslug
  rw [← hj] at hprogram
  have hobeys : Obeys (fun _ => Protocol.any) (server E) (start E calls now cms) :=
    fun _ _ _ _ _ _ _ _ => trivial
  have hend :=
    (hrun.ensures (fun _ _ => True) (fun _ => _) hobeys (.request j) trivial hprogram).2
  rw [hdone] at hend
  exact hend none rfl

end Scans

section Versions

omit [DecidableEq ι] in
theorem cms_le_drift {d : Drift} {w w' : World ι} (hd : World.drift d w = some w') (q : CmsQuery) :
    (w.cms q).version ≤ (w'.cms q).version := by
  cases d with
  | tick ms =>
    cases hd
    exact le_rfl
  | edit q' body =>
    cases hd
    by_cases hq : q = q'
    · subst hq
      simp [World.edit]
    · simp [World.edit, hq]

theorem World.Served.cms {w w' : World ι} {op : Operation} {r : Except Err op.Reply}
    (h : w.Served E t op r w') : w'.cms = w.cms := by
  cases h <;> rfl

theorem cms_le_step (hstep : Step (server E) a b) (q : CmsQuery) :
    (a.world.cms q).version ≤ (b.world.cms q).version := by
  rcases step_cases hstep with ⟨d, w, hd, rfl⟩ | ⟨t, op, k, r, w, -, hserved, rfl⟩
  · exact cms_le_drift hd q
  · exact le_of_eq (congrArg (fun cms => (cms q).version) hserved.cms.symm)

/-- What the CMS has responded is no newer than what it has, and never goes back. -/
structure VersionsGrow (c : System ι) : Prop where
  current : ∀ y ∈ c.world.journal, ∀ q page, y.event = ⟨.response q, .ok page⟩ →
    page.version ≤ (c.world.cms q).version
  ordered : ∀ x ∈ c.world.journal, ∀ y ∈ c.world.journal, x.seq < y.seq → ∀ q page page',
    x.event = ⟨.response q, .ok page⟩ → y.event = ⟨.response q, .ok page'⟩ →
      page.version ≤ page'.version

theorem World.Served.of_response {w w' : World ι} {page : Page}
    (h : w.Served E t (.response q) (.ok page) w') : page = w.cms q := by
  cases h
  rfl

theorem VersionsGrow.serve_step (h : VersionsGrow c) (hT : Timed c) {op : Operation}
    {r : Except Err op.Reply} {k : Except Err op.Reply → Promise (Option Page)} {w : World ι}
    (hserved : c.world.Served E t op r w) :
    VersionsGrow (c.answered t op r k (w.log t ⟨op, r⟩)) := by
  constructor
  · intro y hy q page hevent
    have hcms : (w.log t ⟨op, r⟩).cms = c.world.cms := hserved.cms
    rw [Config.answered_world, hcms]
    rcases (mem_journal_log hserved).mp hy with hy | rfl
    · exact h.current y hy q page hevent
    · cases hevent
      rw [hserved.of_response]
  · intro x hx y hy hlt q page page' hxe hye
    rcases (mem_journal_log hserved).mp hy with hy | rfl
    · rcases (mem_journal_log hserved).mp hx with hx | rfl
      · exact h.ordered x hx y hy hlt q page page' hxe hye
      · exact absurd (hT.past y hy).1 hlt.not_gt
    · rcases (mem_journal_log hserved).mp hx with hxa | rfl
      · cases hye
        rw [hserved.of_response]
        exact h.current x hxa q page hxe
      · exact absurd hlt (lt_irrefl _)

theorem Reachable.versionsGrow (h : Reachable E calls c) : VersionsGrow c := by
  refine h.induct (fun now cms => ⟨fun _ hy => (by cases hy), fun _ hx => (by cases hx)⟩)
    (fun c t q k r w hc hInv _ hserved => hInv.serve_step hc.timed hserved) ?_
  intro c d w _ hInv hd
  have hjournal : w.journal = c.world.journal := by
    cases d <;> cases hd <;> rfl
  constructor
  · intro y hy q page hevent
    rw [hjournal] at hy
    exact (hInv.current y hy q page hevent).trans (cms_le_drift hd q)
  · change ∀ x ∈ w.journal, _
    rw [hjournal]
    exact hInv.ordered

/-- Everybody uses the cache by the services. -/
def ServiceCalls (E : Settings) (calls : ι → Call) : Prop :=
  ∀ i, (∃ q, calls i = .fetch E q) ∨ ∃ slug, calls i = .invalidatePropertyCache slug

/-- Nobody asks for another query that is cached under the same key. -/
def Sole (E : Settings) (calls : ι → Call) (q : CmsQuery) : Prop :=
  ∀ i q', calls i = .fetch E q' → q'.cacheKey = q.cacheKey → q' = q

/-- What is written under the key of a query was a response to it. -/
theorem Reachable.response_of_set (h : Reachable E calls c) (hcalls : ServiceCalls E calls)
    (hsole : Sole E calls q) {envelope : CacheEnvelope} {exSeconds : ℕ} {r : Except Err Unit}
    {w : Record ι} (hw : w ∈ c.world.journal)
    (hset : w.event = ⟨.set q.cacheKey envelope exSeconds, r⟩) :
    calls w.task.owner = .fetch E q ∧ ∃ y ∈ c.world.journal, y.task = w.task ∧
      y.event = ⟨.response q, .ok envelope.data⟩ ∧ y.seq < w.seq := by
  have hown := h.timed.own_of_mem hw
  rw [hset] at hown
  obtain ⟨rfl, ttl, stale, q', before, hwrote⟩ := h.wrote hown
  have hcall : calls w.task.owner = .fetch E q := by
    rcases hcalls w.task.owner with ⟨q'', hq⟩ | ⟨slug, hslug⟩
    · have heq := hwrote.call
      rw [hq, Call.fetch, Call.getOrSetWithSWR.injEq] at heq
      rw [hq, hsole _ _ hq heq.1]
    · have heq := hwrote.call
      rw [hslug] at heq
      cases heq
  have hq : q' = q := by
    have heq := hwrote.call
    rw [hcall, Call.fetch, Call.getOrSetWithSWR.injEq] at heq
    exact heq.2.2.2.symm
  subst hq
  obtain ⟨y, hy, htask, hevent, hlocate⟩ := h.timed.locate (hwrote.own.trans
    (List.append_assoc before [_] [_, _, _]).symm)
  refine ⟨hcall, y, hy, htask, hevent, ?_⟩
  rcases hlocate w hw rfl with rfl | ⟨hmem, -⟩ | ⟨-, hlt⟩
  · rw [hevent] at hset
    cases hset
  · rw [hset] at hmem
    rcases List.mem_append.mp hmem with hmem | hmem
    · cases hwrote.unfetched _ hmem
    · cases List.mem_singleton.mp hmem
  · exact hlt

end Versions

section Writes

/-- A command that writes the key or looks for it. -/
def Operation.touches (key : String) : Operation → Bool
  | .set key' _ _ => key' == key
  | .scan _ pattern => Redis.isMatch pattern key
  | _ => false

/-- A page that is written is still what the CMS has, or its key has neither been written nor
been looked for since the page was fetched. -/
def WritesCurrent (E : Settings) (calls : ι → Call) (a b : System ι) : Prop :=
  ∀ t q envelope exSeconds r, calls t.owner = .fetch E q →
    StepEvent a b t ⟨.set q.cacheKey envelope exSeconds, r⟩ →
    b.world.redis = (a.world.store q.cacheKey envelope exSeconds).redis →
    envelope.data.version = (a.world.cms q).version ∨
      ∀ y ∈ a.world.journal, y.task = t → y.event = ⟨.response q, .ok envelope.data⟩ →
        ∀ z ∈ a.world.journal, z.event.request.touches q.cacheKey = true → z.seq < y.seq

/-- A property is not edited while an invalidation for it is under way. -/
def EditsApart (calls : ι → Call) (a b : System ι) : Prop :=
  ∀ j slug, calls j = .invalidatePropertyCache (some slug) → a.own (.request j) ≠ [] →
    ¬ (a.program (.request j)).Ended →
      b.world.cms (.property slug) = a.world.cms (.property slug)

structure CoherentStep (E : Settings) (calls : ι → Call) (a b : System ι) : Prop where
  writes : WritesCurrent E calls a b
  edits : EditsApart calls a b

/-- An entry of the key was written after it had been fetched. -/
theorem Reachable.entry_response (h : Reachable E calls c) (hcalls : ServiceCalls E calls)
    (hsole : Sole E calls q) {x : Entry} (hx : x ∈ c.world.redis) (hkey : x.key = q.cacheKey) :
    ∃ y ∈ c.world.journal, ∃ w ∈ c.world.journal, y.event = ⟨.response q, .ok x.envelope.data⟩ ∧
      w.event.request.touches q.cacheKey = true ∧ y.seq < w.seq := by
  obtain ⟨w, hw, exSeconds, r, hset, -⟩ := h.sourced.entries x hx
  rw [hkey] at hset
  obtain ⟨-, y, hy, -, hevent, hlt⟩ := h.response_of_set hcalls hsole hw hset
  refine ⟨y, hy, w, hw, hevent, ?_, hlt⟩
  rw [hset]
  exact beq_self_eq_true _

/-- Where the entries of a key come from in one step. -/
theorem WritesCurrent.stored (ha : Reachable E calls a) (hcalls : ServiceCalls E calls)
    (hsole : Sole E calls q) (hstep : Step (server E) a b) (hok : WritesCurrent E calls a b)
    {x : Entry} (hx : x ∈ b.world.redis) (hkey : x.key = q.cacheKey) :
    x ∈ a.world.redis ∨ x.envelope.data.version = (a.world.cms q).version ∨
      ∃ y ∈ a.world.journal, y.event = ⟨.response q, .ok x.envelope.data⟩ ∧
        ∀ z ∈ a.world.journal, z.event.request.touches q.cacheKey = true → z.seq < y.seq := by
  have hb : Reachable E calls b := ha.run (.single hstep)
  rcases step_cases hstep with ⟨d, w, hd, rfl⟩ | ⟨t, op, k, r, w, -, hserved, rfl⟩
  · cases d <;> cases hd <;> exact Or.inl hx
  · have hserved' := hserved
    cases hserved with
    | stored key envelope exSeconds r =>
      rcases World.mem_store.mp hx with rfl | ⟨hx, -⟩
      · obtain rfl : key = q.cacheKey := hkey
        obtain ⟨hcall, y, hy, htask, hevent, hlt⟩ := hb.response_of_set hcalls hsole
          ((mem_journal_log hserved').mpr (Or.inr rfl)) rfl
        have hya : y ∈ a.world.journal := by
          refine ((mem_journal_log hserved').mp hy).resolve_right fun heq => ?_
          exact absurd (heq ▸ hlt) (lt_irrefl _)
        have hnew := hok t q envelope exSeconds r hcall (stepEvent_answered.mpr ⟨rfl, rfl⟩) rfl
        exact Or.inr (hnew.imp_right fun hlate => ⟨y, hya, hevent, hlate y hya htask hevent⟩)
      · exact Or.inl hx
    | erased keys => exact Or.inl (World.mem_erase.mp hx).1
    | _ => exact Or.inl hx

/-- The version under the key does not go back in this step. -/
def NeverOlder (key : String) (a b : System ι) : Prop :=
  ∀ x ∈ a.world.redis, ∀ y ∈ b.world.redis, x.key = key → y.key = key →
    x.envelope.data.version ≤ y.envelope.data.version

theorem neverOlder_of_current (ha : Reachable E calls a) (hcalls : ServiceCalls E calls)
    (hsole : Sole E calls q) (hstep : Step (server E) a b) (hok : WritesCurrent E calls a b) :
    NeverOlder q.cacheKey a b := by
  intro x hx y hy hxkey hykey
  obtain ⟨u, hu, w, hw, hresponse, htouches, huw⟩ := ha.entry_response hcalls hsole hx hxkey
  rcases hok.stored ha hcalls hsole hstep hy hykey with hya | hcurrent | ⟨z, hz, hevent, hlate⟩
  · rw [List.inj_on_of_nodup_map ha.sourced.keys hx hya (hxkey.trans hykey.symm)]
  · rw [hcurrent]
    exact ha.versionsGrow.current u hu q _ hresponse
  · exact ha.versionsGrow.ordered u hu z hz (huw.trans (hlate w hw htouches)) q _ _ hresponse hevent

end Writes

section Clearing

/-- The record of invalidation `j` scanning the slot of the slug's key. -/
def SlotScan (E : Settings) (j : ι) (slug : String) (keys : List String) (z : Record ι) : Prop :=
  z.task = .request j ∧
    z.event = ⟨.scan (E.slot (CmsQuery.property slug).cacheKey).val (slugPattern slug), .ok keys⟩

/-- Since invalidation `j` has looked for the key, versions below `v` are fetched no more, and
an entry with such a version is dead or about to be deleted. -/
structure Clearing (E : Settings) (j : ι) (slug : String) (v : ℕ) (c : System ι) : Prop where
  responses : ∀ z ∈ c.world.journal, ∀ keys, SlotScan E j slug keys z →
    ∀ y ∈ c.world.journal, z.seq < y.seq →
      ∀ page, y.event = ⟨.response (.property slug), .ok page⟩ → v ≤ page.version
  entries : ∀ z ∈ c.world.journal, ∀ keys, SlotScan E j slug keys z →
    ∀ x ∈ c.world.redis, x.key = (CmsQuery.property slug).cacheKey →
      v ≤ x.envelope.data.version ∨ x.expiresAt < c.world.now ∨
        (x.key ∈ keys ∧ ∀ d ∈ c.world.journal, z.seq < d.seq → d.task = .request j →
          ∀ ks, x.key ∈ ks → d.event ≠ ⟨.del ks, .ok ()⟩)

theorem World.Served.of_del {w w' : World ι} {ks : List String} {u : Unit}
    (h : w.Served E t (.del ks) (.ok u) w') : w' = w.erase ks := by
  cases h
  rfl

theorem World.Served.of_scan {w w' : World ι} {cursor : ℕ} {pattern : String} {keys : List String}
    (h : w.Served E t (.scan cursor pattern) (.ok keys) w') :
    w' = w ∧ keys = w.scan E cursor pattern := by
  cases h
  exact ⟨rfl, rfl⟩

omit [DecidableEq ι] in
/-- A scan finds the keys that are alive. -/
theorem World.mem_scan {w : World ι} {x : Entry} {pattern : String} (hx : x ∈ w.redis)
    (halive : w.now ≤ x.expiresAt) (hmatch : Redis.isMatch pattern x.key = true) :
    x.key ∈ w.scan E (E.slot x.key).val pattern := by
  have hkeys : x.key ∈ w.keys.map Entry.key :=
    List.mem_map_of_mem (List.mem_filter.mpr ⟨hx, by simpa using halive⟩)
  exact List.mem_filter.mpr ⟨hkeys, by simp [hmatch]⟩

/-- A program that has ended stays as it is. -/
theorem program_of_ended (hstep : Step (server E) a b) (hended : (a.program t).Ended) :
    b.program t = a.program t ∧ b.own t = a.own t := by
  rcases step_cases hstep with ⟨d, w, -, rfl⟩ | ⟨t', op, k, r, w, hprogram, -, rfl⟩
  · exact ⟨rfl, rfl⟩
  · have hne : t ≠ t' := by
      rintro rfl
      rw [hprogram] at hended
      exact hended
    exact ⟨Config.answered_program_ne hne, Config.own_answered_ne hne⟩

section Answered

variable {op : Operation} {r : Except Err op.Reply} {w : World ι}

theorem Clearing.responses_answered (ha : Reachable E calls a)
    (hv : v ≤ (a.world.cms (.property slug)).version) (h : Clearing E j slug v a)
    (hserved : a.world.Served E t op r w) {y z : Record ι} {keys : List String}
    (hz : z ∈ (w.log t ⟨op, r⟩).journal) (hscan : SlotScan E j slug keys z)
    (hy : y ∈ (w.log t ⟨op, r⟩).journal) (hlt : z.seq < y.seq) {page : Page}
    (hevent : y.event = ⟨.response (.property slug), .ok page⟩) : v ≤ page.version := by
  rcases (mem_journal_log hserved).mp hy with hya | rfl
  · rcases (mem_journal_log hserved).mp hz with hza | rfl
    · exact h.responses z hza keys hscan y hya hlt page hevent
    · exact absurd (ha.timed.past y hya).1 hlt.not_gt
  · cases hevent
    rw [hserved.of_response]
    exact hv

/-- An entry that is not written in this step stays dead or about to be deleted. -/
theorem Clearing.entries_kept (h : Clearing E j slug v a) (hserved : a.world.Served E t op r w)
    {x : Entry} (hxa : x ∈ a.world.redis) (hx : x ∈ w.redis)
    (hkey : x.key = (CmsQuery.property slug).cacheKey) {z : Record ι} {keys : List String}
    (hz : z ∈ a.world.journal) (hscan : SlotScan E j slug keys z) :
    v ≤ x.envelope.data.version ∨ x.expiresAt < w.now ∨
      (x.key ∈ keys ∧ ∀ d ∈ (w.log t ⟨op, r⟩).journal, z.seq < d.seq → d.task = .request j →
        ∀ ks, x.key ∈ ks → d.event ≠ ⟨.del ks, .ok ()⟩) := by
  have hnow : w.now = a.world.now := hserved.now
  rw [hnow]
  refine (h.entries z hz keys hscan x hxa hkey).imp_right (Or.imp_right ?_)
  rintro ⟨hmem, hundeleted⟩
  refine ⟨hmem, fun d hd hlt htask ks hks hdel => ?_⟩
  rcases (mem_journal_log hserved).mp hd with hda | rfl
  · exact hundeleted d hda hlt htask ks hks hdel
  · cases hdel
    obtain rfl := hserved.of_del
    exact (World.mem_erase.mp hx).2 hks

/-- A new scan finds every entry that is alive. -/
theorem entries_of_scan (ha : Reachable E calls a)
    (hmatch : Redis.isMatch (slugPattern slug) (CmsQuery.property slug).cacheKey = true)
    (hserved : a.world.Served E t op r w) {x : Entry} (hx : x ∈ w.redis)
    (hkey : x.key = (CmsQuery.property slug).cacheKey) {keys : List String}
    (hscan : SlotScan E j slug keys (a.world.next t ⟨op, r⟩)) :
    x.expiresAt < w.now ∨
      (x.key ∈ keys ∧ ∀ d ∈ (w.log t ⟨op, r⟩).journal, (a.world.next t ⟨op, r⟩).seq < d.seq →
        d.task = .request j → ∀ ks, x.key ∈ ks → d.event ≠ ⟨.del ks, .ok ()⟩) := by
  obtain ⟨-, hevent⟩ := hscan
  cases hevent
  obtain ⟨rfl, rfl⟩ := hserved.of_scan
  by_cases halive : a.world.now ≤ x.expiresAt
  · refine Or.inr ⟨?_, fun d hd hlt => ?_⟩
    · rw [← hkey] at hmatch ⊢
      exact World.mem_scan hx halive hmatch
    · rcases (mem_journal_log hserved).mp hd with hda | rfl
      · exact absurd (ha.timed.past d hda).1 hlt.not_gt
      · exact absurd hlt (lt_irrefl _)
  · exact Or.inl (not_le.mp halive)

end Answered

theorem Clearing.step (ha : Reachable E calls a) (hcalls : ServiceCalls E calls)
    (hsole : Sole E calls (.property slug))
    (hmatch : Redis.isMatch (slugPattern slug) (CmsQuery.property slug).cacheKey = true)
    (hv : v ≤ (a.world.cms (.property slug)).version) (h : Clearing E j slug v a)
    (hstep : Step (server E) a b) (hok : WritesCurrent E calls a b) : Clearing E j slug v b := by
  have hstored := fun x => hok.stored (x := x) ha hcalls hsole hstep
  rcases step_cases hstep with ⟨d, w, hd, rfl⟩ | ⟨t, op, k, r, w, -, hserved, rfl⟩
  · cases d with
    | tick ms =>
      cases hd
      refine ⟨h.responses, fun z hz keys hscan x hx hkey => ?_⟩
      exact (h.entries z hz keys hscan x hx hkey).imp_right
        (Or.imp_left fun hexpired => Nat.lt_add_right ms hexpired)
    | edit q body =>
      cases hd
      exact ⟨h.responses, h.entries⟩
  · refine ⟨fun z hz keys hscan y hy hlt page hevent =>
      h.responses_answered ha hv hserved hz hscan hy hlt hevent, ?_⟩
    intro z hz keys hscan x hx hkey
    rcases (mem_journal_log hserved).mp hz with hza | rfl
    · rcases hstored x hx hkey with hxa | hcurrent | ⟨y, hy, hevent, hlate⟩
      · exact h.entries_kept hserved hxa hx hkey hza hscan
      · exact Or.inl (hcurrent ▸ hv)
      · have htouches : z.event.request.touches (CmsQuery.property slug).cacheKey = true := by
          rw [hscan.2]
          exact hmatch
        exact Or.inl (h.responses z hza keys hscan y hy (hlate z hza htouches) _ hevent)
    · exact Or.inr (entries_of_scan ha hmatch hserved hx hkey hscan)

/-- Nothing old is alive once the invalidation has deleted what it found. -/
theorem Clearing.cleared (hc : Reachable E calls c) (h : Clearing E j slug v c)
    (hclears : Clears E.cursors (slugPattern slug) (c.own (.request j))) {x : Entry}
    (hx : x ∈ c.world.redis) (hkey : x.key = (CmsQuery.property slug).cacheKey)
    (halive : c.world.now ≤ x.expiresAt) : v ≤ x.envelope.data.version := by
  obtain ⟨l₁, l₂, keys, hown, hl₁, hdel⟩ :=
    hclears _ (E.slot (CmsQuery.property slug).cacheKey).isLt
  obtain ⟨z, hz, htask, hevent, hlocate⟩ := hc.timed.locate hown
  rcases h.entries z hz keys ⟨htask, hevent⟩ x hx hkey with hv | hexpired | ⟨hmem, hundeleted⟩
  · exact hv
  · exact absurd halive (not_le.mpr hexpired)
  · obtain ⟨ks, hks, hdeleted⟩ := hdel x.key hmem
    have hdown : (⟨.del ks, .ok ()⟩ : Event) ∈ c.own (.request j) := by
      rw [hown]
      exact List.mem_append_right _ (List.mem_cons_of_mem _ hdeleted)
    obtain ⟨d, hd, hdtask, hdevent⟩ := hc.timed.mem_own.mp hdown
    rcases hlocate d hd hdtask with rfl | ⟨hmem₁, -⟩ | ⟨-, hlt⟩
    · rw [hevent] at hdevent
      cases hdevent
    · rw [hdevent] at hmem₁
      cases hl₁ _ hmem₁
    · exact absurd hdevent (hundeleted d hd hlt hdtask ks hks)

theorem clearing_of_unstarted (hT : Timed c) (hown : c.own (.request j) = []) :
    Clearing E j slug v c := by
  have hnone : ∀ z ∈ c.world.journal, ∀ keys, ¬ SlotScan E j slug keys z := by
    intro z hz keys hscan
    have hmem := hT.own_of_mem hz
    rw [hscan.1, hown] at hmem
    cases hmem
  exact ⟨fun z hz keys hscan => (hnone z hz keys hscan).elim,
    fun z hz keys hscan => (hnone z hz keys hscan).elim⟩

end Clearing

section Coherence

/-- The slug's own key matches the pattern under which it is looked for. -/
def Clearable (slug : String) : Prop :=
  slug ≠ "" ∧ Redis.isMatch (slugPattern slug) (CmsQuery.property slug).cacheKey = true

/-- An invalidation that is not over clears what is older than the present content. -/
def Guarded (E : Settings) (calls : ι → Call) (c : System ι) : Prop :=
  ∀ j slug, calls j = .invalidatePropertyCache (some slug) → Clearable slug →
    ¬ (c.program (.request j)).Ended →
      Clearing E j slug (c.world.cms (.property slug)).version c

theorem property_cacheKey_inj {slug slug' : String}
    (h : (CmsQuery.property slug').cacheKey = (CmsQuery.property slug).cacheKey) :
    slug' = slug := by
  have hkey : "wpcms:property:" ++ slug' = "wpcms:property:" ++ slug := h
  exact String.append_right_inj _ |>.mp hkey

theorem properties_cacheKey_ne (first : PageSize) (after : Option String) (slug : String) :
    (CmsQuery.properties first after).cacheKey ≠ (CmsQuery.property slug).cacheKey := by
  intro h
  have hkey : "wpcms:properties:" ++ first.text ++ ":" ++ after.getD "start" =
      "wpcms:property:" ++ slug := h
  have hchars : ("wpcms:properties:" ++ first.text ++ ":" ++ after.getD "start").toList =
      ("wpcms:property:" ++ slug).toList := by rw [hkey]
  simp only [String.toList_append] at hchars
  -- The two differ where one goes on with `i` and the other with `y`.
  have hletter := congrArg (fun l => l[13]?) hchars
  simp at hletter

omit [DecidableEq ι] in
theorem sole_property : Sole E calls (.property slug) := by
  intro i q' _ hkey
  cases q' with
  | properties first after => exact absurd hkey (properties_cacheKey_ne first after slug)
  | property slug' => rw [property_cacheKey_inj hkey]

theorem Guarded.step (ha : Reachable E calls a) (hcalls : ServiceCalls E calls)
    (h : Guarded E calls a) (hstep : Step (server E) a b) (hok : CoherentStep E calls a b) :
    Guarded E calls b := by
  intro j slug hj hslug hopen
  have hopena : ¬ (a.program (.request j)).Ended := fun hended =>
    hopen ((program_of_ended hstep hended).1 ▸ hended)
  have hcase : b.world.cms (.property slug) = a.world.cms (.property slug) ∨
      b.own (.request j) = [] := by
    by_cases hown : a.own (.request j) = []
    · rcases step_cases hstep with ⟨d, w, -, rfl⟩ | ⟨t, op, k, r, w, -, hserved, rfl⟩
      · exact Or.inr hown
      · exact Or.inl (congrFun hserved.cms _)
    · exact Or.inl (hok.edits j slug hj hown hopena)
  rcases hcase with hcms | hown
  · rw [hcms]
    exact (h j slug hj hslug hopena).step ha hcalls sole_property hslug.2 le_rfl hstep hok.writes
  · exact clearing_of_unstarted (ha.run (.single hstep)).timed hown

/-- What request `i` has read or fetched has at least version `v`. -/
structure SeenSince (i : ι) (slug : String) (v : ℕ) (c : System ι) : Prop where
  reads : ∀ z ∈ c.world.journal, z.task = .request i → ∀ envelope,
    z.event = ⟨.get (CmsQuery.property slug).cacheKey, .ok (some envelope)⟩ →
      v ≤ envelope.data.version
  responses : ∀ z ∈ c.world.journal, z.task = .request i → ∀ page,
    z.event = ⟨.response (.property slug), .ok page⟩ → v ≤ page.version

theorem SeenSince.step (h : SeenSince i slug v a)
    (hv : v ≤ (a.world.cms (.property slug)).version)
    (hentries : ∀ x ∈ a.world.redis, x.key = (CmsQuery.property slug).cacheKey →
      a.world.now ≤ x.expiresAt → v ≤ x.envelope.data.version)
    (hstep : Step (server E) a b) : SeenSince i slug v b := by
  rcases step_cases hstep with ⟨d, w, hd, rfl⟩ | ⟨t, op, k, r, w, -, hserved, rfl⟩
  · cases d <;> cases hd <;> exact ⟨h.reads, h.responses⟩
  · constructor
    · intro z hz htask envelope hget
      rcases (mem_journal_log hserved).mp hz with hza | rfl
      · exact h.reads z hza htask envelope hget
      · cases hget
        obtain ⟨x, hentry, rfl⟩ := Option.map_eq_some_iff.mp hserved.of_get.2.symm
        obtain ⟨hx, hkey, halive⟩ := World.mem_of_entry hentry
        exact hentries x hx hkey halive
    · intro z hz htask page hresponse
      rcases (mem_journal_log hserved).mp hz with hza | rfl
      · exact h.responses z hza htask page hresponse
      · cases hresponse
        rw [hserved.of_response]
        exact hv

theorem seenSince_of_unstarted (hT : Timed c) (hown : c.own (.request i) = []) :
    SeenSince i slug v c := by
  have hnone : ∀ z ∈ c.world.journal, z.task ≠ .request i := by
    intro z hz htask
    have hmem := hT.own_of_mem hz
    rw [htask, hown] at hmem
    cases hmem
  exact ⟨fun z hz htask => (hnone z hz htask).elim, fun z hz htask => (hnone z hz htask).elim⟩

section Runs

theorem guarded_of_run (hcalls : ServiceCalls E calls) {now : ℕ} {cms : CmsQuery → Page}
    (ha : RunWhere (server E) (CoherentStep E calls) (start E calls now cms) a) :
    Guarded E calls a := by
  refine ha.invariant (P := Guarded E calls) ?_ fun x y hx h hstep hok =>
    h.step ⟨now, cms, hx.run⟩ hcalls hstep hok
  exact fun j slug _ _ _ => clearing_of_unstarted (timed_start now cms) rfl

theorem Clearing.run (ha : Reachable E calls a) (hcalls : ServiceCalls E calls)
    (hslug : Clearable slug)
    (h : v ≤ (a.world.cms (.property slug)).version ∧ Clearing E j slug v a)
    (hrun : RunWhere (server E) (CoherentStep E calls) a b) :
    v ≤ (b.world.cms (.property slug)).version ∧ Clearing E j slug v b := by
  refine hrun.invariant
    (P := fun x => v ≤ (x.world.cms (.property slug)).version ∧ Clearing E j slug v x) h ?_
  exact fun x y hx h hstep hok => ⟨h.1.trans (cms_le_step hstep _),
    h.2.step (ha.run hx.run) hcalls sole_property hslug.2 h.1 hstep hok.writes⟩

/-- Once invalidation `j` is over, a request that begins sees nothing older. -/
theorem SeenSince.run (hb : Reachable E calls b) (hcalls : ServiceCalls E calls)
    (hslug : Clearable slug) (hj : calls j = .invalidatePropertyCache (some slug))
    (hclear : v ≤ (b.world.cms (.property slug)).version ∧ Clearing E j slug v b)
    (hdone : b.program (.request j) = .pure none) (h : SeenSince i slug v b)
    (hrun : RunWhere (server E) (CoherentStep E calls) b c) : SeenSince i slug v c := by
  have hinv := hrun.invariant
    (P := fun x => x.program (.request j) = .pure none ∧ SeenSince i slug v x) ⟨hdone, h⟩ ?_
  · exact hinv.2
  · rintro x y hx ⟨hdone, hsince⟩ hstep hok
    have hrx : Reachable E calls x := hb.run hx.run
    obtain ⟨hv, hclearing⟩ := Clearing.run hb hcalls hslug hclear hx
    have hended : (x.program (.request j)).Ended := by
      rw [hdone]
      trivial
    refine ⟨(program_of_ended hstep hended).1.trans hdone,
      hsince.step hv (fun e he hkey halive => ?_) hstep⟩
    exact hclearing.cleared hrx (hrx.clears hslug.1 hj hdone) he hkey halive

/-- A page that is served was fetched or read. -/
theorem SeenSince.page (h : SeenSince i slug v c) (hc : Reachable E calls c)
    (hi : calls i = .fetch E (.property slug)) {page : Page}
    (hpage : c.program (.request i) = .pure (some page)) : v ≤ page.version := by
  have hrun := (hc.request_run hi).2.1 page hpage
  rcases hc.explained hi hrun with hfetched | hread
  · obtain ⟨ttl, stale, q, hcall, -, hmem⟩ := hfetched
    obtain ⟨z, hz, htask, hevent⟩ := hc.timed.mem_own.mp (Config.mem_own.mpr hmem)
    have heq := hi.symm.trans hcall
    rw [Call.fetch, Call.getOrSetWithSWR.injEq] at heq
    obtain ⟨-, -, -, rfl⟩ := heq
    exact h.responses z hz htask page hevent
  · obtain ⟨-, -, z, hz, cachedAt, -, -, htask, hget, -⟩ := hread
    exact h.reads z hz htask _ hget

end Runs

/-- Invalidation `j`, not over in `a`, has completed in `b`, and request `i`, not begun in
`b`, is served a page in `c`. -/
structure ServedAfter (runs : System ι → System ι → Prop) (E : Settings) (calls : ι → Call)
    (i j : ι) (slug : String) (page : Page) (a b c : System ι) : Prop where
  invalidates : calls j = .invalidatePropertyCache (some slug)
  opened : ¬ (a.program (.request j)).Ended
  invalidating : runs a b
  completed : b.program (.request j) = .pure none
  fetches : calls i = .fetch E (.property slug)
  unstarted : b.own (.request i) = []
  serving : runs b c
  served : c.program (.request i) = .pure (some page)

/-- In a run whose steps are coherent the version under a key never goes back, and whoever
starts after an invalidation sees what the CMS had before the invalidation was over. -/
theorem cache_coherent (hcalls : ServiceCalls E calls) {now : ℕ} {cms : CmsQuery → Page}
    (ha : RunWhere (server E) (CoherentStep E calls) (start E calls now cms) a) :
    (∀ q b, Sole E calls q → Step (server E) a b → CoherentStep E calls a b →
      NeverOlder q.cacheKey a b) ∧
    ∀ i j slug page b c, Clearable slug →
      ServedAfter (RunWhere (server E) (CoherentStep E calls)) E calls i j slug page a b c →
      (a.world.cms (.property slug)).version ≤ page.version := by
  have hra : Reachable E calls a := ⟨now, cms, ha.run⟩
  refine ⟨fun q b hsole hstep hok => neverOlder_of_current hra hcalls hsole hstep hok.writes, ?_⟩
  intro i j slug page b c hslug hserved
  have hguarded := guarded_of_run hcalls ha j slug hserved.invalidates hslug hserved.opened
  have hclear := Clearing.run hra hcalls hslug ⟨le_rfl, hguarded⟩ hserved.invalidating
  have hrb : Reachable E calls b := hra.run hserved.invalidating.run
  have hseen := (seenSince_of_unstarted hrb.timed hserved.unstarted).run hrb hcalls hslug
    hserved.invalidates hclear hserved.completed hserved.serving
  exact hseen.page (hrb.run hserved.serving.run) hserved.fetches hserved.served

end Coherence

section Samples

/-- Request 0 and those from 2 on ask for one property, which call 1 invalidates. -/
def invalidated : ℕ → Call
  | 1 => .invalidatePropertyCache (some "sea-view")
  | _ => .fetch sampleSettings seaView

theorem serviceCalls_invalidated : ServiceCalls sampleSettings invalidated := by
  intro i
  by_cases hi : i = 1
  · subst hi
    exact Or.inr ⟨_, rfl⟩
  · exact Or.inl ⟨seaView, by unfold invalidated; split <;> simp_all⟩

theorem clearable_seaView : Clearable "sea-view" := ⟨by decide, by decide⟩

def edited : Value := .object [("slug", .str "sea-view"), ("title", .str "Sea view, new price")]

/-- What is written is current, and nothing is edited once the invalidation has begun. -/
def isCoherent (c : System ℕ) : Move (Task ℕ) Choice Drift → Bool
  | .serve t _ =>
    match c.program t with
    | .await (.set _ envelope _) _ => envelope.data.version == (c.world.cms seaView).version
    | _ => true
  | .drift (.edit _ _) => (c.own (.request 1)).isEmpty
  | .drift (.tick _) => true

theorem fetch_inj {q q' : CmsQuery} (h : Call.fetch E q = .fetch E q') : q = q' := by
  rw [Call.fetch, Call.fetch, Call.getOrSetWithSWR.injEq] at h
  exact h.2.2.2

omit [DecidableEq ι] in
theorem eq_seaView_of_fetch {i : ℕ} (h : invalidated i = .fetch sampleSettings q) :
    q = seaView := by
  unfold invalidated at h
  split at h
  · cases h
  · exact (fetch_inj h).symm

theorem coherentStep_of_isCoherent (c : System ℕ) (m : Move (Task ℕ) Choice Drift)
    (c' : System ℕ) (hplay : c.play (server sampleSettings) m = some c')
    (hcheck : isCoherent c m = true) : CoherentStep sampleSettings invalidated c c' := by
  cases m with
  | drift d =>
    obtain ⟨w, hd, rfl⟩ := Option.map_eq_some_iff.mp hplay
    refine ⟨fun t q envelope exSeconds r _ hevent => absurd hevent not_stepEvent_drift, ?_⟩
    intro j slug hj hown _
    cases d with
    | tick ms =>
      cases hd
      rfl
    | edit q body =>
      obtain rfl : j = 1 := by
        unfold invalidated at hj
        split at hj
        · rfl
        · cases hj
      exact absurd (List.isEmpty_iff.mp hcheck) hown
  | serve t' choice =>
    cases hprogram : c.program t' with
    | pure a => simp [Config.play, hprogram] at hplay
    | throw e => simp [Config.play, hprogram] at hplay
    | await op k =>
      simp only [Config.play, hprogram] at hplay
      obtain ⟨⟨r, w⟩, hserve, rfl⟩ := Option.map_eq_some_iff.mp hplay
      constructor
      · intro t q envelope exSeconds r' hcall hevent _
        obtain rfl := eq_seaView_of_fetch hcall
        obtain ⟨rfl, heq⟩ := stepEvent_answered.mp hevent
        cases heq
        simp only [isCoherent, hprogram] at hcheck
        exact Or.inl (beq_iff_eq.mp hcheck)
      · intro j slug _ _ _
        obtain ⟨w₀, hserved, rfl⟩ := World.served_of_serve hserve
        exact congrFun hserved.cms _

def invalidatedStart : System ℕ := sampleStart invalidated

/-- Request 0 has written, and then the property is edited. -/
def editedRun : Moves := undisturbed (.request 0) 5 ++ [.drift (.edit seaView edited)]

def afterEdit : System ℕ := invalidatedStart.after (server sampleSettings) editedRun

def afterInvalidation : System ℕ :=
  afterEdit.after (server sampleSettings) (undisturbed (.request 1) 3)

def afterRequest : System ℕ :=
  afterInvalidation.after (server sampleSettings) (undisturbed (.request 2) 5)

/-- The invalidation finds and deletes the old page, and request 2 fetches the new one. -/
theorem cache_coherent_sample :
    (afterEdit.world.cms seaView).version ≤ (⟨1, edited⟩ : Page).version := by
  have hrun : RunWhere (server sampleSettings) (CoherentStep sampleSettings invalidated)
      (start sampleSettings invalidated 0 fun _ => samplePage 0) afterEdit :=
    Config.runWhere_after coherentStep_of_isCoherent (by rfl)
  refine (cache_coherent serviceCalls_invalidated hrun).2 2 1 "sea-view" ⟨1, edited⟩
    afterInvalidation afterRequest clearable_seaView ⟨rfl, ?_, ?_, rfl, rfl, rfl, ?_, rfl⟩
  · exact fun h => h
  · exact Config.runWhere_after coherentStep_of_isCoherent (by rfl)
  · exact Config.runWhere_after coherentStep_of_isCoherent (by rfl)

/-- Request 0 has fetched but not yet written when the property is edited. -/
def straddledRun : Moves := undisturbed (.request 0) 3 ++ [.drift (.edit seaView edited)]

def straddledEdit : System ℕ := invalidatedStart.after (server sampleSettings) straddledRun

/-- The invalidation finds nothing to delete. -/
def straddledInvalidation : System ℕ :=
  straddledEdit.after (server sampleSettings) (undisturbed (.request 1) 2)

/-- Request 0 writes the old page, and request 2 is served it. -/
def straddledRequest : System ℕ := straddledInvalidation.after (server sampleSettings)
  (undisturbed (.request 0) 2 ++ undisturbed (.request 2) 2)

theorem reachable_straddledEdit : Reachable sampleSettings invalidated straddledEdit :=
  reachable_sampleRun (by rfl)

theorem not_cache_coherent : ¬ ∀ (calls : ℕ → Call) (i j : ℕ) (slug : String) (page : Page)
    (a b c : System ℕ), ServiceCalls sampleSettings calls → Clearable slug →
      Reachable sampleSettings calls a →
      ServedAfter (Run (server sampleSettings)) sampleSettings calls i j slug page a b c →
      (a.world.cms (.property slug)).version ≤ page.version := by
  intro hclaim
  have hle := hclaim invalidated 2 1 "sea-view" (samplePage 0) straddledEdit straddledInvalidation
    straddledRequest serviceCalls_invalidated clearable_seaView
    reachable_straddledEdit
    ⟨rfl, fun h => h, Config.run_after (by rfl), rfl, rfl, rfl, Config.run_after (by rfl), rfl⟩
  have hversion : (straddledEdit.world.cms (.property "sea-view")).version = 1 := rfl
  rw [hversion] at hle
  exact absurd hle (by decide)

end Samples

end PropertyPlatform.Cache
