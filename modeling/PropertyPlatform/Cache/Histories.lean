import PropertyPlatform.Async.History
import PropertyPlatform.Cache.Services

/-!
# The histories of a request and of a refresh

Whatever Redis and the CMS reply, the events of a task follow one of a few patterns. Each
pattern comes with the outcome it leads to, `none` while the task is running.
-/

namespace PropertyPlatform.Cache

open Js Async Program

/-- Operations that cannot fail are answered. -/
def answers : Protocol signature := fun _ q r => q.mayReject = false → ∃ a, r = .ok a

/-- What the fetcher makes of a response. -/
def accepts : CmsQuery → Page → Bool
  | .properties _ _, _ => true
  | .property _, page => match page.body with
    | .null => false
    | _ => true

/-- A fetch and the write that follows it. -/
inductive FetchRun (key : String) (q : CmsQuery) : History → Option (Except Err Page) → Prop where
  | idle : FetchRun key q [] none
  | sent : FetchRun key q [⟨.query q, .ok ()⟩] none
  | failed (e err : Err) :
      FetchRun key q [⟨.query q, .ok ()⟩, ⟨.response q, .error e⟩] (some (.error err))
  | refused (page : Page) (err : Err) (hpage : accepts q page = false) :
      FetchRun key q [⟨.query q, .ok ()⟩, ⟨.response q, .ok page⟩] (some (.error err))
  | fetched (page : Page) (hpage : accepts q page = true) :
      FetchRun key q [⟨.query q, .ok ()⟩, ⟨.response q, .ok page⟩] none
  | stamped (page : Page) (hpage : accepts q page = true) (s : ℕ) :
      FetchRun key q [⟨.query q, .ok ()⟩, ⟨.response q, .ok page⟩, ⟨.dateNow, .ok s⟩] none
  | written (page : Page) (hpage : accepts q page = true) (s : ℕ) :
      FetchRun key q [⟨.query q, .ok ()⟩, ⟨.response q, .ok page⟩, ⟨.dateNow, .ok s⟩,
        ⟨.set key ⟨page, s⟩ cacheExpirySeconds, .ok ()⟩] (some (.ok page))
  | unwritten (page : Page) (hpage : accepts q page = true) (s : ℕ) (e : Err) :
      FetchRun key q [⟨.query q, .ok ()⟩, ⟨.response q, .ok page⟩, ⟨.dateNow, .ok s⟩,
        ⟨.set key ⟨page, s⟩ cacheExpirySeconds, .error e⟩] (some (.error e))

/-- A request: what it read, and what it did about it. -/
inductive RequestRun (key : String) (ttl stale : Seconds) (q : CmsQuery) :
    History → Option (Except Err Page) → Prop where
  | start : RequestRun key ttl stale q [] none
  | unread (e : Err) : RequestRun key ttl stale q [⟨.get key, .error e⟩] (some (.error e))
  | missing {h : History} {o : Option (Except Err Page)} (hfetch : FetchRun key q h o) :
      RequestRun key ttl stale q (⟨.get key, .ok none⟩ :: h) o
  | read (envelope : CacheEnvelope) :
      RequestRun key ttl stale q [⟨.get key, .ok (some envelope)⟩] none
  | fresh (envelope : CacheEnvelope) (n : ℕ)
      (hfresh : ttl.exceeds ((n : ℤ) - envelope.cachedAt) = true) :
      RequestRun key ttl stale q [⟨.get key, .ok (some envelope)⟩, ⟨.dateNow, .ok n⟩]
        (some (.ok envelope.data))
  | aged (envelope : CacheEnvelope) (n : ℕ)
      (haged : ttl.exceeds ((n : ℤ) - envelope.cachedAt) = false)
      (husable : (ttl.add stale).exceeds ((n : ℤ) - envelope.cachedAt) = true) :
      RequestRun key ttl stale q [⟨.get key, .ok (some envelope)⟩, ⟨.dateNow, .ok n⟩] none
  | stale (envelope : CacheEnvelope) (n : ℕ)
      (haged : ttl.exceeds ((n : ℤ) - envelope.cachedAt) = false)
      (husable : (ttl.add stale).exceeds ((n : ℤ) - envelope.cachedAt) = true) :
      RequestRun key ttl stale q
        [⟨.get key, .ok (some envelope)⟩, ⟨.dateNow, .ok n⟩, ⟨.detach, .ok ()⟩]
        (some (.ok envelope.data))
  | expired (envelope : CacheEnvelope) (n : ℕ)
      (haged : ttl.exceeds ((n : ℤ) - envelope.cachedAt) = false)
      (hexpired : (ttl.add stale).exceeds ((n : ℤ) - envelope.cachedAt) = false)
      {h : History} {o : Option (Except Err Page)} (hfetch : FetchRun key q h o) :
      RequestRun key ttl stale q
        (⟨.get key, .ok (some envelope)⟩ :: ⟨.dateNow, .ok n⟩ :: h) o

/-- A refresh waits until it is detached. Its failure is only logged. -/
inductive RefreshRun (key : String) (q : CmsQuery) : History → Prop where
  | waiting : RefreshRun key q []
  | started {h : History} {o : Option (Except Err Page)} (hfetch : FetchRun key q h o) :
      RefreshRun key q (⟨.detached, .ok ()⟩ :: h)

theorem append_two (h : History) (a b : Event) : h ++ [a] ++ [b] = h ++ [a, b] :=
  List.append_assoc h [a] [b]

section Fetch

variable {key : String} {q : CmsQuery}

/-- The events of the fetch follow those before it. -/
def fetching (key : String) (q : CmsQuery) (before : History) (h : History) : Prop :=
  ∃ part o, h = before ++ part ∧ FetchRun key q part o

def fetchEnds (key : String) (q : CmsQuery) (before : History) (o : Except Err Page)
    (h : History) : Prop :=
  ∃ part, h = before ++ part ∧ FetchRun key q part (some o)

/-- How the fetcher leaves the history it began in. -/
def fetcherEnds (q : CmsQuery) (before : History) (o : Except Err Page) (h : History) : Prop :=
  match o with
  | .ok page => accepts q page = true ∧
      h = before ++ [⟨.query q, .ok ()⟩, ⟨.response q, .ok page⟩]
  | .error _ => (∃ e, h = before ++ [⟨.query q, .ok ()⟩, ⟨.response q, .error e⟩]) ∨
      ∃ page, accepts q page = false ∧
        h = before ++ [⟨.query q, .ok ()⟩, ⟨.response q, .ok page⟩]

theorem answers_ok {h : History} {q : Operation} {r : Except Err q.Reply}
    (hr : answers h q r) (hq : q.mayReject = false) : ∃ a, r = .ok a := hr hq

theorem fetcher_ensures (key : String) (q : CmsQuery) (before : History) :
    (fetcher q).Ensures answers (fetching key q before) (fetcherEnds q before) before := by
  have hsent : fetching key q before (before ++ [⟨.query q, .ok ()⟩]) := ⟨_, _, rfl, .sent⟩
  cases q with
  | properties first after =>
    simp only [fetcher, bind_eq, ensures_catching, ensures_bind]
    intro r hr
    obtain ⟨⟨⟩, rfl⟩ := answers_ok hr rfl
    refine ⟨hsent, fun r _ => ?_⟩
    cases r with
    | ok page => exact ⟨⟨_, _, append_two _ _ _, .fetched page rfl⟩, rfl, append_two _ _ _⟩
    | error e => exact ⟨⟨_, _, append_two _ _ _, .failed e e⟩, Or.inl ⟨e, append_two _ _ _⟩⟩
  | property slug =>
    simp only [fetcher, bind_eq, ensures_catching, ensures_bind]
    intro r hr
    obtain ⟨⟨⟩, rfl⟩ := answers_ok hr rfl
    refine ⟨hsent, fun r _ => ?_⟩
    cases r with
    | error e =>
      refine ⟨⟨_, _, append_two _ _ _, .failed e e⟩, ?_⟩
      cases e <;> exact Or.inl ⟨_, append_two _ _ _⟩
    | ok page =>
      obtain ⟨version, body⟩ := page
      cases body with
      | null =>
        refine ⟨⟨_, _, append_two _ _ _, .refused _ (cmsUpstreamError "") rfl⟩, ?_⟩
        exact Or.inr ⟨_, rfl, append_two _ _ _⟩
      | _ => exact ⟨⟨_, _, append_two _ _ _, .fetched _ rfl⟩, rfl, append_two _ _ _⟩

theorem writeCache_ensures {page : Page} (hpage : accepts q page = true) (before : History) :
    (writeCache key page).Ensures answers (fetching key q before)
      (fun o h => fetchEnds key q before (o.map fun _ => page) h)
      (before ++ [⟨.query q, .ok ()⟩, ⟨.response q, .ok page⟩]) := by
  simp only [writeCache, bind_eq, ensures_bind]
  intro r hr
  obtain ⟨s, rfl⟩ := answers_ok hr rfl
  refine ⟨⟨_, _, List.append_assoc _ _ _, .stamped page hpage s⟩, fun r _ => ?_⟩
  rw [append_two, List.append_assoc]
  cases r with
  | ok _ => exact ⟨⟨_, _, rfl, .written page hpage s⟩, _, rfl, .written page hpage s⟩
  | error e => exact ⟨⟨_, _, rfl, .unwritten page hpage s e⟩, _, rfl, .unwritten page hpage s e⟩

theorem fetchEnds_of_error (key : String) {before h : History} {e : Err}
    (hends : fetcherEnds q before (.error e) h) : fetchEnds key q before (.error e) h := by
  rcases hends with ⟨e', rfl⟩ | ⟨page, hpage, rfl⟩
  · exact ⟨_, rfl, .failed e' e⟩
  · exact ⟨_, rfl, .refused page e hpage⟩

theorem fetchAndWrite_ensures (key : String) (q : CmsQuery) (before : History) :
    (fetchAndWrite key (fetcher q)).Ensures answers (fetching key q before)
      (fetchEnds key q before) before := by
  rw [fetchAndWrite, bind_eq, ensures_bind]
  refine (fetcher_ensures key q before).mono fun o h hends => ?_
  cases o with
  | error e => exact fetchEnds_of_error key hends
  | ok page =>
    obtain ⟨hpage, rfl⟩ := hends
    rw [andThen_ok, bind_eq, ensures_bind]
    refine (writeCache_ensures hpage before).mono fun o h hends => ?_
    cases o <;> exact hends

theorem refreshInBackground_ensures (key : String) (q : CmsQuery) (before : History) :
    (refreshInBackground key (fetcher q)).Ensures answers (fetching key q before)
      (fun _ => fetching key q before) before := by
  rw [refreshInBackground, bind_eq, ensures_bind]
  refine (fetcher_ensures key q before).mono fun o h hends => ?_
  cases o with
  | error e =>
    obtain ⟨part, rfl, hpart⟩ := fetchEnds_of_error key hends
    exact ⟨part, _, rfl, hpart⟩
  | ok page =>
    obtain ⟨hpage, rfl⟩ := hends
    refine (writeCache_ensures hpage before).mono fun o h hends => ?_
    obtain ⟨part, rfl, hpart⟩ := hends
    exact ⟨part, _, rfl, hpart⟩

end Fetch

theorem getOrSetWithSWR_ensures (key : String) (ttl stale : Seconds) (q : CmsQuery) :
    (getOrSetWithSWR key ttl stale (fetcher q)).Ensures answers
      (fun h => ∃ o, RequestRun key ttl stale q h o)
      (fun o h => RequestRun key ttl stale q h (some o)) [] := by
  simp only [getOrSetWithSWR, bind_eq, ensures_bind]
  intro r _
  match r with
  | .error e => exact ⟨⟨_, .unread e⟩, .unread e⟩
  | .ok none =>
    refine ⟨⟨_, .missing .idle⟩, ?_⟩
    refine ((fetchAndWrite_ensures key q [⟨.get key, .ok none⟩]).weaken (fun _ _ _ h => h) ?_).mono
      ?_
    · rintro h ⟨part, o, rfl, hpart⟩
      exact ⟨o, .missing hpart⟩
    · rintro o h ⟨part, rfl, hpart⟩
      exact .missing hpart
  | .ok (some envelope) =>
    refine ⟨⟨_, .read envelope⟩, fun r hr => ?_⟩
    obtain ⟨n, rfl⟩ := answers_ok hr rfl
    simp only [Program.bind, List.nil_append, List.cons_append]
    split_ifs with hfresh husable
    · exact ⟨⟨_, .fresh envelope n hfresh⟩, .fresh envelope n hfresh⟩
    · have haged : ttl.exceeds ((n : ℤ) - envelope.cachedAt) = false := by simpa using hfresh
      refine ⟨⟨_, .aged envelope n haged husable⟩, fun r hr => ?_⟩
      obtain ⟨⟨⟩, rfl⟩ := answers_ok hr rfl
      exact ⟨⟨_, .stale envelope n haged husable⟩, .stale envelope n haged husable⟩
    · have haged : ttl.exceeds ((n : ℤ) - envelope.cachedAt) = false := by simpa using hfresh
      have hexpired : (ttl.add stale).exceeds ((n : ℤ) - envelope.cachedAt) = false := by
        simpa using husable
      refine ⟨⟨_, .expired envelope n haged hexpired .idle⟩, ?_⟩
      refine ((fetchAndWrite_ensures key q
        [⟨.get key, .ok (some envelope)⟩, ⟨.dateNow, .ok n⟩]).weaken (fun _ _ _ h => h) ?_).mono ?_
      · rintro h ⟨part, o, rfl, hpart⟩
        exact ⟨o, .expired envelope n haged hexpired hpart⟩
      · rintro o h ⟨part, rfl, hpart⟩
        exact .expired envelope n haged hexpired hpart

theorem request_ensures (E : Settings) (key : String) (ttl stale : Seconds) (q : CmsQuery) :
    ((Call.getOrSetWithSWR key ttl stale q).program E).Ensures answers
      (fun h => ∃ o, RequestRun key ttl stale q h o)
      (fun o h => RequestRun key ttl stale q h
        (some (match o with
          | .ok page => .ok (page.getD ⟨0, .null⟩)
          | .error e => .error e))) [] := by
  rw [Call.program, ensures_bind]
  refine (getOrSetWithSWR_ensures key ttl stale q).mono fun o h hends => ?_
  cases o <;> exact hends

theorem refresh_ensures (key : String) (ttl stale : Seconds) (q : CmsQuery) :
    (Call.getOrSetWithSWR key ttl stale q).refresh.Ensures answers (RefreshRun key q)
      (fun _ => RefreshRun key q) [] := by
  simp only [Call.refresh, bind_eq, ensures_bind]
  intro r hr
  obtain ⟨⟨⟩, rfl⟩ := answers_ok hr rfl
  refine ⟨.started .idle, ?_⟩
  rw [ensures_pure, andThen_ok, ensures_catching]
  refine ((refreshInBackground_ensures key q [⟨.detached, .ok ()⟩]).weaken (fun _ _ _ h => h)
    ?_).mono ?_
  · rintro h ⟨part, o, rfl, hpart⟩
    exact .started hpart
  · rintro o h ⟨part, o', rfl, hpart⟩
    cases o <;> exact .started hpart

end PropertyPlatform.Cache
