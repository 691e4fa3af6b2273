import PropertyPlatform.Cache.Operations

/-!
# The cache and its two users

`getOrSetWithSWR` leaves a stale entry's refresh to itself: the call goes on, and the
refresh is a program of its own that starts once it is detached.
-/

namespace PropertyPlatform.Cache

open Js Async

/-- The setting `WPGRAPHQL_CACHE_TTL_SECONDS`, and the order in which `SCAN` visits keys: the
call with a cursor returns the keys of that slot. -/
structure Settings where
  ttlSeconds : Seconds
  cursors : ℕ
  slot : String → Fin cursors

def cmsUpstreamError (message : String) : Err := .app ⟨message, 502, "CMS_UPSTREAM_ERROR", none⟩

/-- The two callbacks given to `getOrSetWithSWR`. -/
def fetcher : CmsQuery → Promise Page
  | .properties first after =>
    Program.catching
      (do
        call (.query (.properties first after))
        call (.response (.properties first after)))
      fun _ => .throw (cmsUpstreamError
        "Unable to load property listings right now. Please try again shortly.")
  | .property slug =>
    Program.catching
      (do
        call (.query (.property slug))
        let page ← call (.response (.property slug))
        match page.body with
        | .null => .throw (notFoundError ("Property \"" ++ slug ++ "\" not found in CMS"))
        | _ => return page)
      fun
        | .app e => .throw (.app e)
        | .native _ => .throw (cmsUpstreamError
            "Unable to load property details right now. Please try again shortly.")

/-- The `EX` of every entry. -/
def cacheExpirySeconds : ℕ := 60 * 60 * 6

def writeCache (key : String) (data : Page) : Promise Unit := do
  let cachedAt ← call .dateNow
  call (.set key ⟨data, cachedAt⟩ cacheExpirySeconds)

def refreshInBackground (key : String) (fetcher : Promise Page) : Promise Unit := do
  let fresh ← fetcher
  writeCache key fresh

/-- The synchronous fetch of a miss. -/
def fetchAndWrite (key : String) (fetcher : Promise Page) : Promise Page := do
  let fresh ← fetcher
  writeCache key fresh
  return fresh

def getOrSetWithSWR (key : String) (ttlSeconds staleSeconds : Seconds) (fetcher : Promise Page) :
    Promise Page := do
  match ← call (.get key) with
  | none => fetchAndWrite key fetcher
  | some envelope => do
    let now ← call .dateNow
    let age : ℤ := now - envelope.cachedAt
    if ttlSeconds.exceeds age then return envelope.data
    else if (ttlSeconds.add staleSeconds).exceeds age then do
      call .detach
      return envelope.data
    else fetchAndWrite key fetcher

def invalidateCache (key : String) : Promise Unit := call (.del [key])

/-- `scanStream` read to its end, from the given number of cursors on. -/
def scanStream (pattern : String) : ℕ → Promise (List String)
  | 0 => return []
  | cursor + 1 => do
    let chunk ← call (.scan cursor pattern)
    let keys ← scanStream pattern cursor
    return chunk ++ keys

variable (E : Settings)

def invalidateCacheByPrefix (start : String) : Promise Unit := do
  let keys ← scanStream (start ++ "*") E.cursors
  if keys.isEmpty then return () else call (.del keys)

def staleSeconds : Seconds := .ofNat 600

def fetchPublishedProperties (first : PageSize) (after : Option String) : Promise Page :=
  getOrSetWithSWR (CmsQuery.properties first after).cacheKey E.ttlSeconds staleSeconds
    (fetcher (.properties first after))

def fetchPropertyBySlug (slug : String) : Promise Page :=
  getOrSetWithSWR (CmsQuery.property slug).cacheKey E.ttlSeconds staleSeconds
    (fetcher (.property slug))

def invalidatePropertyCache (slug : Option String) : Promise Unit := do
  let ofSlug : Promise Unit := match slug with
    | none => pure ()
    | some slug =>
      if slug = "" then pure () else invalidateCacheByPrefix E (CmsQuery.property slug).cacheKey
  ofSlug
  invalidateCacheByPrefix E "wpcms:properties:"

/-- The uses of the cache, with any key, durations and query. -/
inductive Call where
  | getOrSetWithSWR (key : String) (ttlSeconds staleSeconds : Seconds) (query : CmsQuery)
  | invalidateCache (key : String)
  | invalidateCacheByPrefix (start : String)
  | invalidatePropertyCache (slug : Option String)

/-- The calls of the two services. -/
def Call.fetch (q : CmsQuery) : Call := .getOrSetWithSWR q.cacheKey E.ttlSeconds staleSeconds q

def Call.program : Call → Promise (Option Page)
  | .getOrSetWithSWR key ttl stale q =>
    (Cache.getOrSetWithSWR key ttl stale (fetcher q)).bind fun page => .pure (some page)
  | .invalidateCache key => (Cache.invalidateCache key).bind fun _ => .pure none
  | .invalidateCacheByPrefix start =>
    (Cache.invalidateCacheByPrefix E start).bind fun _ => .pure none
  | .invalidatePropertyCache slug =>
    (Cache.invalidatePropertyCache E slug).bind fun _ => .pure none

/-- `refreshInBackground(key, fetcher).catch(…)`. -/
def Call.refresh : Call → Promise (Option Page)
  | .getOrSetWithSWR key _ _ q =>
    (do
      call .detached
      Program.catching (refreshInBackground key (fetcher q)) fun _ => .pure ()).bind
        fun _ => .pure none
  | _ => .pure none

theorem program_fetch_properties (first : PageSize) (after : Option String) :
    (Call.fetch E (.properties first after)).program E =
      (fetchPublishedProperties E first after).bind fun page => .pure (some page) := rfl

theorem program_fetch_property (slug : String) :
    (Call.fetch E (.property slug)).program E =
      (fetchPropertyBySlug E slug).bind fun page => .pure (some page) := rfl

end PropertyPlatform.Cache
