import PropertyPlatform.Express.Routing
import PropertyPlatform.Operations

/-!
# How often one request is counted

The general limiter is mounted once for all of `/api` and again on the two property routes.
The checks before it can stop a request that is then not counted at all.
-/

namespace PropertyPlatform

open Js Express

/-- The settings read from the environment. -/
structure AppSettings where
  corsAllowedOrigins : String
  rateLimitMax : ℕ
  enquiryRateLimitMax : ℕ

def AppSettings.max (S : AppSettings) : Limiter → ℕ
  | .general => S.rateLimitMax
  | .enquiry => S.enquiryRateLimitMax
  | .webhook => 30

inductive Middleware where
  | requestId
  | requestTimer
  | securityHeaders
  | cors
  | compression
  | expressJson
  | parameterPollutionGuard
  | sanitizeBody
  | rateLimiter (limiter : Limiter)
  | idempotencyMiddleware
  | validateCreateEnquiry
  | validateEnquiryIdParam
  | validateListEnquiriesQuery
  | validateCrmWebhook
  | health
  | healthReady
  | metrics
  | createEnquiryHandler
  | getEnquiryHandler
  | listEnquiriesHandler
  | crmWebhookHandler
  | listPropertiesHandler
  | getPropertyBySlugHandler
  | invalidatePropertyCacheHandler
  | notFoundHandler
  deriving DecidableEq

/-- A request of one client, and what the handlers of the routes make of it. -/
structure HttpRequest where
  method : Method
  path : String
  origin : Option String
  /-- `express.json` takes the body. -/
  bodyParses : Bool
  /-- The recursion over the body ends before the call stack is used up. -/
  sanitizes : Bool
  /-- The limiters whose window has ended since the request before. -/
  expired : Limiter → Bool
  outcome : Middleware → Flow

/-- The hits of the client in the current window. -/
abbrev Counters := Limiter → ℕ

section Routes

def healthRoutes : List (Layer Middleware) :=
  [.route .get [.literal "health"] [.health],
    .route .get [.literal "health", .literal "ready"] [.healthReady],
    .route .get [.literal "metrics"] [.metrics]]

def enquiryRoutes : List (Layer Middleware) :=
  [.route .post [.literal "enquiry"]
      [.rateLimiter .enquiry, .idempotencyMiddleware, .validateCreateEnquiry,
        .createEnquiryHandler],
    .route .get [.literal "enquiry", .param] [.validateEnquiryIdParam, .getEnquiryHandler],
    .route .get [.literal "enquiries"] [.validateListEnquiriesQuery, .listEnquiriesHandler]]

def webhookRoutes : List (Layer Middleware) :=
  [.route .post [.literal "webhook", .literal "crm"]
    [.rateLimiter .webhook, .validateCrmWebhook, .crmWebhookHandler]]

def propertyRoutes : List (Layer Middleware) :=
  [.route .get [.literal "properties"] [.rateLimiter .general, .listPropertiesHandler],
    .route .get [.literal "properties", .param]
      [.rateLimiter .general, .getPropertyBySlugHandler],
    .route .post [.literal "properties", .literal "cache", .literal "invalidate"]
      [.invalidatePropertyCacheHandler]]

/-- The middleware every request passes first. -/
def frontMiddleware : List Middleware :=
  [.requestId, .requestTimer, .securityHeaders, .cors, .compression, .expressJson,
    .parameterPollutionGuard, .sanitizeBody]

def apiMount : List Char := "/api".toList

/-- What follows the general limiter. -/
def apiRouters : List (Layer Middleware) :=
  [.router apiMount enquiryRoutes, .router apiMount webhookRoutes,
    .router apiMount propertyRoutes, .use [] [.notFoundHandler]]

/-- The layers of `createApp`. -/
def app : List (Layer Middleware) :=
  frontMiddleware.map (fun m => .use [] [m]) ++
    .router [] healthRoutes :: .use apiMount [.rateLimiter .general] :: apiRouters

end Routes

section Handlers

/-- `corsOriginValidator`. -/
def AppSettings.allowsOrigin (S : AppSettings) : Option String → Bool
  | none => true
  | some origin => origin = "" ||
      (((S.corsAllowedOrigins.splitOn ",").map trim).filter (· ≠ "")).contains origin

/-- A limiter counts the request, then compares. -/
def limit (max : ℕ) (l : Limiter) (c : Counters) : Counters × Flow :=
  (Function.update c l (c l + 1), if max < c l + 1 then .fails else .next)

/-- What each handler does with a request. -/
def AppSettings.behave (S : AppSettings) (req : HttpRequest) :
    Middleware → Counters → Counters × Flow
  | .cors, c =>
    (c, if S.allowsOrigin req.origin = false then .fails
      else if req.method = .options then .ends else .next)
  | .expressJson, c => (c, if req.bodyParses then .next else .fails)
  | .sanitizeBody, c => (c, if req.sanitizes then .next else .fails)
  | .rateLimiter l, c => limit (S.max l) l c
  | .notFoundHandler, c => (c, .fails)
  | .requestId, c | .requestTimer, c | .securityHeaders, c => (c, .next)
  | .compression, c | .parameterPollutionGuard, c => (c, .next)
  | m, c => (c, req.outcome m)

def Counters.expire (c : Counters) (gone : Limiter → Bool) : Counters :=
  fun l => if gone l then 0 else c l

def AppSettings.serve (S : AppSettings) (req : HttpRequest) (c : Counters) :
    Run Counters Middleware :=
  runLayers (S.behave req) req.method req.path.toList app (c.expire req.expired)

/-- The counters after a sequence of requests. -/
def AppSettings.serveAll (S : AppSettings) (reqs : List HttpRequest) (c : Counters) : Counters :=
  reqs.foldl (fun c req => (S.serve req c).state) c

end Handlers

section Conditions

def HttpRequest.apiPath (req : HttpRequest) : Option (List Char) :=
  mounted apiMount req.path.toList

def AppSettings.PassesFront (S : AppSettings) (req : HttpRequest) : Prop :=
  S.allowsOrigin req.origin = true ∧ req.method ≠ .options ∧ req.bodyParses = true ∧
    req.sanitizes = true

/-- One of the two routes that mount the general limiter again takes the request. -/
def HttpRequest.ListsProperties (req : HttpRequest) : Prop :=
  handles .get req.method = true ∧ ∃ rest ∈ req.apiPath,
    matchPath [.literal "properties"] rest = .yes ∨
      matchPath [.literal "properties", .param] rest = .yes

/-- The general limiter counts the request once and rejects it if it is over the limit. -/
def AppSettings.CountsOnce (S : AppSettings) (req : HttpRequest) (c : Counters) : Prop :=
  (S.serve req c).state .general = c .general + 1 ∧
    ((.rateLimiter .general, .fails) ∈ (S.serve req c).ran ↔ S.rateLimitMax ≤ c .general)

end Conditions

section Counting

variable {S : AppSettings} {req : HttpRequest} {c : Counters}

theorem behave_general {m : Middleware} (hm : m ≠ .rateLimiter .general) :
    (S.behave req m c).1 .general = c .general := by
  cases m with
  | rateLimiter l =>
    have hl : Limiter.general ≠ l := fun h => hm (h ▸ rfl)
    exact Function.update_of_ne hl _ _
  | _ => rfl

theorem general_le_behave (m : Middleware) : c .general ≤ (S.behave req m c).1 .general := by
  by_cases hm : m = .rateLimiter .general
  · subst hm
    simp [AppSettings.behave, limit]
  · exact (behave_general hm).ge

theorem behave_frontMiddleware {m : Middleware} (hm : m ∈ frontMiddleware) :
    (S.behave req m c).1 = c := by
  simp only [frontMiddleware, List.mem_cons, List.not_mem_nil, or_false] at hm
  rcases hm with rfl | rfl | rfl | rfl | rfl | rfl | rfl | rfl <;> rfl

variable (S req c) in
theorem frontMiddleware_within :
    Within (· = c) frontMiddleware (runHandlers (S.behave req) frontMiddleware c) := by
  have hkeep : ∀ m ∈ frontMiddleware, ∀ s, s = c → (S.behave req m s).1 = c := by
    rintro m hm s rfl
    exact behave_frontMiddleware hm
  exact within_runHandlers hkeep rfl

variable (S req c) in
theorem frontMiddleware_flow :
    (runHandlers (S.behave req) frontMiddleware c).flow = .next ↔ S.PassesFront req := by
  unfold AppSettings.PassesFront
  cases ho : S.allowsOrigin req.origin <;> cases hb : req.bodyParses <;>
    cases hs : req.sanitizes <;> by_cases hm : req.method = .options <;>
    simp [frontMiddleware, runHandlers, Run.andThen, AppSettings.behave, passOn, ho, hb, hs, hm]

end Counting

section Paths

variable {path rest : List Char}

theorem matchPath_of_api (h : mounted apiMount path = some rest) (text : String)
    (hne : (lower text.toList).head? ≠ some 'a') (pattern : List Segment) :
    matchPath (.literal text :: pattern) path = .no := by
  have htake : lower (path.take 4) = ['/', 'a', 'p', 'i'] := by
    have hmount : apiMount = ['/', 'a', 'p', 'i'] := by decide +kernel
    have hlower := lower_of_mounted h
    rw [hmount] at hlower
    exact hlower
  by_contra hmatch
  obtain ⟨p, rfl, -⟩ := exists_of_matchPath hmatch
  cases p with
  | nil => exact absurd (congrArg List.length htake) (by decide)
  | cons c cs =>
    have hc : c.toLower = 'a' := by
      simp only [lower, List.take_succ_cons, List.map_cons, List.cons.injEq] at htake
      exact htake.2.1
    have hslash : c ≠ '/' := by
      rintro rfl
      exact absurd hc (by decide)
    rw [← hc] at hne
    exact hmatch (matchPath_of_head hslash hne pattern cs)

theorem healthRoutes_passOn {behave : Middleware → Counters → Counters × Flow} {method : Method}
    (h : mounted apiMount path = some rest) (c : Counters) :
    runLayer behave method path (.router [] healthRoutes) c = passOn c := by
  have hhealth := matchPath_of_api h "health" (by decide +kernel)
  have hmetrics := matchPath_of_api h "metrics" (by decide +kernel)
  simp only [runLayer, mounted, ↓reduceIte, healthRoutes, runLayers, hhealth, hmetrics,
    passOn_andThen]

end Paths

section Steps

variable {S : AppSettings} {req : HttpRequest} {c : Counters} {rest : List Char}

theorem limiter_notMem_frontMiddleware : .rateLimiter .general ∉ frontMiddleware := by decide

/-- An API request that is stopped before the limiter is not counted. -/
theorem serve_of_stopped (hstop : ¬ S.PassesFront req) :
    (S.serve req c).state = c.expire req.expired := by
  have hfront := frontMiddleware_within S req (c.expire req.expired)
  rw [AppSettings.serve, app, runLayers_append, runLayers_uses, Run.andThen]
  split
  · exact absurd ((frontMiddleware_flow S req _).mp ‹_›) hstop
  · exact hfront.kept

/-- What the front passes on is first counted. -/
theorem serve_of_passes (hapi : req.apiPath = some rest) (hfront : S.PassesFront req) :
    ∃ ran, (.rateLimiter .general, .fails) ∉ ran ∧
      S.serve req c = Run.andThen ⟨c.expire req.expired, ran, .next⟩ fun c =>
        (runLayer (S.behave req) req.method req.path.toList
          (.use apiMount [.rateLimiter .general]) c).andThen
            (runLayers (S.behave req) req.method req.path.toList apiRouters) := by
  have hwithin := frontMiddleware_within S req (c.expire req.expired)
  have hflow := frontMiddleware_flow S req (c.expire req.expired)
  generalize hr : runHandlers (S.behave req) frontMiddleware (c.expire req.expired) = r
    at hwithin hflow
  obtain ⟨s, ran, flow⟩ := r
  obtain rfl : s = c.expire req.expired := hwithin.kept
  obtain rfl : flow = .next := hflow.mpr hfront
  refine ⟨ran, fun hmem => limiter_notMem_frontMiddleware (hwithin.ran _ hmem), ?_⟩
  rw [AppSettings.serve, app, runLayers_append, runLayers_uses, hr]
  congr 1
  funext c'
  rw [runLayers, healthRoutes_passOn hapi, passOn_andThen]
  rfl

section Routers

variable (S req) in
/-- The layers of the application that lie below `path`, run for the request. -/
abbrev runs (path : List Char) (ls : List (Layer Middleware)) (c : Counters) :
    Run Counters Middleware := runLayers (S.behave req) req.method path ls c

theorem runLayer_apiMount (hapi : req.apiPath = some rest) (layers : List (Layer Middleware)) :
    runLayer (S.behave req) req.method req.path.toList (.router apiMount layers) c =
      runs S req rest layers c := by
  rw [runLayer, show mounted apiMount req.path.toList = some rest from hapi]

/-- The general limiter has counted `n` requests. -/
def Counters.Counted (n : ℕ) (c : Counters) : Prop := c .general = n

/-- The general limiter has counted at least `n` requests. -/
def Counters.AtLeast (n : ℕ) (c : Counters) : Prop := n ≤ c .general

theorem counted_behave {n : ℕ} {hs : List Middleware} (hlim : .rateLimiter .general ∉ hs) :
    ∀ m ∈ hs, ∀ s, Counters.Counted n s → Counters.Counted n (S.behave req m s).1 := by
  intro m hm s hs
  have hne : m ≠ .rateLimiter .general := fun h => hlim (h ▸ hm)
  exact (behave_general hne).trans hs

theorem atLeast_behave {n : ℕ} (m : Middleware) (s : Counters) (hs : s.AtLeast n) :
    Counters.AtLeast n (S.behave req m s).1 := hs.trans (general_le_behave m)

theorem propertyRoutes_once (hapi : req.apiPath = some rest) (hlist : ¬ req.ListsProperties)
    {n : ℕ} (hc : c.Counted n) :
    Within (Counters.Counted n) [.invalidatePropertyCacheHandler]
      (runs S req rest propertyRoutes c) := by
  have hget : ∀ pattern ∈ [[.literal "properties"], [.literal "properties", .param]],
      matchPath pattern rest = .yes → handles .get req.method = false := by
    intro pattern hp hyes
    by_contra hget
    simp only [List.mem_cons, List.not_mem_nil, or_false] at hp
    apply hlist
    refine ⟨by simpa using hget, rest, hapi, ?_⟩
    rcases hp with rfl | rfl
    · exact .inl hyes
    · exact .inr hyes
  have hfirst := within_unhandled (S.behave req)
    [.rateLimiter .general, .listPropertiesHandler] (hget _ List.mem_cons_self) hc
  apply hfirst.andThen
  intro s hs
  have hsecond := within_unhandled (S.behave req)
    [.rateLimiter .general, .getPropertyBySlugHandler]
    (hget _ (List.mem_cons_of_mem _ List.mem_cons_self)) hs
  apply hsecond.andThen
  intro s hs
  exact within_runLayers _ propertyRoutes.tail.tail (counted_behave (by decide)) s hs

/-- What can run below the limiter if no property route does. -/
def uncounted : List Middleware :=
  layersHandlers enquiryRoutes ++ (layersHandlers webhookRoutes ++
    ([.invalidatePropertyCacheHandler] ++ layersHandlers [.use [] [.notFoundHandler]]))

/-- Without the two property routes nothing below the limiter counts the request again. -/
theorem apiRouters_once (hapi : req.apiPath = some rest) (hlist : ¬ req.ListsProperties)
    {n : ℕ} (hc : c.Counted n) :
    Within (Counters.Counted n) uncounted (runs S req req.path.toList apiRouters c) := by
  rw [runs, apiRouters, runLayers, runLayer_apiMount hapi]
  apply (within_runLayers _ enquiryRoutes (counted_behave (by decide)) c hc).andThen
  intro s hs
  rw [runLayers, runLayer_apiMount hapi]
  apply (within_runLayers _ webhookRoutes (counted_behave (by decide)) s hs).andThen
  intro s hs
  rw [runLayers, runLayer_apiMount hapi]
  apply (propertyRoutes_once hapi hlist hs).andThen
  intro s hs
  exact within_runLayers _ [.use [] [.notFoundHandler]] (counted_behave (by decide)) s hs

theorem limiter_again (hs : List Middleware) {n : ℕ} (hc : c.AtLeast n) :
    (runHandlers (S.behave req) (.rateLimiter .general :: hs) c).state.AtLeast (n + 1) := by
  rw [runHandlers]
  apply Run.andThen_kept
  · simpa [Counters.AtLeast, AppSettings.behave, limit] using hc
  · exact fun s h => kept_runHandlers atLeast_behave hs h

/-- A property route counts the request again. -/
theorem propertyRoutes_again (hget : handles .get req.method = true)
    (hmatch : matchPath [.literal "properties"] rest = .yes ∨
      matchPath [.literal "properties", .param] rest = .yes) {n : ℕ} (hc : c.AtLeast n) :
    (runs S req rest propertyRoutes c).state.AtLeast (n + 1) := by
  rw [runs, propertyRoutes, runLayers, runLayer]
  cases hfirst : matchPath [.literal "properties"] rest with
  | yes =>
    simp only [hget, ↓reduceIte]
    apply Run.andThen_kept (limiter_again _ hc)
    exact fun s h => kept_runLayers atLeast_behave _ h
  | no =>
    have hsecond := hmatch.resolve_left (by simp [hfirst])
    simp only [passOn_andThen, runLayers, runLayer, hsecond, hget, ↓reduceIte]
    apply Run.andThen_kept (limiter_again _ hc)
    exact fun s h => kept_runLayers atLeast_behave propertyRoutes.tail.tail h
  | malformed => exact absurd hfirst (matchPath_literal _ _)

theorem apiRouters_again (hlist : req.ListsProperties) {n : ℕ} (hc : c.AtLeast n) :
    (runs S req req.path.toList apiRouters c).state.AtLeast (n + 1) := by
  obtain ⟨hget, rest, hapi, hmatch⟩ := hlist
  have hother : ∀ (text : String) pattern, lower "properties".toList ≠ lower text.toList →
      matchPath (.literal text :: pattern) rest = .no := by
    intro text pattern hne
    rcases hmatch with h | h <;> exact matchPath_of_other (h.trans_ne (by decide)) hne
  have henquiry : runs S req rest enquiryRoutes c = passOn c := by
    rw [runs, enquiryRoutes]
    simp only [runLayers, runLayer, hother "enquiry" _ (by decide +kernel),
      hother "enquiries" _ (by decide +kernel), passOn_andThen]
  have hwebhook : runs S req rest webhookRoutes c = passOn c := by
    rw [runs, webhookRoutes]
    simp only [runLayers, runLayer, hother "webhook" _ (by decide +kernel), passOn_andThen]
  rw [runs, apiRouters, runLayers, runLayer_apiMount hapi, henquiry, passOn_andThen]
  rw [runLayers, runLayer_apiMount hapi, hwebhook, passOn_andThen]
  rw [runLayers, runLayer_apiMount hapi]
  apply Run.andThen_kept (propertyRoutes_again hget hmatch hc)
  exact fun s h => kept_runLayers atLeast_behave [.use [] [.notFoundHandler]] h

end Routers

theorem serve_over (hapi : req.apiPath = some rest) (hfront : S.PassesFront req)
    (hold : req.expired .general = false) (hover : S.rateLimitMax ≤ c .general) :
    S.CountsOnce req c := by
  obtain ⟨ran, -, hserve⟩ := serve_of_passes (c := c) hapi hfront
  have hlt : S.rateLimitMax < c .general + 1 := Nat.lt_succ_of_le hover
  unfold AppSettings.CountsOnce
  rw [hserve]
  simp [Run.andThen, runLayer, show mounted apiMount req.path.toList = some rest from hapi,
    runHandlers, AppSettings.behave, AppSettings.max, limit, Counters.expire, hold, hlt, hover]

theorem serve_under (hapi : req.apiPath = some rest) (hfront : S.PassesFront req)
    (hold : req.expired .general = false) (hunder : c .general < S.rateLimitMax) :
    ∃ c' ran, c'.Counted (c .general + 1) ∧ (.rateLimiter .general, .fails) ∉ ran ∧
      S.serve req c = Run.andThen ⟨c', ran, .next⟩ (runs S req req.path.toList apiRouters) := by
  obtain ⟨ran, hran, hserve⟩ := serve_of_passes (c := c) hapi hfront
  have hle : ¬ S.rateLimitMax < c .general + 1 := Nat.not_lt.mpr hunder
  refine ⟨(limit S.rateLimitMax .general (c.expire req.expired)).1,
    ran ++ [(.rateLimiter .general, .next)], ?_, by simpa using hran, ?_⟩
  · simp [Counters.Counted, limit, Counters.expire, hold]
  · rw [hserve]
    simp [Run.andThen, runLayer, show mounted apiMount req.path.toList = some rest from hapi,
      runHandlers, AppSettings.behave, AppSettings.max, limit, Counters.expire, hold, hle, passOn]

/-- What one API request does to the count. -/
theorem countsOnce_iff (hapi : req.apiPath.isSome) (hold : req.expired .general = false) :
    S.CountsOnce req c ↔
      S.PassesFront req ∧ (c .general < S.rateLimitMax → ¬ req.ListsProperties) := by
  obtain ⟨rest, hapi⟩ := Option.isSome_iff_exists.mp hapi
  by_cases hfront : S.PassesFront req
  case neg =>
    refine iff_of_false (fun h => ?_) fun h => hfront h.1
    have hcount := h.1
    rw [serve_of_stopped hfront] at hcount
    simp [Counters.expire, hold] at hcount
  case pos =>
    rcases Nat.lt_or_ge (c .general) S.rateLimitMax with hunder | hover
    case inr =>
      apply iff_of_true (serve_over hapi hfront hold hover)
      exact ⟨hfront, fun h => absurd h (Nat.not_lt.mpr hover)⟩
    obtain ⟨c', ran, hc', hran, hserve⟩ := serve_under hapi hfront hold hunder
    by_cases hlist : req.ListsProperties
    · refine iff_of_false (fun h => ?_) fun h => h.2 hunder hlist
      have hagain := apiRouters_again (S := S) hlist (n := c .general + 1) hc'.ge
      have hcount := h.1
      rw [hserve] at hcount
      have hstate : Counters.AtLeast (c .general + 2) (Run.andThen ⟨c', ran, .next⟩
        (runs S req req.path.toList apiRouters)).state := hagain
      rw [Counters.AtLeast, hcount] at hstate
      omega
    · refine iff_of_true ⟨?_, ?_⟩ ⟨hfront, fun _ => hlist⟩
      · rw [hserve]
        exact (apiRouters_once hapi hlist hc').kept
      · refine iff_of_false (fun hmem => ?_) (Nat.not_le.mpr hunder)
        rw [hserve] at hmem
        rcases List.mem_append.mp hmem with hmem | hmem
        · exact hran hmem
        · have hrouters := (apiRouters_once hapi hlist hc').ran _ hmem
          exact absurd hrouters (by decide)

end Steps

section Sequences

variable {S : AppSettings} {c : Counters} {reqs : List HttpRequest}

theorem serveAll_take {k : ℕ} {req : HttpRequest} (hk : reqs[k]? = some req) :
    S.serveAll (reqs.take (k + 1)) c = (S.serve req (S.serveAll (reqs.take k) c)).state := by
  rw [AppSettings.serveAll, List.take_add_one, hk]
  simp [AppSettings.serveAll]

/-- If every request adds one hit, the count is the number of requests. -/
theorem general_serveAll (hc : c .general = 0)
    (hstep : ∀ k req, reqs[k]? = some req → S.serveAll (reqs.take k) c .general = k →
      (S.serve req (S.serveAll (reqs.take k) c)).state .general = k + 1) :
    ∀ k ≤ reqs.length, S.serveAll (reqs.take k) c .general = k := by
  intro k
  induction k with
  | zero => intro _; exact hc
  | succ k ih =>
    intro hk
    have hreq := List.getElem?_eq_getElem (l := reqs) (Nat.lt_of_succ_le hk)
    rw [serveAll_take hreq]
    exact hstep k _ hreq (ih (Nat.le_of_succ_le hk))

variable (S) in
/-- The general limiter counts every request of the sequence once, and rejects those after
the first `RATE_LIMIT_MAX`. -/
def EachCountedOnce (c : Counters) (reqs : List HttpRequest) : Prop :=
  ∀ k req, reqs[k]? = some req →
    (S.serve req (S.serveAll (reqs.take k) c)).state .general =
        S.serveAll (reqs.take k) c .general + 1 ∧
      ((.rateLimiter .general, .fails) ∈ (S.serve req (S.serveAll (reqs.take k) c)).ran ↔
        S.rateLimitMax ≤ k)

/-- Each request of one window is counted once exactly if none is stopped before the limiter
and none of the first `RATE_LIMIT_MAX` reads properties. -/
theorem eachCountedOnce_iff (S : AppSettings) (c : Counters) (reqs : List HttpRequest)
    (hc : c .general = 0)
    (hreqs : ∀ req ∈ reqs, req.apiPath.isSome ∧ req.expired .general = false) :
    EachCountedOnce S c reqs ↔ (∀ req ∈ reqs, S.PassesFront req) ∧
      ∀ k req, reqs[k]? = some req → k < S.rateLimitMax → ¬ req.ListsProperties := by
  constructor
  · intro h
    have hcount := general_serveAll hc fun k req hk hgen => hgen ▸ (h k req hk).1
    have hstep : ∀ k req, reqs[k]? = some req →
        S.PassesFront req ∧ (k < S.rateLimitMax → ¬ req.ListsProperties) := by
      intro k req hk
      obtain ⟨hapi, hold⟩ := hreqs req (List.mem_of_getElem? hk)
      have hgen := hcount k (List.getElem?_eq_some_iff.mp hk).1.le
      have honce : S.CountsOnce req (S.serveAll (reqs.take k) c) := by
        refine ⟨(h k req hk).1, ?_⟩
        rw [hgen]
        exact (h k req hk).2
      have hiff := (countsOnce_iff hapi hold).mp honce
      rwa [hgen] at hiff
    refine ⟨fun req hmem => ?_, fun k req hk => (hstep k req hk).2⟩
    obtain ⟨k, hk⟩ := List.getElem?_of_mem hmem
    exact (hstep k req hk).1
  · rintro ⟨hfront, hlist⟩
    have hstep : ∀ k req, reqs[k]? = some req → S.serveAll (reqs.take k) c .general = k →
        S.CountsOnce req (S.serveAll (reqs.take k) c) := by
      intro k req hk hgen
      have hmem := List.mem_of_getElem? hk
      obtain ⟨hapi, hold⟩ := hreqs req hmem
      apply (countsOnce_iff hapi hold).mpr
      rw [hgen]
      exact ⟨hfront req hmem, hlist k req hk⟩
    have hcount := general_serveAll hc fun k req hk hgen =>
      (hstep k req hk hgen).1.trans (by rw [hgen])
    intro k req hk
    have hlt := (List.getElem?_eq_some_iff.mp hk).1
    have hgen := hcount k hlt.le
    have honce := hstep k req hk hgen
    refine ⟨honce.1, ?_⟩
    rw [honce.2, hgen]

def sampleSettings : AppSettings := ⟨"https://shop.example", 2, 5⟩

def sampleRequest (method : Method) (path : String) : HttpRequest :=
  ⟨method, path, none, true, true, fun _ => false, fun _ => .next⟩

theorem eachCountedOnce_sample :
    EachCountedOnce sampleSettings (fun _ => 0)
      (List.replicate 3 (sampleRequest .post "/api/webhook/crm")) := by
  have hreqs : ∀ req ∈ List.replicate 3 (sampleRequest .post "/api/webhook/crm"),
      req = sampleRequest .post "/api/webhook/crm" := fun req => List.eq_of_mem_replicate
  apply (eachCountedOnce_iff sampleSettings (fun _ => 0) _ rfl ?_).mpr
  · constructor
    · intro req hmem
      rw [hreqs req hmem]
      exact ⟨rfl, by decide, rfl, rfl⟩
    · intro k req hk _ hlist
      rw [hreqs req (List.mem_of_getElem? hk)] at hlist
      exact absurd hlist.1 (by decide)
  · intro req hmem
    rw [hreqs req hmem]
    exact ⟨by decide +kernel, rfl⟩

/-- The second limit of the route already rejects the first request of the window. -/
theorem not_eachCountedOnce :
    ¬ ∀ (S : AppSettings) (c : Counters) (reqs : List HttpRequest), c .general = 0 →
      (∀ req ∈ reqs, req.apiPath.isSome ∧ req.expired .general = false) →
      EachCountedOnce S c reqs := by
  intro h
  have hmem : ∀ req ∈ [sampleRequest .get "/api/properties"],
      req.apiPath.isSome ∧ req.expired .general = false := by
    intro req hreq
    rw [List.mem_singleton.mp hreq]
    exact ⟨by decide +kernel, rfl⟩
  have honce := h ⟨"", 1, 5⟩ (fun _ => 0) _ rfl hmem 0 _ rfl
  have hrejected : (.rateLimiter .general, .fails) ∈ (AppSettings.serve ⟨"", 1, 5⟩
      (sampleRequest .get "/api/properties") fun _ => 0).ran := by decide +kernel
  have hle := honce.2.mp hrejected
  exact absurd hle (by decide)

end Sequences

end PropertyPlatform
