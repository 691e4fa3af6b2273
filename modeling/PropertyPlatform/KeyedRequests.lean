import PropertyPlatform.Footprints

/-!
# The path of a request that carries an idempotency key

A keyed request is limited, claims its key, and then either passes on to the handler
or looks up what the claimant left. `KeyedPath` lists every such path by the events
that decide it. Nothing is assumed of the replies, except that what is not awaited
succeeds.
-/

namespace PropertyPlatform

open Js Async Program

/-- What happens to a request before and after the handler proper. -/
def Operation.isFront : Operation → Bool
  | rateLimit _ | next | json _ | setNx _ _ _ | get _ | set _ _ _ => true
  | _ => false

/-- The events of a history that decide how the request is answered. -/
def front (h : History) : History := h.filter fun e => e.request.isFront

@[simp] theorem front_append (h₁ h₂ : History) : front (h₁ ++ h₂) = front h₁ ++ front h₂ :=
  List.filter_append ..

theorem front_of_isFront {e : Event signature} (h : e.request.isFront = true) :
    front [e] = [e] := by
  simp [front, h]

theorem front_of_not {e : Event signature} (h : e.request.isFront = false) : front [e] = [] := by
  simp [front, h]

theorem mem_front {h : History} {e : Event signature} (he : e.request.isFront = true) :
    e ∈ front h ↔ e ∈ h := by
  simp [front, he]

theorem filterMap_front {β : Type} {f : Event signature → Option β}
    (hf : ∀ e, (f e).isSome = true → e.request.isFront = true) (h : History) :
    (front h).filterMap f = h.filterMap f := by
  unfold front
  rw [List.filterMap_filter]
  refine List.filterMap_congr fun e _ => ?_
  cases hfront : e.request.isFront with
  | true => rfl
  | false =>
    cases hvalue : f e with
    | none => rfl
    | some b => rw [hf e (by rw [hvalue]; rfl)] at hfront; cases hfront

/-- What is not awaited succeeds. -/
def Prompt (e : Event signature) : Prop := e.request.isSynchronous = true → ∃ a, e.reply = .ok a

def prompt : Protocol signature := fun _ q r => q.isSynchronous = true → ∃ a, r = .ok a

section Events

def limiting (l : Limiter) (r : Except Err Bool) : Event signature := ⟨.rateLimit l, r⟩

def passing : Event signature := ⟨.next, .ok ()⟩

def sending (response : Response) : Event signature := ⟨.json response, .ok ()⟩

variable (k : String)

def claiming (r : Except Err Bool) : Event signature :=
  ⟨.setNx k .processing idempotencyTtlSeconds, r⟩

def lookingUp (r : Except Err (Option IdempotencyRecord)) : Event signature := ⟨.get k, r⟩

def completing (response : Response) : Event signature :=
  ⟨.set k (.completed response) idempotencyTtlSeconds, .ok ()⟩

end Events

/-- Both limiters let the request pass. -/
def admitted : History := [limiting .general (.ok true), limiting .enquiry (.ok true)]

inductive Fate where
  | underway
  | answered
  | unanswered
  deriving DecidableEq

inductive KeyedPath (k : String) : Fate → History → Prop where
  | arrived : KeyedPath k .underway []
  | waiting : KeyedPath k .underway [limiting .general (.ok true)]
  | refusedFirst (r : Except Err Bool) (hr : r ≠ .ok true) :
      KeyedPath k .underway [limiting .general r]
  | refusedNext (r : Except Err Bool) (hr : r ≠ .ok true) :
      KeyedPath k .underway [limiting .general (.ok true), limiting .enquiry r]
  | limitedFirst (r : Except Err Bool) (hr : r ≠ .ok true) (response : Response) :
      KeyedPath k .answered [limiting .general r, sending response]
  | limitedNext (r : Except Err Bool) (hr : r ≠ .ok true) (response : Response) :
      KeyedPath k .answered
        [limiting .general (.ok true), limiting .enquiry r, sending response]
  | cleared : KeyedPath k .underway admitted
  | claimRejected (e : Err) : KeyedPath k .unanswered (admitted ++ [claiming k (.error e)])
  | claimed : KeyedPath k .underway (admitted ++ [claiming k (.ok true)])
  | passed : KeyedPath k .underway (admitted ++ [claiming k (.ok true), passing])
  | completed (response : Response) :
      KeyedPath k .underway
        (admitted ++ [claiming k (.ok true), passing, completing k response])
  | answered (response : Response) :
      KeyedPath k .answered (admitted ++
        [claiming k (.ok true), passing, completing k response, sending response])
  | taken : KeyedPath k .underway (admitted ++ [claiming k (.ok false)])
  /-- The lookup failed, or found nothing or the `processing` marker. -/
  | stranded (r : Except Err (Option IdempotencyRecord))
      (hr : ∀ response, r ≠ .ok (some (.completed response))) :
      KeyedPath k .unanswered (admitted ++ [claiming k (.ok false), lookingUp k r])
  | found (response : Response) :
      KeyedPath k .underway (admitted ++
        [claiming k (.ok false), lookingUp k (.ok (some (.completed response)))])
  | replayed (response : Response) :
      KeyedPath k .answered (admitted ++
        [claiming k (.ok false), lookingUp k (.ok (some (.completed response))),
          sending response])

section Paths

attribute [local simp] admitted limiting claiming passing completing sending lookingUp

variable {k : String} {fate : Fate} {path : History}

namespace KeyedPath

theorem claim_unique (hpath : KeyedPath k fate path) {r r' : Except Err Bool}
    (hr : claiming k r ∈ path) (hr' : claiming k r' ∈ path) : r = r' := by
  cases hpath <;> simp at hr hr' <;> rw [hr, hr']

theorem claimed_of_passing (hpath : KeyedPath k fate path) (h : passing ∈ path) :
    claiming k (.ok true) ∈ path := by
  cases hpath <;> simp at h ⊢

theorem passing_of_completing (hpath : KeyedPath k fate path) {response : Response}
    (h : completing k response ∈ path) : passing ∈ path := by
  cases hpath <;> simp at h ⊢

theorem taken_of_lookingUp (hpath : KeyedPath k fate path)
    {r : Except Err (Option IdempotencyRecord)} (h : lookingUp k r ∈ path) :
    claiming k (.ok false) ∈ path := by
  cases hpath <;> simp at h ⊢

/-- The claimant sends the response it stores. -/
theorem response_of_completing (hpath : KeyedPath k fate path) {response response' : Response}
    (h : completing k response ∈ path) (hsent : sending response' ∈ path) :
    response' = response := by
  cases hpath <;> simp at h hsent
  rw [h, hsent]

/-- The others send the response they find. -/
theorem response_of_lookingUp (hpath : KeyedPath k fate path)
    {r : Except Err (Option IdempotencyRecord)} {response : Response}
    (h : lookingUp k r ∈ path) (hsent : sending response ∈ path) :
    r = .ok (some (.completed response)) := by
  cases hpath <;> simp at h hsent
  rw [h, hsent]

theorem sent_of_completing (hpath : KeyedPath k fate path) (hfate : fate ≠ .underway)
    {response : Response} (h : completing k response ∈ path) : sending response ∈ path := by
  cases hpath <;> simp at h hfate ⊢
  exact h

end KeyedPath

end Paths

/-- The history is on a path. -/
def OnPath (k : String) (h : History) : Prop := ∃ fate, KeyedPath k fate (front h)

/-- The history is on a path that has come to its end. -/
def Settled (k : String) (o : Except Err Unit) (h : History) : Prop :=
  o = .ok () ∧ ∃ fate, fate ≠ .underway ∧ KeyedPath k fate (front h)

section Programs

variable {k : String} {h : History} {α : Type}

abbrev Follows (k : String) (p : Promise α) (post : Except Err α → History → Prop) (h : History) :
    Prop :=
  p.Ensures prompt (OnPath k) post h

theorem follows_call {q : Operation} {post : Except Err q.Reply → History → Prop}
    (hpath : ∀ r, prompt h q r → OnPath k (h ++ [⟨q, r⟩]) ∧ post r (h ++ [⟨q, r⟩])) :
    Follows k (call q) post h :=
  ensures_perform.mpr hpath

theorem follows_synchronous {q : Operation} {post : Except Err q.Reply → History → Prop}
    (hq : q.isSynchronous = true)
    (hpath : ∀ a, OnPath k (h ++ [⟨q, .ok a⟩]) ∧ post (.ok a) (h ++ [⟨q, .ok a⟩])) :
    Follows k (call q) post h := by
  refine follows_call fun r hr => ?_
  obtain ⟨a, rfl⟩ := hr hq
  exact hpath a

theorem onPath_of_eq {fate : Fate} {path : History} (hpath : KeyedPath k fate path)
    (hfront : front h = path) : OnPath k h :=
  ⟨fate, hfront ▸ hpath⟩

theorem settled_of_eq {fate : Fate} {path : History} (hpath : KeyedPath k fate path)
    (hfate : fate ≠ .underway) (hfront : front h = path) : Settled k (.ok ()) h :=
  ⟨rfl, fate, hfate, hfront ▸ hpath⟩

theorem stranded_of_eq {r : Except Err (Option IdempotencyRecord)}
    (hr : ∀ response, r ≠ .ok (some (.completed response)))
    (hfront : front h = admitted ++ [claiming k (.ok false), lookingUp k r]) :
    OnPath k h ∧ Settled k (.ok ()) h :=
  ⟨onPath_of_eq (.stranded r hr) hfront, settled_of_eq (.stranded r hr) (by decide) hfront⟩

theorem front_call {e : Event signature} {path : History} (hfront : front h = path)
    (he : e.request.isFront = true) : front (h ++ [e]) = path ++ [e] := by
  rw [front_append, hfront, front_of_isFront he]

/-- The last event of an answered path. -/
theorem follows_sendJson {response : Response} {path : History} (hfront : front h = path)
    (hpath : KeyedPath k .answered (path ++ [sending response])) :
    Follows k (sendJson response) (Settled k) h := by
  refine follows_synchronous rfl fun _ => ?_
  have hnext := front_call (e := sending response) hfront rfl
  exact ⟨onPath_of_eq hpath hnext, settled_of_eq hpath (by decide) hnext⟩

/-- Creating an enquiry is invisible at the front. -/
theorem follows_createEnquiry {P : Platform} (input : CreateEnquiryInput P)
    (ctx : CreateEnquiryContext) {path : History} {fate : Fate} (hpath : KeyedPath k fate path)
    (hfront : front h = path) :
    Follows k (createEnquiry P input ctx) (fun _ h => front h = path) h := by
  have hkeep : (createEnquiry P input ctx).Ensures prompt (fun h => front h = path)
      (fun _ h => front h = path) h := by
    refine Uses.ensures (uses_createEnquiry input ctx) (fun h q r hh hq _ => ?_) hfront
    rw [front_append, hh, front_of_not, List.append_nil]
    cases q <;> first | exact hq.elim | rfl
  exact hkeep.weaken (fun _ _ _ hr => hr) fun _ => onPath_of_eq hpath

/-- The claimant stores the response it sends. -/
theorem follows_cachingJson {response : Response}
    (hfront : front h = admitted ++ [claiming k (.ok true), passing]) :
    Follows k (cachingJson k response) (Settled k) h := by
  unfold cachingJson
  refine ensures_bind.mpr (follows_synchronous rfl fun _ => ?_)
  have hnext := front_call (e := completing k response) hfront rfl
  exact ⟨onPath_of_eq (.completed response) hnext,
    follows_sendJson hnext (.answered response)⟩

theorem follows_validatedEnquiry {P : Platform} {req : Request}
    (hfront : front h = admitted ++ [claiming k (.ok true), passing]) :
    Follows k (validatedEnquiry P req (cachingJson k)) (Settled k) h := by
  unfold validatedEnquiry withErrorHandler
  refine ensures_catching.mpr ?_
  cases hvalid : validateEnquiry P req with
  | error e => exact follows_cachingJson hfront
  | ok input =>
    change (createEnquiryHandler P req (cachingJson k) input).Ensures prompt (OnPath k) _ h
    refine ensures_bind.mpr ((follows_createEnquiry input req.context .passed hfront).mono ?_)
    intro o h hfront
    cases o with
    | error e => exact follows_cachingJson hfront
    | ok enquiry =>
      refine (follows_cachingJson hfront).mono fun o h hsettled => ?_
      obtain ⟨rfl, hend⟩ := hsettled
      exact ⟨rfl, hend⟩

theorem follows_rateLimiter {l : Limiter} {post : Except Err Unit → History → Prop}
    (hpath : ∀ r, OnPath k (h ++ [limiting l r]))
    (hok : post (.ok ()) (h ++ [limiting l (.ok true)]))
    (herror : ∀ r e, r ≠ .ok true → post (.error e) (h ++ [limiting l r])) :
    Follows k (rateLimiter l) post h := by
  unfold rateLimiter
  refine ensures_bind.mpr (follows_call fun r _ => ⟨hpath r, ?_⟩)
  cases r with
  | error e => exact herror _ _ (by simp)
  | ok withinLimit =>
    cases withinLimit with
    | true => exact hok
    | false => exact herror _ _ (by simp)

/-- What the middleware leaves for the rest of the chain. -/
def FlowPath (k : String) : Except Err Flow → History → Prop
  | .ok (.next json), h =>
    json = cachingJson k ∧ front h = admitted ++ [claiming k (.ok true), passing]
  | .ok .ended, h => Settled k (.ok ()) h
  | .error _, _ => False

theorem follows_idempotencyMiddleware {req : Request} (hk : req.usesKey k)
    (hfront : front h = admitted) :
    Follows k (ignoringRejection (idempotencyMiddleware req)) (FlowPath k) h := by
  obtain ⟨key, hkey, hne, rfl⟩ := hk
  unfold ignoringRejection idempotencyMiddleware
  rw [hkey]
  simp only [if_neg hne]
  refine ensures_catching.mpr (ensures_bind.mpr (follows_call fun r _ => ?_))
  have hclaim := front_call (e := claiming (redisKey req.path key) r) hfront rfl
  cases r with
  | error e =>
    exact ⟨onPath_of_eq (.claimRejected e) hclaim,
      settled_of_eq (.claimRejected e) (by decide) hclaim⟩
  | ok claimed =>
    cases claimed with
    | true =>
      refine ⟨onPath_of_eq .claimed hclaim, ensures_bind.mpr (follows_synchronous rfl fun _ => ?_)⟩
      have hpass := front_call (e := passing) hclaim rfl
      exact ⟨onPath_of_eq .passed hpass, rfl, hpass⟩
    | false =>
      refine ⟨onPath_of_eq .taken hclaim, ensures_bind.mpr (follows_call fun r _ => ?_)⟩
      have hget := front_call (e := lookingUp (redisKey req.path key) r) hclaim rfl
      cases r with
      | error e => exact stranded_of_eq (by simp) hget
      | ok existing =>
        rcases existing with _ | ⟨_ | response⟩
        · exact stranded_of_eq (by simp) hget
        · exact stranded_of_eq (by simp) hget
        · refine ⟨onPath_of_eq (.found response) hget, ensures_bind.mpr ?_⟩
          refine (follows_sendJson hget (.replayed response)).mono fun o h hsettled => ?_
          obtain ⟨rfl, hend⟩ := hsettled
          exact ⟨rfl, hend⟩

/-- Every request with a key stays on a path, and leaves it only at its end. -/
theorem follows_postEnquiry {P : Platform} {req : Request} (hk : req.usesKey k) :
    Follows k (postEnquiry P req) (Settled k) [] := by
  unfold postEnquiry withErrorHandler
  refine ensures_catching.mpr (ensures_bind.mpr (follows_rateLimiter (fun r => ?_) ?_ ?_))
  · by_cases hr : r = .ok true
    · subst hr
      exact onPath_of_eq .waiting rfl
    · exact onPath_of_eq (.refusedFirst r hr) rfl
  · refine ensures_bind.mpr (follows_rateLimiter (fun r => ?_) ?_ ?_)
    · by_cases hr : r = .ok true
      · subst hr
        exact onPath_of_eq .cleared rfl
      · exact onPath_of_eq (.refusedNext r hr) rfl
    · refine ensures_bind.mpr ((follows_idempotencyMiddleware hk rfl).mono fun o h hflow => ?_)
      cases o with
      | error e => exact hflow.elim
      | ok flow =>
        cases flow with
        | ended => exact hflow
        | next json =>
          obtain ⟨rfl, hfront⟩ := hflow
          refine (follows_validatedEnquiry hfront).mono fun o h hsettled => ?_
          obtain ⟨rfl, hend⟩ := hsettled
          exact ⟨rfl, hend⟩
    · exact fun r e hr => follows_sendJson rfl (.limitedNext r hr _)
  · exact fun r e hr => follows_sendJson rfl (.limitedFirst r hr _)

end Programs

section Answers

/-- The responses a request has been sent. -/
def responses (h : History) : List Response :=
  h.filterMap fun e => match e.request with
    | .json response => some response
    | _ => none

/-- How often the middleware called `next()`. -/
def passes (h : History) : ℕ :=
  (h.filter fun e => match e.request with
    | .next => true
    | _ => false).length

theorem responses_front (h : History) : responses (front h) = responses h := by
  refine filterMap_front (fun e he => ?_) h
  rcases e with ⟨q, r⟩
  cases q <;> first | rfl | cases he

theorem passes_front (h : History) : passes (front h) = passes h := by
  unfold passes front
  rw [List.filter_filter]
  congr 1
  refine List.filter_congr fun e _ => ?_
  rcases e with ⟨q, r⟩
  cases q <;> rfl

theorem mem_responses {h : History} {response : Response} :
    response ∈ responses h ↔ ∃ r, (⟨.json response, r⟩ : Event signature) ∈ h := by
  unfold responses
  rw [List.mem_filterMap]
  constructor
  · rintro ⟨⟨q, r⟩, hmem, hq⟩
    cases q <;> cases hq
    exact ⟨r, hmem⟩
  · rintro ⟨r, hmem⟩
    exact ⟨_, hmem, rfl⟩

/-- Exactly one response, the documented conflict while another request holds the key, and
no second pass through the handler. -/
structure AnsweredAsDocumented (P : Platform) (req : Request) (k : String) (h : History) :
    Prop where
  once : ∃ response, responses h = [response]
  passes : passes h ≤ 1
  conflict : lookingUp k (.ok (some .processing)) ∈ h →
    responses h = [errorHandler P req.requestId (conflictError processingMessage)]

/-- A limiter answers the request, or its key was free, or the lookup found a response. -/
def Resolves (k : String) (h : History) : Prop :=
  (∃ l r, r ≠ .ok true ∧ limiting l r ∈ h) ∨ claiming k (.ok true) ∈ h ∨
    (claiming k (.ok false) ∈ h ∧ ∃ response, lookingUp k (.ok (some (.completed response))) ∈ h)

theorem answeredAsDocumented_front {P : Platform} {req : Request} {k : String} {h : History} :
    AnsweredAsDocumented P req k (front h) ↔ AnsweredAsDocumented P req k h := by
  have hmem : lookingUp k (.ok (some .processing)) ∈ front h ↔
    lookingUp k (.ok (some .processing)) ∈ h := mem_front rfl
  constructor
  · rintro ⟨honce, hpasses, hconflict⟩
    rw [responses_front] at honce hconflict
    rw [passes_front] at hpasses
    exact ⟨honce, hpasses, fun hl => hconflict (hmem.mpr hl)⟩
  · rintro ⟨honce, hpasses, hconflict⟩
    refine ⟨?_, ?_, ?_⟩
    · rwa [responses_front]
    · rwa [passes_front]
    · rw [responses_front]
      exact fun hl => hconflict (hmem.mp hl)

theorem resolves_front {k : String} {h : History} : Resolves k (front h) ↔ Resolves k h := by
  unfold Resolves
  refine or_congr ?_ (or_congr (mem_front rfl) (and_congr (mem_front rfl) ?_))
  · exact exists_congr fun l => exists_congr fun r => and_congr_right fun _ => mem_front rfl
  · exact exists_congr fun response => mem_front rfl

theorem ok_of_mem_admitted {l : Limiter} {r : Except Err Bool} {rest : History}
    (h : limiting l r ∈ admitted ++ rest) (hrest : limiting l r ∉ rest) : r = .ok true := by
  have hmem := (List.mem_append.mp h).resolve_right hrest
  rcases List.mem_cons.mp hmem with heq | hmem
  · cases heq
    rfl
  · cases List.mem_singleton.mp hmem
    rfl

theorem KeyedPath.answered_iff {P : Platform} {req : Request} {k : String} {fate : Fate}
    {path : History} (hpath : KeyedPath k fate path) (hfate : fate ≠ .underway) :
    AnsweredAsDocumented P req k path ↔ Resolves k path := by
  have hmute : responses path = [] → ¬ AnsweredAsDocumented P req k path := by
    rintro hnone ⟨⟨response, honce⟩, -, -⟩
    rw [hnone] at honce
    cases honce
  cases hpath with
  | limitedFirst r hr response =>
    refine iff_of_true ⟨⟨response, rfl⟩, Nat.zero_le 1, ?_⟩ (Or.inl ⟨.general, r, hr, by simp⟩)
    intro hl
    simp [lookingUp, limiting, sending] at hl
  | limitedNext r hr response =>
    refine iff_of_true ⟨⟨response, rfl⟩, Nat.zero_le 1, ?_⟩ (Or.inl ⟨.enquiry, r, hr, by simp⟩)
    intro hl
    simp [lookingUp, limiting, sending] at hl
  | answered response =>
    refine iff_of_true ⟨⟨response, rfl⟩, le_refl 1, ?_⟩ (Or.inr (Or.inl (by simp)))
    intro hl
    simp [lookingUp, limiting, sending, admitted, claiming, passing, completing] at hl
  | replayed response =>
    refine iff_of_true ⟨⟨response, rfl⟩, Nat.zero_le 1, ?_⟩
      (Or.inr (Or.inr ⟨by simp, response, by simp⟩))
    intro hl
    simp [lookingUp, limiting, sending, admitted, claiming] at hl
  | claimRejected e =>
    apply iff_of_false (hmute rfl)
    rintro (⟨l, r, hr, hmem⟩ | hmem | ⟨hmem, -⟩)
    · exact hr (ok_of_mem_admitted hmem (by simp [limiting, claiming]))
    · simp [admitted, limiting, claiming] at hmem
    · simp [admitted, limiting, claiming] at hmem
  | stranded r hr =>
    apply iff_of_false (hmute rfl)
    rintro (⟨l, r', hr', hmem⟩ | hmem | ⟨-, response, hmem⟩)
    · exact hr' (ok_of_mem_admitted hmem (by simp [limiting, claiming, lookingUp]))
    · simp [admitted, limiting, claiming, lookingUp] at hmem
    · have heq : .ok (some (.completed response)) = r := by
        simpa [admitted, limiting, claiming, lookingUp] using hmem
      exact hr response heq.symm
  | _ => exact absurd rfl hfate

variable {P : Platform} {req : Request} {k : String} {h : History} {p : Promise Unit}

theorem onPath_of_leads (hk : req.usesKey k) (hlead : (postEnquiry P req).Leads h p)
    (hprompt : ∀ e ∈ h, Prompt e) : OnPath k h :=
  (hlead.ensures (follows_postEnquiry hk) (onPath_of_eq .arrived rfl)
    fun e he _ => hprompt e he).1

theorem settled_of_leads (hk : req.usesKey k) (hlead : (postEnquiry P req).Leads h p)
    (hprompt : ∀ e ∈ h, Prompt e) (hended : p.Ended) :
    ∃ fate, fate ≠ .underway ∧ KeyedPath k fate (front h) := by
  have hrest := (hlead.ensures (follows_postEnquiry hk) (onPath_of_eq .arrived rfl)
    fun e he _ => hprompt e he).2
  cases p with
  | pure a => exact hrest.2
  | throw e => exact hrest.2
  | await q k => exact hended.elim

/-- A keyed request is answered as documented exactly when a limiter answers it, its claim
succeeds, or the claim fails and the lookup finds a stored response. -/
theorem answeredAsDocumented_iff (hk : req.usesKey k) (hlead : (postEnquiry P req).Leads h p)
    (hprompt : ∀ e ∈ h, Prompt e) (hended : p.Ended) :
    AnsweredAsDocumented P req k h ↔ Resolves k h := by
  obtain ⟨fate, hfate, hpath⟩ := settled_of_leads hk hlead hprompt hended
  rw [← answeredAsDocumented_front, ← resolves_front]
  exact hpath.answered_iff hfate

end Answers

section Runs

variable {P : Platform} {req : Request} {k : String} {route : matchesEnquiryRoute req.path = true}
variable {ι : Type} [DecidableEq ι] {calls : ι → Call P} {c : System ι} {i : ι}

def PromptlyServed (c : System ι) : Prop := ∀ x ∈ c.trace, Prompt x.2

theorem Reachable.prompt (h : Reachable P calls c) : PromptlyServed c := by
  refine h.induct (fun _ _ _ hx => (List.not_mem_nil hx).elim)
    (fun c i q k r w' _ ih _ _ hserved x hx => ?_) (fun _ _ _ _ ih _ => ih)
  rcases List.mem_append.mp hx with hx | hx
  · exact ih x hx
  · rw [List.mem_singleton.mp hx]
    intro hq
    cases r with
    | ok a => exact ⟨a, rfl⟩
    | error e => exact absurd hq (by simp [hserved.error.1])

theorem Reachable.leads_postEnquiry (h : Reachable P calls c)
    (hi : calls i = .postEnquiry req route) :
    ∃ p, (postEnquiry P req).Leads (c.own i) p ∧ (p.Ended ↔ (c.program i).Ended) := by
  obtain ⟨now, properties, hrun⟩ := h
  have hlead := hrun.leads i
  simp only [hi, program] at hlead
  obtain ⟨p, hp, heq⟩ := hlead.of_bind_pure
  exact ⟨p, hp, by rw [heq, ended_bind_pure]⟩

/-- In every run a keyed request is on its path. -/
theorem Reachable.onPath (h : Reachable P calls c) (hi : calls i = .postEnquiry req route)
    (hk : req.usesKey k) : OnPath k (c.own i) := by
  obtain ⟨p, hp, -⟩ := h.leads_postEnquiry hi
  exact onPath_of_leads hk hp fun e he => h.prompt _ (Config.mem_own.mp he)

theorem Reachable.settled (h : Reachable P calls c) (hi : calls i = .postEnquiry req route)
    (hk : req.usesKey k) (hended : (c.program i).Ended) :
    ∃ fate, fate ≠ .underway ∧ KeyedPath k fate (front (c.own i)) := by
  obtain ⟨p, hp, hiff⟩ := h.leads_postEnquiry hi
  exact settled_of_leads hk hp (fun e he => h.prompt _ (Config.mem_own.mp he)) (hiff.mpr hended)

end Runs

section Samples

def sampleEnquiryBody (fullName : String) : Value :=
  .object [("fullName", .str fullName), ("email", .str "jane@example.com"),
    ("phone", .str "+919876543210"), ("propertyId", .num .one),
    ("message", .str "Please call me.")]

def samplePath : String := "/enquiry"

theorem matches_samplePath : matchesEnquiryRoute samplePath = true := by decide

def sampleHeader : String := "7f9c24e5-2b5d-4f7e-9a51-6f1de0c5b3aa"

def sampleKey : String := redisKey samplePath sampleHeader

def sampleEnquiry (fullName : String) : Request where
  path := samplePath
  requestId := "b6f0a9de-1c1f-4f6e-9a53-0d3e6a1f9c11"
  ip := "203.0.113.7"
  userAgent := none
  idempotencyKey := some sampleHeader
  crmSignature := none
  payload := some (⟨(sampleEnquiryBody fullName).stringify, by
    simp [sampleEnquiryBody, Value.object, Value.stringify, Value.text]⟩,
    sampleEnquiryBody fullName)

theorem usesKey_sampleEnquiry (fullName : String) : (sampleEnquiry fullName).usesKey sampleKey :=
  ⟨_, rfl, by decide, rfl⟩

/-- Every request is the same submission with the same key. -/
def retriedCalls : ℕ → Call .sample := fun _ =>
  .postEnquiry (sampleEnquiry "Jane Doe") matches_samplePath

/-- The first request holds its key while the second one looks it up. -/
def concurrentRetry : System ℕ := sampleRun retriedCalls (undisturbed 0 4 ++ undisturbed 1 4)

theorem reachable_concurrentRetry : Reachable .sample retriedCalls concurrentRetry :=
  reachable_sampleRun (by rfl)

/-- The request that finds its key in `processing` is never answered. -/
theorem not_answeredAsDocumented : ¬ ∀ (req : Request) (k : String) (h : History)
    (p : Promise Unit), req.usesKey k → (postEnquiry .sample req).Leads h p →
      (∀ e ∈ h, Prompt e) → p.Ended → AnsweredAsDocumented .sample req k h := by
  intro hclaim
  obtain ⟨p, hlead, hended⟩ := reachable_concurrentRetry.leads_postEnquiry (i := 1) rfl
  have hprompt : ∀ e ∈ concurrentRetry.own 1, Prompt e :=
    fun e he => reachable_concurrentRetry.prompt _ (Config.mem_own.mp he)
  have hanswered := hclaim _ _ _ _ (usesKey_sampleEnquiry _) hlead hprompt (hended.mpr trivial)
  obtain ⟨response, honce⟩ := hanswered.once
  have hnone : responses (concurrentRetry.own 1) = [] := by rfl
  rw [hnone] at honce
  cases honce

/-- The first request runs to its end. -/
def answeredFirst : System ℕ := sampleRun retriedCalls (undisturbed 0 15)

theorem answeredAsDocumented_sample :
    AnsweredAsDocumented .sample (sampleEnquiry "Jane Doe") sampleKey (answeredFirst.own 0) := by
  have hreachable : Reachable .sample retriedCalls answeredFirst := reachable_sampleRun (by rfl)
  obtain ⟨p, hlead, hended⟩ := hreachable.leads_postEnquiry (i := 0) rfl
  have hprompt : ∀ e ∈ answeredFirst.own 0, Prompt e :=
    fun e he => hreachable.prompt _ (Config.mem_own.mp he)
  have hclaimed : claiming sampleKey (.ok true) ∈ answeredFirst.own 0 :=
    List.mem_of_getElem? (i := 2) rfl
  exact (answeredAsDocumented_iff (usesKey_sampleEnquiry _) hlead hprompt
    (hended.mpr trivial)).mpr (Or.inr (Or.inl hclaimed))

end Samples

end PropertyPlatform
