import PropertyPlatform.Receipts
import PropertyPlatform.WebhookPayloads

/-!
# The validated enquiry and the columns it is stored in

Lengths are validated in UTF-16 code units and stored in characters or bytes. The address
and the `User-Agent` are not validated, and on them alone it depends whether a row fits.
-/

namespace PropertyPlatform

open Js Async Program

/-- A digest is written with 64 hexadecimal digits. -/
def Platform.HexDigests (P : Platform) : Prop := ∀ s, (P.sha256 s).length = 64

/-- The values that bypass the schema fit their columns. -/
def Request.HeadersFit (req : Request) : Prop :=
  req.ip.length ≤ 45 ∧ ∀ agent ∈ req.userAgent, agent.length ≤ 255

variable {P : Platform} {req : Request} {input : CreateEnquiryInput P}

section Columns

theorem fitsIn_orNull (n : ℕ) (s : String) : fitsIn n (orNull s) = true ↔ s.length ≤ n := by
  unfold orNull
  split_ifs with hempty
  · subst hempty
    simp [fitsIn]
  · simp [fitsIn]

theorem fitsIn_header (n : ℕ) (header : Option String) :
    fitsIn n (header.bind orNull) = true ↔ ∀ s ∈ header, s.length ≤ n := by
  cases header with
  | none => simp [fitsIn]
  | some s =>
    rw [Option.bind_some, fitsIn_orNull]
    simp

theorem headersFit_iff : req.HeadersFit ↔ fitsIn 45 req.context.ipAddress = true ∧
    fitsIn 255 req.context.userAgent = true := by
  unfold Request.HeadersFit
  rw [Request.context, fitsIn_orNull, fitsIn_header]

theorem length_of_phoneFormat {s : String} (h : phoneFormat s = true) : s.length ≤ 20 := by
  unfold phoneFormat at h
  simp only [Bool.and_eq_true, decide_eq_true_eq] at h
  rw [← String.length_toList]
  exact h.2

/-- Whatever the schema accepts fits; what it does not see decides. -/
theorem fits_iff (hP : P.HexDigests) :
    (newEnquiry P input req.context).fits = true ↔ req.HeadersFit := by
  have hname := (length_le_utf16Length input.fullName).trans input.fullName_length.2
  have hemail := (length_le_utf16Length input.email).trans input.email_valid.2
  have hmessage : input.message.utf8ByteSize ≤ 65535 := by
    have hbytes := utf8ByteSize_le input.message
    have hunits := input.message_length.2
    omega
  have hphone : fitsIn 20 input.phone = true := by
    refine Option.all_eq_true _ _ |>.mpr fun s hs => decide_eq_true ?_
    exact length_of_phoneFormat (input.phone_valid s hs)
  have hprint : (fingerprintEnquiry P input.email input.phone input.propertyId
      input.message).length ≤ 64 := le_of_eq (hP _)
  rw [headersFit_iff]
  simp only [NewEnquiry.fits, Bool.and_eq_true, decide_eq_true_eq]
  constructor
  · rintro ⟨⟨-, haddress⟩, hagent⟩
    exact ⟨haddress, hagent⟩
  · rintro ⟨haddress, hagent⟩
    exact ⟨⟨⟨⟨⟨⟨hname, hemail⟩, hphone⟩, hmessage⟩, hprint⟩, haddress⟩, hagent⟩

end Columns

section Replies

/-- The operations that only have to succeed. -/
def Operation.isPlain : Operation → Bool
  | rateLimit _ | selectPublishedProperty _ | insertEnquiry _ | selectEnquiry _ => false
  | updateEnquiry _ | insertWebhookEvent _ => false
  | _ => true

/-- The replies to a request that names a published property while nothing fails. Only an
insert is rejected, for its values or for a row that is there. -/
inductive SoundReply (id : ℕ) (h : History) : (q : Operation) → Except Err q.Reply → Prop where
  | admitted (l : Limiter) : SoundReply id h (.rateLimit l) (.ok true)
  | published (ids : List ℕ) (hids : ids ≠ []) :
      SoundReply id h (.selectPublishedProperty id) (.ok ids)
  | inserted (v : NewEnquiry) (n : ℕ) (hfits : v.fits = true) :
      SoundReply id h (.insertEnquiry v) (.ok n)
  | refused (v : NewEnquiry) (n : NativeError)
      (hn : (∃ ids, ids ≠ [] ∧
        (⟨.selectPublishedProperty v.propertyId, .ok ids⟩ : Event signature) ∈ h) →
        n.isDuplicateEntry = v.fits) :
      SoundReply id h (.insertEnquiry v) (.error (.native n))
  | read (n : ℕ) (rows : List EnquiryRecord) (hrows : readsOwn h (.selectEnquiry n) (.ok rows)) :
      SoundReply id h (.selectEnquiry n) (.ok rows)
  | plain {q : Operation} (a : q.Reply) (hq : q.isPlain = true) : SoundReply id h q (.ok a)

abbrev Serves {α : Type} (id : ℕ) (p : Promise α) (post : Except Err α → History → Prop)
    (h : History) : Prop :=
  p.Ensures (SoundReply id) (fun _ => True) post h

variable {α : Type} {id : ℕ} {h : History}

theorem serves_call {q : Operation} {post : Except Err q.Reply → History → Prop}
    (hreply : ∀ r, SoundReply id h q r → post r (h ++ [⟨q, r⟩])) : Serves id (call q) post h :=
  ensures_perform.mpr fun r hr => ⟨trivial, hreply r hr⟩

theorem serves_plain {q : Operation} (hq : q.isPlain = true)
    {post : Except Err q.Reply → History → Prop} (hok : ∀ a, post (.ok a) (h ++ [⟨q, .ok a⟩])) :
    Serves id (call q) post h := by
  refine serves_call fun r hr => ?_
  cases hr with
  | plain a => exact hok a
  | _ => cases hq

/-- With MySQL up a transaction ends as its callback does. -/
theorem serves_withTransaction {fn : Promise α} {post : Except Err α → Prop}
    (hfn : ∀ h, (ledger h).isOpen = true → Serves id fn (fun o _ => post o) h) :
    Serves id (withTransaction fn) (fun o _ => post o) h := by
  unfold withTransaction
  refine ensures_bind.mpr (serves_plain rfl fun _ => ?_)
  refine ensures_finalizing.mpr (ensures_catching.mpr (ensures_bind.mpr ?_))
  refine serves_plain rfl fun _ => ?_
  have hopen : (ledger (h ++ [⟨.getConnection, .ok ()⟩] ++
      [⟨.beginTransaction, .ok ()⟩])).isOpen = true := isOpen_opened
  refine ensures_bind.mpr ((hfn _ hopen).mono fun o h ho => ?_)
  cases o with
  | ok a =>
    refine ensures_bind.mpr (serves_plain rfl fun _ => ?_)
    exact serves_plain rfl fun _ => ho
  | error e =>
    refine ensures_bind.mpr (serves_plain rfl fun _ => ?_)
    exact serves_plain rfl fun _ => ho

/-- How the callback of `createEnquiry` ends: only a duplicate or a row that does not fit
makes it throw. -/
def InsertEnds (v : NewEnquiry) : Except Err (Option EnquiryRecord) → Prop
  | .ok row? => row?.isSome = true ∧ v.fits = true
  | .error e => ∃ n, e = .native n ∧ n.isDuplicateEntry = v.fits

theorem serves_insertPublished (v : NewEnquiry) (hopen : (ledger h).isOpen = true) :
    Serves v.propertyId (insertPublished v) (fun o _ => InsertEnds v o) h := by
  unfold insertPublished
  refine ensures_bind.mpr (serves_call fun r hr => ?_)
  cases hr with
  | plain a hq => cases hq
  | published ids hids =>
    rw [andThen_ok, if_neg (by simpa using hids)]
    refine ensures_bind.mpr (serves_call fun r hr => ?_)
    cases hr with
    | plain a hq => cases hq
    | refused _ n hn =>
      exact ⟨n, rfl, hn ⟨ids, hids, List.mem_append_right _ (List.mem_singleton_self _)⟩⟩
    | inserted _ n hfits =>
      refine ensures_bind.mpr (serves_call fun r hr => ?_)
      cases hr with
      | plain a hq => cases hq
      | read _ rows hrows =>
        obtain ⟨row, hrow, -⟩ := hrows v (by simp [book, actionOf, Ledger.act, hopen])
        exact ⟨by rw [hrow]; rfl, hfits⟩

/-- How `createEnquiry` ends. -/
def Decided (v : NewEnquiry) : Except Err EnquiryRecord → Prop
  | .ok _ => v.fits = true
  | .error e => (v.fits = true ∧ e = conflictError duplicateMessage) ∨
      (v.fits = false ∧ e.status = 500)

theorem serves_createEnquiry (input : CreateEnquiryInput P) (ctx : CreateEnquiryContext) :
    Serves input.propertyId (createEnquiry P input ctx)
      (fun o _ => Decided (newEnquiry P input ctx) o) h := by
  unfold createEnquiry
  refine ensures_catching.mpr (ensures_bind.mpr ?_)
  have hcallback : ∀ h, (ledger h).isOpen = true →
      Serves input.propertyId (insertPublished (newEnquiry P input ctx))
        (fun o _ => InsertEnds (newEnquiry P input ctx) o) h :=
    fun h hopen => serves_insertPublished (newEnquiry P input ctx) hopen
  refine (serves_withTransaction hcallback).mono fun o h ho => ?_
  cases o with
  | error e =>
    obtain ⟨n, rfl, hn⟩ := ho
    cases hfits : (newEnquiry P input ctx).fits with
    | true => exact Or.inl ⟨hfits, mapDuplicate_duplicate (hn.trans hfits)⟩
    | false =>
      refine Or.inr ⟨hfits, ?_⟩
      rw [mapDuplicate_native (hn.trans hfits)]
      rfl
  | ok row? =>
    obtain ⟨hrow, hfits⟩ := ho
    obtain ⟨row, rfl⟩ := Option.isSome_iff_exists.mp hrow
    refine ensures_bind.mpr (serves_plain rfl fun _ => ?_)
    exact ensures_bind.mpr (serves_plain rfl fun _ => hfits)

end Replies

section Route

variable {id : ℕ} {h : History}

/-- The handler sends one response: created or the duplicate conflict for a row that fits, a
500 for one that does not. -/
def Concluded (P : Platform) (req : Request) (v : NewEnquiry) (h : History) : Prop :=
  ∃ response, responses h = [response] ∧
    ((v.fits = true ∧ (response.statusCode = 201 ∨
        response = errorHandler P req.requestId (conflictError duplicateMessage))) ∨
      (v.fits = false ∧ response.statusCode = 500))

/-- Nothing has been sent and the handler has not been reached. -/
def Pending (h : History) : Prop := responses h = [] ∧ passing ∉ h

theorem Pending.append (hp : Pending h) {e : Event signature}
    (he : e.request.isSynchronous = false) : Pending (h ++ [e]) := by
  obtain ⟨q, r⟩ := e
  constructor
  · rw [responses, List.filterMap_append, ← responses, hp.1]
    cases q <;> first | rfl | cases he
  · rw [List.mem_append, List.mem_singleton, not_or]
    refine ⟨hp.2, ?_⟩
    rintro ⟨⟩
    cases he

/-- The `res.json` of the chain sends one response. -/
def JsonSends (id : ℕ) (json : Json) : Prop := ∀ response h, responses h = [] →
  Serves id (json response) (fun o h' => o = .ok () ∧ responses h' = [response]) h

theorem jsonSends_sendJson : JsonSends id sendJson := by
  intro response h hnone
  refine serves_plain rfl fun _ => ⟨rfl, ?_⟩
  rw [responses, List.filterMap_append, ← responses, hnone]
  rfl

theorem jsonSends_cachingJson (k : String) : JsonSends id (cachingJson k) := by
  intro response h hnone
  unfold cachingJson
  refine ensures_bind.mpr (serves_plain rfl fun _ => jsonSends_sendJson response _ ?_)
  rw [responses, List.filterMap_append, ← responses, hnone]
  rfl

theorem serves_validatedEnquiry {json : Json} (hvalid : validateEnquiry P req = .ok input)
    (hjson : JsonSends input.propertyId json) (hnone : responses h = []) :
    Serves input.propertyId (validatedEnquiry P req json)
      (fun o h' => o = .ok () ∧ Concluded P req (newEnquiry P input req.context) h') h := by
  have hsilent : (createEnquiry P input req.context).Ensures (SoundReply input.propertyId)
      (fun h => responses h = []) (fun _ h => responses h = []) h := by
    refine Uses.ensures (uses_createEnquiry input req.context) (fun h q r hh hq _ => ?_) hnone
    rw [responses, List.filterMap_append, ← responses, hh]
    cases q <;> first | exact hq.elim | rfl
  have hboth := hsilent.and (serves_createEnquiry input req.context)
  unfold validatedEnquiry withErrorHandler
  rw [hvalid]
  refine ensures_catching.mpr ?_
  change (createEnquiryHandler P req json input).Ensures _ _ _ h
  refine ensures_bind.mpr ((hboth.weaken (fun _ _ _ hr => hr) fun _ _ => trivial).mono ?_)
  rintro o h' ⟨hnone', hdecided⟩
  cases o with
  | ok enquiry =>
    refine (hjson (createdResponse P enquiry) h' hnone').mono fun o h'' hsent => ?_
    obtain ⟨rfl, hsent⟩ := hsent
    exact ⟨rfl, _, hsent, Or.inl ⟨hdecided, Or.inl rfl⟩⟩
  | error e =>
    refine (hjson (errorHandler P req.requestId e) h' hnone').mono fun o h'' hsent => ?_
    obtain ⟨rfl, hsent⟩ := hsent
    refine ⟨rfl, _, hsent, ?_⟩
    rcases hdecided with ⟨hfits, rfl⟩ | ⟨hfits, hstatus⟩
    · exact Or.inl ⟨hfits, Or.inr rfl⟩
    · exact Or.inr ⟨hfits, (errorHandler_status _ e).trans hstatus⟩

theorem serves_rateLimiter {l : Limiter} {post : Except Err Unit → History → Prop}
    (hok : post (.ok ()) (h ++ [limiting l (.ok true)])) : Serves id (rateLimiter l) post h := by
  unfold rateLimiter
  refine ensures_bind.mpr (serves_call fun r hr => ?_)
  cases hr with
  | plain a hq => cases hq
  | admitted => exact hok

/-- What the middleware hands to the rest of the chain. -/
def FlowServes (id : ℕ) : Except Err Flow → History → Prop
  | .ok (.next json), h => responses h = [] ∧ JsonSends id json
  | .ok .ended, h => passing ∉ h
  | .error _, _ => False

theorem serves_passing {json : Json} (hp : Pending h) (hjson : JsonSends id json) :
    Serves id (do call .next; return .next json : Promise Flow) (FlowServes id) h := by
  refine ensures_bind.mpr (serves_plain rfl fun _ => ⟨?_, hjson⟩)
  rw [responses, List.filterMap_append, ← responses, hp.1]
  rfl

theorem FlowServes.ignoring {o : Except Err Flow} (ho : FlowServes id o h) :
    orElse (SoundReply id) (fun _ => True) (FlowServes id) (fun _ => .pure .ended) o h := by
  cases o with
  | ok flow => exact ho
  | error e => exact ho.elim

theorem serves_idempotencyMiddleware (hp : Pending h) :
    Serves id (ignoringRejection (idempotencyMiddleware req)) (FlowServes id) h := by
  unfold ignoringRejection idempotencyMiddleware
  refine ensures_catching.mpr ?_
  cases hkey : req.idempotencyKey with
  | none => exact (serves_passing hp jsonSends_sendJson).mono fun _ _ => FlowServes.ignoring
  | some key =>
    simp only
    split_ifs with hempty
    · exact (serves_passing hp jsonSends_sendJson).mono fun _ _ => FlowServes.ignoring
    · refine ensures_bind.mpr (serves_plain rfl fun claimed => ?_)
      have hclaim : Pending (h ++ [claiming (redisKey req.path key) (.ok claimed)]) :=
        hp.append rfl
      cases claimed with
      | true =>
        exact (serves_passing hclaim (jsonSends_cachingJson _)).mono fun _ _ => FlowServes.ignoring
      | false =>
        refine ensures_bind.mpr (serves_plain rfl fun existing => ?_)
        have hlookup : Pending (h ++ [claiming (redisKey req.path key) (.ok false)] ++
            [lookingUp (redisKey req.path key) (.ok existing)]) := hclaim.append rfl
        rcases existing with _ | _ | response
        · exact hlookup.2
        · exact hlookup.2
        · refine ensures_bind.mpr (serves_plain rfl fun _ => ?_)
          change passing ∉ _ ++ [sending response]
          rw [List.mem_append, List.mem_singleton, not_or]
          exact ⟨hlookup.2, by rintro ⟨⟩⟩

/-- A valid request for a published property that reaches the handler is concluded. -/
theorem serves_postEnquiry (hvalid : validateEnquiry P req = .ok input) :
    Serves input.propertyId (postEnquiry P req)
      (fun _ h => passing ∈ h → Concluded P req (newEnquiry P input req.context) h) [] := by
  have hnil : Pending [] := ⟨rfl, List.not_mem_nil⟩
  unfold postEnquiry withErrorHandler
  refine ensures_catching.mpr (ensures_bind.mpr (serves_rateLimiter ?_))
  refine ensures_bind.mpr (serves_rateLimiter ?_)
  refine ensures_bind.mpr ((serves_idempotencyMiddleware ?_).mono fun o h hflow => ?_)
  · exact (hnil.append rfl).append rfl
  · rcases o with e | json | _
    · exact hflow.elim
    · obtain ⟨hnone, hjson⟩ := hflow
      refine (serves_validatedEnquiry hvalid hjson hnone).mono fun o h hpost => ?_
      obtain ⟨rfl, hconcluded⟩ := hpost
      exact fun _ => hconcluded
    · exact fun hpass => absurd hpass hflow

end Route

section Runs

variable {ι : Type} [DecidableEq ι] {calls : ι → Call P} {a c : System ι} {i : ι}
variable {route : matchesEnquiryRoute req.path = true} {id : ℕ}

/-- A property that a lookup has found is there. -/
def LookedUp (c : System ι) : Prop := ∀ i id ids, ids ≠ [] →
  (i, ⟨.selectPublishedProperty id, .ok ids⟩) ∈ c.trace → (c.world.properties id).isSome = true

theorem World.Served.property_looked_up {w w' : World ι} {ids : List ℕ} (hids : ids ≠ [])
    (h : w.Served P i (.selectPublishedProperty id) (.ok ids) w') :
    (w.properties id).isSome = true := by
  cases h with
  | answered h =>
    simp only [World.answer, Option.some.injEq, Prod.mk.injEq, Except.ok.injEq] at h
    obtain ⟨rfl, -⟩ := h
    split_ifs at hids with hpublished
    · rw [hpublished]
      rfl
    · exact absurd rfl hids

theorem Reachable.lookedUp (h : Reachable P calls c) : LookedUp c := by
  refine h.induct ?_ ?_ ?_
  · exact fun now properties i id ids _ hmem => by cases hmem
  · intro c i q k r w' _ hInv _ _ hserved j id ids hids hmem
    rw [Config.answered_world, hserved.properties]
    rcases Config.mem_answered.mp hmem with hold | hnew
    · exact hInv j id ids hids hold
    · cases hnew
      exact hserved.property_looked_up hids
  · intro c d w' _ hInv hdrift i id ids hids hmem
    exact World.property_of_drift hdrift (hInv i id ids hids hmem)

/-- MySQL and Redis are up for the call, and the property is published when it is looked up. -/
def Supported (P : Platform) (i : ι) (id : ℕ) (a c : System ι) : Prop :=
  StepOf P i a c → ResolvedStep P i a c ∧
    ∀ k, a.program i = .await (.selectPublishedProperty id) k →
      a.world.properties id = some .published

theorem insertEnquiry_sound {w w' : World ι} {v : NewEnquiry} {r : Except Err ℕ} {h : History}
    (hknown : (∃ ids, ids ≠ [] ∧
      (⟨.selectPublishedProperty v.propertyId, .ok ids⟩ : Event signature) ∈ h) →
      (w.properties v.propertyId).isSome = true)
    (hanswer : w.insertEnquiry P i v = some (r, w')) : SoundReply id h (.insertEnquiry v) r := by
  unfold World.insertEnquiry at hanswer
  split_ifs at hanswer with hfits hdup hblocked hproperty
  · cases hanswer
    exact .refused v _ fun _ => hfits.symm
  · cases hanswer
    exact .refused v _ fun _ => (Bool.eq_true_of_not_eq_false hfits).symm
  · cases hanswer
    refine .refused v _ fun hlooked => absurd (hknown hlooked) ?_
    simpa using hproperty
  · cases hanswer
    exact .inserted v _ (by simpa using hfits)

/-- What a supported call is told is sound. -/
theorem Reachable.soundReply (h : Reachable P calls a) (hi : calls i = .postEnquiry req route)
    (hvalid : validateEnquiry P req = .ok input) (halive : a.world.crashed i = false)
    {q : Operation} {k : Except Err q.Reply → Promise (Option EnquiryRecord)}
    {r : Except Err q.Reply} {w : World ι} (hprogram : a.program i = .await q k)
    (hpublished : q = .selectPublishedProperty input.propertyId →
      a.world.properties input.propertyId = some .published)
    (hanswer : a.world.answer P i q = some (r, w)) :
    SoundReply input.propertyId (a.own i) q r := by
  have hfoot := h.footprint_of_await hprogram
  rw [hi] at hfoot
  cases hfoot with
  | limiter l hq =>
    subst hq
    cases hanswer
    exact .admitted l
  | idempotency hq =>
    cases q with
    | setNx key record ttl =>
      simp only [World.answer] at hanswer
      split_ifs at hanswer <;> cases hanswer <;> exact .plain _ rfl
    | next => cases hanswer; exact .plain _ rfl
    | json response => cases hanswer; exact .plain _ rfl
    | get key => cases hanswer; exact .plain _ rfl
    | set key record ttl => cases hanswer; exact .plain _ rfl
    | _ => exact hq.elim
  | create input' hvalid' hq =>
    cases hvalid.symm.trans hvalid'
    cases q with
    | selectPublishedProperty id =>
      subst hq
      cases hanswer
      have hstatus : a.world.properties (newEnquiry P input req.context).propertyId =
          some .published := hpublished rfl
      refine .published _ ?_
      rw [if_pos hstatus]
      exact List.cons_ne_nil _ _
    | insertEnquiry v =>
      refine insertEnquiry_sound (fun hlooked => ?_) hanswer
      obtain ⟨ids, hids, hmem⟩ := hlooked
      exact h.lookedUp i _ ids hids (Config.mem_own.mp hmem)
    | selectEnquiry n =>
      cases hanswer
      exact .read n _ fun v hv => World.reads_own h.consistent halive hv
    | addCrmSyncJob job => cases hanswer; exact .plain _ rfl
    | addEmailJob job => cases hanswer; exact .plain _ rfl
    | getConnection => cases hanswer; exact .plain _ rfl
    | beginTransaction => cases hanswer; exact .plain _ rfl
    | commit => cases hanswer; exact .plain _ rfl
    | rollback => cases hanswer; exact .plain _ rfl
    | release => cases hanswer; exact .plain _ rfl
    | _ => exact hq.elim

/-- A supported request that went through the handler is concluded. -/
theorem concluded_of_supported {now : ℕ} {properties : ℕ → Option PropertyStatus}
    (hrun : RunWhere (server P) (Supported P i input.propertyId) (start P calls now properties) c)
    (hi : calls i = .postEnquiry req route) (hvalid : validateEnquiry P req = .ok input)
    (hpass : (i, passing) ∈ c.trace) (hended : (c.program i).Ended) :
    Concluded P req (newEnquiry P input req.context) (c.own i) := by
  have hprogram : Serves input.propertyId (program P (calls i))
      (fun _ h => passing ∈ h → Concluded P req (newEnquiry P input req.context) h) [] := by
    rw [hi]
    refine ensures_bind.mpr ((serves_postEnquiry hvalid).mono fun o h hpost => ?_)
    cases o <;> exact hpost
  have hend := (hrun.ensures ?_ trivial hprogram).2
  · have hmem := Config.mem_own.mpr hpass
    cases hq : c.program i with
    | pure a => exact (hq ▸ hend) hmem
    | throw e => exact (hq ▸ hend) hmem
    | await q k => exact (hq ▸ hended).elim
  · intro a q k choice r w ha hprogram hserve hok
    have hreachable : Reachable P calls a := ⟨now, properties, ha⟩
    obtain ⟨halive, -⟩ := World.served_of_serve hserve
    obtain ⟨⟨q', k', r', w', hprogram', hserve', heq⟩, hpublished⟩ :=
      hok ⟨q, k, choice, r, w, hprogram, hserve, rfl⟩
    cases hprogram.symm.trans hprogram'
    have hr : (⟨q, r⟩ : Event signature) = ⟨q, r'⟩ := by
      have hown := congrArg (Config.own · i) heq
      simpa using hown
    cases hr
    refine hreachable.soundReply hi hvalid halive hprogram (fun hq => ?_)
      (answer_of_resolves hserve')
    subst hq
    exact hpublished k hprogram

/-- The insert waits for another open transaction to decide about a row of its content. -/
def WaitsForContent (c : System ι) (i : ι) : Prop :=
  ∃ v k, c.program i = .await (.insertEnquiry v) k ∧ ∃ x ∈ c.world.enquiries.rows,
    x.2.fingerprint = v.fingerprint ∧ x.1 ≠ .committed ∧ x.1 ≠ .of i

theorem waits_of_insertEnquiry {w : World ι} {v : NewEnquiry}
    (h : w.insertEnquiry P i v = none) : ∃ x ∈ w.enquiries.rows,
      x.2.fingerprint = v.fingerprint ∧ x.1 ≠ .committed ∧ x.1 ≠ .of i := by
  unfold World.insertEnquiry at h
  split_ifs at h with hfits hdup hblocked
  obtain ⟨x, hx, hprint⟩ := List.any_eq_true.mp hblocked
  have hother := List.any_eq_false.mp (Bool.eq_false_of_not_eq_true hdup) x hx
  rw [beq_iff_eq] at hprint
  rw [hprint] at hother
  simp only [beq_self_eq_true, Bool.true_and, Bool.or_eq_true, beq_iff_eq, not_or] at hother
  exact ⟨x, hx, hprint, hother⟩

/-- A call that is not over moves on, unless another transaction has to end first. -/
theorem Reachable.moves (h : Reachable P calls c) (hi : calls i = .postEnquiry req route)
    (halive : c.world.crashed i = false) (hended : ¬ (c.program i).Ended) :
    (∃ d, ResolvedStep P i c d) ∨ WaitsForContent c i := by
  cases hprogram : c.program i with
  | pure x =>
    rw [hprogram] at hended
    exact absurd trivial hended
  | throw e =>
    rw [hprogram] at hended
    exact absurd trivial hended
  | await q k =>
    have hfoot := h.footprint_of_await hprogram
    rw [hi] at hfoot
    cases hanswer : c.world.answer P i q with
    | some x => exact Or.inl ⟨_, resolvedStep_of_answer halive hprogram hanswer⟩
    | none =>
      cases q with
      | insertEnquiry v => exact Or.inr ⟨v, k, hprogram, waits_of_insertEnquiry hanswer⟩
      | setNx key record ttl =>
        simp only [World.answer] at hanswer
        split_ifs at hanswer
      | updateEnquiry u =>
        cases hfoot with
        | limiter l hq => cases hq
        | idempotency hq => exact hq.elim
        | create input hvalid hq => exact hq.elim
      | insertWebhookEvent v =>
        cases hfoot with
        | limiter l hq => cases hq
        | idempotency hq => exact hq.elim
        | create input hvalid hq => exact hq.elim
      | _ => cases hanswer

/-- The call was answered with a 201 or with the duplicate conflict. -/
def CreatedOrDuplicate (P : Platform) (req : Request) (h : History) : Prop :=
  ∃ response, responses h = [response] ∧ (response.statusCode = 201 ∨
    response = errorHandler P req.requestId (conflictError duplicateMessage))

theorem Concluded.createdOrDuplicate_iff {v : NewEnquiry} {h : History}
    (hc : Concluded P req v h) : CreatedOrDuplicate P req h ↔ v.fits = true := by
  obtain ⟨response, hsent, hresponse⟩ := hc
  rcases hresponse with ⟨hfits, hstatus⟩ | ⟨hfits, hstatus⟩
  · exact iff_of_true ⟨response, hsent, hstatus⟩ hfits
  · refine iff_of_false ?_ (by simp [hfits])
    rintro ⟨response', hsent', hresponse'⟩
    obtain rfl : response' = response := by simpa [hsent] using hsent'.symm
    rcases hresponse' with hcreated | rfl
    · omega
    · rw [errorHandler_status] at hstatus
      cases hstatus

/-- An accepted enquiry fits its columns, and is answered with a 201 or the duplicate
conflict, exactly if its address and its `User-Agent` fit. -/
theorem columnsFit_iff (hP : P.HexDigests) {now : ℕ} {properties : ℕ → Option PropertyStatus}
    (hrun : RunWhere (server P) (Supported P i input.propertyId) (start P calls now properties) c)
    (hi : calls i = .postEnquiry req route) (hvalid : validateEnquiry P req = .ok input) :
    ((newEnquiry P input req.context).fits = true ↔ req.HeadersFit) ∧
      ((i, passing) ∈ c.trace → (c.program i).Ended →
        (CreatedOrDuplicate P req (c.own i) ↔ req.HeadersFit)) ∧
      (c.world.crashed i = false → ¬ (c.program i).Ended →
        (∃ d, ResolvedStep P i c d) ∨ WaitsForContent c i) := by
  refine ⟨fits_iff hP, fun hpass hended => ?_, fun halive hended => ?_⟩
  · have hconcluded := concluded_of_supported hrun hi hvalid hpass hended
    exact hconcluded.createdOrDuplicate_iff.trans (fits_iff hP)
  · exact Reachable.moves ⟨now, properties, hrun.run⟩ hi halive hended

end Runs

section Samples

/-- A runtime that knows the digest of one text. -/
def digestPlatform : Platform :=
  { Platform.sample with
    sha256 := fun _ => "bb018ef17ed1c19c8522ddcc0143c899cedb226bdda160c1f3658c924aca9db6" }

theorem hexDigests_sample : digestPlatform.HexDigests := by
  have hlength : (digestPlatform.sha256 "").length = 64 := by decide
  exact fun _ => hlength

/-- The sample enquiry, sent by a browser and without a key. -/
def browsedEnquiry (agent : String) : Request :=
  { sampleEnquiry "Jane Doe" with idempotencyKey := none, userAgent := some agent }

def browsedInput : CreateEnquiryInput digestPlatform where
  fullName := "Jane Doe"
  email := "jane@example.com"
  phone := some "+919876543210"
  propertyId := 1
  message := "Please call me."
  source := .website
  fullName_length := sampleName_length
  email_valid := sampleEmail_valid
  phone_valid := samplePhone_valid
  propertyId_pos := Nat.one_pos
  message_length := sampleMessage_length

def browsedCalls (agent : String) : ℕ → Call digestPlatform := fun _ =>
  .postEnquiry (browsedEnquiry agent) matches_samplePath

theorem valid_browsedEnquiry (agent : String) :
    validateEnquiry digestPlatform (browsedEnquiry agent) = .ok browsedInput := by
  change validateEnquiry digestPlatform (browsedEnquiry "") = _
  rfl

def samplePublished (id : ℕ) : Option PropertyStatus := if id = 1 then some .published else none

def browsedStart (agent : String) : System ℕ :=
  start digestPlatform (browsedCalls agent) 0 samplePublished

def supportsFirst (c : System ℕ) (m : Move ℕ Choice (Drift ℕ)) : Bool :=
  resolvesFor 0 c m && decide (c.world.properties 1 = some .published)

theorem supported_of_supportsFirst (c : System ℕ) (m : Move ℕ Choice (Drift ℕ)) (c' : System ℕ)
    (hplay : c.play (server digestPlatform) m = some c') (hcheck : supportsFirst c m = true) :
    Supported digestPlatform 0 1 c c' := by
  rw [supportsFirst, Bool.and_eq_true, decide_eq_true_eq] at hcheck
  exact fun hstep => ⟨undisturbed_of_resolvesFor c m c' hplay hcheck.1 hstep, fun _ _ => hcheck.2⟩

/-- The state before the insert. -/
def atInsert (agent : String) : System ℕ :=
  (browsedStart agent).after (server digestPlatform) (undisturbed 0 6)

def afterInsert (agent : String) (n : ℕ) : System ℕ :=
  (atInsert agent).after (server digestPlatform) (undisturbed 0 n)

def sampleAgent : String := "Mozilla/5.0 (X11; Linux x86_64)"

/-- A browser with a short name creates its enquiry. -/
theorem columnsFit_sample :
    (newEnquiry digestPlatform browsedInput (browsedEnquiry sampleAgent).context).fits = true ∧
      CreatedOrDuplicate digestPlatform (browsedEnquiry sampleAgent)
        ((afterInsert sampleAgent 7).own 0) := by
  have hrun : RunWhere (server digestPlatform) (Supported digestPlatform 0 1)
      (browsedStart sampleAgent) (afterInsert sampleAgent 7) :=
    (Config.runWhere_after supported_of_supportsFirst (by rfl)).trans
      (Config.runWhere_after supported_of_supportsFirst (by rfl))
  have hheaders : (browsedEnquiry sampleAgent).HeadersFit := by
    refine ⟨by decide, ?_⟩
    rintro agent ⟨⟩
    decide
  have hdone : (afterInsert sampleAgent 7).program 0 = .pure none := by rfl
  have hboth := columnsFit_iff hexDigests_sample hrun rfl
    (valid_browsedEnquiry _)
  refine ⟨hboth.1.mpr hheaders, (hboth.2.1 ?_ ?_).mpr hheaders⟩
  · exact List.mem_of_getElem? (i := 2) (by rfl)
  · rw [hdone]
    trivial

/-- One character too many for the column. -/
def longAgent : String := String.ofList (List.replicate 256 'x')

theorem refused_longAgent : ∃ c, RunWhere (server digestPlatform) (Supported digestPlatform 0 1)
      (atInsert longAgent) c ∧ (c.program 0).Ended ∧
    500 ∈ (responses (c.own 0)).map Response.statusCode := by
  have hanswer : ((atInsert longAgent).replayWhere (server digestPlatform) supportsFirst
        (undisturbed 0 4)).isSome = true ∧
      (((atInsert longAgent).after (server digestPlatform) (undisturbed 0 4)).program 0).Ended ∧
      500 ∈ (responses (((atInsert longAgent).after (server digestPlatform)
        (undisturbed 0 4)).own 0)).map Response.statusCode := by
    decide +kernel
  exact ⟨_, Config.runWhere_after supported_of_supportsFirst hanswer.1, hanswer.2⟩

/-- A browser with a long name gets a 500 for a valid enquiry. -/
theorem not_columnsFit : ¬ ∀ (calls : ℕ → Call digestPlatform) (c : System ℕ) (i : ℕ)
    (req : Request) (route : matchesEnquiryRoute req.path = true)
    (input : CreateEnquiryInput digestPlatform),
    RunWhere (server digestPlatform) (Supported digestPlatform i input.propertyId)
      (start digestPlatform calls 0 samplePublished) c →
    calls i = .postEnquiry req route → validateEnquiry digestPlatform req = .ok input →
      (i, passing) ∈ c.trace → (c.program i).Ended →
      (newEnquiry digestPlatform input req.context).fits = true ∧
        CreatedOrDuplicate digestPlatform req (c.own i) ∧
        ∀ response ∈ responses (c.own i), response.statusCode ≠ 500 := by
  intro hclaim
  have hbefore : RunWhere (server digestPlatform) (Supported digestPlatform 0 1)
      (browsedStart longAgent) (atInsert longAgent) :=
    Config.runWhere_after supported_of_supportsFirst (by rfl)
  have hpass : passing ∈ (atInsert longAgent).own 0 := List.mem_of_getElem? (i := 2) (by rfl)
  obtain ⟨c, hrun, hended, hstatus⟩ := refused_longAgent
  have hagreed := hclaim (browsedCalls longAgent) c 0 (browsedEnquiry longAgent) rfl browsedInput
    (hbefore.trans hrun) rfl (valid_browsedEnquiry _)
    (Config.mem_own.mp (hrun.run.mem_own hpass)) hended
  obtain ⟨response, hresponse, hcode⟩ := List.mem_map.mp hstatus
  exact hagreed.2.2 response hresponse hcode

end Samples

end PropertyPlatform
