import PropertyPlatform.AllOrNothing
import PropertyPlatform.Replays

/-!
# What a 201 says

A 201 describes a row which the request that claimed the key validated and committed. For
a request without a key, and for the claimant itself, that is the request's own row.
-/

namespace PropertyPlatform

open Js Async Program

variable {P : Platform} {req : Request} {response : Response} {h : History}

section Ledgers

theorem mem_committed_append {x : ℕ × NewEnquiry} (hx : x ∈ (ledger h).committed)
    (e : Event signature) : x ∈ (ledger (h ++ [e])).committed := by
  rw [ledger_concat]
  cases haction : actionOf e with
  | none => rwa [book_of_none haction]
  | some a =>
    rw [book_of_some haction]
    exact Ledger.mem_committed_act hx a

end Ledgers

section Statuses

/-- The status an error is answered with. -/
def Err.status : Err → ℕ
  | .app e => e.statusCode
  | .native _ => 500

theorem errorHandler_status (requestId : String) (err : Err) :
    (errorHandler P requestId err).statusCode = err.status := by
  cases err <;> rfl

end Statuses

section Receipts

variable (P req)

/-- The request passed the middleware and committed the enquiry this response describes. -/
def Created (response : Response) (h : History) : Prop :=
  passing ∈ h ∧ ∃ input row, validateEnquiry P req = .ok input ∧
    response = createdResponse P row ∧ row.toNewEnquiry = newEnquiry P input req.context ∧
    rowKey row ∈ (ledger h).committed

/-- The request looked this response up. -/
def Replayed (response : Response) (h : History) : Prop :=
  ∃ k, req.usesKey k ∧ lookingUp k (.ok (some (.completed response))) ∈ h

/-- Every 201 that was sent was created or looked up, every stored one was created. -/
structure Vouched (h : History) : Prop where
  sent : ∀ response, response.statusCode = 201 → sending response ∈ h →
    Created P req response h ∨ Replayed req response h
  stored : ∀ k response, response.statusCode = 201 → completing k response ∈ h →
    Created P req response h

variable {P req}

theorem Created.append (hc : Created P req response h) (e : Event signature) :
    Created P req response (h ++ [e]) := by
  obtain ⟨hpass, input, row, hvalid, hresponse, hrow, hcommitted⟩ := hc
  exact ⟨List.mem_append_left _ hpass, input, row, hvalid, hresponse, hrow,
    mem_committed_append hcommitted e⟩

theorem Replayed.append (hr : Replayed req response h) (e : Event signature) :
    Replayed req response (h ++ [e]) := by
  obtain ⟨k, hk, hmem⟩ := hr
  exact ⟨k, hk, List.mem_append_left _ hmem⟩

theorem Vouched.append (hv : Vouched P req h) {e : Event signature}
    (hsent : ∀ response, response.statusCode = 201 → e = sending response →
      Created P req response h ∨ Replayed req response h)
    (hstored : ∀ k response, response.statusCode = 201 → e = completing k response →
      Created P req response h) : Vouched P req (h ++ [e]) := by
  refine ⟨fun response h201 hmem => ?_, fun k response h201 hmem => ?_⟩
  · have hold : Created P req response h ∨ Replayed req response h := by
      rcases List.mem_append.mp hmem with hmem | hmem
      · exact hv.sent response h201 hmem
      · exact hsent response h201 (List.mem_singleton.mp hmem).symm
    exact hold.imp (fun hc => hc.append e) fun hr => hr.append e
  · rcases List.mem_append.mp hmem with hmem | hmem
    · exact (hv.stored k response h201 hmem).append e
    · exact (hstored k response h201 (List.mem_singleton.mp hmem).symm).append e

theorem Vouched.frame (hv : Vouched P req h) {e : Event signature}
    (hsent : ∀ response, e ≠ sending response) (hstored : ∀ k response, e ≠ completing k response) :
    Vouched P req (h ++ [e]) :=
  hv.append (fun response _ he => absurd he (hsent response))
    fun k response _ he => absurd he (hstored k response)

theorem Vouched.sending (hv : Vouched P req h)
    (hsent : response.statusCode = 201 → Created P req response h ∨ Replayed req response h) :
    Vouched P req (h ++ [sending response]) := by
  refine hv.append (fun response' h201 he => ?_) fun k response' _ he => by cases he
  cases he
  exact hsent h201

theorem Vouched.completing (hv : Vouched P req h) (k : String)
    (hstored : response.statusCode = 201 → Created P req response h) :
    Vouched P req (h ++ [completing k response]) := by
  refine hv.append (fun response' _ he => by cases he) fun k' response' h201 he => ?_
  cases he
  exact hstored h201

end Receipts

section Programs

/-- Every event of the program keeps the history vouched for. -/
abbrev Vouches (P : Platform) (req : Request) {α : Type} (p : Promise α)
    (post : Except Err α → History → Prop) (h : History) : Prop :=
  p.Ensures honest (Vouched P req) post h

/-- The program ends without an error, and its history is vouched for. -/
def Sound (P : Platform) (req : Request) (o : Except Err Unit) (h : History) : Prop :=
  o = .ok () ∧ Vouched P req h

/-- A way of answering that only stores and sends a 201 which was created. -/
def JsonVouches (P : Platform) (req : Request) (json : Json) : Prop :=
  ∀ response h, Vouched P req h → (response.statusCode = 201 → Created P req response h) →
    Vouches P req (json response) (Sound P req) h

theorem JsonVouches.error {json : Json} (hjson : JsonVouches P req json) {err : Err}
    (herr : err.status ≠ 201) (hv : Vouched P req h) :
    Vouches P req (json (errorHandler P req.requestId err)) (Sound P req) h := by
  refine hjson _ h hv fun h201 => ?_
  rw [errorHandler_status] at h201
  exact absurd h201 herr

end Programs

section Runs

variable {ι : Type} [DecidableEq ι] {calls : ι → Call P} {c : System ι} {i j : ι}
variable {route : matchesEnquiryRoute req.path = true}

end Runs

section Samples

end Samples

end PropertyPlatform
