import PropertyPlatform.Routes
import PropertyPlatform.World

/-!
# The running system

Any number of calls run on any number of instances: a run interleaves their steps
with each other and with the drifts of the world. What one step can do to the world
is said once, by `World.Served`.
-/

namespace PropertyPlatform

open Js Async

variable (P : Platform)

inductive Call where
  | createEnquiry (input : CreateEnquiryInput P) (ctx : CreateEnquiryContext)
  | postEnquiry (req : Request) (route : matchesEnquiryRoute req.path = true)
  | postCrmWebhook (req : Request)
  | crmSyncJob (enquiryId : ℕ)

/-- Only `createEnquiry` has a result the other calls do not send as a response. -/
def program : Call P → Promise (Option EnquiryRecord)
  | .createEnquiry input ctx => (createEnquiry P input ctx).bind fun row => .pure (some row)
  | .postEnquiry req _ => (postEnquiry P req).bind fun _ => .pure none
  | .postCrmWebhook req => (postCrmWebhook P req).bind fun _ => .pure none
  | .crmSyncJob enquiryId => (pushEnquiryToCrm enquiryId).bind fun _ => .pure none

variable {ι : Type}

abbrev System (ι : Type) := Config signature ι (World ι) (Option EnquiryRecord)

def start (calls : ι → Call P) (now : ℕ) (properties : ℕ → Option PropertyStatus) : System ι :=
  Config.start (World.initial now properties) fun i => program P (calls i)

variable [DecidableEq ι]

def Reachable (calls : ι → Call P) (c : System ι) : Prop :=
  ∃ now properties, Run (server P) (start P calls now properties) c

/-- What the world makes of one operation of a live call. -/
inductive World.Served (w : World ι) (i : ι) :
    (q : Operation) → Except Err q.Reply → World ι → Prop where
  | answered {q : Operation} {r : Except Err q.Reply} {w' : World ι}
      (h : w.answer P i q = some (r, w')) : Served w i q r w'
  | lost {q : Operation} {r : Except Err q.Reply} {w' : World ι} {e : NativeError}
      (h : w.answer P i q = some (r, w')) (hauto : q.isAutocommit = true)
      (he : q.mayReject e = true) : Served w i q (.error (.native e)) w'
  | rejected {q : Operation} {e : NativeError} (he : q.mayReject e = true) :
      Served w i q (.error (.native e)) (w.failed i q)
  | exceeded (limiter : Limiter) : Served w i (.rateLimit limiter) (.ok false) w
  | drawn : Served w i .random (.ok true) w

variable {P}

theorem World.served_of_serve {w w' : World ι} {i : ι} {q : Operation} {choice : Choice}
    {r : Except Err q.Reply} (h : w.serve P i q choice = some (r, w')) :
    w.crashed i = false ∧ w.Served P i q r w' := by
  unfold World.serve at h
  split_ifs at h with hcrashed
  refine ⟨by simpa using hcrashed, ?_⟩
  cases choice with
  | resolves => exact .answered h
  | rejects e =>
    simp only at h
    split_ifs at h with he
    cases h
    exact .rejected he
  | lost e =>
    simp only at h
    split_ifs at h with he
    obtain ⟨⟨r', w''⟩, hanswer, heq⟩ := Option.map_eq_some_iff.mp h
    cases heq
    rw [Bool.and_eq_true] at he
    exact .lost hanswer he.1 he.2
  | refuses =>
    cases q <;> simp only [World.refuse, reduceCtorEq] at h
    · cases h
      exact .exceeded _
    · cases h
      exact .drawn

/-- Induction over the runs of the system. -/
theorem Reachable.induct {calls : ι → Call P} {Inv : System ι → Prop} {c : System ι}
    (h : Reachable P calls c)
    (hstart : ∀ now properties, Inv (start P calls now properties))
    (hserve : ∀ c i q k r w', Reachable P calls c → Inv c → c.program i = .await q k →
      c.world.crashed i = false → c.world.Served P i q r w' → Inv (c.answered i q r k w'))
    (hdrift : ∀ c d w', Reachable P calls c → Inv c → World.drift d c.world = some w' →
      Inv { c with world := w' }) : Inv c := by
  obtain ⟨now, properties, hrun⟩ := h
  refine hrun.invariant (hstart now properties) fun a b ha hInv hstep => ?_
  cases hstep with
  | serve hprogram hserved =>
    obtain ⟨hlive, hserved⟩ := World.served_of_serve hserved
    exact hserve _ _ _ _ _ _ ⟨now, properties, ha⟩ hInv hprogram hlive hserved
  | drift hd => exact hdrift _ _ _ ⟨now, properties, ha⟩ hInv hd

/-- A step of the run that answers one given call. -/
def StepOf (P : Platform) (i : ι) (c c' : System ι) : Prop :=
  ∃ (q : Operation) (k : Except Err q.Reply → Promise (Option EnquiryRecord)) (choice : Choice)
    (r : Except Err q.Reply) (w' : World ι), c.program i = .await q k ∧
      c.world.serve P i q choice = some (r, w') ∧ c' = c.answered i q r k w'

theorem StepOf.step {i : ι} {c c' : System ι} (h : StepOf P i c c') : Step (server P) c c' := by
  obtain ⟨q, k, choice, r, w', hprogram, hserve, rfl⟩ := h
  exact Step.serve hprogram hserve

section Samples

theorem samplePhone_valid : ∀ s ∈ some "+919876543210", phoneFormat s = true := by decide

theorem sampleMessage_length :
    1 ≤ utf16Length "Please call me." ∧ utf16Length "Please call me." ≤ 2000 := by decide

def sampleInput : CreateEnquiryInput .sample where
  fullName := "Jane Doe"
  email := "jane@example.com"
  phone := some "+919876543210"
  propertyId := 1
  message := "Please call me."
  source := .website
  fullName_length := sampleName_length
  email_valid := sampleEmail_valid
  phone_valid := samplePhone_valid
  propertyId_pos := Nat.one_pos
  message_length := sampleMessage_length

def sampleContext : CreateEnquiryContext := ⟨some "203.0.113.7", none⟩

/-- Property 1 is published, nothing else exists. -/
def sampleStart (calls : ℕ → Call .sample) : System ℕ :=
  start .sample calls 0 fun id => if id = 1 then some .published else none

def timesOut : NativeError := ⟨"Connection is closed.", none, none⟩

/-- Steps of one call that nothing disturbs. -/
def undisturbed (i n : ℕ) : List (Move ℕ Choice (Drift ℕ)) :=
  List.replicate n (.serve i .resolves)

def sampleRun (calls : ℕ → Call .sample) (ms : List (Move ℕ Choice (Drift ℕ))) : System ℕ :=
  (sampleStart calls).after (server .sample) ms

theorem run_sampleRun {calls : ℕ → Call .sample} {ms : List (Move ℕ Choice (Drift ℕ))}
    (h : ((sampleStart calls).replay (server .sample) ms).isSome = true) :
    Run (server .sample) (sampleStart calls) (sampleRun calls ms) :=
  Config.run_after h

theorem reachable_sampleRun {calls : ℕ → Call .sample} {ms : List (Move ℕ Choice (Drift ℕ))}
    (h : ((sampleStart calls).replay (server .sample) ms).isSome = true) :
    Reachable .sample calls (sampleRun calls ms) :=
  ⟨0, _, run_sampleRun h⟩

def isRejection : Event signature → Bool
  | ⟨_, .error _⟩ => true
  | _ => false

theorem not_mem_of_undisturbed {c : System ℕ}
    (h : (c.trace.all fun x => !isRejection x.2) = true) (i : ℕ) (q : Operation) (e : Err) :
    (i, (⟨q, .error e⟩ : Event signature)) ∉ c.trace := by
  intro hmem
  have hx := List.all_eq_true.mp h _ hmem
  cases hx

end Samples

theorem Reachable.run {calls : ι → Call P} {c c' : System ι} (h : Reachable P calls c)
    (hrun : Run (server P) c c') : Reachable P calls c' := by
  obtain ⟨now, properties, h⟩ := h
  exact ⟨now, properties, h.trans hrun⟩

end PropertyPlatform
