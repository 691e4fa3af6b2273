import Mathlib.Tactic

/-!
# Asynchronous programs as trees of awaited requests

A program awaits requests one at a time. Every reply is either a value or a
rejection, and the continuation is told which. Nothing is said here about who
answers: the same program is run alone, interleaved with others, or against
every possible reply.
-/

namespace Async

/-- The requests a family of programs may await, with the type of each reply. -/
structure Signature where
  Request : Type
  Reply : Request → Type
  Err : Type

variable {S : Signature} {α β : Type}

inductive Program (S : Signature) (α : Type) where
  | pure (value : α) : Program S α
  | throw (err : S.Err) : Program S α
  | await (request : S.Request) (resume : Except S.Err (S.Reply request) → Program S α) :
      Program S α

/-- One answered request. -/
structure Event (S : Signature) where
  request : S.Request
  reply : Except S.Err (S.Reply request)

/-- The requests of one program in the order they were answered. -/
abbrev History (S : Signature) := List (Event S)

namespace Program

def bind (p : Program S α) (f : α → Program S β) : Program S β :=
  match p with
  | .pure a => f a
  | .throw e => .throw e
  | .await q k => .await q fun r => (k r).bind f

instance : Monad (Program S) where
  pure := .pure
  bind := bind

@[simp] theorem pure_eq (a : α) : (Pure.pure a : Program S α) = .pure a := rfl

@[simp] theorem bind_eq (p : Program S α) (f : α → Program S β) : p >>= f = p.bind f := rfl

/-- Awaiting a request: a rejection becomes an exception of the program. -/
def perform (q : S.Request) : Program S (S.Reply q) :=
  .await q fun
    | .ok a => .pure a
    | .error e => .throw e

/-- `try p catch (err) { handler }`. -/
def catching (p : Program S α) (handler : S.Err → Program S α) : Program S α :=
  match p with
  | .pure a => .pure a
  | .throw e => handler e
  | .await q k => .await q fun r => (k r).catching handler

/-- `try p finally { cleanup }`: an exception of the cleanup replaces the outcome. -/
def finalizing (p : Program S α) (cleanup : Program S Unit) : Program S α :=
  match p with
  | .pure a => cleanup.bind fun _ => .pure a
  | .throw e => cleanup.bind fun _ => .throw e
  | .await q k => .await q fun r => (k r).finalizing cleanup

/-- Every request the program can ever await satisfies the predicate. -/
def Uses (allowed : S.Request → Prop) : Program S α → Prop
  | .pure _ => True
  | .throw _ => True
  | .await q k => allowed q ∧ ∀ r, (k r).Uses allowed

variable {allowed : S.Request → Prop}

@[simp] theorem uses_pure (a : α) : (Program.pure a : Program S α).Uses allowed := trivial

@[simp] theorem uses_throw (e : S.Err) : (Program.throw e : Program S α).Uses allowed := trivial

@[simp] theorem uses_perform (q : S.Request) : (perform q).Uses allowed ↔ allowed q := by
  constructor
  · exact fun h => h.1
  · intro h
    refine ⟨h, fun r => ?_⟩
    cases r <;> trivial

theorem uses_bind {p : Program S α} {f : α → Program S β} (hp : p.Uses allowed)
    (hf : ∀ a, (f a).Uses allowed) : (p.bind f).Uses allowed := by
  induction p with
  | pure a => exact hf a
  | throw e => trivial
  | await q k ih => exact ⟨hp.1, fun r => ih r (hp.2 r)⟩

theorem uses_catching {p : Program S α} {handler : S.Err → Program S α} (hp : p.Uses allowed)
    (hh : ∀ e, (handler e).Uses allowed) : (p.catching handler).Uses allowed := by
  induction p with
  | pure a => trivial
  | throw e => exact hh e
  | await q k ih => exact ⟨hp.1, fun r => ih r (hp.2 r)⟩

theorem uses_finalizing {p : Program S α} {cleanup : Program S Unit} (hp : p.Uses allowed)
    (hc : cleanup.Uses allowed) : (p.finalizing cleanup).Uses allowed := by
  induction p with
  | pure a => exact uses_bind hc fun _ => trivial
  | throw e => exact uses_bind hc fun _ => trivial
  | await q k ih => exact ⟨hp.1, fun r => ih r (hp.2 r)⟩

theorem Uses.mono {larger : S.Request → Prop} {p : Program S α} (hp : p.Uses allowed)
    (h : ∀ q, allowed q → larger q) : p.Uses larger := by
  induction p with
  | pure a => trivial
  | throw e => trivial
  | await q k ih => exact ⟨h q hp.1, fun r => ih r (hp.2 r)⟩

/-- Every request is allowed, and every value returned is good. -/
def Yields (allowed : S.Request → Prop) (good : α → Prop) : Program S α → Prop
  | .pure a => good a
  | .throw _ => True
  | .await q k => allowed q ∧ ∀ r, (k r).Yields allowed good

theorem yields_bind {good : β → Prop} {p : Program S α} {f : α → Program S β}
    (hp : p.Uses allowed) (hf : ∀ a, (f a).Yields allowed good) :
    (p.bind f).Yields allowed good := by
  induction p with
  | pure a => exact hf a
  | throw e => trivial
  | await q k ih => exact ⟨hp.1, fun r => ih r (hp.2 r)⟩

theorem Yields.catching {good : α → Prop} {p : Program S α} {handler : S.Err → Program S α}
    (hp : p.Yields allowed good) (hh : ∀ e, (handler e).Yields allowed good) :
    (p.catching handler).Yields allowed good := by
  induction p with
  | pure a => exact hp
  | throw e => exact hh e
  | await q k ih => exact ⟨hp.1, fun r => ih r (hp.2 r)⟩

theorem Yields.mono {larger : S.Request → Prop} {good : α → Prop} {p : Program S α}
    (hp : p.Yields allowed good) (h : ∀ q, allowed q → larger q) : p.Yields larger good := by
  induction p with
  | pure a => exact hp
  | throw e => trivial
  | await q k ih => exact ⟨h q hp.1, fun r => ih r (hp.2 r)⟩

/-- The rest of a sequence only has to be good for the values that can arise. -/
theorem Yields.bind {good : α → Prop} {p : Program S α} {f : α → Program S β}
    (hp : p.Yields allowed good) (hf : ∀ a, good a → (f a).Uses allowed) :
    (p.bind f).Uses allowed := by
  induction p with
  | pure a => exact hf a hp
  | throw e => trivial
  | await q k ih => exact ⟨hp.1, fun r => ih r (hp.2 r)⟩

end Program
end Async
