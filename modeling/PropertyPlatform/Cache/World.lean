import PropertyPlatform.Async.Interleaving
import PropertyPlatform.Cache.Services
import PropertyPlatform.Redis.Glob

/-!
# Redis and the CMS under many calls

A call is two tasks, the request and the refresh it may leave behind. All tasks share one
clock, the CMS and Redis, whose commands take effect one at a time; a `SCAN` call returns
the keys of one slot, so a key that comes or goes during a scan may be seen or missed. The
journal lists the events of all tasks in their order, with the time of each.
-/

namespace PropertyPlatform.Cache

open Js Async

inductive Task (ι : Type) where
  | request (i : ι)
  | refresh (i : ι)
  deriving DecidableEq

/-- The call a task belongs to. -/
def Task.owner {ι : Type} : Task ι → ι
  | .request i => i
  | .refresh i => i

structure Entry where
  key : String
  envelope : CacheEnvelope
  expiresAt : ℕ

/-- One event of a task, with its place in the order of all events. -/
structure Record (ι : Type) where
  seq : ℕ
  time : ℕ
  task : Task ι
  event : Event

/-- Times are in milliseconds. -/
structure World (ι : Type) where
  now : ℕ
  cms : CmsQuery → Page
  redis : List Entry
  detached : ι → Bool
  journal : List (Record ι)

inductive Choice where
  | resolves
  | rejects (e : NativeError)
  /-- The command took effect, but its acknowledgement was lost. -/
  | lost (e : NativeError)

inductive Drift where
  | tick (ms : ℕ)
  /-- The content behind a query is edited. -/
  | edit (q : CmsQuery) (body : Value)

namespace World

variable {ι : Type}

/-- A key whose time is up is gone, whether or not its memory has been freed. -/
def keys (w : World ι) : List Entry := w.redis.filter fun x => decide (w.now ≤ x.expiresAt)

def entry (w : World ι) (key : String) : Option Entry := w.keys.find? fun x => x.key == key

def store (w : World ι) (key : String) (envelope : CacheEnvelope) (exSeconds : ℕ) : World ι :=
  { w with redis := ⟨key, envelope, w.now + exSeconds * 1000⟩ ::
      w.redis.filter fun x => decide (x.key ≠ key) }

def erase (w : World ι) (keys : List String) : World ι :=
  { w with redis := w.redis.filter fun x => decide (x.key ∉ keys) }

def scan (E : Settings) (w : World ι) (cursor : ℕ) (pattern : String) : List String :=
  (w.keys.map Entry.key).filter fun key =>
    decide ((E.slot key).val = cursor) && Redis.isMatch pattern key

def edit (w : World ι) (q : CmsQuery) (body : Value) : World ι :=
  { w with cms := Function.update w.cms q ⟨(w.cms q).version + 1, body⟩ }

def log (w : World ι) (t : Task ι) (e : Event) : World ι :=
  { w with journal := w.journal ++ [⟨w.journal.length, w.now, t, e⟩] }

variable [DecidableEq ι] (E : Settings)

def answer (w : World ι) (t : Task ι) : (q : Operation) → Option (Except Err q.Reply × World ι)
  | .get key => some (.ok ((w.entry key).map Entry.envelope), w)
  | .set key envelope exSeconds => some (.ok (), w.store key envelope exSeconds)
  | .scan cursor pattern => some (.ok (w.scan E cursor pattern), w)
  | .del keys => some (.ok (), w.erase keys)
  | .dateNow => some (.ok w.now, w)
  | .query _ => some (.ok (), w)
  | .response q => some (.ok (w.cms q), w)
  | .detach =>
    match t with
    | .request i => some (.ok (), { w with detached := Function.update w.detached i true })
    | .refresh _ => none
  | .detached =>
    match t with
    | .request _ => none
    | .refresh i => if w.detached i then some (.ok (), w) else none

/-- What the choice makes of one operation. -/
def respond (w : World ι) (t : Task ι) (q : Operation) :
    Choice → Option (Except Err q.Reply × World ι)
  | .resolves => w.answer E t q
  | .rejects e => if q.mayReject then some (.error (.native e), w) else none
  | .lost e =>
    if q.isWrite then (w.answer E t q).map fun x => (.error (.native e), x.2) else none

def serve (w : World ι) (t : Task ι) (q : Operation) (choice : Choice) :
    Option (Except Err q.Reply × World ι) :=
  (w.respond E t q choice).map fun x => (x.1, x.2.log t ⟨q, x.1⟩)

omit [DecidableEq ι] in
def drift : Drift → World ι → Option (World ι)
  | .tick ms, w => some { w with now := w.now + ms }
  | .edit q body, w => some (w.edit q body)

end World

variable {ι : Type} [DecidableEq ι] (E : Settings)

def server : Async.Server signature (Task ι) (World ι) Choice Drift where
  serve t q choice w := w.serve E t q choice
  drift := World.drift

abbrev System (ι : Type) := Config signature (Task ι) (World ι) (Option Page)

def taskProgram (calls : ι → Call) : Task ι → Promise (Option Page)
  | .request i => (calls i).program E
  | .refresh i => (calls i).refresh

omit [DecidableEq ι] in
/-- An empty Redis before any call. -/
def World.initial (now : ℕ) (cms : CmsQuery → Page) : World ι where
  now := now
  cms := cms
  redis := []
  detached _ := false
  journal := []

def start (calls : ι → Call) (now : ℕ) (cms : CmsQuery → Page) : System ι :=
  Config.start (World.initial now cms) (taskProgram E calls)

def Reachable (calls : ι → Call) (c : System ι) : Prop :=
  ∃ now cms, Run (server E) (start E calls now cms) c

end PropertyPlatform.Cache
