import PropertyPlatform.Async.Broadcast
import PropertyPlatform.Js.Value

/-!
# The dead-letter queue

Worker processes share the jobs of two queues, while the event of a job that has failed for good
goes to every process that listens to its queue, and each adds an entry of its own.
-/

namespace PropertyPlatform

open Js Async

/-- The queues that `worker.ts` loads a worker for. -/
inductive WorkQueue where
  | crmSync
  | email
  deriving DecidableEq

namespace WorkQueue

def name : WorkQueue → String
  | .crmSync => "crm-sync"
  | .email => "email"

/-- How many jobs one process runs at a time. -/
def concurrency : WorkQueue → ℕ
  | .crmSync => 5
  | .email => 10

theorem name_injective : Function.Injective name := by
  intro q q' h
  cases q <;> cases q' <;> first | rfl | simp [name] at h

end WorkQueue

/-- `defaultJobOptions.attempts` -/
def attempts : ℕ := 3

inductive JobState (π : Type) where
  | waiting
  | active (worker : π)
  | completed
  | failed
  deriving DecidableEq

def JobState.isActive {π : Type} : JobState π → Bool
  | .active _ => true
  | _ => false

structure QueuedJob (π : Type) where
  queue : WorkQueue
  jobId : String
  attemptsMade : ℕ
  state : JobState π

def QueuedJob.key {π : Type} (job : QueuedJob π) : WorkQueue × String := (job.queue, job.jobId)

/-- What the `QueueEvents` of a queue hand to a listener of `failed`. -/
structure FailedEvent where
  queue : WorkQueue
  jobId : String
  failedReason : String

def FailedEvent.key (e : FailedEvent) : WorkQueue × String := (e.queue, e.jobId)

structure DeadLetter where
  originalQueue : String
  jobName : String
  data : Value
  failedReason : String
  failedAt : String

/-- Queues and processes. `loaded` lists the worker modules each process has imported, which is
where it takes jobs from and listens. -/
structure Workers (π : Type) where
  loaded : List (π × WorkQueue)
  jobs : List (QueuedJob π)
  events : Broadcast π FailedEvent
  deadLetters : List DeadLetter

section Model

variable {π : Type} [DecidableEq π]

def sendToDeadLetter (originalQueue jobName : String) (data : Value) (failedReason now : String)
    (s : Workers π) : Workers π :=
  { s with deadLetters := s.deadLetters ++ [⟨originalQueue, jobName, data, failedReason, now⟩] }

/-- The handler that `attachDeadLetterHandler` puts on the events of a queue. -/
def deadLetterHandler (queueName : String) (e : FailedEvent) (now : String) (s : Workers π) :
    Workers π :=
  sendToDeadLetter queueName e.jobId (Value.object [("jobId", .str e.jobId)]) e.failedReason now s

namespace Workers

def start : Workers π := ⟨[], [], Broadcast.empty, []⟩

def job (s : Workers π) (key : WorkQueue × String) : Option (QueuedJob π) :=
  s.jobs.find? fun j => j.key = key

def setJob (s : Workers π) (job : QueuedJob π) : Workers π :=
  { s with jobs := s.jobs.map fun j => if j.key = job.key then job else j }

/-- The processes that have loaded the worker of a queue. -/
def listeners (s : Workers π) (q : WorkQueue) : List π :=
  (s.loaded.filter fun x => x.2 = q).map Prod.fst

def running (s : Workers π) (worker : π) (q : WorkQueue) : ℕ :=
  s.jobs.countP fun j => j.queue = q ∧ j.state = .active worker

inductive Action (π : Type) where
  | load (worker : π) (queue : WorkQueue)
  | add (queue : WorkQueue) (jobId : String)
  | take (worker : π) (queue : WorkQueue) (jobId : String)
  | complete (queue : WorkQueue) (jobId : String)
  | throw (queue : WorkQueue) (jobId : String) (failedReason : String)
  | handle (n : ℕ) (now : String)

/-- The job is tried again until it has used up its attempts. -/
def attemptFailed (s : Workers π) (job : QueuedJob π) (failedReason : String) : Workers π :=
  if job.attemptsMade + 1 < attempts then
    s.setJob { job with attemptsMade := job.attemptsMade + 1, state := .waiting }
  else
    { s.setJob { job with attemptsMade := job.attemptsMade + 1, state := .failed } with
      events := s.events.publish (s.listeners job.queue) ⟨job.queue, job.jobId, failedReason⟩ }

def step (s : Workers π) : Action π → Option (Workers π)
  -- `bootstrap` imports the crm-sync worker first
  | .load worker q =>
    if (worker, q) ∉ s.loaded ∧ (q = .email → (worker, .crmSync) ∈ s.loaded) then
      some { s with loaded := s.loaded ++ [(worker, q)] }
    else none
  -- an id that the queue knows already is not added again
  | .add q jobId =>
    if (s.job (q, jobId)).isSome then some s
    else some { s with jobs := s.jobs ++ [⟨q, jobId, 0, .waiting⟩] }
  | .take worker q jobId =>
    if (worker, q) ∈ s.loaded ∧ s.running worker q < q.concurrency then
      ((s.job (q, jobId)).filter fun j => j.state = .waiting).map fun j =>
        s.setJob { j with state := .active worker }
    else none
  | .complete q jobId =>
    ((s.job (q, jobId)).filter fun j => j.state.isActive).map fun j =>
      s.setJob { j with state := .completed }
  | .throw q jobId failedReason =>
    ((s.job (q, jobId)).filter fun j => j.state.isActive).map fun j =>
      s.attemptFailed j failedReason
  | .handle n now =>
    (s.events.handle n).map fun d =>
      deadLetterHandler d.1.2.queue.name d.1.2 now { s with events := d.2 }

/-- A run of the queues and the processes. -/
def run (s : Workers π) : List (Action π) → Option (Workers π)
  | [] => some s
  | a :: as => (s.step a).bind fun s' => s'.run as

/-- Every step of a run, and the state it is taken in, meets a condition. -/
def EachStep (C : Workers π → Action π → Prop) (s : Workers π) : List (Action π) → Prop
  | [] => True
  | a :: as => C s a ∧ ∀ s', s.step a = some s' → s'.EachStep C as

/-- The queue of the job that an action makes fail for good. -/
def givesUp (s : Workers π) : Action π → Option WorkQueue
  | .throw q jobId _ =>
    ((s.job (q, jobId)).filter fun j => j.state.isActive ∧ attempts ≤ j.attemptsMade + 1).map
      QueuedJob.queue
  | _ => none

/-- The entries that name a job. -/
def entries (s : Workers π) (key : WorkQueue × String) : ℕ :=
  s.deadLetters.countP fun e => e.originalQueue = key.1.name ∧ e.jobName = key.2

/-- One entry for each job that has failed for good, none for the other jobs. -/
def DeadLetteredOnce (s : Workers π) : Prop :=
  ∀ j ∈ s.jobs, s.entries j.key = if j.state = .failed then 1 else 0

/-- A job fails for good only while a single process listens to its queue. -/
def OneListener (s : Workers π) (a : Action π) : Prop :=
  ∀ q, s.givesUp a = some q → (s.listeners q).length = 1

section Jobs

variable {s : Workers π} {j j' : QueuedJob π} {key : WorkQueue × String}

omit [DecidableEq π] in
theorem mem_of_job (h : s.job key = some j) : j ∈ s.jobs ∧ j.key = key :=
  ⟨List.mem_of_find?_eq_some h, by simpa using List.find?_some h⟩

omit [DecidableEq π] in
theorem key_ne_of_job_eq_none (h : s.job key = none) : ∀ j ∈ s.jobs, j.key ≠ key := by
  intro j hj
  simpa using List.find?_eq_none.mp h j hj

omit [DecidableEq π] in
theorem mem_setJob : j ∈ (s.setJob j').jobs ↔
    (j = j' ∧ ∃ i ∈ s.jobs, i.key = j'.key) ∨ (j ∈ s.jobs ∧ j.key ≠ j'.key) := by
  simp only [setJob, List.mem_map]
  constructor
  · rintro ⟨i, hi, rfl⟩
    split_ifs with hkey
    · exact Or.inl ⟨rfl, i, hi, hkey⟩
    · exact Or.inr ⟨hi, hkey⟩
  · rintro (⟨rfl, i, hi, hkey⟩ | ⟨hj, hkey⟩)
    · exact ⟨i, hi, if_pos hkey⟩
    · exact ⟨j, hj, if_neg hkey⟩

omit [DecidableEq π] in
theorem keys_setJob : (s.setJob j').jobs.map QueuedJob.key = s.jobs.map QueuedJob.key := by
  rw [setJob, List.map_map]
  refine List.map_congr_left fun i _ => ?_
  simp only [Function.comp_apply]
  split_ifs with hkey
  · exact hkey.symm
  · rfl

end Jobs

section Listeners

variable {s : Workers π} {worker : π} {q : WorkQueue}

omit [DecidableEq π] in
theorem mem_listeners : worker ∈ s.listeners q ↔ (worker, q) ∈ s.loaded := by
  simp [listeners]

omit [DecidableEq π] in
theorem nodup_listeners (h : s.loaded.Nodup) : (s.listeners q).Nodup := by
  refine (h.filter _).map_on fun x hx y hy hxy => ?_
  have hx : x.2 = q := by simpa using (List.mem_filter.mp hx).2
  have hy : y.2 = q := by simpa using (List.mem_filter.mp hy).2
  exact Prod.ext hxy (hx.trans hy.symm)

end Listeners

section Steps

/-- What a step does. -/
inductive Stepped (s : Workers π) (a : Action π) : Workers π → Prop where
  | loaded (worker : π) (q : WorkQueue) (hnew : (worker, q) ∉ s.loaded)
      (hgives : s.givesUp a = none) : Stepped s a { s with loaded := s.loaded ++ [(worker, q)] }
  | known (hgives : s.givesUp a = none) : Stepped s a s
  | added (q : WorkQueue) (jobId : String) (hnew : s.job (q, jobId) = none)
      (hgives : s.givesUp a = none) :
      Stepped s a { s with jobs := s.jobs ++ [⟨q, jobId, 0, .waiting⟩] }
  | moved (j j' : QueuedJob π) (hj : j ∈ s.jobs) (hkey : j'.key = j.key)
      (hstate : j.state ≠ .failed) (hstate' : j'.state ≠ .failed)
      (hactive : ∀ worker, j'.state = .active worker → (worker, j'.queue) ∈ s.loaded)
      (hgives : s.givesUp a = none) : Stepped s a (s.setJob j')
  | gaveUp (j j' : QueuedJob π) (failedReason : String) (worker : π) (hj : j ∈ s.jobs)
      (hkey : j'.key = j.key) (hstate : j.state = .active worker) (hstate' : j'.state = .failed)
      (hgives : s.givesUp a = some j.queue) :
      Stepped s a { s.setJob j' with
        events := s.events.publish (s.listeners j.queue) ⟨j.queue, j.jobId, failedReason⟩ }
  | handled (n : ℕ) (now : String) (d : π × FailedEvent) (events : Broadcast π FailedEvent)
      (hd : s.events.handle n = some (d, events)) (hgives : s.givesUp a = none) :
      Stepped s a (deadLetterHandler d.2.queue.name d.2 now { s with events := events })

variable {s s' : Workers π} {a : Action π}

omit [DecidableEq π] in
theorem job_of_filter {key : WorkQueue × String} {p : QueuedJob π → Bool}
    {f : QueuedJob π → Workers π}
    (h : ((s.job key).filter p).map f = some s') :
    ∃ j, s.job key = some j ∧ j ∈ s.jobs ∧ j.key = key ∧ p j = true ∧ s' = f j := by
  obtain ⟨j, hj, rfl⟩ := Option.map_eq_some_iff.mp h
  obtain ⟨hj, hp⟩ := Option.filter_eq_some_iff.mp hj
  exact ⟨j, hj, (mem_of_job hj).1, (mem_of_job hj).2, hp, rfl⟩

omit [DecidableEq π] in
theorem active_of_isActive {st : JobState π} (h : st.isActive = true) :
    ∃ worker, st = .active worker := by
  cases st <;> first | exact ⟨_, rfl⟩ | cases h

theorem step_cases (h : s.step a = some s') : s.Stepped a s' := by
  cases a with
  | load worker q =>
    simp only [step] at h
    split_ifs at h with hnew
    cases h
    exact .loaded worker q hnew.1 rfl
  | add q jobId =>
    simp only [step] at h
    split_ifs at h with hknown
    · cases h
      exact .known rfl
    · cases h
      exact .added q jobId (by simpa using hknown) rfl
  | take worker q jobId =>
    simp only [step] at h
    split_ifs at h with hfree
    obtain ⟨j, -, hj, hkey, hstate, rfl⟩ := job_of_filter h
    have hwaiting : j.state = .waiting := by simpa using hstate
    refine .moved j _ hj rfl (by simp [hwaiting]) (by simp) ?_ rfl
    rintro _ ⟨⟩
    have hq : j.queue = q := congrArg Prod.fst hkey
    exact hq ▸ hfree.1
  | complete q jobId =>
    obtain ⟨j, -, hj, -, hstate, rfl⟩ := job_of_filter h
    obtain ⟨worker, hworker⟩ := active_of_isActive hstate
    exact .moved j _ hj rfl (by simp [hworker]) (by simp) (by simp) rfl
  | throw q jobId failedReason =>
    obtain ⟨j, hjob, hj, hkey, hstate, rfl⟩ := job_of_filter h
    obtain ⟨worker, hworker⟩ := active_of_isActive hstate
    unfold attemptFailed
    split_ifs with hmore
    · refine .moved j _ hj rfl (by simp [hworker]) (by simp) (by simp) ?_
      simp [givesUp, hjob, Option.filter, hmore.not_ge]
    · refine .gaveUp j _ failedReason worker hj rfl hworker rfl ?_
      simp [givesUp, hjob, Option.filter, hstate, not_lt.mp hmore]
  | handle n now =>
    obtain ⟨⟨d, events⟩, hd, rfl⟩ := Option.map_eq_some_iff.mp h
    exact .handled n now d events hd rfl

/-- Every event of a job that has failed for good is listed with its listeners, and an entry stands
for every event handled. -/
structure Accounted (s : Workers π) : Prop where
  loaded : s.loaded.Nodup
  keys : (s.jobs.map QueuedJob.key).Nodup
  active : ∀ j ∈ s.jobs, ∀ worker, j.state = .active worker → (worker, j.queue) ∈ s.loaded
  balanced : s.events.Balanced
  sent_keys : (s.events.sent.map fun x => x.2.key).Nodup
  heard : ∀ x ∈ s.events.sent, x.1 ≠ [] ∧ x.1.Nodup
  failed : ∀ j ∈ s.jobs, j.state = .failed ↔ j.key ∈ s.events.sent.map fun x => x.2.key
  known : ∀ x ∈ s.events.sent, ∃ j ∈ s.jobs, j.key = x.2.key
  named : s.deadLetters.map (fun e => (e.originalQueue, e.jobName)) =
    s.events.handled.map fun d => (d.2.queue.name, d.2.jobId)

omit [DecidableEq π] in
theorem accounted_start : (start : Workers π).Accounted where
  loaded := List.nodup_nil
  keys := List.nodup_nil
  active := by simp [start]
  balanced := Broadcast.balanced_empty
  sent_keys := List.nodup_nil
  heard := by simp [start, Broadcast.empty]
  failed := by simp [start]
  known := by simp [start, Broadcast.empty]
  named := rfl

omit [DecidableEq π] in
theorem Accounted.eq_of_key (h : s.Accounted) {j j' : QueuedJob π} (hj : j ∈ s.jobs)
    (hj' : j' ∈ s.jobs) (hkey : j.key = j'.key) : j = j' :=
  List.inj_on_of_nodup_map h.keys hj hj' hkey

omit [DecidableEq π] in
theorem Accounted.setJob (h : s.Accounted) {j j' : QueuedJob π} (hj : j ∈ s.jobs)
    (hkey : j'.key = j.key) (hstate : j.state ≠ .failed) (hstate' : j'.state ≠ .failed)
    (hactive : ∀ worker, j'.state = .active worker → (worker, j'.queue) ∈ s.loaded) :
    (s.setJob j').Accounted where
  loaded := h.loaded
  keys := by
    rw [keys_setJob]
    exact h.keys
  active := by
    intro i hi
    rcases mem_setJob.mp hi with ⟨rfl, -⟩ | ⟨hi, -⟩
    · exact hactive
    · exact h.active i hi
  balanced := h.balanced
  sent_keys := h.sent_keys
  heard := h.heard
  failed := by
    intro i hi
    rcases mem_setJob.mp hi with ⟨rfl, -⟩ | ⟨hi, -⟩
    · rw [hkey]
      exact iff_of_false hstate' fun hsent => hstate ((h.failed j hj).mpr hsent)
    · exact h.failed i hi
  known := by
    intro x hx
    obtain ⟨i, hi, hix⟩ := h.known x hx
    have hmem : x.2.key ∈ (s.setJob j').jobs.map QueuedJob.key := by
      rw [keys_setJob, ← hix]
      exact List.mem_map_of_mem hi
    exact List.mem_map.mp hmem
  named := h.named

omit [DecidableEq π] in
theorem Accounted.gaveUp (h : s.Accounted) {j j' : QueuedJob π} {worker : π} (hj : j ∈ s.jobs)
    (hkey : j'.key = j.key) (hstate : j.state = .active worker) (hstate' : j'.state = .failed)
    (failedReason : String) : Accounted { s.setJob j' with
      events := s.events.publish (s.listeners j.queue) ⟨j.queue, j.jobId, failedReason⟩ } where
  loaded := h.loaded
  keys := by
    rw [keys_setJob]
    exact h.keys
  active := by
    intro i hi
    rcases mem_setJob.mp hi with ⟨rfl, -⟩ | ⟨hi, -⟩
    · simp [hstate']
    · exact h.active i hi
  balanced := h.balanced.publish _ _
  sent_keys := by
    have hnew : j.key ∉ s.events.sent.map fun x => x.2.key := by
      rw [← h.failed j hj, hstate]
      simp
    simp only [Broadcast.publish, List.map_append, List.map_cons, List.map_nil]
    exact h.sent_keys.append (List.nodup_singleton _) (List.disjoint_singleton.mpr hnew)
  heard := by
    intro x hx
    rcases List.mem_append.mp hx with hx | hx
    · exact h.heard x hx
    · cases List.mem_singleton.mp hx
      have hmem : worker ∈ s.listeners j.queue := mem_listeners.mpr (h.active j hj worker hstate)
      exact ⟨List.ne_nil_of_mem hmem, nodup_listeners h.loaded⟩
  failed := by
    intro i hi
    simp only [Broadcast.publish, List.map_append, List.map_cons, List.map_nil, List.mem_append,
      List.mem_singleton]
    rcases mem_setJob.mp hi with ⟨rfl, -⟩ | ⟨hi, hne⟩
    · exact iff_of_true hstate' (Or.inr hkey)
    · rw [h.failed i hi]
      exact ⟨Or.inl, fun hsent => hsent.resolve_right fun heq => hne (heq.trans hkey.symm)⟩
  known := by
    intro x hx
    have hmem : x.2.key ∈ (s.setJob j').jobs.map QueuedJob.key := by
      rw [keys_setJob]
      rcases List.mem_append.mp hx with hx | hx
      · obtain ⟨i, hi, hix⟩ := h.known x hx
        exact hix ▸ List.mem_map_of_mem hi
      · cases List.mem_singleton.mp hx
        exact List.mem_map_of_mem hj
    exact List.mem_map.mp hmem
  named := h.named

theorem Accounted.step (h : s.Accounted) (hs : s.step a = some s') : s'.Accounted := by
  cases step_cases hs with
  | loaded worker q hnew =>
    refine { h with loaded := ?_, active := ?_ }
    · exact h.loaded.append (List.nodup_singleton _) (List.disjoint_singleton.mpr hnew)
    · exact fun j hj w hw => List.mem_append_left _ (h.active j hj w hw)
  | known => exact h
  | added q jobId hnew =>
    have hfresh : ∀ j ∈ s.jobs, j.key ≠ (q, jobId) := key_ne_of_job_eq_none hnew
    refine { h with keys := ?_, active := ?_, failed := ?_, known := ?_ }
    · rw [List.map_append]
      refine h.keys.append (List.nodup_singleton _) (List.disjoint_singleton.mpr fun hmem => ?_)
      obtain ⟨j, hj, hkey⟩ := List.mem_map.mp hmem
      exact hfresh j hj hkey
    · intro j hj
      rcases List.mem_append.mp hj with hj | hj
      · exact h.active j hj
      · cases List.mem_singleton.mp hj
        simp
    · intro j hj
      rcases List.mem_append.mp hj with hj | hj
      · exact h.failed j hj
      · cases List.mem_singleton.mp hj
        refine iff_of_false (by simp) fun hsent => ?_
        obtain ⟨x, hx, hkey⟩ := List.mem_map.mp hsent
        obtain ⟨i, hi, hix⟩ := h.known x hx
        exact hfresh i hi (hix.trans hkey)
    · intro x hx
      obtain ⟨j, hj, hkey⟩ := h.known x hx
      exact ⟨j, List.mem_append_left _ hj, hkey⟩
  | moved j j' hj hkey hstate hstate' hactive => exact h.setJob hj hkey hstate hstate' hactive
  | gaveUp j j' failedReason worker hj hkey hstate hstate' =>
    exact h.gaveUp hj hkey hstate hstate' failedReason
  | handled n now d events hd =>
    obtain ⟨hsent, hhandled, -⟩ := Broadcast.handle_eq_some hd
    refine ⟨h.loaded, h.keys, h.active, h.balanced.handle hd, ?_, ?_, ?_, ?_, ?_⟩
    · exact hsent ▸ h.sent_keys
    · exact hsent ▸ h.heard
    · exact hsent ▸ h.failed
    · exact hsent ▸ h.known
    · simp only [deadLetterHandler, sendToDeadLetter, hhandled, List.map_append, h.named]
      rfl

theorem Accounted.run {as : List (Action π)} (h : s.Accounted) (hrun : s.run as = some s') :
    s'.Accounted := by
  induction as generalizing s with
  | nil =>
    cases hrun
    exact h
  | cons a as ih =>
    obtain ⟨s₁, hstep, hrun⟩ := Option.bind_eq_some_iff.mp hrun
    exact ih (h.step hstep) hrun

end Steps

section Entries

variable {s s' : Workers π} {a : Action π} {as : List (Action π)}

/-- The deliveries of a job's event that have not been handled yet. -/
def pending (s : Workers π) (key : WorkQueue × String) : ℕ :=
  s.events.inFlight.countP fun d => d.2.key = key

omit [DecidableEq π] in
theorem Accounted.entries_eq (h : s.Accounted) (key : WorkQueue × String) :
    s.entries key = s.events.handled.countP fun d => d.2.key = key := by
  have hcount : ∀ names : List (String × String), names.countP (fun x => x = (key.1.name, key.2)) =
      names.countP fun x => x.1 = key.1.name ∧ x.2 = key.2 := by
    intro names
    simp only [Prod.ext_iff]
  have hname : ∀ d : π × FailedEvent,
      ((d.2.queue.name, d.2.jobId) = (key.1.name, key.2)) ↔ d.2.key = key := by
    intro d
    rw [FailedEvent.key, Prod.ext_iff, Prod.ext_iff]
    exact and_congr_left' WorkQueue.name_injective.eq_iff
  calc s.entries key
      = (s.deadLetters.map fun e => (e.originalQueue, e.jobName)).countP
          fun x => x = (key.1.name, key.2) := by
        rw [hcount, List.countP_map]
        rfl
    _ = s.events.handled.countP fun d => d.2.key = key := by
        rw [h.named, List.countP_map]
        exact List.countP_congr fun d _ => by simpa using hname d

omit [DecidableEq π] in
/-- A job that has not failed for good has no entry and none is on its way. -/
theorem Accounted.entries_eq_zero (h : s.Accounted) {j : QueuedJob π} (hj : j ∈ s.jobs)
    (hstate : j.state ≠ .failed) : s.pending j.key = 0 ∧ s.entries j.key = 0 := by
  have hsent : ∀ x ∈ s.events.sent, x.2.key ≠ j.key := fun x hx hkey =>
    hstate ((h.failed j hj).mpr (hkey ▸ List.mem_map_of_mem hx))
  have hsum := h.balanced.countP_add FailedEvent.key j.key
  rw [Broadcast.countP_owed_eq_zero FailedEvent.key hsent, ← h.entries_eq] at hsum
  exact Nat.add_eq_zero_iff.mp hsum

omit [DecidableEq π] in
/-- A job that has failed for good gets an entry from every process that listened. -/
theorem Accounted.entries_eq_listeners (h : s.Accounted) {x : List π × FailedEvent}
    (hx : x ∈ s.events.sent) : s.pending x.2.key + s.entries x.2.key = x.1.length := by
  rw [h.entries_eq]
  exact (h.balanced.countP_add FailedEvent.key x.2.key).trans
    (Broadcast.countP_owed FailedEvent.key h.sent_keys hx)

omit [DecidableEq π] in
theorem pending_eq_zero (hdone : s.events.inFlight = []) (key : WorkQueue × String) :
    s.pending key = 0 := by
  simp [pending, hdone]

/-- When every delivery has been made, the entries are right if a single process listened to each
failure. -/
theorem Accounted.deadLetteredOnce_iff (h : s.Accounted) (hdone : s.events.inFlight = []) :
    s.DeadLetteredOnce ↔ ∀ x ∈ s.events.sent, x.1.length = 1 := by
  constructor
  · intro honce x hx
    obtain ⟨j, hj, hkey⟩ := h.known x hx
    have hfailed : j.state = .failed :=
      (h.failed j hj).mpr (hkey ▸ List.mem_map_of_mem (f := fun x => x.2.key) hx)
    have hentries := h.entries_eq_listeners hx
    rw [pending_eq_zero hdone, zero_add, ← hkey, honce j hj, if_pos hfailed] at hentries
    exact hentries.symm
  · intro hlisteners j hj
    split_ifs with hfailed
    · obtain ⟨x, hx, hkey⟩ := List.mem_map.mp ((h.failed j hj).mp hfailed)
      have hentries := h.entries_eq_listeners hx
      rw [pending_eq_zero hdone, zero_add, hlisteners x hx, hkey] at hentries
      exact hentries
    · exact (h.entries_eq_zero hj hfailed).2

/-- The listeners of the events sent in a step are those before the step. -/
theorem sent_step (h : s.step a = some s') (C : List π → Prop) :
    (∀ x ∈ s'.events.sent, C x.1) ↔
      (∀ x ∈ s.events.sent, C x.1) ∧ ∀ q, s.givesUp a = some q → C (s.listeners q) := by
  cases step_cases h with
  | gaveUp j j' failedReason worker hj hkey hstate hstate' hgives =>
    simp [hgives, Broadcast.publish, or_imp, forall_and]
  | handled n now d events hd hgives =>
    simp [hgives, deadLetterHandler, sendToDeadLetter, (Broadcast.handle_eq_some hd).1]
  | _ => simp_all [setJob]

theorem sent_run (h : s.run as = some s') (C : List π → Prop) :
    (∀ x ∈ s'.events.sent, C x.1) ↔ (∀ x ∈ s.events.sent, C x.1) ∧
      s.EachStep (fun s a => ∀ q, s.givesUp a = some q → C (s.listeners q)) as := by
  induction as generalizing s with
  | nil =>
    cases h
    simp [EachStep]
  | cons a as ih =>
    obtain ⟨s₁, hstep, hrun⟩ := Option.bind_eq_some_iff.mp h
    rw [ih hrun, sent_step hstep, and_assoc]
    simp [EachStep, hstep]

/-- The deliveries on their way can all be made, and this leaves the jobs alone. -/
theorem exists_settled (s : Workers π) (now : String) :
    ∃ as s', s.run as = some s' ∧ s'.jobs = s.jobs ∧ s'.events.inFlight = [] := by
  obtain ⟨n, hn⟩ : ∃ n, s.events.inFlight.length = n := ⟨_, rfl⟩
  induction n generalizing s with
  | zero => exact ⟨[], s, rfl, rfl, List.length_eq_zero_iff.mp hn⟩
  | succ n ih =>
    obtain ⟨d, rest, hflight⟩ := List.exists_cons_of_length_eq_add_one hn
    have hd : s.events.handle 0 = some (d,
        { s.events with inFlight := rest, handled := s.events.handled ++ [d] }) := by
      simp [Broadcast.handle, hflight]
    obtain ⟨as, s', hrun, hjobs, hdone⟩ := ih (deadLetterHandler d.2.queue.name d.2 now
      { s with events := { s.events with inFlight := rest, handled := s.events.handled ++ [d] } })
      (by simpa [hflight, deadLetterHandler, sendToDeadLetter] using hn)
    refine ⟨.handle 0 now :: as, s', ?_, hjobs, hdone⟩
    simp [run, step, hd, hrun]

/-- Once every delivery has been made, each failed job has one entry exactly if each failed for good
while one process listened to its queue. -/
theorem run_deadLetteredOnce_iff (hrun : (start : Workers π).run as = some s)
    (hdone : s.events.inFlight = []) :
    s.DeadLetteredOnce ↔ (start : Workers π).EachStep OneListener as := by
  rw [(accounted_start.run hrun).deadLetteredOnce_iff hdone,
    sent_run hrun fun listeners => listeners.length = 1]
  exact and_iff_right (by simp [start, Broadcast.empty])

/-- A crm-sync job that fails three times, with two processes or one. -/
def failingRun (workers : List π) (worker : π) : List (Action π) :=
  let attempt := [Action.take worker .crmSync "crm-sync-1",
    .throw .crmSync "crm-sync-1" "Simulated CRM upstream timeout"]
  workers.flatMap (fun w => [.load w .crmSync, .load w .email]) ++
    [.add .crmSync "crm-sync-1"] ++ attempt ++ attempt ++ attempt ++
    workers.map fun _ => .handle 0 "2024-01-01T00:00:00.000Z"

theorem run_deadLetteredOnce_iff_one_process : ∃ s, (start : Workers (Fin 1)).run
    (failingRun [0] 0) = some s ∧ (s.DeadLetteredOnce ↔
      (start : Workers (Fin 1)).EachStep OneListener (failingRun [0] 0)) :=
  ⟨_, rfl, run_deadLetteredOnce_iff rfl rfl⟩

/-- Two processes listen, and the job that has failed is entered twice. -/
theorem two_processes_enter_twice : ∃ s,
    (start : Workers (Fin 2)).run (failingRun [0, 1] 0) = some s ∧ s.events.inFlight = [] ∧
      ∃ j ∈ s.jobs, j.state = .failed ∧ s.entries j.key = 2 ∧ ¬ s.DeadLetteredOnce := by
  refine ⟨_, rfl, rfl, _, List.mem_singleton_self _, rfl, rfl, fun honce => ?_⟩
  have hone := honce _ (List.mem_singleton_self _)
  cases hone

/-- A job that failed for good while every process listened has an entry from each. -/
theorem entries_eq_card [Fintype π] (hrun : (start : Workers π).run as = some s)
    (hdone : s.events.inFlight = [])
    (hall : (start : Workers π).EachStep
      (fun s a => ∀ q, s.givesUp a = some q → ∀ worker, worker ∈ s.listeners q) as)
    {j : QueuedJob π} (hj : j ∈ s.jobs) :
    s.entries j.key = if j.state = .failed then Fintype.card π else 0 := by
  have h : s.Accounted := accounted_start.run hrun
  split_ifs with hfailed
  · obtain ⟨x, hx, hkey⟩ := List.mem_map.mp ((h.failed j hj).mp hfailed)
    have hmem : ∀ worker, worker ∈ x.1 :=
      (sent_run hrun fun listeners => ∀ worker, worker ∈ listeners).mpr
        ⟨by simp [start, Broadcast.empty], hall⟩ x hx
    have hcard : x.1.length = Fintype.card π := by
      rw [← List.toFinset_card_of_nodup (h.heard x hx).2, Finset.card_eq_iff_eq_univ,
        Finset.eq_univ_iff_forall]
      exact fun worker => List.mem_toFinset.mpr (hmem worker)
    have hentries := h.entries_eq_listeners hx
    rwa [pending_eq_zero hdone, zero_add, hcard, hkey] at hentries
  · exact (h.entries_eq_zero hj hfailed).2

/-- A single worker process makes one entry for each job that fails for good. -/
theorem deadLetteredOnce_of_subsingleton [Subsingleton π]
    (hrun : (start : Workers π).run as = some s) (hdone : s.events.inFlight = []) :
    s.DeadLetteredOnce := by
  have h : s.Accounted := accounted_start.run hrun
  refine (h.deadLetteredOnce_iff hdone).mpr fun x hx => ?_
  obtain ⟨hne, hnodup⟩ := h.heard x hx
  rcases x with ⟨_ | ⟨worker, _ | ⟨worker', rest⟩⟩, e⟩
  · exact (hne rfl).elim
  · rfl
  · have hdistinct := (List.nodup_cons.mp hnodup).1
    exact (hdistinct (Subsingleton.elim worker' worker ▸ List.mem_cons_self)).elim

end Entries

end Workers

end Model

end PropertyPlatform
