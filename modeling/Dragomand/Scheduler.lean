import Mathlib.Algebra.Order.Ring.Nat
import Mathlib.Data.List.Basic
import Dragomand.Machine

/-!
# The per-route scheduler

One loaded route: its `PairQueue`, the `run_scheduler` task that owns the
engine worker, and the calls that reach the queue from outside
(`PairEntry::submit`, `Drop for PairEntry`). Every state of `Scheduler`
is a point at which another thread can act; `runScheduler` is the task's
next atomic action, `Scheduler.step` adds the callers and the engine.

The oneshot channel of a job is named by a number, handed out in the
order in which jobs are accepted, so a smaller `reply` was accepted
earlier. `log` is a history variable, newest first; no transition reads
it.
-/

namespace Dragomand

/-- Batch jobs are translated at most this many segments at a time. -/
def BATCH_CHUNK : Nat := 16

inductive Priority where
  | interactive
  | batch
deriving DecidableEq, Repr

/-- Why a queued job ended without a translation. -/
inductive JobError where
  | cancelled
  | engine (message : String)
deriving DecidableEq, Repr

/-- Sentence `i` of the source renders as sentence `i` of the text; both
are byte ranges `(start, end)`. -/
structure SentencePair where
  source : Nat × Nat
  target : Nat × Nat
deriving DecidableEq, Repr

structure Translation where
  text : String
  sentences : List SentencePair
deriving DecidableEq, Repr

abbrev JobResult := Except JobError (List Translation)

/-- `cancelled` names the job's `Arc<AtomicBool>`, `reply` its oneshot
channel. -/
structure QueuedJob where
  remaining : List String
  done : List Translation
  html : Bool
  priority : Priority
  cancelled : Nat
  reply : Nat
deriving DecidableEq, Repr

structure QueueInner where
  interactive : List QueuedJob
  batch : List QueuedJob
  closed : Bool
deriving DecidableEq, Repr

/-- `push_back` on the deque of the job's priority. -/
def QueueInner.pushBack (q : QueueInner) (job : QueuedJob) : QueueInner :=
  match job.priority with
  | .interactive => { q with interactive := q.interactive ++ [job] }
  | .batch => { q with batch := q.batch ++ [job] }

/-- `interactive.pop_front().or_else(|| batch.pop_front())`. -/
def QueueInner.popFront (q : QueueInner) : Option (QueuedJob × QueueInner) :=
  match q.interactive with
  | job :: rest => some (job, { q with interactive := rest })
  | [] =>
      match q.batch with
      | job :: rest => some (job, { q with batch := rest })
      | [] => none

/-- `permit` is the stored permit of the queue's `Notify`; `active` counts
the jobs accepted and not yet finally answered. -/
structure PairQueue where
  inner : QueueInner
  permit : Bool
  active : Nat
deriving DecidableEq, Repr

/-- `fetch_sub(1)` on an `AtomicUsize` wraps. -/
def fetchSub (n : Nat) : Nat :=
  if n = 0 then 2 ^ 64 - 1 else n - 1

/-! ## The segments of one engine call -/

/-- The segments the next engine call takes from the job. -/
def QueuedJob.chunk (job : QueuedJob) : List String :=
  match job.priority with
  | .interactive => job.remaining
  | .batch => job.remaining.take (min job.remaining.length BATCH_CHUNK)

/-- The job after its next chunk was drained. -/
def QueuedJob.drained (job : QueuedJob) : QueuedJob :=
  match job.priority with
  | .interactive => { job with remaining := [] }
  | .batch =>
      { job with remaining := job.remaining.drop (min job.remaining.length BATCH_CHUNK) }

/-! ## States -/

/-- Where the `run_scheduler` task stands. `finishing` and `replying` are
the two halves of its `finish` closure, which either goes on with the
loop (`none`) or with the leftovers it was answering (`some rest`). -/
inductive Pc where
  | top
  | idle
  | parked
  | woken
  | taken (job : QueuedJob)
  | calling (job : QueuedJob)
  | translating (job : QueuedJob) (chunk : List String)
  | requeueing (job : QueuedJob)
  | finishing (reply : Nat) (result : JobResult) (leftovers : Option (List QueuedJob))
  | replying (reply : Nat) (result : JobResult) (leftovers : Option (List QueuedJob))
  | closing
  | draining (leftovers : List QueuedJob)
  | ended
deriving DecidableEq, Repr

inductive Obs where
  | accepted (job : QueuedJob)
  | refused
  | closed
  | taken (job : QueuedJob)
  | called (job : QueuedJob) (chunk : List String)
  | returned (reply : Nat)
  | failed (reply : Nat) (message : String)
  | finished (reply : Nat)
  | answered (reply : Nat) (result : JobResult)
deriving DecidableEq, Repr

/-- `notifiers` counts the submitters and droppers that have changed the
queue and not called `notify_one` yet. -/
structure Scheduler where
  queue : PairQueue
  notifiers : Nat
  pc : Pc
  nextReply : Nat
  log : List Obs
deriving DecidableEq, Repr

/-- A route just loaded. -/
def Scheduler.init : Scheduler where
  queue := ⟨⟨[], [], false⟩, false, 0⟩
  notifiers := 0
  pc := .top
  nextReply := 0
  log := []

/-! ## Callers -/

/-- `PairEntry::submit` up to the end of its critical section: `none` is
`Err(())`, the answer of a closed queue. -/
def Scheduler.submit (s : Scheduler) (segments : List String) (html : Bool)
    (priority : Priority) (cancelled : Nat) : Option Scheduler :=
  let job : QueuedJob := ⟨segments, [], html, priority, cancelled, s.nextReply⟩
  if s.queue.inner.closed then none
  else some { s with
    queue := { s.queue with
      inner := s.queue.inner.pushBack job
      active := s.queue.active + 1 }
    notifiers := s.notifiers + 1
    nextReply := s.nextReply + 1
    log := .accepted job :: s.log }

/-- `Drop for PairEntry`, up to `notify_one`. -/
def Scheduler.close (s : Scheduler) : Scheduler :=
  { s with
    queue := { s.queue with inner := { s.queue.inner with closed := true } }
    notifiers := s.notifiers + 1
    log := .closed :: s.log }

/-- `notify_one`: wakes the parked task, or leaves one permit. -/
def Scheduler.notifyOne (s : Scheduler) : Option Scheduler :=
  if s.notifiers = 0 then none
  else
    match s.pc with
    | .parked => some { s with notifiers := s.notifiers - 1, pc := .woken }
    | _ => some { s with
        notifiers := s.notifiers - 1, queue := { s.queue with permit := true } }

/-! ## The task -/

/-- The task's next atomic action; `none` while it waits for a
notification or for the engine, and after it ended. `flags` are the
atomics the jobs' `cancelled` handles point to. -/
def runScheduler (flags : Nat → Bool) (s : Scheduler) : Option Scheduler :=
  match s.pc with
  | .top =>
      match s.queue.inner.popFront with
      | some (job, inner) => some { s with
          queue := { s.queue with inner := inner }
          pc := .taken job
          log := .taken job :: s.log }
      | none => some { s with pc := if s.queue.inner.closed then .closing else .idle }
  | .idle =>
      if s.queue.permit then some { s with queue := { s.queue with permit := false }, pc := .top }
      else some { s with pc := .parked }
  | .parked => none
  | .woken => some { s with pc := .top }
  | .taken job =>
      if flags job.cancelled then
        some { s with pc := .finishing job.reply (.error .cancelled) none }
      else some { s with pc := .calling job }
  | .calling job => some { s with
      pc := .translating job.drained job.chunk
      log := .called job job.chunk :: s.log }
  | .translating _ _ => none
  | .requeueing job =>
      -- back to the front, behind any interactive arrivals
      some { s with
        queue := { s.queue with inner := { s.queue.inner with batch := job :: s.queue.inner.batch } }
        pc := .top }
  | .finishing reply result leftovers => some { s with
      queue := { s.queue with active := fetchSub s.queue.active }
      pc := .replying reply result leftovers
      log := .finished reply :: s.log }
  | .replying reply result leftovers => some { s with
      pc := match leftovers with
        | none => .top
        | some rest => .draining rest
      log := .answered reply result :: s.log }
  | .closing => some { s with
      queue := { s.queue with inner := { s.queue.inner with interactive := [], batch := [] } }
      pc := .draining (s.queue.inner.interactive ++ s.queue.inner.batch) }
  | .draining [] => some { s with pc := .ended }
  | .draining (job :: rest) =>
      some { s with pc := .finishing job.reply (.error .cancelled) (some rest) }
  | .ended => none

/-- The engine answers the call in progress: with an error, or (`none`)
with the translations of the chunk. -/
def Scheduler.engine (translate : Bool → List String → List Translation)
    (error : Option String) (s : Scheduler) : Option Scheduler :=
  match s.pc, error with
  | .translating job chunk, none =>
      let job := { job with done := job.done ++ translate job.html chunk }
      some { s with
        pc := if job.remaining.isEmpty then .finishing job.reply (.ok job.done) none
          else .requeueing job
        log := .returned job.reply :: s.log }
  | .translating job _, some message => some { s with
      pc := .finishing job.reply (.error (.engine message)) none
      log := .failed job.reply message :: s.log }
  | _, _ => none

/-! ## The machine of one route -/

inductive SchedulerEvent where
  | submit (segments : List String) (html : Bool) (priority : Priority) (cancelled : Nat)
  | close
  | notifyOne
  | proceed
  | engine (error : Option String)
deriving DecidableEq, Repr

/-- A refused `submit` leaves the route as it is. -/
def Scheduler.step (translate : Bool → List String → List Translation)
    (flags : Nat → Bool) (s : Scheduler) : SchedulerEvent → Option Scheduler
  | .submit segments html priority cancelled =>
      some ((s.submit segments html priority cancelled).getD
        { s with log := .refused :: s.log })
  | .close => some s.close
  | .notifyOne => s.notifyOne
  | .proceed => runScheduler flags s
  | .engine error => s.engine translate error

/-- A route with the cancellation flags of its jobs, which anyone may set
at any time and nobody clears. -/
structure Route where
  scheduler : Scheduler
  flags : Nat → Bool

inductive RouteEvent where
  | cancel (flag : Nat)
  | scheduler (event : SchedulerEvent)
deriving DecidableEq, Repr

def Route.init : Route := ⟨.init, fun _ => false⟩

def Route.step (translate : Bool → List String → List Translation) (r : Route) :
    RouteEvent → Option Route
  | .cancel flag => some { r with flags := Function.update r.flags flag true }
  | .scheduler event =>
      (r.scheduler.step translate r.flags event).map fun s => { r with scheduler := s }

/-! ## What one step can do

`Transition` lists the atomic actions once; every invariant below is a
case analysis of it, never of `Scheduler.step` itself. -/

section Transition

variable (translate : Bool → List String → List Translation) (flags : Nat → Bool)

inductive Scheduler.Transition (s : Scheduler) : Scheduler → Prop
  | accept {job : QueuedJob} (hopen : s.queue.inner.closed = false)
      (hdone : job.done = []) (hreply : job.reply = s.nextReply) :
      Transition s { s with
        queue := { s.queue with
          inner := s.queue.inner.pushBack job, active := s.queue.active + 1 }
        notifiers := s.notifiers + 1
        nextReply := s.nextReply + 1
        log := .accepted job :: s.log }
  | refuse (hclosed : s.queue.inner.closed = true) :
      Transition s { s with log := .refused :: s.log }
  | close : Transition s s.close
  | wake (hn : s.notifiers ≠ 0) (hpc : s.pc = .parked) :
      Transition s { s with notifiers := s.notifiers - 1, pc := .woken }
  | permit (hn : s.notifiers ≠ 0) (hpc : s.pc ≠ .parked) :
      Transition s { s with
        notifiers := s.notifiers - 1, queue := { s.queue with permit := true } }
  | take {job : QueuedJob} {inner : QueueInner} (hpc : s.pc = .top)
      (hpop : s.queue.inner.popFront = some (job, inner)) :
      Transition s { s with
        queue := { s.queue with inner := inner }, pc := .taken job, log := .taken job :: s.log }
  | leave (hpc : s.pc = .top) (hpop : s.queue.inner.popFront = none)
      (hclosed : s.queue.inner.closed = true) : Transition s { s with pc := .closing }
  | await (hpc : s.pc = .top) (hpop : s.queue.inner.popFront = none)
      (hopen : s.queue.inner.closed = false) : Transition s { s with pc := .idle }
  | consume (hpc : s.pc = .idle) (hp : s.queue.permit = true) :
      Transition s { s with queue := { s.queue with permit := false }, pc := .top }
  | park (hpc : s.pc = .idle) (hp : s.queue.permit = false) :
      Transition s { s with pc := .parked }
  | resume (hpc : s.pc = .woken) : Transition s { s with pc := .top }
  | skip {job : QueuedJob} (hpc : s.pc = .taken job) (hflag : flags job.cancelled = true) :
      Transition s { s with pc := .finishing job.reply (.error .cancelled) none }
  | check {job : QueuedJob} (hpc : s.pc = .taken job) (hflag : flags job.cancelled = false) :
      Transition s { s with pc := .calling job }
  | call {job : QueuedJob} (hpc : s.pc = .calling job) :
      Transition s { s with
        pc := .translating job.drained job.chunk, log := .called job job.chunk :: s.log }
  | requeue {job : QueuedJob} (hpc : s.pc = .requeueing job) :
      Transition s { s with
        queue := { s.queue with inner := { s.queue.inner with batch := job :: s.queue.inner.batch } }
        pc := .top }
  | finish {reply : Nat} {result : JobResult} {leftovers : Option (List QueuedJob)}
      (hpc : s.pc = .finishing reply result leftovers) :
      Transition s { s with
        queue := { s.queue with active := fetchSub s.queue.active }
        pc := .replying reply result leftovers
        log := .finished reply :: s.log }
  | answer {reply : Nat} {result : JobResult} {leftovers : Option (List QueuedJob)}
      (hpc : s.pc = .replying reply result leftovers) :
      Transition s { s with
        pc := leftovers.elim .top .draining, log := .answered reply result :: s.log }
  | drain (hpc : s.pc = .closing) :
      Transition s { s with
        queue := { s.queue with inner := { s.queue.inner with interactive := [], batch := [] } }
        pc := .draining (s.queue.inner.interactive ++ s.queue.inner.batch) }
  | leftover {job : QueuedJob} {rest : List QueuedJob} (hpc : s.pc = .draining (job :: rest)) :
      Transition s { s with pc := .finishing job.reply (.error .cancelled) (some rest) }
  | stop (hpc : s.pc = .draining []) : Transition s { s with pc := .ended }
  | completed {job : QueuedJob} {chunk : List String} (hpc : s.pc = .translating job chunk)
      (hrest : job.remaining = []) :
      Transition s { s with
        pc := .finishing job.reply (.ok (job.done ++ translate job.html chunk)) none
        log := .returned job.reply :: s.log }
  | progressed {job : QueuedJob} {chunk : List String} (hpc : s.pc = .translating job chunk)
      (hrest : job.remaining ≠ []) :
      Transition s { s with
        pc := .requeueing { job with done := job.done ++ translate job.html chunk }
        log := .returned job.reply :: s.log }
  | failed {job : QueuedJob} {chunk : List String} {message : String}
      (hpc : s.pc = .translating job chunk) :
      Transition s { s with
        pc := .finishing job.reply (.error (.engine message)) none
        log := .failed job.reply message :: s.log }

variable {translate : Bool → List String → List Translation} {flags : Nat → Bool}

theorem runScheduler_cases {s s' : Scheduler} (h : runScheduler flags s = some s') :
    Scheduler.Transition translate flags s s' := by
  unfold runScheduler at h
  split at h
  · split at h
    · rename_i hpc _ job inner hpop
      cases h
      exact .take hpc hpop
    · rename_i hpc _ hpop
      cases h
      cases hc : s.queue.inner.closed with
      | true => exact .leave hpc hpop hc
      | false => exact .await hpc hpop hc
  · rename_i hpc
    split at h
    · rename_i hp
      cases h
      exact .consume hpc hp
    · rename_i hp
      cases h
      exact .park hpc (by simpa using hp)
  · cases h
  · rename_i hpc
    cases h
    exact .resume hpc
  · rename_i job hpc
    split at h
    · rename_i hflag
      cases h
      exact .skip hpc hflag
    · rename_i hflag
      cases h
      exact .check hpc (by simpa using hflag)
  · rename_i job hpc
    cases h
    exact .call hpc
  · cases h
  · rename_i job hpc
    cases h
    exact .requeue hpc
  · rename_i reply result leftovers hpc
    cases h
    exact .finish hpc
  · rename_i reply result leftovers hpc
    cases h
    cases leftovers with
    | none => exact .answer hpc
    | some rest => exact .answer hpc
  · rename_i hpc
    cases h
    exact .drain hpc
  · rename_i hpc
    cases h
    exact .stop hpc
  · rename_i job rest hpc
    cases h
    exact .leftover hpc
  · cases h

theorem Scheduler.engine_cases {error : Option String} {s s' : Scheduler}
    (h : s.engine translate error = some s') : Transition translate flags s s' := by
  unfold Scheduler.engine at h
  split at h
  · rename_i job chunk hpc
    cases h
    by_cases hrest : job.remaining = []
    · have : Transition translate flags s _ := .completed hpc hrest
      simpa [hrest] using this
    · have : Transition translate flags s _ := .progressed hpc hrest
      simpa [hrest] using this
  · rename_i job chunk message hpc
    cases h
    exact .failed hpc
  · cases h

/-- The inversion lemma of the scheduler: a step is one of the listed
transitions. -/
theorem Scheduler.step_cases {s s' : Scheduler} {e : SchedulerEvent}
    (h : s.step translate flags e = some s') : Transition translate flags s s' := by
  cases e with
  | submit segments html priority cancelled =>
      obtain rfl := Option.some.inj h
      unfold Scheduler.submit
      cases hc : s.queue.inner.closed with
      | true => exact .refuse hc
      | false => exact .accept hc rfl rfl
  | close =>
      obtain rfl := Option.some.inj h
      exact .close
  | notifyOne =>
      simp only [Scheduler.step, Scheduler.notifyOne] at h
      split at h
      · cases h
      · rename_i hn
        split at h
        · rename_i hpc
          cases h
          exact .wake hn hpc
        · rename_i hpc
          cases h
          exact .permit hn hpc
  | proceed => exact runScheduler_cases h
  | engine error => exact Scheduler.engine_cases h

end Transition

theorem QueueInner.popFront_eq_some {q q' : QueueInner} {job : QueuedJob}
    (h : q.popFront = some (job, q')) :
    (q.interactive = job :: q'.interactive ∧ q'.batch = q.batch ∧ q'.closed = q.closed)
      ∨ (q.interactive = [] ∧ q'.interactive = [] ∧ q.batch = job :: q'.batch
          ∧ q'.closed = q.closed) := by
  unfold popFront at h
  split at h
  · rename_i hi
    cases h
    exact Or.inl ⟨hi, rfl, rfl⟩
  · rename_i hi
    split at h
    · rename_i hb
      cases h
      exact Or.inr ⟨hi, hi, hb, rfl⟩
    · cases h

theorem QueueInner.popFront_eq_none {q : QueueInner} (h : q.popFront = none) :
    q.interactive = [] ∧ q.batch = [] := by
  unfold popFront at h
  split at h
  · cases h
  · rename_i hi
    split at h
    · cases h
    · rename_i hb
      exact ⟨hi, hb⟩

end Dragomand
