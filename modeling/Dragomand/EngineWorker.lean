import Dragomand.Scheduler

/-!
# The worker thread of a route

`Worker` owns a thread that loads the models, takes jobs from an mpsc
channel and answers each through a oneshot channel. `translate` borrows the
worker until it is answered, so the worker is dropped only when nobody
waits on it; `Drop` hangs up the channel and joins the thread.

What the backend does is left to the environment: it may load or fail,
translate or fail, and panic in either, in which case the thread unwinds
and drops the channel with all that is in it.

`Worker.Transition` says what one step can do; what a worker answers is read
off from it in the invariants of `WorkerReplies`.
-/

namespace Dragomand

/-! ## Channels -/

/-- An mpsc channel: `hungUp` when its sender is dropped, `gone` when its
receiver is. -/
structure Channel (α : Type*) where
  queue : List α
  hungUp : Bool
  gone : Bool
deriving DecidableEq, Repr

namespace Channel

variable {α : Type*}

def new : Channel α := ⟨[], false, false⟩

/-- `none` when nobody will receive it. -/
def send (c : Channel α) (a : α) : Option (Channel α) :=
  if c.gone then none else some { c with queue := c.queue ++ [a] }

theorem send_eq_none {c : Channel α} {a : α} : c.send a = none ↔ c.gone = true := by
  unfold send
  split <;> simp [*]

theorem send_eq_some {c c' : Channel α} {a : α} :
    c.send a = some c' ↔ c.gone = false ∧ c' = { c with queue := c.queue ++ [a] } := by
  unfold send
  split <;> simp [*, eq_comm]

def hangUp (c : Channel α) : Channel α := { c with hungUp := true }

/-- Dropping the receiver drops what is in the channel. -/
def close (c : Channel α) : Channel α := { c with queue := [], gone := true }

end Channel

/-! ## States -/

/-- The error type of the engine bindings. -/
inductive backend.Error where
  | invalidInput (message : String)
  | load (message : String)
  | engine (message : String)
  | workerGone
deriving DecidableEq, Repr

def backend.Error.text : backend.Error → String
  | .invalidInput message => "invalid input: " ++ message
  | .load message => "model load failed: " ++ message
  | .engine message => "translation failed: " ++ message
  | .workerGone => "translation worker is gone"

/-- `reply` names the oneshot channel. -/
structure worker.Job where
  segments : List String
  html : Bool
  reply : Nat
deriving DecidableEq, Repr

abbrev worker.Reply := Except backend.Error (List Translation)

/-- Where the thread stands; it has the models that are named. -/
inductive ThreadPc (μ : Type) where
  | loadingFirst
  | loadingSecond (first : μ)
  /-- the load failed -/
  | refusing
  | serving (first : μ) (second : Option μ)
  | translating (first : μ) (second : Option μ) (job : worker.Job)
  | ended
deriving DecidableEq, Repr

/-- The owner has the worker, waits in its `Drop`, or is rid of it. -/
inductive WorkerHandle where
  | live
  | joining
  | dropped
deriving DecidableEq, Repr

/-- `refused` and `hungUp` are the two ways in which a caller learns that
the worker is gone. -/
inductive WorkerObs (μ : Type) where
  | sent (job : worker.Job)
  | refused (reply : Nat)
  | loaded (model : μ)
  | ready (result : Except backend.Error Unit)
  | panicked
  | called (first : μ) (second : Option μ) (job : worker.Job)
  | replied (reply : Nat) (result : worker.Reply)
  | hungUp (reply : Nat)
deriving DecidableEq, Repr

/-- `waiting` are the replies that live `translate` futures wait for; `log`
is a history variable, newest first, that nothing but the futures reads. -/
structure Worker (μ : Type) where
  jobs : Channel worker.Job
  pc : ThreadPc μ
  handle : WorkerHandle
  waiting : List Nat
  nextReply : Nat
  log : List (WorkerObs μ)
deriving DecidableEq, Repr

variable {μ : Type}

/-- `Worker::spawn`. -/
def Worker.spawn : Worker μ where
  jobs := .new
  pc := .loadingFirst
  handle := .live
  waiting := []
  nextReply := 0
  log := []

/-! ## The thread -/

def ThreadPc.loading : ThreadPc μ → Bool
  | .loadingFirst | .loadingSecond _ => true
  | _ => false

def ThreadPc.models : ThreadPc μ → List μ
  | .loadingSecond first => [first]
  | .serving first second | .translating first second _ => first :: second.toList
  | _ => []

def ThreadPc.inHand : ThreadPc μ → List worker.Job
  | .translating _ _ job => [job]
  | _ => []

/-- The jobs sent and not answered, the oldest first. -/
def Worker.pending (s : Worker μ) : List worker.Job := s.pc.inHand ++ s.jobs.queue

/-- A panic: the job in hand, the receiver and the models are dropped. -/
def Worker.unwind (s : Worker μ) : Worker μ :=
  { s with
    jobs := s.jobs.close
    pc := .ended
    log := s.pending.reverse.map (fun job => .hungUp job.reply) ++ .panicked :: s.log }

/-- The backend loads a model, fails to, or panics. `pivot` says whether the
worker was given a second model. -/
def Worker.load (pivot : Bool) (s : Worker μ) (outcome : Option (Except backend.Error μ)) :
    Option (Worker μ) :=
  match s.pc, outcome with
  | .loadingFirst, some (.ok first) =>
      if pivot then some { s with pc := .loadingSecond first, log := .loaded first :: s.log }
      else some { s with
        pc := .serving first none, log := .ready (.ok ()) :: .loaded first :: s.log }
  | .loadingSecond first, some (.ok second) => some { s with
      pc := .serving first (some second), log := .ready (.ok ()) :: .loaded second :: s.log }
  | .loadingFirst, some (.error error) | .loadingSecond _, some (.error error) =>
      some { s with pc := .refusing, log := .ready (.error error) :: s.log }
  | .loadingFirst, none | .loadingSecond _, none => some s.unwind
  | _, _ => none

/-- `job_receiver.iter()`: the next job, or the end of the loop; `none`
while it waits. -/
def Worker.receiveJob (s : Worker μ) : Option (Worker μ) :=
  match s.pc, s.jobs.queue with
  | .serving first second, job :: rest => some { s with
      jobs := { s.jobs with queue := rest }
      pc := .translating first second job
      log := .called first second job :: s.log }
  | .refusing, job :: rest => some { s with
      jobs := { s.jobs with queue := rest }
      log := .replied job.reply (.error .workerGone) :: s.log }
  | .serving _ _, [] | .refusing, [] =>
      if s.jobs.hungUp then some { s with jobs := s.jobs.close, pc := .ended } else none
  | _, _ => none

/-- `backend.translate` returns or panics. -/
def Worker.translated (s : Worker μ) (outcome : Option worker.Reply) : Option (Worker μ) :=
  match s.pc, outcome with
  | .translating first second job, some result => some { s with
      pc := .serving first second, log := .replied job.reply result :: s.log }
  | .translating _ _ _, none => some s.unwind
  | _, _ => none

/-! ## The handle -/

/-- `Worker::translate` up to its `await`. -/
def Worker.translate (s : Worker μ) (segments : List String) (html : Bool) : Option (Worker μ) :=
  match s.handle with
  | .live =>
      let job : worker.Job := ⟨segments, html, s.nextReply⟩
      let s := { s with waiting := s.nextReply :: s.waiting, nextReply := s.nextReply + 1 }
      match s.jobs.send job with
      | none => some { s with log := .refused job.reply :: s.log }
      | some jobs => some { s with jobs := jobs, log := .sent job :: s.log }
  | _ => none

/-- What `translate` returns for the reply, once it can tell. -/
def Worker.outcome (s : Worker μ) (reply : Nat) : Option worker.Reply :=
  s.log.findSome? fun
    | .replied reply' result => if reply' = reply then some result else none
    | .refused reply' | .hungUp reply' =>
        if reply' = reply then some (.error .workerGone) else none
    | _ => none

inductive WorkerCall where
  | translate (segments : List String) (html : Bool)
  /-- the `await` is over -/
  | receive (reply : Nat)
  /-- the future is dropped -/
  | forget (reply : Nat)
  | drop
  | join
deriving DecidableEq, Repr

def Worker.call (s : Worker μ) : WorkerCall → Option (Worker μ)
  | .translate segments html => s.translate segments html
  | .receive reply =>
      if reply ∈ s.waiting ∧ (s.outcome reply).isSome then
        some { s with waiting := s.waiting.erase reply }
      else none
  | .forget reply =>
      if reply ∈ s.waiting then some { s with waiting := s.waiting.erase reply } else none
  | .drop =>
      match s.handle with
      | .live =>
          -- a live future borrows the worker
          if s.waiting = [] then some { s with jobs := s.jobs.hangUp, handle := .joining }
          else none
      | _ => none
  | .join =>
      match s.handle, s.pc with
      | .joining, .ended => some { s with handle := .dropped }
      | _, _ => none

inductive WorkerEvent (μ : Type) where
  | load (outcome : Option (Except backend.Error μ))
  | receiveJob
  | translated (outcome : Option worker.Reply)
  | call (call : WorkerCall)

def Worker.step (pivot : Bool) (s : Worker μ) : WorkerEvent μ → Option (Worker μ)
  | .load outcome => s.load pivot outcome
  | .receiveJob => s.receiveJob
  | .translated outcome => s.translated outcome
  | .call call => s.call call

def WorkerEvent.ofThread : WorkerEvent μ → Bool
  | .call _ => false
  | _ => true

/-! ## What one step can do -/

section Transition

variable (pivot : Bool)

inductive Worker.Transition (s : Worker μ) : WorkerEvent μ → Worker μ → Prop
  | loadedFirst {first : μ} (hpc : s.pc = .loadingFirst) (hpivot : pivot = true) :
      Transition s (.load (some (.ok first))) { s with
        pc := .loadingSecond first, log := .loaded first :: s.log }
  | loadedOnly {first : μ} (hpc : s.pc = .loadingFirst) (hpivot : pivot = false) :
      Transition s (.load (some (.ok first))) { s with
        pc := .serving first none, log := .ready (.ok ()) :: .loaded first :: s.log }
  | loadedSecond {first second : μ} (hpc : s.pc = .loadingSecond first) :
      Transition s (.load (some (.ok second))) { s with
        pc := .serving first (some second), log := .ready (.ok ()) :: .loaded second :: s.log }
  | loadFailed {error : backend.Error} (hpc : s.pc.loading = true) :
      Transition s (.load (some (.error error))) { s with
        pc := .refusing, log := .ready (.error error) :: s.log }
  | loadPanicked (hpc : s.pc.loading = true) : Transition s (.load none) s.unwind
  | called {first : μ} {second : Option μ} {job : worker.Job} {rest : List worker.Job}
      (hpc : s.pc = .serving first second) (hqueue : s.jobs.queue = job :: rest) :
      Transition s .receiveJob { s with
        jobs := { s.jobs with queue := rest }
        pc := .translating first second job
        log := .called first second job :: s.log }
  | refused {job : worker.Job} {rest : List worker.Job} (hpc : s.pc = .refusing)
      (hqueue : s.jobs.queue = job :: rest) :
      Transition s .receiveJob { s with
        jobs := { s.jobs with queue := rest }
        log := .replied job.reply (.error .workerGone) :: s.log }
  | finished (hpc : (∃ first second, s.pc = .serving first second) ∨ s.pc = .refusing)
      (hqueue : s.jobs.queue = []) (hhungUp : s.jobs.hungUp = true) :
      Transition s .receiveJob { s with jobs := s.jobs.close, pc := .ended }
  | returned {first : μ} {second : Option μ} {job : worker.Job} {result : worker.Reply}
      (hpc : s.pc = .translating first second job) :
      Transition s (.translated (some result)) { s with
        pc := .serving first second, log := .replied job.reply result :: s.log }
  | panicked {first : μ} {second : Option μ} {job : worker.Job}
      (hpc : s.pc = .translating first second job) : Transition s (.translated none) s.unwind
  | sent {segments : List String} {html : Bool} (hlive : s.handle = .live)
      (hgone : s.jobs.gone = false) :
      Transition s (.call (.translate segments html)) { s with
        jobs := { s.jobs with queue := s.jobs.queue ++ [⟨segments, html, s.nextReply⟩] }
        waiting := s.nextReply :: s.waiting
        nextReply := s.nextReply + 1
        log := .sent ⟨segments, html, s.nextReply⟩ :: s.log }
  | lost {segments : List String} {html : Bool} (hlive : s.handle = .live)
      (hgone : s.jobs.gone = true) :
      Transition s (.call (.translate segments html)) { s with
        waiting := s.nextReply :: s.waiting
        nextReply := s.nextReply + 1
        log := .refused s.nextReply :: s.log }
  | received {reply : Nat} (hwaiting : reply ∈ s.waiting) (houtcome : (s.outcome reply).isSome) :
      Transition s (.call (.receive reply)) { s with waiting := s.waiting.erase reply }
  | forgot {reply : Nat} (hwaiting : reply ∈ s.waiting) :
      Transition s (.call (.forget reply)) { s with waiting := s.waiting.erase reply }
  | dropped (hlive : s.handle = .live) (hwaiting : s.waiting = []) :
      Transition s (.call .drop) { s with jobs := s.jobs.hangUp, handle := .joining }
  | joined (hjoining : s.handle = .joining) (hpc : s.pc = .ended) :
      Transition s (.call .join) { s with handle := .dropped }

variable {pivot : Bool} {s s' : Worker μ}

theorem Worker.load_cases {outcome : Option (Except backend.Error μ)}
    (h : s.load pivot outcome = some s') : s.Transition pivot (.load outcome) s' := by
  unfold Worker.load at h
  split at h
  · rename_i hpc
    cases hpivot : pivot with
    | true =>
        simp only [hpivot, if_true] at h
        cases h
        exact hpivot ▸ .loadedFirst hpc hpivot
    | false =>
        simp only [hpivot, Bool.false_eq_true, if_false] at h
        cases h
        exact hpivot ▸ .loadedOnly hpc hpivot
  · rename_i hpc
    cases h
    exact .loadedSecond hpc
  · rename_i hpc
    cases h
    exact .loadFailed (by rw [hpc]; rfl)
  · rename_i hpc
    cases h
    exact .loadFailed (by rw [hpc]; rfl)
  · rename_i hpc
    cases h
    exact .loadPanicked (by rw [hpc]; rfl)
  · rename_i hpc
    cases h
    exact .loadPanicked (by rw [hpc]; rfl)
  · cases h

theorem Worker.receiveJob_cases (h : s.receiveJob = some s') :
    s.Transition pivot .receiveJob s' := by
  unfold Worker.receiveJob at h
  split at h
  · rename_i hpc hqueue
    cases h
    exact .called hpc hqueue
  · rename_i hpc hqueue
    cases h
    exact .refused hpc hqueue
  · rename_i hpc hqueue
    split at h
    · rename_i hhungUp
      cases h
      exact .finished (Or.inl ⟨_, _, hpc⟩) hqueue hhungUp
    · cases h
  · rename_i hpc hqueue
    split at h
    · rename_i hhungUp
      cases h
      exact .finished (Or.inr hpc) hqueue hhungUp
    · cases h
  · cases h

theorem Worker.translated_cases {outcome : Option worker.Reply}
    (h : s.translated outcome = some s') : s.Transition pivot (.translated outcome) s' := by
  unfold Worker.translated at h
  split at h
  · rename_i hpc
    cases h
    exact .returned hpc
  · rename_i hpc
    cases h
    exact .panicked hpc
  · cases h

theorem Worker.call_cases {call : WorkerCall} (h : s.call call = some s') :
    s.Transition pivot (.call call) s' := by
  cases call with
  | translate segments html =>
      simp only [Worker.call, Worker.translate] at h
      split at h
      · rename_i hlive
        split at h
        · rename_i hsend
          cases h
          exact .lost hlive (Channel.send_eq_none.mp hsend)
        · rename_i jobs hsend
          obtain ⟨hgone, rfl⟩ := Channel.send_eq_some.mp hsend
          cases h
          exact .sent hlive hgone
      · cases h
  | receive reply =>
      simp only [Worker.call] at h
      split at h
      · rename_i hc
        cases h
        exact .received hc.1 hc.2
      · cases h
  | forget reply =>
      simp only [Worker.call] at h
      split at h
      · rename_i hc
        cases h
        exact .forgot hc
      · cases h
  | drop =>
      simp only [Worker.call] at h
      split at h
      · rename_i hlive
        split at h
        · rename_i hwaiting
          cases h
          exact .dropped hlive hwaiting
        · cases h
      · cases h
  | join =>
      simp only [Worker.call] at h
      split at h
      · rename_i hjoining hpc
        cases h
        exact .joined hjoining hpc
      · cases h

/-- The inversion lemma: a step is one of the listed transitions. -/
theorem Worker.step_cases {e : WorkerEvent μ} (h : s.step pivot e = some s') :
    s.Transition pivot e s' := by
  cases e with
  | load outcome => exact Worker.load_cases h
  | receiveJob => exact Worker.receiveJob_cases h
  | translated outcome => exact Worker.translated_cases h
  | call call => exact Worker.call_cases h

end Transition

end Dragomand
