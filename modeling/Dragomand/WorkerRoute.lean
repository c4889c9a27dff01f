import Mathlib.Algebra.BigOperators.Group.List.Basic
import Dragomand.SchedulerWakeups
import Dragomand.WorkerReplies

/-!
# A route and its worker thread

`run_scheduler` owns a `Worker`, and its engine calls are the `translate`
calls of this worker. `WorkerRoute` runs the two side by side: the engine
events of a route are no longer given by the environment, they are what the
thread answers.

`workerRoute_refines` forgets the worker and is left with a run of the
route alone, so what is proved of a route holds with the thread in place.
The link is `LinkInv`: while the scheduler waits for the engine it waits
for one reply, and a job in the channel with this reply is its chunk.

`workerRoute_closes` is about the end: the last `PairEntry` dropped, both
sides run down, by `WorkerRoute.rank`.
-/

namespace Dragomand

variable {μ : Type}

/-! ## The machine -/

structure WorkerRoute (μ : Type) where
  route : Route
  worker : Worker μ

/-- A worker whose models are loaded. -/
def Worker.loaded (first : μ) (second : Option μ) : Worker μ :=
  { (.spawn : Worker μ) with
    pc := .serving first second
    log := .ready (.ok ()) :: (second.toList ++ [first]).map .loaded }

def WorkerRoute.init (first : μ) (second : Option μ) : WorkerRoute μ :=
  ⟨.init, .loaded first second⟩

/-- `job.done.extend(translations)` and what follows, or the other arm. -/
def Scheduler.answer (s : Scheduler) : worker.Reply → Option Scheduler
  | .ok translations => s.engine (fun _ _ => translations) none
  | .error error => s.engine (fun _ _ => []) (some error.text)

/-- The call of `worker.translate` sends the chunk. -/
def WorkerRoute.proceed (s : WorkerRoute μ) : Option (WorkerRoute μ) :=
  (runScheduler s.route.flags s.route.scheduler).bind fun scheduler =>
    match s.route.scheduler.pc with
    | .calling job => (s.worker.call (.translate job.chunk job.html)).map fun worker =>
        ⟨⟨scheduler, s.route.flags⟩, worker⟩
    | _ => some { s with route := ⟨scheduler, s.route.flags⟩ }

/-- `worker.translate(chunk, options).await` is over. -/
def WorkerRoute.receive (s : WorkerRoute μ) : Option (WorkerRoute μ) :=
  s.worker.waiting.head?.bind fun reply =>
    (s.worker.outcome reply).bind fun result =>
      (s.route.scheduler.answer result).bind fun scheduler =>
        (s.worker.call (.receive reply)).map fun worker =>
          ⟨⟨scheduler, s.route.flags⟩, worker⟩

inductive WorkerRouteEvent (μ : Type) where
  | cancel (flag : Nat)
  | scheduler (event : SchedulerEvent)
  | receive
  | drop
  | join
  | thread (event : WorkerEvent μ)

def WorkerRoute.step (pivot : Bool) (s : WorkerRoute μ) :
    WorkerRouteEvent μ → Option (WorkerRoute μ)
  | .cancel flag =>
      some { s with route := { s.route with flags := Function.update s.route.flags flag true } }
  | .scheduler .proceed => s.proceed
  | .scheduler (.engine _) => none
  | .scheduler event => (s.route.scheduler.step (fun _ _ => []) s.route.flags event).map
      fun scheduler => { s with route := ⟨scheduler, s.route.flags⟩ }
  | .receive => s.receive
  | .drop =>
      -- the task is over, a blocking thread has the worker
      match s.route.scheduler.pc with
      | .ended => (s.worker.call .drop).map fun worker => { s with worker := worker }
      | _ => none
  | .join => (s.worker.call .join).map fun worker => { s with worker := worker }
  | .thread event =>
      if event.ofThread then
        (s.worker.step pivot event).map fun worker => { s with worker := worker }
      else none

/-! ## What one step can do -/

section Transition

variable (pivot : Bool)

inductive WorkerRoute.Transition (s : WorkerRoute μ) :
    WorkerRouteEvent μ → WorkerRoute μ → Prop
  | cancel {flag : Nat} : Transition s (.cancel flag) { s with
      route := { s.route with flags := Function.update s.route.flags flag true } }
  | scheduler {event : SchedulerEvent} {scheduler : Scheduler}
      (hcalling : ∀ job, event = .proceed → s.route.scheduler.pc ≠ .calling job)
      (hengine : ∀ error, event ≠ .engine error)
      (h : s.route.scheduler.step (fun _ _ => []) s.route.flags event = some scheduler) :
      Transition s (.scheduler event) { s with route := ⟨scheduler, s.route.flags⟩ }
  | call {job : QueuedJob} {worker : Worker μ} (hpc : s.route.scheduler.pc = .calling job)
      (hw : s.worker.step pivot (.call (.translate job.chunk job.html)) = some worker) :
      Transition s (.scheduler .proceed) {
        route := { s.route with scheduler := { s.route.scheduler with
          pc := .translating job.drained job.chunk
          log := .called job job.chunk :: s.route.scheduler.log } }
        worker := worker }
  | receive {reply : Nat} {result : worker.Reply} {scheduler : Scheduler} {worker : Worker μ}
      (hwaiting : s.worker.waiting.head? = some reply)
      (houtcome : s.worker.outcome reply = some result)
      (h : s.route.scheduler.answer result = some scheduler)
      (hw : s.worker.step pivot (.call (.receive reply)) = some worker) :
      Transition s .receive ⟨⟨scheduler, s.route.flags⟩, worker⟩
  | drop {worker : Worker μ} (hpc : s.route.scheduler.pc = .ended)
      (hw : s.worker.step pivot (.call .drop) = some worker) :
      Transition s .drop { s with worker := worker }
  | join {worker : Worker μ} (hw : s.worker.step pivot (.call .join) = some worker) :
      Transition s .join { s with worker := worker }
  | thread {event : WorkerEvent μ} {worker : Worker μ} (hevent : event.ofThread = true)
      (hw : s.worker.step pivot event = some worker) :
      Transition s (.thread event) { s with worker := worker }

variable {pivot : Bool} {s s' : WorkerRoute μ}

theorem WorkerRoute.proceed_cases (h : s.proceed = some s') :
    s.Transition pivot (.scheduler .proceed) s' := by
  obtain ⟨scheduler, hrun, h⟩ := Option.bind_eq_some_iff.mp h
  split at h
  · rename_i job hpc
    obtain ⟨worker, hw, rfl⟩ := Option.map_eq_some_iff.mp h
    simp only [runScheduler, hpc, Option.some.injEq] at hrun
    subst hrun
    exact .call hpc hw
  · rename_i hcalling
    obtain rfl := Option.some.inj h
    exact .scheduler (fun job _ => hcalling job) (fun _ h => by cases h) hrun

theorem WorkerRoute.step_cases {e : WorkerRouteEvent μ} (h : s.step pivot e = some s') :
    s.Transition pivot e s' := by
  cases e with
  | cancel flag =>
      obtain rfl := Option.some.inj h
      exact .cancel
  | scheduler event =>
      cases event with
      | proceed => exact WorkerRoute.proceed_cases h
      | engine error => cases h
      | submit | close | notifyOne =>
          simp only [WorkerRoute.step] at h
          obtain ⟨scheduler, hs, rfl⟩ := Option.map_eq_some_iff.mp h
          exact .scheduler (fun _ => nofun) nofun hs
  | receive =>
      obtain ⟨reply, hwaiting, h⟩ := Option.bind_eq_some_iff.mp h
      obtain ⟨result, houtcome, h⟩ := Option.bind_eq_some_iff.mp h
      obtain ⟨scheduler, hanswer, h⟩ := Option.bind_eq_some_iff.mp h
      obtain ⟨worker, hw, rfl⟩ := Option.map_eq_some_iff.mp h
      exact .receive hwaiting houtcome hanswer hw
  | drop =>
      simp only [WorkerRoute.step] at h
      split at h
      · rename_i hpc
        obtain ⟨worker, hw, rfl⟩ := Option.map_eq_some_iff.mp h
        exact .drop hpc hw
      · cases h
  | join =>
      obtain ⟨worker, hw, rfl⟩ := Option.map_eq_some_iff.mp h
      exact .join hw
  | thread event =>
      simp only [WorkerRoute.step] at h
      split at h
      · rename_i hevent
        obtain ⟨worker, hw, rfl⟩ := Option.map_eq_some_iff.mp h
        exact .thread hevent hw
      · cases h

/-- What a step is to the scheduler. -/
theorem WorkerRoute.Transition.scheduler_cases {e : WorkerRouteEvent μ}
    (h : s.Transition pivot e s') : s'.route.scheduler = s.route.scheduler
      ∨ ∃ translate, s.route.scheduler.Transition translate s.route.flags s'.route.scheduler := by
  cases h with
  | cancel | drop | join | thread => exact Or.inl rfl
  | scheduler _ _ h => exact Or.inr ⟨_, Scheduler.step_cases h⟩
  | call hpc => exact Or.inr ⟨fun _ _ => [], .call hpc⟩
  | @receive reply result scheduler worker hwaiting houtcome h =>
      cases result with
      | ok translations =>
          have h : s.route.scheduler.engine (fun _ _ => translations) none = some scheduler := h
          exact Or.inr ⟨_, Scheduler.engine_cases h⟩
      | error error =>
          have h : s.route.scheduler.engine (fun _ _ => []) (some error.text) = some scheduler := h
          exact Or.inr ⟨_, Scheduler.engine_cases h⟩

/-- ... and to the worker. -/
theorem WorkerRoute.Transition.worker_cases {e : WorkerRouteEvent μ}
    (h : s.Transition pivot e s') : s'.worker = s.worker
      ∨ ∃ event, s.worker.step pivot event = some s'.worker
        ∧ (event.ofThread = true → e = .thread event) := by
  cases h with
  | cancel | scheduler => exact Or.inl rfl
  | call _ hw | receive _ _ _ hw | drop _ hw | join hw =>
      exact Or.inr ⟨_, hw, nofun⟩
  | thread _ hw => exact Or.inr ⟨_, hw, fun _ => rfl⟩

end Transition

/-! ## The link -/

/-- While the scheduler waits it waits for one reply, to its own chunk; it
lets go of the worker only when it is over. -/
structure LinkInv (s : WorkerRoute μ) : Prop where
  queue : QueueInv s.worker
  idle : (∀ job chunk, s.route.scheduler.pc ≠ .translating job chunk) → s.worker.waiting = []
  asked : ∀ job chunk, s.route.scheduler.pc = .translating job chunk →
    ∃ reply, s.worker.waiting = [reply] ∧ reply ∈ s.worker.issued
      ∧ ∀ asked ∈ s.worker.sent, asked.reply = reply →
        asked.segments = chunk ∧ asked.html = job.html
  live : s.route.scheduler.pc ≠ .ended → s.worker.handle = .live

section Step

variable {pivot : Bool} {s s' : WorkerRoute μ}

theorem queueInv_loaded (first : μ) (second : Option μ) : QueueInv (Worker.loaded first second) := by
  refine ⟨?_, ?_, ?_, ?_, ?_, ?_, ?_, ?_⟩
  all_goals cases second <;> simp [Worker.loaded, Worker.spawn, Worker.sent, Worker.answered,
    Worker.issued, Worker.pending, ThreadPc.inHand, Channel.new]

theorem linkInv_init (first : μ) (second : Option μ) :
    LinkInv (WorkerRoute.init first second) where
  queue := queueInv_loaded first second
  idle _ := rfl
  asked := by simp [WorkerRoute.init, Route.init, Scheduler.init]
  live _ := rfl

theorem Scheduler.translating_iff {scheduler scheduler' : Scheduler} {flags : Nat → Bool}
    {translate : Bool → List String → List Translation} {event : SchedulerEvent}
    (hcalling : ∀ job, event = .proceed → scheduler.pc ≠ .calling job)
    (hengine : ∀ error, event ≠ .engine error)
    (h : scheduler.step translate flags event = some scheduler') :
    (∀ job chunk, scheduler'.pc = .translating job chunk ↔ scheduler.pc = .translating job chunk)
      ∧ (scheduler.pc = .ended → scheduler'.pc = .ended) := by
  cases event with
  | submit segments html priority cancelled =>
      obtain rfl := Option.some.inj h
      unfold Scheduler.submit
      split <;> exact ⟨fun _ _ => Iff.rfl, id⟩
  | close =>
      obtain rfl := Option.some.inj h
      exact ⟨fun _ _ => Iff.rfl, id⟩
  | notifyOne =>
      simp only [Scheduler.step, Scheduler.notifyOne] at h
      split at h
      · cases h
      · split at h
        · rename_i hpc
          cases h
          simp [hpc]
        · cases h
          exact ⟨fun _ _ => Iff.rfl, id⟩
  | proceed =>
      cases hpc : scheduler.pc with
      | calling job => exact absurd hpc (hcalling job rfl)
      | parked | translating | ended => simp [Scheduler.step, runScheduler, hpc] at h
      | replying reply result leftovers =>
          simp only [Scheduler.step, runScheduler, hpc, Option.some.injEq] at h
          subst h
          cases leftovers <;> simp
      | draining leftovers =>
          cases leftovers <;>
            simp only [Scheduler.step, runScheduler, hpc, Option.some.injEq] at h <;>
            subst h <;> simp
      | top =>
          simp only [Scheduler.step, runScheduler, hpc] at h
          split at h <;> cases h
          · simp
          · cases scheduler.queue.inner.closed <;> simp
      | idle | taken =>
          simp only [Scheduler.step, runScheduler, hpc] at h
          split at h <;> cases h <;> simp
      | _ =>
          simp only [Scheduler.step, runScheduler, hpc, Option.some.injEq] at h
          subst h
          simp
  | engine error => exact absurd rfl (hengine error)

theorem Scheduler.answer_cases {scheduler scheduler' : Scheduler} {result : worker.Reply}
    (h : scheduler.answer result = some scheduler') :
    (∃ job chunk, scheduler.pc = .translating job chunk)
      ∧ (∀ job chunk, scheduler'.pc ≠ .translating job chunk) ∧ scheduler'.pc ≠ .ended := by
  cases hpc : scheduler.pc with
  | translating job chunk =>
      refine ⟨⟨job, chunk, rfl⟩, ?_⟩
      cases result with
      | ok translations =>
          simp only [Scheduler.answer, Scheduler.engine, hpc, Option.some.injEq] at h
          subst h
          cases job.remaining.isEmpty <;> simp
      | error error =>
          simp only [Scheduler.answer, Scheduler.engine, hpc, Option.some.injEq] at h
          subst h
          simp
  | _ => cases result <;> simp [Scheduler.answer, Scheduler.engine, hpc] at h

theorem QueueInv.lt_of_sent {w : Worker μ} (hq : QueueInv w) {job : worker.Job}
    (h : job ∈ w.sent) : job.reply < w.nextReply := by
  have hmem : job.reply ∈ w.issued := w.sent_sublist.subset (List.mem_map_of_mem h)
  simpa [hq.issued] using hmem

theorem QueuedJob.drained_html (job : QueuedJob) : job.drained.html = job.html := by
  unfold QueuedJob.drained
  split <;> rfl

/-- The thread leaves the owner's side alone. -/
theorem Worker.thread_frame {w w' : Worker μ} {event : WorkerEvent μ}
    (hevent : event.ofThread = true) (h : w.step pivot event = some w') :
    w'.waiting = w.waiting ∧ w'.handle = w.handle ∧ w'.issued = w.issued ∧ w'.sent = w.sent := by
  cases Worker.step_cases h with
  | sent | lost | received | forgot | dropped | joined => cases hevent
  | loadPanicked | panicked => exact ⟨rfl, rfl, w.unwind_issued, w.unwind_sent⟩
  | _ => exact ⟨rfl, rfl, rfl, rfl⟩

/-- The call waits for the reply it was issued, and no other. -/
theorem LinkInv.call {job : QueuedJob} {worker : Worker μ} (hl : LinkInv s)
    (hpc : s.route.scheduler.pc = .calling job)
    (hw : s.worker.step pivot (.call (.translate job.chunk job.html)) = some worker) :
    worker.waiting = [s.worker.nextReply] ∧ s.worker.nextReply ∈ worker.issued
      ∧ (∀ asked ∈ worker.sent, asked.reply = s.worker.nextReply →
        asked.segments = job.chunk ∧ asked.html = job.html)
      ∧ worker.handle = s.worker.handle := by
  have hwaiting : s.worker.waiting = [] := hl.idle (by simp [hpc])
  cases Worker.step_cases hw with
  | sent =>
      refine ⟨by simp [hwaiting], List.mem_cons_self .., fun asked hmem hreply => ?_, rfl⟩
      rcases List.mem_cons.mp hmem with rfl | hmem
      · exact ⟨rfl, rfl⟩
      · exact absurd hreply (hl.queue.lt_of_sent hmem).ne
  | lost =>
      refine ⟨by simp [hwaiting], List.mem_cons_self .., fun asked hmem hreply => ?_, rfl⟩
      exact absurd hreply (hl.queue.lt_of_sent hmem).ne

theorem linkInv_step {e : WorkerRouteEvent μ} (h : s.Transition pivot e s') (hl : LinkInv s) :
    LinkInv s' := by
  have hqueue : QueueInv s'.worker := by
    rcases h.worker_cases with hsame | ⟨event, hw, -⟩
    · exact hsame ▸ hl.queue
    · exact queueInv_step (Worker.step_cases hw) hl.queue
  cases h with
  | cancel => exact ⟨hqueue, hl.idle, hl.asked, hl.live⟩
  | scheduler hcalling hengine h =>
      obtain ⟨htranslating, hended⟩ := Scheduler.translating_iff hcalling hengine h
      refine ⟨hqueue, fun hidle => hl.idle fun job chunk hpc => ?_, fun job chunk hpc => ?_,
        fun hpc => hl.live fun hend => hpc (hended hend)⟩
      · exact hidle job chunk ((htranslating job chunk).mpr hpc)
      · exact hl.asked job chunk ((htranslating job chunk).mp hpc)
  | @call job worker hpc hw =>
      obtain ⟨hwaiting, hissued, hasked, hhandle⟩ := hl.call hpc hw
      refine ⟨hqueue, fun hidle => absurd rfl (hidle job.drained job.chunk), ?_, fun _ => ?_⟩
      · intro job' chunk hpc'
        cases hpc'
        exact ⟨_, hwaiting, hissued, by simpa only [job.drained_html] using hasked⟩
      · exact hhandle.trans (hl.live (by simp [hpc]))
  | @receive reply result scheduler worker hhead houtcome h hw =>
      obtain ⟨⟨job, chunk, hpc⟩, hnot, hended⟩ := Scheduler.answer_cases h
      obtain ⟨reply', hwaiting, -⟩ := hl.asked job chunk hpc
      obtain rfl : reply' = reply := by simpa [hwaiting] using hhead
      refine ⟨hqueue, fun _ => ?_, fun job chunk hpc => absurd hpc (hnot job chunk), fun _ => ?_⟩
      · cases Worker.step_cases hw with
        | received => simp [hwaiting]
      · cases Worker.step_cases hw with
        | received => exact hl.live (by simp [hpc])
  | @drop worker hpc hw =>
      refine ⟨hqueue, fun hidle => ?_, fun job chunk hpc' => ?_, fun hended => absurd hpc hended⟩
      · cases Worker.step_cases hw with
        | dropped => exact hl.idle hidle
      · exact absurd (hpc.symm.trans hpc') nofun
  | @join worker hw =>
      cases Worker.step_cases hw with
      | joined hjoining =>
          refine ⟨hqueue, hl.idle, hl.asked, fun hended => ?_⟩
          exact absurd (hjoining.symm.trans (hl.live hended)) nofun
  | @thread event worker hevent hw =>
      obtain ⟨hwaiting, hhandle, hissued, hsent⟩ := Worker.thread_frame hevent hw
      refine ⟨hqueue, fun hidle => hwaiting.trans (hl.idle hidle), fun job chunk hpc => ?_,
        fun hended => hhandle.trans (hl.live hended)⟩
      simpa only [hwaiting, hissued, hsent] using hl.asked job chunk hpc

end Step

/-! ## The worker forgotten -/

section Refinement

variable (render : μ → Option μ → Bool → List String → List Translation)

/-- What the backend returns without an error is what `render` says of the
models it is called with. -/
def Renders (first : μ) (second : Option μ) (job : worker.Job) : worker.Reply → Prop
  | .ok translations => translations = render first second job.html job.segments
  | .error _ => True

def WorkerRoute.Rendered (s : WorkerRoute μ) : WorkerRouteEvent μ → Prop
  | .thread event => s.worker.Backed (Renders render) event
  | _ => True

instance (first : μ) (second : Option μ) (job : worker.Job) :
    (result : worker.Reply) → Decidable (Renders render first second job result)
  | .ok translations => inferInstanceAs
      (Decidable (translations = render first second job.html job.segments))
  | .error _ => inferInstanceAs (Decidable True)

instance (s : WorkerRoute μ) : (e : WorkerRouteEvent μ) → Decidable (s.Rendered render e)
  | .thread event => inferInstanceAs (Decidable (s.worker.Backed (Renders render) event))
  | .cancel _ | .scheduler _ | .receive | .drop | .join => inferInstanceAs (Decidable True)

/-- The models stay those that were loaded. -/
structure ServedBy (first : μ) (second : Option μ) (w : Worker μ) : Prop where
  load : LoadInv (Renders render) second.isSome w
  models : w.loadedModels = second.toList ++ [first]
  reported : w.reports ≠ []

variable {render} {first : μ} {second : Option μ}

theorem servedBy_loaded : ServedBy render first second (Worker.loaded first second) where
  load := by
    refine ⟨?_, ?_, ?_, ?_, ?_, ?_, ?_, ?_, ?_⟩
    all_goals cases second <;> simp [Worker.loaded, Worker.spawn, LoadedAt, Worker.loadedModels,
      Worker.reports, Channel.new]
  models := by cases second <;> simp [Worker.loaded, Worker.loadedModels]
  reported := by simp [Worker.loaded, Worker.reports]

theorem ServedBy.not_loading {w : Worker μ} (h : ServedBy render first second w) :
    w.pc.loading = false := by
  have hloaded := h.load.loaded
  cases hpc : w.pc with
  | loadingFirst =>
      rw [hpc] at hloaded
      exact absurd hloaded.2 h.reported
  | loadingSecond =>
      rw [hpc] at hloaded
      exact absurd hloaded.2.1 h.reported
  | _ => rfl

theorem servedBy_step {w w' : Worker μ} {event : WorkerEvent μ}
    (h : w.step second.isSome event = some w') (hq : QueueInv w)
    (hok : w.Backed (Renders render) event) (hs : ServedBy render first second w) :
    ServedBy render first second w' := by
  have htr := Worker.step_cases h
  have hload := loadInv_step htr hq hok hs.load
  have hloading := hs.not_loading
  have hframe : w'.loadedModels = w.loadedModels ∧ w'.reports = w.reports := by
    cases htr with
    | loadedFirst hpc | loadedOnly hpc | loadedSecond hpc => simp [hpc, ThreadPc.loading] at hloading
    | loadFailed hpc | loadPanicked hpc => simp [hpc] at hloading
    | panicked => exact ⟨w.unwind_loadedModels, w.unwind_reports⟩
    | _ => exact ⟨rfl, rfl⟩
  exact ⟨hload, hframe.1.trans hs.models, hframe.2 ▸ hs.reported⟩

theorem models_eq {first first' : μ} {second second' : Option μ}
    (h : second.toList ++ [first] = second'.toList ++ [first'])
    (hsome : second'.isSome = second.isSome) : first' = first ∧ second' = second := by
  cases second <;> cases second' <;> simp_all

variable {s s' : WorkerRoute μ}

/-- A translation that is received is that of the chunk. -/
theorem ServedBy.received (hs : ServedBy render first second s.worker) (hl : LinkInv s)
    {job : QueuedJob} {chunk : List String} {reply : Nat} {translations : List Translation}
    (hpc : s.route.scheduler.pc = .translating job chunk)
    (hhead : s.worker.waiting.head? = some reply)
    (houtcome : s.worker.outcome reply = some (.ok translations)) :
    translations = render first second job.html chunk := by
  obtain ⟨reply', hwaiting, -, hasked⟩ := hl.asked job chunk hpc
  obtain rfl : reply' = reply := by simpa [hwaiting] using hhead
  rcases Worker.outcome_eq_some houtcome with hreplied | ⟨-, hresult⟩
  · rcases hs.load.replies reply' _ hreplied with
      ⟨first', second', asked, hcall, hreply, hrenders⟩ | ⟨error, -, hresult⟩
    · obtain ⟨-, hmodels, hsome, hsent⟩ := hs.load.calls first' second' asked hcall
      obtain ⟨rfl, rfl⟩ := models_eq (hs.models.symm.trans hmodels) hsome
      obtain ⟨rfl, hhtml⟩ := hasked asked hsent hreply
      rw [show translations = _ from hrenders, hhtml]
    · cases hresult
  · cases hresult

theorem Scheduler.answer_eq {scheduler scheduler' : Scheduler} {result : worker.Reply}
    {translate : Bool → List String → List Translation}
    (h : scheduler.answer result = some scheduler')
    (htranslate : ∀ job chunk translations, scheduler.pc = .translating job chunk →
      result = .ok translations → translations = translate job.html chunk) :
    ∃ error, scheduler.engine translate error = some scheduler' := by
  obtain ⟨⟨job, chunk, hpc⟩, -⟩ := Scheduler.answer_cases h
  cases result with
  | ok translations =>
      refine ⟨none, ?_⟩
      rw [← h, htranslate job chunk translations hpc rfl]
      simp only [Scheduler.answer, Scheduler.engine, hpc]
  | error error =>
      refine ⟨some error.text, ?_⟩
      rw [← h]
      simp only [Scheduler.answer, Scheduler.engine, hpc]

/-- A step is one of the route or none. -/
theorem WorkerRoute.step_refines {e : WorkerRouteEvent μ}
    (h : s.Transition second.isSome e s') (hl : LinkInv s)
    (hs : ServedBy render first second s.worker) :
    Machine.Reach (Route.step (render first second)) Machine.anyStep s.route s'.route := by
  cases h with
  | @cancel flag => exact .one (e := .cancel flag) trivial rfl
  | @scheduler event scheduler hcalling hengine h =>
      refine .one (e := .scheduler event) trivial ?_
      have hsame : s.route.scheduler.step (render first second) s.route.flags event
          = some scheduler := by
        cases event with
        | engine error => exact absurd rfl (hengine error)
        | _ => exact h
      simp [Route.step, hsame]
  | call hpc =>
      refine .one (e := .scheduler .proceed) trivial ?_
      simp [Route.step, Scheduler.step, runScheduler, hpc]
  | @receive reply result scheduler worker hhead houtcome h hw =>
      obtain ⟨error, herror⟩ := Scheduler.answer_eq h fun job chunk translations hpc hresult =>
        hs.received hl hpc hhead (hresult ▸ houtcome)
      refine .one (e := .scheduler (.engine error)) trivial ?_
      simp [Route.step, Scheduler.step, herror]
  | drop | join | thread => exact .init

theorem WorkerRoute.backed {e : WorkerRouteEvent μ} {event : WorkerEvent μ}
    (hok : s.Rendered render e) (he : event.ofThread = true → e = .thread event) :
    s.worker.Backed (Renders render) event := by
  cases event with
  | translated outcome =>
      cases outcome with
      | some result =>
          rw [he rfl] at hok
          exact hok
      | none => trivial
  | _ => trivial

theorem linked_of_reach (h : Machine.Reach (WorkerRoute.step second.isSome)
      (WorkerRoute.Rendered render) (WorkerRoute.init first second) s) :
    LinkInv s ∧ ServedBy render first second s.worker := by
  refine h.invariant (I := fun s => LinkInv s ∧ ServedBy render first second s.worker)
    ⟨linkInv_init first second, servedBy_loaded⟩ fun s e s' _ hok hstep hinv => ?_
  have htr := WorkerRoute.step_cases hstep
  refine ⟨linkInv_step htr hinv.1, ?_⟩
  rcases htr.worker_cases with hsame | ⟨event, hw, he⟩
  · exact hsame ▸ hinv.2
  · exact servedBy_step hw hinv.1.queue (WorkerRoute.backed hok he) hinv.2

/-- The scheduler with its worker thread refines the route on its own: in
every run, the thread failing or unwinding where it may, the callers see
one of the runs in which the engine calls are answered at will, and each
chunk with the translations by the models that were loaded. -/
theorem workerRoute_refines (h : Machine.Reach (WorkerRoute.step second.isSome)
      (WorkerRoute.Rendered render) (WorkerRoute.init first second) s) :
    Machine.Reach (Route.step (render first second)) Machine.anyStep Route.init s.route :=
  h.project fun _ _ _ hreach _ hstep =>
    WorkerRoute.step_refines (WorkerRoute.step_cases hstep) (linked_of_reach hreach).1
      (linked_of_reach hreach).2

/-- A batch of two and an interactive job, the second answered by an error. -/
theorem workerRoute_refines_two :
    ∃ s, Machine.Reach (WorkerRoute.step false) (WorkerRoute.Rendered fun first _ _ chunk =>
          chunk.map fun text => ⟨first ++ text, []⟩) (WorkerRoute.init "deen " none) s
      ∧ s.route.scheduler.answered = [(1, .error (.engine "translation failed: marian")),
        (0, .ok [⟨"deen a", []⟩, ⟨"deen b", []⟩])]
      ∧ Machine.Reach (Route.step fun _ chunk => chunk.map fun text => ⟨"deen " ++ text, []⟩)
          Machine.anyStep Route.init s.route := by
  obtain ⟨s, hreach, hs⟩ := Machine.exists_reach_of_run (WorkerRoute.step false)
    (WorkerRoute.Rendered fun first _ _ chunk => chunk.map fun text => ⟨first ++ text, []⟩)
    (WorkerRoute.init "deen " none)
    [.scheduler (.submit ["a", "b"] false .batch 0), .scheduler .proceed, .scheduler .proceed,
      .scheduler (.submit ["c"] true .interactive 1), .scheduler .proceed, .thread .receiveJob,
      .thread (.translated (some (.ok [⟨"deen a", []⟩, ⟨"deen b", []⟩]))), .receive,
      .scheduler .proceed, .scheduler .proceed, .scheduler .proceed, .scheduler .proceed,
      .scheduler .proceed, .thread .receiveJob,
      .thread (.translated (some (.error (.engine "marian")))), .receive,
      .scheduler .proceed, .scheduler .proceed]
    (fun s => decide (s.route.scheduler.answered
      = [(1, .error (.engine "translation failed: marian")),
        (0, .ok [⟨"deen a", []⟩, ⟨"deen b", []⟩])])) (by decide)
  have hreach' : Machine.Reach (WorkerRoute.step (none : Option String).isSome) _ _ s := hreach
  exact ⟨s, hreach, of_decide_eq_true hs, workerRoute_refines hreach'⟩

end Refinement

/-! ## The end -/

def QueuedJob.rank (job : QueuedJob) : Nat := 10 * (job.remaining.length + 1)

def jobsRank (jobs : List QueuedJob) : Nat := (jobs.map QueuedJob.rank).sum

/-- A job costs a round of the loop for every segment it can have left. -/
def Pc.rank : Pc → Nat
  | .top => 4
  | .idle => 7
  | .parked => 6
  | .woken => 5
  | .taken job => job.rank + 3
  | .calling job => job.rank + 2
  | .translating job _ => if job.remaining = [] then 8 else job.rank + 6
  | .requeueing job => job.rank + 5
  | .finishing _ _ leftovers => jobsRank (leftovers.getD []) + 6
  | .replying _ _ leftovers => jobsRank (leftovers.getD []) + 5
  | .closing => 3
  | .draining leftovers => jobsRank leftovers + 1
  | .ended => 0

def Scheduler.rank (s : Scheduler) : Nat :=
  s.pc.rank + jobsRank (s.queue.inner.interactive ++ s.queue.inner.batch) + s.notifiers

def WorkerRoute.rank (s : WorkerRoute μ) : Nat := s.route.scheduler.rank + s.worker.rank

/-- The task and the notifications that are under way; the callers are gone. -/
def WorkerRoute.Alone : WorkerRoute μ → WorkerRouteEvent μ → Prop
  | _, .cancel _ | _, .scheduler (.submit ..) | _, .scheduler .close => False
  | _, _ => True

section Rank

variable {flags : Nat → Bool} {s s' : Scheduler}

@[simp] theorem jobsRank_nil : jobsRank [] = 0 := rfl

@[simp] theorem jobsRank_cons (job : QueuedJob) (jobs : List QueuedJob) :
    jobsRank (job :: jobs) = job.rank + jobsRank jobs := by
  simp [jobsRank]

@[simp] theorem jobsRank_append (jobs jobs' : List QueuedJob) :
    jobsRank (jobs ++ jobs') = jobsRank jobs + jobsRank jobs' := by
  simp [jobsRank]

theorem Scheduler.notifyOne_rank (h : s.notifyOne = some s') : s'.rank < s.rank := by
  unfold Scheduler.notifyOne at h
  split at h
  · cases h
  · rename_i hn
    split at h
    · rename_i hpc
      cases h
      simp only [Scheduler.rank, hpc, Pc.rank]
      omega
    · cases h
      simp only [Scheduler.rank]
      omega

theorem QueuedJob.rank_pos (job : QueuedJob) : 10 ≤ job.rank := by
  simp only [QueuedJob.rank]
  omega

theorem QueuedJob.drained_remaining (job : QueuedJob) : job.drained.remaining = []
    ∨ job.drained.remaining.length + 1 ≤ job.remaining.length := by
  unfold QueuedJob.drained
  split
  · exact Or.inl rfl
  · by_cases h : job.remaining = []
    · simp [h]
    · have := List.length_pos_iff.mpr h
      simp only [List.length_drop, BATCH_CHUNK]
      omega

/-- A call leaves room for what it costs the worker. -/
theorem QueuedJob.call_rank (job : QueuedJob) :
    (Pc.translating job.drained job.chunk).rank + 3 < (Pc.calling job).rank := by
  simp only [Pc.rank]
  split
  · have := job.rank_pos
    omega
  · rename_i hne
    have := job.drained_remaining.resolve_left hne
    simp only [QueuedJob.rank]
    omega

theorem Scheduler.take_rank {job : QueuedJob} {inner : QueueInner}
    (h : s.queue.inner.popFront = some (job, inner)) :
    jobsRank (s.queue.inner.interactive ++ s.queue.inner.batch)
      = job.rank + jobsRank (inner.interactive ++ inner.batch) := by
  rcases QueueInner.popFront_eq_some h with ⟨hi, hb, -⟩ | ⟨hi, hi', hb, -⟩
  · simp [hi, hb]
  · simp [hi, hi', hb]

/-- Every action of the task costs something once the queue is closed. -/
theorem runScheduler_rank (h : runScheduler flags s = some s')
    (hclosed : s.queue.inner.closed = true) : s'.rank < s.rank := by
  cases hpc : s.pc with
  | top =>
      simp only [runScheduler, hpc] at h
      split at h
      · rename_i job inner hpop
        cases h
        simp only [Scheduler.rank, hpc, Pc.rank, Scheduler.take_rank hpop]
        omega
      · cases h
        simp only [Scheduler.rank, hpc, Pc.rank, hclosed, if_true]
        omega
  | idle =>
      simp only [runScheduler, hpc] at h
      split at h <;> cases h <;> simp only [Scheduler.rank, hpc, Pc.rank] <;> omega
  | parked | translating | ended => simp [runScheduler, hpc] at h
  | woken =>
      simp only [runScheduler, hpc, Option.some.injEq] at h
      subst h
      simp only [Scheduler.rank, hpc, Pc.rank]
      omega
  | taken job =>
      have := job.rank_pos
      simp only [runScheduler, hpc] at h
      split at h <;> cases h <;> simp only [Scheduler.rank, hpc, Pc.rank, Option.getD_none,
        jobsRank_nil] <;> omega
  | calling job =>
      have := job.call_rank
      simp only [runScheduler, hpc, Option.some.injEq] at h
      subst h
      simp only [Scheduler.rank, hpc]
      omega
  | requeueing job =>
      simp only [runScheduler, hpc, Option.some.injEq] at h
      subst h
      simp only [Scheduler.rank, hpc, Pc.rank, jobsRank_append, jobsRank_cons]
      omega
  | finishing reply result leftovers =>
      simp only [runScheduler, hpc, Option.some.injEq] at h
      subst h
      simp only [Scheduler.rank, hpc, Pc.rank]
      omega
  | replying reply result leftovers =>
      simp only [runScheduler, hpc, Option.some.injEq] at h
      subst h
      cases leftovers <;> simp only [Scheduler.rank, hpc, Pc.rank, Option.getD_none,
        Option.getD_some, jobsRank_nil] <;> omega
  | closing =>
      simp only [runScheduler, hpc, Option.some.injEq] at h
      subst h
      simp only [Scheduler.rank, hpc, Pc.rank, jobsRank_append, jobsRank_nil]
      omega
  | draining leftovers =>
      cases leftovers with
      | nil =>
          simp only [runScheduler, hpc, Option.some.injEq] at h
          subst h
          simp only [Scheduler.rank, hpc, Pc.rank, jobsRank_nil]
          omega
      | cons job rest =>
          have := job.rank_pos
          simp only [runScheduler, hpc, Option.some.injEq] at h
          subst h
          simp only [Scheduler.rank, hpc, Pc.rank, Option.getD_some, jobsRank_cons]
          omega

/-- The answer of the engine, too. -/
theorem Scheduler.answer_rank {result : worker.Reply} (h : s.answer result = some s') :
    s'.rank < s.rank := by
  obtain ⟨⟨job, chunk, hpc⟩, -⟩ := Scheduler.answer_cases h
  have := job.rank_pos
  cases result with
  | ok translations =>
      simp only [Scheduler.answer, Scheduler.engine, hpc, Option.some.injEq] at h
      subst h
      by_cases hrest : job.remaining = []
      · simp only [Scheduler.rank, hpc, hrest, List.isEmpty_nil, if_true, Pc.rank,
          Option.getD_none, jobsRank_nil]
        omega
      · have hempty : job.remaining.isEmpty = false := by simpa using hrest
        simp only [Scheduler.rank, hpc, hempty, Bool.false_eq_true, if_false, Pc.rank, hrest,
          QueuedJob.rank]
        omega
  | error error =>
      simp only [Scheduler.answer, Scheduler.engine, hpc, Option.some.injEq] at h
      subst h
      simp only [Scheduler.rank, hpc, Pc.rank, Option.getD_none, jobsRank_nil]
      split <;> omega

end Rank

section Closing

variable {pivot : Bool} {s s' : WorkerRoute μ}

/-- What the two sides know of each other, and the scheduler of its queue. -/
structure CloseInv (s : WorkerRoute μ) : Prop where
  link : LinkInv s
  drained : Drained s.route.scheduler
  accounted : Accounted s.route.scheduler
  wakeable : Wakeable s.route.scheduler

theorem closeInv_init (first : μ) (second : Option μ) :
    CloseInv (WorkerRoute.init first second) where
  link := linkInv_init first second
  drained := (routeInv_init (f := fun _ text => ⟨text, []⟩)).drained
  accounted := (routeInv_init (f := fun _ text => ⟨text, []⟩)).accounted
  wakeable := wakeable_init

theorem closeInv_step {e : WorkerRouteEvent μ} (h : s.Transition pivot e s') (hc : CloseInv s) :
    CloseInv s' := by
  have hlink := linkInv_step h hc.link
  rcases h.scheduler_cases with hsame | ⟨translate, htr⟩
  · exact ⟨hlink, hsame ▸ hc.drained, hsame ▸ hc.accounted, hsame ▸ hc.wakeable⟩
  · exact ⟨hlink, drained_step htr hc.drained, accounted_step htr hc.accounted,
      wakeable_step htr hc.wakeable⟩

theorem Scheduler.closed_step {translate : Bool → List String → List Translation}
    {flags : Nat → Bool} {scheduler scheduler' : Scheduler}
    (h : scheduler.Transition translate flags scheduler')
    (hclosed : scheduler.queue.inner.closed = true) :
    scheduler'.queue.inner.closed = true := by
  cases h with
  | close => rfl
  | take hpc hpop =>
      rcases QueueInner.popFront_eq_some hpop with ⟨-, -, hc⟩ | ⟨-, -, -, hc⟩ <;>
        exact hc.trans hclosed
  | accept hopen => simp [hclosed] at hopen
  | _ => exact hclosed

theorem closed_step {e : WorkerRouteEvent μ} (h : s.Transition pivot e s')
    (hclosed : s.route.scheduler.queue.inner.closed = true) :
    s'.route.scheduler.queue.inner.closed = true := by
  rcases h.scheduler_cases with hsame | ⟨translate, htr⟩
  · rw [hsame]
    exact hclosed
  · exact Scheduler.closed_step htr hclosed

theorem WorkerRoute.rank_lt {e : WorkerRouteEvent μ} (h : s.Transition pivot e s')
    (halone : s.Alone e) (hclosed : s.route.scheduler.queue.inner.closed = true) :
    s'.rank < s.rank := by
  cases h with
  | cancel => exact absurd halone id
  | @scheduler event scheduler hcalling hengine h =>
      have : scheduler.rank < s.route.scheduler.rank := by
        cases event with
        | submit | close => exact absurd halone id
        | notifyOne => exact Scheduler.notifyOne_rank h
        | proceed => exact runScheduler_rank h hclosed
        | engine error => exact absurd rfl (hengine error)
      simp only [WorkerRoute.rank]
      omega
  | @call job worker hpc hw =>
      have := job.call_rank
      have hworker : worker.rank ≤ s.worker.rank + 3 := by
        cases Worker.step_cases hw with
        | sent | lost => simp only [Worker.rank, List.length_cons, List.length_append,
            List.length_nil]; omega
      simp only [WorkerRoute.rank, Scheduler.rank, hpc]
      omega
  | receive _ _ h hw =>
      have := Scheduler.answer_rank h
      have := Worker.rank_lt (Worker.step_cases hw) trivial
      simp only [WorkerRoute.rank]
      omega
  | drop _ hw | join hw =>
      have := Worker.rank_lt (Worker.step_cases hw) trivial
      simp only [WorkerRoute.rank]
      omega
  | @thread event worker hevent hw =>
      have : worker.rank < s.worker.rank := by
        refine Worker.rank_lt (Worker.step_cases hw) ?_
        cases event with
        | call => cases hevent
        | _ => trivial
      simp only [WorkerRoute.rank]
      omega

theorem WorkerRoute.thread_goes (h : ∃ e w, WorkerEvent.ofThread e = true
      ∧ s.worker.step pivot e = some w) :
    ∃ e s', s.Alone e ∧ s.step pivot e = some s' := by
  obtain ⟨e, w, hevent, hw⟩ := h
  refine ⟨.thread e, { s with worker := w }, trivial, ?_⟩
  simp [WorkerRoute.step, hevent, hw]

/-- Where the task only has to be scheduled. -/
theorem WorkerRoute.proceed_goes (hpc : ∀ job, s.route.scheduler.pc ≠ .calling job)
    (h : (runScheduler s.route.flags s.route.scheduler).isSome) :
    ∃ e s', s.Alone e ∧ s.step pivot e = some s' := by
  obtain ⟨scheduler, hs⟩ := Option.isSome_iff_exists.mp h
  refine ⟨.scheduler .proceed, { s with route := ⟨scheduler, s.route.flags⟩ }, trivial, ?_⟩
  simp [WorkerRoute.step, WorkerRoute.proceed, hs]

/-- Nobody waits for anything that does not come: a parked task has a
notification under way, an engine call has its worker, the worker's `Drop`
the end of the thread. -/
theorem WorkerRoute.goes (hc : CloseInv s)
    (hclosed : s.route.scheduler.queue.inner.closed = true)
    (hend : ¬ (s.route.scheduler.pc = .ended ∧ s.worker.handle = .dropped)) :
    ∃ e s', s.Alone e ∧ s.step pivot e = some s' := by
  cases hpc : s.route.scheduler.pc with
  | parked =>
      have hawaiting : s.route.scheduler.pc.awaiting = true := by rw [hpc]; rfl
      have hn : s.route.scheduler.notifiers ≠ 0 := fun hn => by
        have hidle := hc.wakeable.idle hn hawaiting (hc.wakeable.parked hpc)
        exact absurd (hclosed.symm.trans hidle.2.2) nofun
      refine ⟨.scheduler .notifyOne, { s with route := ⟨{ s.route.scheduler with
        notifiers := s.route.scheduler.notifiers - 1, pc := .woken }, s.route.flags⟩ },
        trivial, ?_⟩
      simp [WorkerRoute.step, Scheduler.step, Scheduler.notifyOne, hn, hpc]
  | translating job chunk =>
      obtain ⟨reply, hwaiting, hissued, -⟩ := hc.link.asked job chunk hpc
      cases houtcome : s.worker.outcome reply with
      | none =>
          exact WorkerRoute.thread_goes (hc.link.queue.goes_of_outcome hissued houtcome)
      | some result =>
          have hsome : (s.step pivot .receive).isSome := by
            cases result <;> simp [WorkerRoute.step, WorkerRoute.receive, hwaiting, houtcome,
              Scheduler.answer, Scheduler.engine, hpc, Worker.call]
          obtain ⟨s', hs'⟩ := Option.isSome_iff_exists.mp hsome
          exact ⟨.receive, s', trivial, hs'⟩
  | calling job =>
      have hlive : s.worker.handle = .live := hc.link.live (by simp [hpc])
      have hsome : (s.step pivot (.scheduler .proceed)).isSome := by
        simp only [WorkerRoute.step, WorkerRoute.proceed, runScheduler, hpc, Option.bind_some,
          Worker.call, Worker.translate, hlive]
        split <;> rfl
      obtain ⟨s', hs'⟩ := Option.isSome_iff_exists.mp hsome
      exact ⟨.scheduler .proceed, s', trivial, hs'⟩
  | ended =>
      cases hhandle : s.worker.handle with
      | live =>
          have hwaiting : s.worker.waiting = [] := hc.link.idle (by simp [hpc])
          refine ⟨.drop, { s with worker := { s.worker with
            jobs := s.worker.jobs.hangUp, handle := .joining } }, trivial, ?_⟩
          simp [WorkerRoute.step, hpc, Worker.call, hhandle, hwaiting]
      | joining =>
          by_cases hthread : s.worker.pc = .ended
          · refine ⟨.join, { s with worker := { s.worker with handle := .dropped } },
              trivial, ?_⟩
            simp [WorkerRoute.step, Worker.call, hhandle, hthread]
          · refine WorkerRoute.thread_goes (Worker.goes hthread (Or.inr (Or.inl ?_)))
            exact hc.link.queue.hungUp.mpr (by simp [hhandle])
      | dropped => exact absurd ⟨hpc, hhandle⟩ hend
  | draining leftovers =>
      refine WorkerRoute.proceed_goes (by simp [hpc]) ?_
      cases leftovers <;> simp [runScheduler, hpc]
  | top | idle | taken =>
      refine WorkerRoute.proceed_goes (by simp [hpc]) ?_
      simp only [runScheduler, hpc]
      split <;> rfl
  | _ =>
      refine WorkerRoute.proceed_goes (by simp [hpc]) ?_
      simp [runScheduler, hpc]

theorem CloseInv.once (hc : CloseInv s) (hended : s.route.scheduler.pc = .ended)
    {job : QueuedJob} (hjob : job ∈ s.route.scheduler.accepted) :
    (s.route.scheduler.answersTo job.reply).length = 1 := by
  obtain ⟨hi, hb⟩ := hc.drained.empty (by simp [hended, Pc.left])
  have hcount := hc.accounted.count_accepted job.reply
  have hone : (s.route.scheduler.accepted.map (·.reply)).count job.reply = 1 :=
    List.count_eq_one_of_mem hc.accounted.nodup (List.mem_map_of_mem hjob)
  simp only [Scheduler.unfinished, hended, hi, hb, Pc.inHand, Pc.replyingTo,
    List.append_nil, List.map_nil, List.count_nil, Nat.zero_add] at hcount
  omega

/-- Once the last entry of a route is dropped, every run of its task, its
worker thread and the `Drop` of the worker ends: each job accepted has been
answered once, the thread is over and the models are gone. -/
theorem workerRoute_closes {first : μ} {second : Option μ}
    (h : Machine.Reach (WorkerRoute.step pivot) Machine.anyStep
      (WorkerRoute.init first second) s)
    (hclosed : s.route.scheduler.queue.inner.closed = true) :
    Machine.Inevitable (WorkerRoute.step pivot) WorkerRoute.Alone
      (fun s => s.route.scheduler.pc = .ended
        ∧ (∀ job ∈ s.route.scheduler.accepted,
          (s.route.scheduler.answersTo job.reply).length = 1)
        ∧ s.worker.handle = .dropped ∧ s.worker.pc = .ended ∧ s.worker.pc.models = []) s := by
  have hinv : CloseInv s ∧ s.route.scheduler.queue.inner.closed = true :=
    ⟨h.invariant (closeInv_init first second) fun _ _ _ _ _ hs =>
      closeInv_step (WorkerRoute.step_cases hs), hclosed⟩
  have hstep : ∀ (s s' : WorkerRoute μ) (e : WorkerRouteEvent μ), s.step pivot e = some s' →
      (CloseInv s ∧ s.route.scheduler.queue.inner.closed = true) →
      CloseInv s' ∧ s'.route.scheduler.queue.inner.closed = true := fun s s' e hs hinv =>
    ⟨closeInv_step (WorkerRoute.step_cases hs) hinv.1,
      closed_step (WorkerRoute.step_cases hs) hinv.2⟩
  have hover : Machine.Inevitable (WorkerRoute.step pivot) WorkerRoute.Alone
      (fun s => s.route.scheduler.pc = .ended ∧ s.worker.handle = .dropped) s :=
    Machine.Inevitable.of_rank
      (I := fun s => CloseInv s ∧ s.route.scheduler.queue.inner.closed = true) WorkerRoute.rank
      (fun s e s' hinv _ hs => hstep s s' e hs hinv)
      (fun s hinv hend => WorkerRoute.goes hinv.1 hinv.2 hend)
      (fun s e s' hinv _ halone hs =>
        WorkerRoute.rank_lt (WorkerRoute.step_cases hs) halone hinv.2) hinv
  refine hover.imp_reach fun s hreach hend => ?_
  have hc : CloseInv s := (hreach.invariant
    (I := fun s => CloseInv s ∧ s.route.scheduler.queue.inner.closed = true) hinv
    fun s e s' _ _ hs hinv => hstep s s' e hs hinv).1
  have hthread := hc.link.queue.dropped hend.2
  exact ⟨hend.1, fun job hjob => hc.once hend.1 hjob, hend.2, hthread, by rw [hthread]; rfl⟩

/-- The entry is dropped with a call at the engine and a job in the queue. -/
theorem workerRoute_closes_translating :
    ∃ s, Machine.Reach (WorkerRoute.step false) Machine.anyStep
        (WorkerRoute.init "deen" none) s
      ∧ s.route.scheduler.accepted.length = 2 ∧ s.worker.pc.models = ["deen"]
      ∧ s.worker.pending.length = 1
      ∧ Machine.Inevitable (WorkerRoute.step false) WorkerRoute.Alone
        (fun s => s.route.scheduler.pc = .ended
          ∧ (∀ job ∈ s.route.scheduler.accepted,
            (s.route.scheduler.answersTo job.reply).length = 1)
          ∧ s.worker.handle = .dropped ∧ s.worker.pc = .ended ∧ s.worker.pc.models = []) s := by
  obtain ⟨s, hreach, hs⟩ := Machine.exists_reach_of_run (WorkerRoute.step false) Machine.anyStep
    (WorkerRoute.init "deen" none)
    [.scheduler (.submit ["a"] false .interactive 0), .scheduler .notifyOne, .scheduler .proceed,
      .scheduler .proceed, .scheduler .proceed, .thread .receiveJob,
      .scheduler (.submit ["b"] false .batch 1), .scheduler .close]
    (fun s => decide (s.route.scheduler.accepted.length = 2 ∧ s.worker.pc.models = ["deen"]
      ∧ s.worker.pending.length = 1 ∧ s.route.scheduler.queue.inner.closed = true)) (by decide)
  obtain ⟨haccepted, hmodels, hpending, hclosed⟩ := of_decide_eq_true hs
  exact ⟨s, hreach, haccepted, hmodels, hpending, workerRoute_closes hreach hclosed⟩

end Closing

end Dragomand
