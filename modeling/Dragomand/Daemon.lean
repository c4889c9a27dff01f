import Dragomand.Service

/-!
# The whole daemon

Requests, routes, futures and the main loop together. A client's call is
first a `Handler`; at `spawn_request` it becomes a call of `Requests` with
the same number as its future in `works`. The future moves only while its
task selects, and everything else that drives a request or a route is an
event of its own, so that any two of them may happen in either order.

The job of a request carries the number of its call as its `cancelled`
flag: `translate` and `translate_fd` make a flag for the job that is not
the one of the request's `CancelHandle`, and no event sets it.

`late` and `seen` are history variables: whether a call registered since
the main loop read `active_count`, and the handlers that had touched the
activity when it read `idle_for`.
-/

namespace Dragomand

/-! ## States -/

/-- A client's call, from its arrival at `received` on. -/
structure Handler where
  sender : String
  token : String
  method : Method
  received : Nat
  touched : Bool
  answered : Bool
deriving DecidableEq, Repr

/-- The future of a request; `used` lists the entries `ensure_loaded`
returned to it, the latest first. -/
structure Work where
  method : Method
  used : List Nat
  prog : Async Results

/-- The main loop, with the `idle_exit` of this round of
`wait_until_idle`. `idle` has left `wait_until_idle` and releases the bus
name. -/
inductive Main where
  | sleeping (idle_exit : Nat)
  | counted (idle_exit : Nat)
  | emptied (idle_exit : Nat)
  | idle (idle_exit : Nat)
  | exited (idle_exit : Nat)
deriving DecidableEq, Repr

structure Daemon where
  requests : Requests
  workers : Workers
  handlers : List Handler
  works : List Work
  disk : Disk
  config : Config
  /-- the stamp of `Activity` -/
  last : Nat
  main : Main
  late : Bool
  seen : List Nat

def Disk.empty : Disk := ⟨fun _ _ => none, by simp⟩

def Daemon.init (config : Config) (host : Host) : Daemon where
  requests := .init
  workers := .init
  handlers := []
  works := []
  disk := .empty
  config := config
  last := 0
  main := .sleeping (config.idle_exit host)
  late := false
  seen := []

inductive WorkEvent where
  /-- an operation that asks nothing of the outside, or the return -/
  | proceed
  /-- `ensure_loaded` has the lock of the registry; the stores are
  `specs` by the time it resolves the models -/
  | ensure (specs : Disk)
  | loaded (result : Except String Nat)
  | installed (result : Except Error InstalledModel)
  | updates (result : Except Error (List UpdateInfo))
  | read (result : Except Error String)
  | written (result : Except Error Unit)

inductive DaemonEvent where
  | receive (sender token : String) (method : Method)
  | touch (h : Nat)
  | handle (h : Nat)
  | requests (event : RequestEvent)
  | work (id : Nat) (event : WorkEvent)
  | workers (event : WorkersEvent)
  /-- an install, a removal, or anyone else changes the stores -/
  | store (disk : Disk)
  | configure (config : Config)
  | count
  | isEmpty
  | idleFor
  /-- another branch of the main loop's `select!` -/
  | interrupt
  | exit

/-! ## Requests and futures -/

/-- The events of a request that are neither its handler's, its future's
nor a client's. -/
def RequestEvent.isTask : RequestEvent → Bool
  | .enter _ _ | .progress _ _ _ | .work _ _ | .cancelWins _ | .panic _ | .cancel _ => false
  | _ => true

/-- The events of the routes that no future drives. Nobody sets the flag of
a job. -/
def WorkersEvent.isFree : WorkersEvent → Bool
  | .ensure _ _ _ _ _ _ _ | .loaded _ | .abort _ | .submit _ _ _ _ _ _ | .dropArc _ _
  | .cancel _ => false
  | _ => true

/-- The task of call `id` selects. -/
def Requests.selecting (s : Requests) (id : Nat) : Bool :=
  s.calls[id]?.any fun c => c.phase = .selecting

/-- The event has put a call into the slot table. -/
def Requests.registers (s : Requests) : RequestEvent → Bool
  | .register id => s.calls[id]?.any fun c => c.phase = .registered
  | _ => false

/-- The caller is inside `evict_over_budget`, at the end of its
`ensure_loaded`. -/
def Workers.evictsFor (w : Workers) (caller : Nat) : Bool :=
  match w.lock with
  | some (.evicting op) => op.ret = some caller
  | _ => false

/-- The caller's `ensure_loaded` waits for its worker. -/
def Workers.loadsFor (w : Workers) (caller : Nat) : Bool :=
  match w.lock with
  | some (.loading caller' _ _ _ _ _) => caller' = caller
  | _ => false

/-- The entries a future has used, once an operation has answered. -/
def Op.use (used : List Nat) : (op : Op) → op.Answer → List Nat
  | .ensure_loaded _ _ _ _, .ok entry => entry :: used
  | _, _ => used

/-- The future of call `id`, at `op`, gets its answer. -/
def Daemon.resume (d : Daemon) (id : Nat) (op : Op) (next : op.Answer → Async Results)
    (answer : op.Answer) : Daemon :=
  { d with works := d.works.modify id fun work =>
      { work with used := op.use work.used answer, prog := next answer } }

/-- The entry the future holds an `Arc` on. -/
def Workers.holding (w : Workers) (id : Nat) : Option Nat :=
  (w.holders.find? fun holder => holder.1 = id).map Prod.snd

/-- The future is at an operation that yields to its task. -/
def Work.yields (work : Work) : Bool :=
  match work.prog with
  | .op op _ => op.awaits
  | .done _ => false

section Step

variable (host : Host)

/-- The future is dropped, with the `Arc` or the load it has. -/
def Daemon.dropWork (d : Daemon) (id : Nat) : Option Daemon :=
  if d.workers.loadsFor id then
    (d.workers.step host.translate (.abort id)).map fun w => { d with workers := w }
  else
    match d.workers.holding id with
    | none => some d
    | some entry =>
        (d.workers.step host.translate (.dropArc id entry)).map fun w => { d with workers := w }

/-- The future of call `id` goes on. -/
def Daemon.work (d : Daemon) (id : Nat) : Async Results → WorkEvent → Option Daemon
  | .done result, .proceed =>
      (d.requests.step host.display (.work id result)).map fun r => { d with requests := r }
  | .op .start next, .proceed => some (d.resume id .start next ())
  | .op .config next, .proceed => some (d.resume id .config next d.config)
  | .op .stores next, .proceed => some (d.resume id .stores next d.disk)
  | .op (.ensure_loaded source target allow_pivot budget_mb) next, .ensure specs =>
      let op := Op.ensure_loaded source target allow_pivot budget_mb
      (d.workers.ensure_loaded id source target allow_pivot budget_mb d.disk specs).map
        fun (w, ensured) =>
          let d := { d with workers := w, disk := specs }
          match ensured with
          | .hit entry => d.resume id op next (.ok entry)
          | .failed error => d.resume id op next (.error error)
          | .loading => d
  | .op (.ensure_loaded source target allow_pivot budget_mb) next, .loaded result =>
      let op := Op.ensure_loaded source target allow_pivot budget_mb
      if d.workers.loadsFor id then
        match result with
        | .error message =>
            (d.workers.loaded (.error (.engineFailure message))).map fun w =>
              { d with workers := w }.resume id op next (.error (.engineFailure message))
        | .ok measured =>
            (d.workers.loaded (.ok measured)).map fun w =>
              { d with workers := w }.resume id op next (.ok d.workers.heap.length)
      else none
  | .op (.submit entry segments html priority) next, .proceed =>
      d.workers.heap[entry]?.bind fun e =>
        (d.workers.step host.translate (.submit id entry segments html priority id)).map fun w =>
          { d with workers := w }.resume id (.submit entry segments html priority) next
            (if e.accepts then some e.scheduler.nextReply else none)
  | .op (.receive entry receiver) next, .proceed =>
      d.workers.heap[entry]?.bind fun e =>
        match e.scheduler.log.findSome? (fun
          | .answered reply result => if reply = receiver then some result else none
          | _ => none) with
        | some result => some (d.resume id (.receive entry receiver) next (some result))
        | none =>
            if e.scheduler.pc = .ended then
              some (d.resume id (.receive entry receiver) next none)
            else none
  | .op (.pivot entry) next, .proceed =>
      d.workers.heap[entry]?.map fun e => d.resume id (.pivot entry) next e.pivot
  | .op (.drop entry) next, .proceed =>
      (d.workers.step host.translate (.dropArc id entry)).map fun w =>
        { d with workers := w }.resume id (.drop entry) next ()
  | .op (.emit_progress fraction stage) next, .proceed =>
      (d.requests.step host.display (.progress id fraction stage)).map fun r =>
        { d with requests := r }.resume id (.emit_progress fraction stage) next ()
  | .op (.install_pair source target) next, .installed result =>
      some (d.resume id (.install_pair source target) next result)
  | .op .check_for_updates next, .updates result =>
      some (d.resume id .check_for_updates next result)
  | .op .refresh next, .proceed => some (d.resume id .refresh next ())
  | .op (.read_document limit) next, .read result =>
      some (d.resume id (.read_document limit) next result)
  | .op (.write_document text) next, .written result =>
      some (d.resume id (.write_document text) next result)
  | _, _ => none

/-! ## Handlers -/

def Daemon.answer (d : Daemon) (h : Nat) : Daemon :=
  { d with handlers := d.handlers.modify h fun handler => { handler with answered := true } }

/-- `install_pair` touches once more, after its `check_langs`. -/
def Daemon.touchAgain (d : Daemon) (method : Method) : Daemon :=
  { d with
    last := match method with
      | .install_pair source target =>
          match check_langs host source target with
          | .ok _ => d.workers.now
          | .error _ => d.last
      | _ => d.last }

/-- The handler after its `activity.touch()`, if it has one: it answers, or
gets to `spawn_request`. -/
def Daemon.handle (d : Daemon) (h : Nat) (handler : Handler) : Option Daemon :=
  match handler.method with
  | .cancel path =>
      match d.requests.step host.display (.cancel path) with
      -- no object at the path
      | none => some (d.answer h)
      | some r => some ({ d with requests := r }.answer h)
  | _ =>
      let d := d.touchAgain host handler.method
      match handler.method.check host d.config d.disk handler.sender handler.token,
          handler.method.future host with
      | .error _, _ | .ok _, none => some (d.answer h)
      | .ok _, some prog => some ({ d with
          requests := d.requests.enter handler.sender handler.token
          works := d.works ++ [(⟨handler.method, [], prog⟩ : Work)] }.answer h)

/-! ## The machine -/

/-- One event of a daemon that runs. -/
def Daemon.act (d : Daemon) : DaemonEvent → Option Daemon
  | .receive sender token method => some { d with
      handlers :=
        d.handlers ++ [(⟨sender, token, method, d.workers.now, false, false⟩ : Handler)] }
  | .touch h => d.handlers[h]?.bind fun handler =>
      if handler.method.touches && !handler.touched then
        some { d with
          last := d.workers.now
          handlers := d.handlers.modify h fun handler => { handler with touched := true } }
      else none
  | .handle h => d.handlers[h]?.bind fun handler =>
      if handler.touched = handler.method.touches && !handler.answered then
        d.handle host h handler
      else none
  | .requests event =>
      if event.isTask then
        (d.requests.step host.display event).map fun r =>
          { d with requests := r, late := d.late || r.registers event }
      else
        match event with
        | .cancelWins id => d.works[id]?.bind fun work =>
            if work.yields && !d.workers.evictsFor id then
              (d.requests.step host.display event).bind fun r =>
                { d with requests := r }.dropWork host id
            else none
        | .panic id =>
            if d.workers.evictsFor id then none
            else (d.requests.step host.display event).bind fun r =>
              { d with requests := r }.dropWork host id
        | _ => none
  | .work id event => d.works[id]?.bind fun work =>
      if d.requests.selecting id && !d.workers.evictsFor id then d.work host id work.prog event
      else none
  | .workers event =>
      if event.isFree then
        (d.workers.step host.translate event).map fun w => { d with workers := w }
      else none
  | .store disk => some { d with disk := disk }
  | .configure config => some { d with config := config }
  | .count =>
      match d.main with
      | .sleeping idle_exit =>
          if d.requests.manager.active_count = 0 then
            some { d with main := .counted idle_exit, late := false }
          else some { d with main := .sleeping (d.config.idle_exit host) }
      | _ => none
  | .isEmpty =>
      match d.main with
      | .counted idle_exit =>
          if d.workers.lock.isSome then none
          else if d.workers.entries.keys.isEmpty then some { d with main := .emptied idle_exit }
          else some { d with main := .sleeping (d.config.idle_exit host) }
      | _ => none
  | .idleFor =>
      match d.main with
      | .emptied idle_exit =>
          if d.workers.now - d.last ≥ idle_exit then
            some { d with
              main := .idle idle_exit
              seen := (List.range d.handlers.length).filter fun h =>
                d.handlers[h]?.any Handler.touched }
          else some { d with main := .sleeping (d.config.idle_exit host) }
      | _ => none
  | .interrupt =>
      match d.main with
      | .sleeping _ | .counted _ | .emptied _ =>
          some { d with main := .sleeping (d.config.idle_exit host) }
      | _ => none
  | .exit =>
      match d.main with
      | .idle idle_exit => some { d with main := .exited idle_exit }
      | _ => none

/-- Nothing happens after the main loop. -/
def Daemon.step (d : Daemon) (e : DaemonEvent) : Option Daemon :=
  match d.main with
  | .exited _ => none
  | _ => d.act host e

end Step

/-! ## What one step can do

`Transition` lists the steps by what they do to requests, routes and
futures; `step_cases` is the inversion lemma. -/

/-- An operation that changes nothing but its own future, whatever the
answer. -/
def Op.isLocal : Op → Bool
  | .ensure_loaded _ _ _ _ | .submit _ _ _ _ | .drop _ | .emit_progress _ _ => false
  | _ => true

/-- The routes after a future was dropped. -/
def Workers.Dropped (host : Host) (w : Workers) (id : Nat) (w' : Workers) : Prop :=
  w' = w ∨ w.step host.translate (.abort id) = some w'
    ∨ ∃ entry, w.step host.translate (.dropArc id entry) = some w'

section Transition

variable (host : Host)

/-- The future of call `id`, whose task selects, is at `prog`. -/
structure Daemon.At (d : Daemon) (id : Nat) (work : Work) (prog : Async Results) : Prop where
  future : d.works[id]? = some work
  prog : work.prog = prog
  selecting : d.requests.selecting id = true

inductive Daemon.Transition (d : Daemon) : DaemonEvent → Daemon → Prop
  | receive {sender token : String} {method : Method} :
      Transition d (.receive sender token method) { d with
        handlers :=
          d.handlers ++ [(⟨sender, token, method, d.workers.now, false, false⟩ : Handler)] }
  | touch {h : Nat} {handler : Handler} (hhandler : d.handlers[h]? = some handler) :
      Transition d (.touch h) { d with
        last := d.workers.now
        handlers := d.handlers.modify h fun handler => { handler with touched := true } }
  | answer {h : Nat} {handler : Handler} (hhandler : d.handlers[h]? = some handler) :
      Transition d (.handle h) ((d.touchAgain host handler.method).answer h)
  | spawn {h : Nat} {handler : Handler} {prog : Async Results}
      (hhandler : d.handlers[h]? = some handler)
      (hcheck : handler.method.check host d.config d.disk handler.sender handler.token = .ok ())
      (hfuture : handler.method.future host = some prog) :
      Transition d (.handle h) ({ d.touchAgain host handler.method with
        requests := d.requests.enter handler.sender handler.token
        works := d.works ++ [(⟨handler.method, [], prog⟩ : Work)] }.answer h)
  | noObject {h : Nat} : Transition d (.handle h) (d.answer h)
  | cancel {h : Nat} {handler : Handler} {path : String} {r : Requests}
      (hhandler : d.handlers[h]? = some handler) (hmethod : handler.method = .cancel path)
      (hr : d.requests.step host.display (.cancel path) = some r) :
      Transition d (.handle h) ({ d with requests := r }.answer h)
  | task {event : RequestEvent} {r : Requests} (htask : event.isTask = true)
      (hr : d.requests.step host.display event = some r) :
      Transition d (.requests event)
        { d with requests := r, late := d.late || r.registers event }
  | dropWork {event : RequestEvent} {id : Nat} {r : Requests} {w : Workers}
      (hevent : event = .cancelWins id ∨ event = .panic id)
      (hr : d.requests.step host.display event = some r) (hw : d.workers.Dropped host id w) :
      Transition d (.requests event) { d with requests := r, workers := w }
  | routes {event : WorkersEvent} {w : Workers} (hfree : event.isFree = true)
      (hw : d.workers.step host.translate event = some w) :
      Transition d (.workers event) { d with workers := w }
  | step {id : Nat} {event : WorkEvent} {work : Work} {op : Op}
      {next : op.Answer → Async Results} {answer : op.Answer} (hat : d.At id work (.op op next))
      (hlocal : op.isLocal = true) : Transition d (.work id event) (d.resume id op next answer)
  | progress {id : Nat} {work : Work} {fraction : Nat × Nat} {stage : String}
      {next : Unit → Async Results} {r : Requests}
      (hat : d.At id work (.op (.emit_progress fraction stage) next))
      (hr : d.requests.step host.display (.progress id fraction stage) = some r) :
      Transition d (.work id .proceed)
        ({ d with requests := r }.resume id (.emit_progress fraction stage) next ())
  | return {id : Nat} {work : Work} {result : Except Error Results} {r : Requests}
      (hat : d.At id work (.done result))
      (hr : d.requests.step host.display (.work id result) = some r) :
      Transition d (.work id .proceed) { d with requests := r }
  | hit {id entry : Nat} {work : Work} {source target : String} {allow_pivot : Bool}
      {budget_mb : Nat} {next : Except Error Nat → Async Results} {specs : Disk} {w : Workers}
      (hat : d.At id work (.op (.ensure_loaded source target allow_pivot budget_mb) next))
      (hw : d.workers.ensure_loaded id source target allow_pivot budget_mb d.disk specs
        = some (w, .hit entry)) :
      Transition d (.work id (.ensure specs))
        ({ d with workers := w, disk := specs }.resume id
          (.ensure_loaded source target allow_pivot budget_mb) next (.ok entry))
  | failed {id : Nat} {work : Work} {source target : String} {allow_pivot : Bool}
      {budget_mb : Nat} {next : Except Error Nat → Async Results} {specs : Disk} {w : Workers}
      {error : Error}
      (hat : d.At id work (.op (.ensure_loaded source target allow_pivot budget_mb) next))
      (hw : d.workers.ensure_loaded id source target allow_pivot budget_mb d.disk specs
        = some (w, .failed error)) :
      Transition d (.work id (.ensure specs))
        ({ d with workers := w, disk := specs }.resume id
          (.ensure_loaded source target allow_pivot budget_mb) next (.error error))
  | loading {id : Nat} {work : Work} {source target : String} {allow_pivot : Bool}
      {budget_mb : Nat} {next : Except Error Nat → Async Results} {specs : Disk} {w : Workers}
      (hat : d.At id work (.op (.ensure_loaded source target allow_pivot budget_mb) next))
      (hw : d.workers.ensure_loaded id source target allow_pivot budget_mb d.disk specs
        = some (w, .loading)) :
      Transition d (.work id (.ensure specs)) { d with workers := w, disk := specs }
  | loadFailed {id : Nat} {work : Work} {source target : String} {allow_pivot : Bool}
      {budget_mb : Nat} {next : Except Error Nat → Async Results} {message : String}
      {w : Workers}
      (hat : d.At id work (.op (.ensure_loaded source target allow_pivot budget_mb) next))
      (hw : d.workers.loaded (.error (.engineFailure message)) = some w) :
      Transition d (.work id (.loaded (.error message)))
        ({ d with workers := w }.resume id
          (.ensure_loaded source target allow_pivot budget_mb) next
          (.error (.engineFailure message)))
  | loaded {id measured : Nat} {work : Work} {source target : String} {allow_pivot : Bool}
      {budget_mb : Nat} {next : Except Error Nat → Async Results} {w : Workers}
      (hat : d.At id work (.op (.ensure_loaded source target allow_pivot budget_mb) next))
      (hlock : d.workers.loadsFor id = true) (hw : d.workers.loaded (.ok measured) = some w) :
      Transition d (.work id (.loaded (.ok measured)))
        ({ d with workers := w }.resume id
          (.ensure_loaded source target allow_pivot budget_mb) next
          (.ok d.workers.heap.length))
  | submit {id entry : Nat} {work : Work} {segments : List String} {html : Bool}
      {priority : Priority} {next : Option Nat → Async Results} {w : Workers}
      {receiver : Option Nat}
      (hat : d.At id work (.op (.submit entry segments html priority) next))
      (hw : d.workers.step host.translate (.submit id entry segments html priority id)
        = some w) :
      Transition d (.work id .proceed)
        ({ d with workers := w }.resume id (.submit entry segments html priority) next receiver)
  | drop {id entry : Nat} {work : Work} {next : Unit → Async Results} {w : Workers}
      (hat : d.At id work (.op (.drop entry) next))
      (hw : d.workers.step host.translate (.dropArc id entry) = some w) :
      Transition d (.work id .proceed)
        ({ d with workers := w }.resume id (.drop entry) next ())
  | store {disk : Disk} : Transition d (.store disk) { d with disk := disk }
  | configure {config : Config} : Transition d (.configure config) { d with config := config }
  | sleep {e : DaemonEvent} {idle_exit : Nat} :
      Transition d e { d with main := .sleeping idle_exit }
  | counted {idle_exit : Nat} (hmain : d.main = .sleeping idle_exit)
      (hcount : d.requests.manager.active_count = 0) :
      Transition d .count { d with main := .counted idle_exit, late := false }
  | emptied {idle_exit : Nat} (hmain : d.main = .counted idle_exit)
      (hlock : d.workers.lock = none) (hempty : d.workers.entries.keys = []) :
      Transition d .isEmpty { d with main := .emptied idle_exit }
  | timed {idle_exit : Nat} (hmain : d.main = .emptied idle_exit)
      (hidle : d.workers.now - d.last ≥ idle_exit) :
      Transition d .idleFor { d with
        main := .idle idle_exit
        seen := (List.range d.handlers.length).filter fun h =>
          d.handlers[h]?.any Handler.touched }
  | exit {idle_exit : Nat} (hmain : d.main = .idle idle_exit) :
      Transition d .exit { d with main := .exited idle_exit }

variable {host : Host}

theorem Daemon.dropWork_cases {d d' : Daemon} {id : Nat} (h : d.dropWork host id = some d') :
    ∃ w, d.workers.Dropped host id w ∧ d' = { d with workers := w } := by
  unfold dropWork at h
  split at h
  · obtain ⟨w, hw, rfl⟩ := Option.map_eq_some_iff.mp h
    exact ⟨w, Or.inr (Or.inl hw), rfl⟩
  · split at h
    · cases h
      exact ⟨d.workers, Or.inl rfl, rfl⟩
    · rename_i entry _
      obtain ⟨w, hw, rfl⟩ := Option.map_eq_some_iff.mp h
      exact ⟨w, Or.inr (Or.inr ⟨entry, hw⟩), rfl⟩

theorem Daemon.work_cases {d d' : Daemon} {id : Nat} {work : Work} {event : WorkEvent}
    {prog : Async Results} (hat : d.At id work prog)
    (h : d.work host id prog event = some d') :
    Transition host d (.work id event) d' := by
  unfold Daemon.work at h
  split at h
  · -- the return
    obtain ⟨r, hr, rfl⟩ := Option.map_eq_some_iff.mp h
    exact .return hat hr
  · cases h; exact .step hat rfl
  · cases h; exact .step hat rfl
  · cases h; exact .step hat rfl
  · -- `ensure_loaded`
    obtain ⟨⟨w, ensured⟩, hw, rfl⟩ := Option.map_eq_some_iff.mp h
    cases ensured with
    | hit entry => exact .hit hat hw
    | failed error => exact .failed hat hw
    | loading => exact .loading hat hw
  · rename_i result
    dsimp only at h
    split at h
    · rename_i hlock
      cases result with
      | error message =>
          obtain ⟨w, hw, rfl⟩ := Option.map_eq_some_iff.mp h
          exact .loadFailed hat hw
      | ok measured =>
          obtain ⟨w, hw, rfl⟩ := Option.map_eq_some_iff.mp h
          exact .loaded hat hlock hw
    · cases h
  · obtain ⟨e, -, h⟩ := Option.bind_eq_some_iff.mp h
    obtain ⟨w, hw, rfl⟩ := Option.map_eq_some_iff.mp h
    exact .submit hat hw
  · obtain ⟨e, -, h⟩ := Option.bind_eq_some_iff.mp h
    split at h
    · cases h; exact .step hat rfl
    · split at h
      · cases h; exact .step hat rfl
      · cases h
  · obtain ⟨e, -, rfl⟩ := Option.map_eq_some_iff.mp h
    exact .step hat rfl
  · obtain ⟨w, hw, rfl⟩ := Option.map_eq_some_iff.mp h
    exact .drop hat hw
  · obtain ⟨r, hr, rfl⟩ := Option.map_eq_some_iff.mp h
    exact .progress hat hr
  · cases h; exact .step hat rfl
  · cases h; exact .step hat rfl
  · cases h; exact .step hat rfl
  · cases h; exact .step hat rfl
  · cases h; exact .step hat rfl
  · cases h

theorem Daemon.handle_cases {d d' : Daemon} {h : Nat} {handler : Handler}
    (hhandler : d.handlers[h]? = some handler) (hs : d.handle host h handler = some d') :
    Transition host d (.handle h) d' := by
  unfold Daemon.handle at hs
  split at hs
  · rename_i path hmethod
    split at hs
    · cases hs
      exact .noObject
    · rename_i r hr
      cases hs
      exact .cancel hhandler hmethod hr
  · dsimp only at hs
    split at hs
    · cases hs
      exact .answer hhandler
    · cases hs
      exact .answer hhandler
    · rename_i prog hcheck hfuture
      cases hs
      exact .spawn hhandler hcheck hfuture

theorem Daemon.act_cases {d d' : Daemon} {e : DaemonEvent} (h : d.act host e = some d') :
    Transition host d e d' := by
  cases e with
  | receive sender token method =>
      cases h
      exact .receive
  | touch h' =>
      obtain ⟨handler, hhandler, h⟩ := Option.bind_eq_some_iff.mp h
      split at h
      · cases h
        exact .touch hhandler
      · cases h
  | handle h' =>
      obtain ⟨handler, hhandler, h⟩ := Option.bind_eq_some_iff.mp h
      split at h
      · exact handle_cases hhandler h
      · cases h
  | requests event =>
      simp only [act] at h
      split at h
      · rename_i htask
        obtain ⟨r, hr, rfl⟩ := Option.map_eq_some_iff.mp h
        exact .task htask hr
      · split at h
        · obtain ⟨work, -, h⟩ := Option.bind_eq_some_iff.mp h
          split at h
          · obtain ⟨r, hr, h⟩ := Option.bind_eq_some_iff.mp h
            obtain ⟨w, hw, rfl⟩ := dropWork_cases h
            exact .dropWork (Or.inl rfl) hr hw
          · cases h
        · split at h
          · cases h
          · obtain ⟨r, hr, h⟩ := Option.bind_eq_some_iff.mp h
            obtain ⟨w, hw, rfl⟩ := dropWork_cases h
            exact .dropWork (Or.inr rfl) hr hw
        · cases h
  | work id event =>
      obtain ⟨work, hwork, h⟩ := Option.bind_eq_some_iff.mp h
      split at h
      · rename_i hguard
        exact work_cases ⟨hwork, rfl, (Bool.and_eq_true_iff.mp hguard).1⟩ h
      · cases h
  | workers event =>
      simp only [act] at h
      split at h
      · rename_i hfree
        obtain ⟨w, hw, rfl⟩ := Option.map_eq_some_iff.mp h
        exact .routes hfree hw
      · cases h
  | store disk =>
      cases h
      exact .store
  | configure config =>
      cases h
      exact .configure
  | count =>
      simp only [act] at h
      split at h
      · rename_i idle_exit hmain
        split at h <;> cases h
        · rename_i hcount
          exact .counted hmain hcount
        · exact .sleep
      · cases h
  | isEmpty =>
      simp only [act] at h
      split at h
      · rename_i idle_exit hmain
        split at h
        · cases h
        · rename_i hlock
          split at h <;> cases h
          · rename_i hempty
            exact .emptied hmain (by simpa using hlock) (by simpa using hempty)
          · exact .sleep
      · cases h
  | idleFor =>
      simp only [act] at h
      split at h
      · rename_i idle_exit hmain
        split at h <;> cases h
        · rename_i hidle
          exact .timed hmain hidle
        · exact .sleep
      · cases h
  | interrupt =>
      simp only [act] at h
      split at h <;> cases h
      · exact .sleep
      · exact .sleep
      · exact .sleep
  | exit =>
      simp only [act] at h
      split at h <;> cases h
      rename_i idle_exit hmain
      exact .exit hmain

theorem Daemon.step_cases {d d' : Daemon} {e : DaemonEvent} (h : d.step host e = some d') :
    (∀ idle_exit, d.main ≠ .exited idle_exit) ∧ Transition host d e d' := by
  unfold Daemon.step at h
  split at h
  · cases h
  · rename_i hmain
    exact ⟨hmain, act_cases h⟩

/-! ## The parts of the daemon

Every step is at most one step of the requests, and at most one of the
routes. -/

/-- The call whose cancel flag the event sets. -/
def Requests.cancels (s : Requests) : RequestEvent → Option Nat
  | .cancel path => s.objects.lookup path
  | .cancelNext => s.cancelling.head?
  | _ => none

/-- The call whose cancel flag the event sets. -/
def Daemon.cancels (d : Daemon) : DaemonEvent → Option Nat
  | .handle h => d.handlers[h]?.bind fun handler =>
      match handler.method with
      | .cancel path => d.requests.objects.lookup path
      | _ => none
  | .requests event => d.requests.cancels event
  | _ => none

/-- The request that submits a job, and the entry it submits to. -/
def WorkersEvent.submitter : WorkersEvent → Option (Nat × Nat)
  | .submit _ entry _ _ _ cancelled => some (cancelled, entry)
  | _ => none

/-- The request that submits a job, and the entry it submits to. -/
def Daemon.submitter (d : Daemon) : DaemonEvent → Option (Nat × Nat)
  | .work id .proceed => d.works[id]?.bind fun work =>
      match work.prog with
      | .op (.submit entry _ _ _) _ => some (id, entry)
      | _ => none
  | _ => none

/-- The request that looks a route up, its pair and its `allow_pivot`. -/
def WorkersEvent.lookup : WorkersEvent → Option (Nat × Key × Bool)
  | .ensure caller source target allow_pivot _ _ _ =>
      some (caller, (source, target), allow_pivot)
  | _ => none

/-- The request that looks a route up, its pair and its `allow_pivot`. -/
def Daemon.lookup (d : Daemon) : DaemonEvent → Option (Nat × Key × Bool)
  | .work id (.ensure _) => d.works[id]?.bind fun work =>
      match work.prog with
      | .op (.ensure_loaded source target allow_pivot _) _ =>
          some (id, (source, target), allow_pivot)
      | _ => none
  | _ => none

theorem Workers.step_ensure {w w' : Workers} {caller : Nat} {source target : String}
    {allow_pivot : Bool} {budget_mb : Nat} {plan specs : Disk} {ensured : Ensured}
    (h : w.ensure_loaded caller source target allow_pivot budget_mb plan specs
      = some (w', ensured)) :
    w.step host.translate (.ensure caller source target allow_pivot budget_mb plan specs)
      = some w' := by
  simp only [Workers.step, h, Option.map_some]

theorem Daemon.Transition.requests {d d' : Daemon} {e : DaemonEvent}
    (h : d.Transition host e d') :
    d'.requests = d.requests
      ∨ ∃ event, d.requests.step host.display event = some d'.requests
          ∧ d.requests.cancels event = d.cancels e := by
  cases h with
  | receive | touch | answer | noObject | routes | step | hit | failed | loading | loadFailed
  | loaded | submit | drop | store | configure | sleep | counted | emptied | timed | exit =>
      exact Or.inl rfl
  | @spawn h handler prog hhandler hcheck hfuture =>
      refine Or.inr ⟨.enter handler.sender handler.token, rfl, ?_⟩
      simp only [Requests.cancels, Daemon.cancels, hhandler, Option.bind_some]
      split
      · rename_i path hmethod
        rw [hmethod] at hfuture
        cases hfuture
      · rfl
  | cancel hhandler hmethod hr =>
      refine Or.inr ⟨_, hr, ?_⟩
      simp only [Requests.cancels, Daemon.cancels, hhandler, Option.bind_some, hmethod]
  | task htask hr => exact Or.inr ⟨_, hr, rfl⟩
  | dropWork hevent hr hw => exact Or.inr ⟨_, hr, rfl⟩
  | progress hat hr | «return» hat hr => exact Or.inr ⟨_, hr, rfl⟩

/-- The registry's event is the one that the daemon's event stands for. -/
structure Daemon.Drives (d : Daemon) (e : DaemonEvent) (event : WorkersEvent) : Prop where
  submitter : event.submitter = d.submitter e
  lookup : event.lookup = d.lookup e
  free : event.isFree = true → e = .workers event
  selecting : ∀ id entry, event.submitter = some (id, entry) → d.requests.selecting id = true
  loaded : ∀ measured, event = .loaded (.ok measured) → ∃ id, e = .work id (.loaded (.ok measured))

theorem Daemon.Transition.workers {d d' : Daemon} {e : DaemonEvent}
    (h : d.Transition host e d') :
    d'.workers = d.workers
      ∨ ∃ event, d.workers.step host.translate event = some d'.workers ∧ d.Drives e event := by
  cases h with
  | receive | touch | answer | noObject | spawn | cancel | task | step | progress | «return»
  | store | configure | sleep | counted | emptied | timed | exit => exact Or.inl rfl
  | dropWork hevent hr hw =>
      rcases hw with rfl | hw | ⟨entry, hw⟩
      · exact Or.inl rfl
      · exact Or.inr ⟨_, hw, rfl, rfl, nofun, nofun, nofun⟩
      · exact Or.inr ⟨_, hw, rfl, rfl, nofun, nofun, nofun⟩
  | @routes event w hfree hw =>
      refine Or.inr ⟨event, hw, ?_⟩
      cases event <;> first | (cases hfree; done) | exact ⟨rfl, rfl, fun _ => rfl, nofun, nofun⟩
  | hit hat hw | failed hat hw | loading hat hw =>
      refine Or.inr ⟨_, Workers.step_ensure hw, rfl, ?_, nofun, nofun, nofun⟩
      simp only [WorkersEvent.lookup, Daemon.lookup, hat.future, Option.bind_some, hat.prog]
  | @loadFailed _ _ _ _ _ _ _ message _ _ hw =>
      exact Or.inr ⟨.loaded (.error (.engineFailure message)), hw, rfl, rfl, nofun, nofun, nofun⟩
  | @loaded _ measured _ _ _ _ _ _ _ _ _ hw =>
      refine Or.inr ⟨.loaded (.ok measured), hw, rfl, rfl, nofun, nofun, ?_⟩
      rintro measured' ⟨⟩
      exact ⟨_, rfl⟩
  | submit hat hw =>
      refine Or.inr ⟨_, hw, ?_, rfl, nofun, ?_, nofun⟩
      · simp only [WorkersEvent.submitter, Daemon.submitter, hat.future, Option.bind_some, hat.prog]
      · rintro id entry ⟨⟩
        exact hat.selecting
  | drop hat hw =>
      refine Or.inr ⟨_, hw, ?_, rfl, nofun, nofun, nofun⟩
      simp only [WorkersEvent.submitter, Daemon.submitter, hat.future, Option.bind_some, hat.prog]

theorem Daemon.submitter_eq_some {d : Daemon} {e : DaemonEvent} {id entry : Nat}
    (h : d.submitter e = some (id, entry)) :
    ∃ work segments html priority next, d.works[id]? = some work
      ∧ work.prog = .op (.submit entry segments html priority) next := by
  unfold Daemon.submitter at h
  split at h
  · obtain ⟨work, hwork, h⟩ := Option.bind_eq_some_iff.mp h
    split at h
    · rename_i hprog
      cases h
      exact ⟨work, _, _, _, _, hwork, hprog⟩
    · cases h
  · cases h

theorem Daemon.lookup_eq_some {d : Daemon} {e : DaemonEvent} {id : Nat} {key : Key}
    {allow_pivot : Bool} (h : d.lookup e = some (id, key, allow_pivot)) :
    ∃ work budget_mb next, d.works[id]? = some work
      ∧ work.prog = .op (.ensure_loaded key.1 key.2 allow_pivot budget_mb) next := by
  unfold Daemon.lookup at h
  split at h
  · obtain ⟨work, hwork, h⟩ := Option.bind_eq_some_iff.mp h
    split at h
    · rename_i hprog
      cases h
      exact ⟨work, _, _, hwork, hprog⟩
    · cases h
  · cases h

/-- How the future of call `id` goes on: by the answer to the operation it
is at, which is an entry if that is `ensure_loaded` and it succeeds. -/
inductive Daemon.Goes (d d' : Daemon) (e : DaemonEvent) (id : Nat) (work : Work) : Work → Prop
  | same : Goes d d' e id work work
  | answered {op : Op} {next : op.Answer → Async Results} {answer : op.Answer}
      (hprog : work.prog = .op op next) (hused : op.use work.used answer = work.used) :
      Goes d d' e id work { work with used := op.use work.used answer, prog := next answer }
  | hit {entry : Nat} {key : Key} {allow_pivot : Bool} {budget_mb : Nat}
      {next : Except Error Nat → Async Results}
      (hprog : work.prog = .op (.ensure_loaded key.1 key.2 allow_pivot budget_mb) next)
      (hevent : d.lookup e = some (id, key, allow_pivot))
      (hlookup : d.workers.entries.lookup key = some entry) :
      Goes d d' e id work { work with used := entry :: work.used, prog := next (.ok entry) }
  | loaded {measured : Nat} {source target : String} {allow_pivot : Bool} {budget_mb : Nat}
      {next : Except Error Nat → Async Results}
      (hprog : work.prog = .op (.ensure_loaded source target allow_pivot budget_mb) next)
      (hlock : d.workers.loadsFor id = true)
      (hloaded : d.workers.loaded (.ok measured) = some d'.workers) :
      Goes d d' e id work { work with
        used := d.workers.heap.length :: work.used
        prog := next (.ok d.workers.heap.length) }

theorem Daemon.Goes.method {d d' : Daemon} {e : DaemonEvent} {id : Nat} {work work' : Work}
    (h : d.Goes d' e id work work') : work'.method = work.method := by
  cases h <;> rfl

theorem Daemon.Goes.used_subset {d d' : Daemon} {e : DaemonEvent} {id : Nat}
    {work work' : Work} (h : d.Goes d' e id work work') : work.used ⊆ work'.used := by
  cases h with
  | same => exact List.Subset.refl _
  | answered hprog hused =>
      dsimp only
      rw [hused]
      exact List.Subset.refl _
  | hit | loaded => exact List.subset_cons_self ..

/-- The step gives the future of call `id` the answer, and no other. -/
theorem Daemon.resume_getElem? {d₀ : Daemon} {id id' : Nat} {work : Work} {op : Op}
    {next : op.Answer → Async Results} {answer : op.Answer} (hwork : d₀.works[id]? = some work) :
    (d₀.resume id op next answer).works[id']?
      = if id = id' then
          some { work with used := op.use work.used answer, prog := next answer }
        else d₀.works[id']? := by
  rw [resume, List.getElem?_modify]
  by_cases h : id = id'
  · subst h
    rw [hwork, if_pos rfl]
    simp
  · rw [if_neg h]
    simp [h]

theorem Daemon.Transition.works_self {d d' : Daemon} {e : DaemonEvent} {id : Nat} {work : Work}
    (h : d.Transition host e d') (hwork : d.works[id]? = some work) :
    ∃ work', d'.works[id]? = some work' ∧ d.Goes d' e id work work' := by
  have hgoes : ∀ {d₀ : Daemon} {id₀ : Nat} {work₀ : Work} {op : Op}
      {next : op.Answer → Async Results} {answer : op.Answer}, d₀.works = d.works →
      d'.works = (d₀.resume id₀ op next answer).works → d.At id₀ work₀ (.op op next) →
      (id₀ = id → work = work₀ → d.Goes d' e id work
        { work with used := op.use work.used answer, prog := next answer }) →
      ∃ work', d'.works[id]? = some work' ∧ d.Goes d' e id work work' := by
    intro d₀ id₀ work₀ op next answer hworks hworks' hat hg
    rw [hworks', Daemon.resume_getElem? (hworks ▸ hat.future)]
    by_cases hid : id₀ = id
    · subst hid
      obtain rfl := Option.some.inj (hwork.symm.trans hat.future)
      rw [if_pos rfl]
      exact ⟨_, rfl, hg rfl rfl⟩
    · rw [if_neg hid, hworks]
      exact ⟨work, hwork, .same⟩
  cases h with
  | receive | touch | answer | noObject | cancel | task | routes | «return» | store | configure
  | sleep | counted | emptied | timed | exit | dropWork | loading =>
      exact ⟨work, hwork, .same⟩
  | @spawn h handler prog hhandler hcheck hfuture =>
      have hlt := (List.getElem?_eq_some_iff.mp hwork).1
      refine ⟨work, ?_, .same⟩
      show (d.works ++ [(⟨handler.method, [], prog⟩ : Work)])[id]? = some work
      rw [List.getElem?_append_left hlt, hwork]
  | @step _ _ _ op next answer hat hlocal =>
      refine hgoes rfl rfl hat fun _ hw => .answered (hw ▸ hat.prog) ?_
      cases op <;> first | rfl | cases hlocal
  | progress hat | submit hat | drop hat =>
      exact hgoes rfl rfl hat fun _ hw => .answered (hw ▸ hat.prog) rfl
  | failed hat | loadFailed hat =>
      exact hgoes rfl rfl hat fun _ hw => .answered (hw ▸ hat.prog) rfl
  | @hit id₀ entry work₀ source target allow_pivot budget_mb next specs w hat hw =>
      refine hgoes rfl rfl hat fun hid hwork' => ?_
      subst hid
      rcases (Workers.ensure_loaded_cases hw).2 with
        ⟨_, hlookup, hr, -⟩ | ⟨_, hr, -⟩ | ⟨_, _, _, -, hr, -⟩
      · cases hr
        have hprog : work.prog = .op (.ensure_loaded (source, target).1 (source, target).2
            allow_pivot budget_mb) next := hwork' ▸ hat.prog
        refine .hit hprog ?_ hlookup
        simp only [Daemon.lookup, hwork, Option.bind_some, hprog]
      · cases hr
      · cases hr
  | loaded hat hlock hw =>
      refine hgoes rfl rfl hat fun hid hwork' => ?_
      subst hid
      exact .loaded (hwork' ▸ hat.prog) hlock hw

/-- A future after the step was there before, or is the one just spawned. -/
theorem Daemon.Transition.works {d d' : Daemon} {e : DaemonEvent} {id : Nat} {work' : Work}
    (h : d.Transition host e d') (hwork' : d'.works[id]? = some work') :
    (∃ work, d.works[id]? = some work ∧ d.Goes d' e id work work')
      ∨ (d.works[id]? = none ∧ work'.used = []
          ∧ work'.method.future host = some work'.prog) := by
  cases hwork : d.works[id]? with
  | some work =>
      obtain ⟨work'', hwork'', hgoes⟩ := h.works_self hwork
      obtain rfl := Option.some.inj (hwork'.symm.trans hwork'')
      exact Or.inl ⟨work, rfl, hgoes⟩
  | none =>
      refine Or.inr ⟨rfl, ?_⟩
      have hnone : ∀ {d₀ : Daemon} {id₀ : Nat} {op : Op} {next : op.Answer → Async Results}
          {answer : op.Answer}, d₀.works = d.works →
          (d₀.resume id₀ op next answer).works[id]? ≠ some work' := by
        intro d₀ id₀ op next answer hworks hsome
        rw [resume, List.getElem?_modify, hworks, hwork] at hsome
        cases hsome
      cases h with
      | receive | touch | answer | noObject | cancel | task | routes | «return» | store
      | configure | sleep | counted | emptied | timed | exit | dropWork | loading =>
          exact absurd (hwork.symm.trans hwork') (by simp)
      | step | progress | hit | failed | loadFailed | loaded | submit | drop =>
          exact absurd hwork' (hnone rfl)
      | @spawn h handler prog hhandler hcheck hfuture =>
          have hworks : (d.works ++ [(⟨handler.method, [], prog⟩ : Work)])[id]? = some work' :=
            hwork'
          rw [List.getElem?_append_right (List.getElem?_eq_none_iff.mp hwork)] at hworks
          obtain rfl := List.mem_singleton.mp (List.mem_of_getElem? hworks)
          exact ⟨rfl, hfuture⟩

end Transition

/-- An engine that answers every segment with itself. -/
def echoHost : Host where
  translate _ _ _ segments := segments.map fun segment => ⟨segment, []⟩
  display _ := ""
  debug text := "\"" ++ text ++ "\""
  is_alphanumeric c := c.isAlphanum
  ticksPerSecond := 1

end Dragomand
