import Dragomand.Daemon
import Dragomand.RequestResponse
import Dragomand.WorkersEvict

/-!
# Clients that leave the bus

`watch_disconnects` hears of a client's end once, and `cancel_client`
cancels what the slot table holds for the client then. A handler that
plans its route meanwhile registers later, and nobody comes back for it;
and a slot is taken out of the table by path, so that the end of one
request can take the slot of another. Where neither happens (`InTime`), a
request whose work goes on has its slot in the table as long as its client
is not `announced`, and its flag set once that is dealt with.
-/

namespace Dragomand

/-! ## The watched daemon -/

/-- `announced` is a history variable: the clients `cancel_client` was
called for. -/
structure Watched where
  daemon : Daemon
  announced : List String

def Watched.init (config : Config) (host : Host) : Watched := ⟨.init config host, []⟩

/-- The clients that the event calls `cancel_client` for. -/
def RequestEvent.announces : RequestEvent → List String
  | .cancelClient sender => [sender]
  | _ => []

def DaemonEvent.announces : DaemonEvent → List String
  | .requests event => event.announces
  | _ => []

def Watched.step (host : Host) (w : Watched) (e : DaemonEvent) : Option Watched :=
  (w.daemon.step host e).map fun d => ⟨d, e.announces ++ w.announced⟩

/-- The handler is inside `spawn_request`. -/
def Phase.spawning : Phase → Bool
  | .entered | .registered | .rejected => true
  | _ => false

/-- The call may have work that is not finished, now or once the object
server has answered. -/
def Phase.unfinished : Phase → Bool
  | .registered | .selecting => true
  | _ => false

/-- The call may have work that is not finished, and its flag is not set. -/
def Requests.uncancelled (s : Requests) (id : Nat) : Bool :=
  s.calls[id]?.any fun c => c.phase.unfinished && !c.cancelled

/-- The end of `sender` is announced and dealt with, and so are the method
calls it made. -/
structure Watched.Processed (w : Watched) (sender : String) : Prop where
  announced : sender ∈ w.announced
  handles : ∀ id ∈ w.daemon.requests.cancelling, ∀ c, w.daemon.requests.calls[id]? = some c →
    c.sender ≠ sender
  handlers : ∀ handler ∈ w.daemon.handlers, handler.sender = sender → handler.answered = true
  calls : ∀ c ∈ w.daemon.requests.calls, c.sender = sender → c.phase.spawning = false

/-- A vanished client's requests are cancelled. -/
def Watched.VanishedCancelled (w : Watched) : Prop :=
  ∀ sender, w.Processed sender → ∀ c ∈ w.daemon.requests.calls, c.sender = sender →
    c.phase = .selecting → c.cancelled = true

/-- The steps that register no request of a client in `gone`, and take no
slot of an unfinished request, not cancelled yet, out of the table but for
the one of their own call. -/
def InTime (gone : List String) (s : Requests) : RequestEvent → Prop
  | .register id => ∀ c ∈ (s.calls[id]?).toList, c.sender ∉ gone
  | .rollback id | .release id =>
      ∀ c ∈ (s.calls[id]?).toList, ∀ slot ∈ s.manager.slots c.sender,
        slot.path = c.path → slot.call = id ∨ s.uncancelled slot.call = false
  | _ => True

instance (gone : List String) (s : Requests) (e : RequestEvent) : Decidable (InTime gone s e) :=
  match e with
  | .enter _ _ | .register _ | .at _ _ | .rollback _ | .progress _ _ _ | .work _ _
  | .cancelWins _ | .panic _ | .decide _ | .emit _ _ | .remove _ | .release _ | .cancel _
  | .vanish _ | .cancelClient _ | .cancelNext => by delta InTime; infer_instance

def Watched.InTime (w : Watched) : DaemonEvent → Prop
  | .requests event => Dragomand.InTime w.announced w.daemon.requests event
  | _ => True

instance (w : Watched) (e : DaemonEvent) : Decidable (w.InTime e) :=
  match e with
  | .receive _ _ _ | .touch _ | .handle _ | .requests _ | .work _ _ | .workers _ | .store _
  | .configure _ | .count | .isEmpty | .idleFor | .interrupt | .exit => by
      delta Watched.InTime; infer_instance

/-! ## Unfinished requests are kept track of -/

/-- An unfinished request is cancelled, about to be, or found in the table
when its client leaves. -/
def Findable (gone : List String) (s : Requests) : Prop :=
  ∀ (id : Nat) (c : Call), s.calls[id]? = some c → c.phase.unfinished = true →
    c.cancelled = true ∨ id ∈ s.cancelling
      ∨ c.sender ∉ gone ∧ (⟨c.path, id⟩ : Slot) ∈ s.manager.slots c.sender

section Findable

variable {display : Error → String} {gone : List String} {s s' : Requests} {e : RequestEvent}

theorem Requests.uncancelled_of_call {id : Nat} {c : Call} (hcall : s.calls[id]? = some c) :
    s.uncancelled id = (c.phase.unfinished && !c.cancelled) := by
  simp [uncancelled, hcall]

/-- A change of phase that leaves no call unfinished that was not, and
takes no slot of one. -/
theorem Findable.setPhase (hs : Findable gone s) {id : Nat} {c : Call} {phase : Phase}
    (hcall : s.calls[id]? = some c)
    (hphase : phase.unfinished = true → c.phase.unfinished = true)
    (hcalls : s'.calls = (s.setPhase id phase).calls) (hcancelling : s'.cancelling = s.cancelling)
    (hslots : ∀ id' c', s.calls[id']? = some c' → c'.phase.unfinished = true →
      c'.cancelled = false → (id' = id → phase.unfinished = true) →
      (⟨c'.path, id'⟩ : Slot) ∈ s.manager.slots c'.sender →
      (⟨c'.path, id'⟩ : Slot) ∈ s'.manager.slots c'.sender) : Findable gone s' := by
  have hkeep : ∀ id' c', s.calls[id']? = some c' → c'.phase.unfinished = true →
      (id' = id → phase.unfinished = true) → c'.cancelled = true ∨ id' ∈ s'.cancelling
        ∨ c'.sender ∉ gone ∧ (⟨c'.path, id'⟩ : Slot) ∈ s'.manager.slots c'.sender := by
    intro id' c' hcall' hun hid
    rw [hcancelling]
    rcases hs id' c' hcall' hun with hflag | hnext | ⟨hhere, hmem⟩
    · exact Or.inl hflag
    · exact Or.inr (Or.inl hnext)
    · cases hclear : c'.cancelled with
      | true => exact Or.inl rfl
      | false => exact Or.inr (Or.inr ⟨hhere, hslots id' c' hcall' hun hclear hid hmem⟩)
  intro id' c' hcall' hun
  rw [hcalls] at hcall'
  rcases Requests.calls_setPhase_eq_some hcall' with ⟨rfl, c₀, hc₀, rfl⟩ | ⟨hne, hold⟩
  · obtain rfl := Option.some.inj (hcall.symm.trans hc₀)
    exact hkeep id' c hcall (hphase hun) fun _ => hun
  · exact hkeep id' c' hold hun fun hid => absurd hid hne

/-- A flag that is set, taken from the list of those to set or not. -/
theorem Findable.cancelHandle (hs : Findable gone s) {id : Nat}
    (hcalls : s'.calls = (s.cancelHandle id).calls) (hmanager : s'.manager = s.manager)
    (hcancelling : ∀ id', id' ∈ s.cancelling → id' = id ∨ id' ∈ s'.cancelling) :
    Findable gone s' := by
  intro id' c' hcall' hun
  rw [hcalls] at hcall'
  obtain ⟨c, hcall, rfl⟩ := Requests.calls_cancelHandle_eq_some hcall'
  rw [hmanager]
  rcases hs id' c hcall hun with hflag | hnext | hkept
  · exact Or.inl (by simp [hflag])
  · rcases hcancelling id' hnext with hself | hrest
    · exact Or.inl (by simp [hself])
    · exact Or.inr (Or.inl hrest)
  · exact Or.inr (Or.inr hkept)

/-- A release that takes no unfinished request's slot but the call's own. -/
theorem Findable.release (hs : Findable gone s) {id : Nat} {c : Call} {phase : Phase}
    (hcall : s.calls[id]? = some c) (hphase : phase.unfinished = false)
    (hok : ∀ c ∈ (s.calls[id]?).toList, ∀ slot ∈ s.manager.slots c.sender,
      slot.path = c.path → slot.call = id ∨ s.uncancelled slot.call = false)
    (hcalls : s'.calls = (s.setPhase id phase).calls) (hcancelling : s'.cancelling = s.cancelling)
    (hmanager : s'.manager = s.manager.release c.sender c.path) : Findable gone s' := by
  have hown := hok c (by simp [hcall])
  refine hs.setPhase hcall (by simp [hphase]) hcalls hcancelling
    fun id' c' hcall' hun hclear hid hmem => ?_
  rw [hphase] at hid
  rw [hmanager]
  by_cases hsender : c'.sender = c.sender
  · rw [hsender] at hmem ⊢
    rw [RequestManager.slots_release_self]
    refine List.mem_filter.mpr ⟨hmem, decide_eq_true fun hpath => ?_⟩
    rcases hown _ hmem hpath with hself | hdone
    · exact absurd (hid hself) (by simp)
    · rw [Requests.uncancelled_of_call hcall', hun, hclear] at hdone
      cases hdone
  · rwa [RequestManager.slots_release_of_ne _ hsender]

/-- A registration of a client still there. -/
theorem Findable.register (hs : Findable gone s) {id : Nat} {c : Call} {manager : RequestManager}
    (hcall : s.calls[id]? = some c) (hhere : c.sender ∉ gone)
    (hreg : s.manager.register c.sender ⟨c.path, id⟩ = .ok manager) :
    Findable gone { s.setPhase id .registered with manager := manager } := by
  obtain ⟨-, hself, hother⟩ := RequestManager.register_eq_ok hreg
  intro id' c' hcall' hun
  rcases Requests.calls_setPhase_eq_some hcall' with ⟨rfl, c₀, hc₀, rfl⟩ | ⟨hne, hold⟩
  · obtain rfl := Option.some.inj (hcall.symm.trans hc₀)
    refine Or.inr (Or.inr ⟨hhere, ?_⟩)
    show _ ∈ manager.slots c.sender
    simp [hself]
  · rcases hs id' c' hold hun with hflag | hnext | ⟨hhere', hmem⟩
    · exact Or.inl hflag
    · exact Or.inr (Or.inl hnext)
    · refine Or.inr (Or.inr ⟨hhere', ?_⟩)
      show _ ∈ manager.slots c'.sender
      by_cases hsender : c'.sender = c.sender
      · rw [hsender] at hmem ⊢
        rw [hself]
        exact List.mem_append_left _ hmem
      · rwa [hother _ hsender]

/-- `cancel_client` takes the client's slots to where their handles are
cancelled. -/
theorem Findable.cancelClient (hs : Findable gone s) {sender : String} (hidle : s.cancelling = []) :
    Findable (sender :: gone) { s with
      manager := s.manager.removeClient sender
      cancelling := (s.manager.slots sender).map (·.call) } := by
  intro id c hcall hun
  rcases hs id c hcall hun with hflag | hnext | ⟨hhere, hmem⟩
  · exact Or.inl hflag
  · rw [hidle] at hnext
    cases hnext
  · right
    by_cases hsender : c.sender = sender
    · exact Or.inl (List.mem_map.mpr ⟨_, hsender ▸ hmem, rfl⟩)
    · refine Or.inr ⟨by simp [hsender, hhere], ?_⟩
      show _ ∈ (s.manager.removeClient sender).slots c.sender
      rwa [RequestManager.slots_removeClient_of_ne _ hsender]

theorem findable_step (h : s.Transition display e s') (hok : InTime gone s e)
    (hs : Findable gone s) : Findable (e.announces ++ gone) s' := by
  cases h with
  | @enter sender token c hsender hflag hphase =>
      intro id c' hcall' hun
      have hcalls : (s.calls ++ [c])[id]? = some c' := hcall'
      by_cases hlt : id < s.calls.length
      · rw [List.getElem?_append_left hlt] at hcalls
        exact hs id c' hcalls hun
      · rw [List.getElem?_append_right (Nat.le_of_not_lt hlt)] at hcalls
        obtain rfl := List.mem_singleton.mp (List.mem_of_getElem? hcalls)
        rcases hphase with hp | ⟨error, hp⟩ <;> simp [hp, Phase.unfinished] at hun
  | register hcall hphase hreg => exact hs.register hcall (hok _ (by simp [hcall])) hreg
  | rollback hcall hphase | release hcall hphase => exact hs.release hcall rfl hok rfl rfl rfl
  | refuse hcall hphase | serverError hcall hphase | duplicate hcall hphase
  | accept hcall hphase | work hcall hphase | cancelWins hcall hphase | panic hcall hphase
  | decide hcall hphase | emit hcall hphase | unsent hcall hphase | emitLost hcall hphase
  | remove hcall hphase =>
      exact hs.setPhase hcall (by simp [hphase, Phase.unfinished]) rfl rfl fun _ _ _ _ _ _ h => h
  | progress | progressLost | vanish => exact hs
  | cancel => exact hs.cancelHandle rfl rfl fun _ => Or.inr
  | cancelNext hnext =>
      exact hs.cancelHandle rfl rfl fun _ hmem => List.mem_cons.mp (hnext ▸ hmem)
  | cancelClient hgone hidle => exact hs.cancelClient hidle

end Findable

/-! ## Whole runs -/

section Runs

variable {host : Host} {config : Config} {w w' : Watched} {e : DaemonEvent}

/-- An event of the requests' own is theirs. -/
theorem Daemon.step_requests {d d' : Daemon} {event : RequestEvent}
    (h : d.step host (.requests event) = some d') :
    d.requests.step host.display event = some d'.requests := by
  unfold Daemon.step at h
  split at h
  · cases h
  · simp only [Daemon.act] at h
    split at h
    · obtain ⟨r, hr, rfl⟩ := Option.map_eq_some_iff.mp h
      exact hr
    · split at h
      · obtain ⟨work, -, h⟩ := Option.bind_eq_some_iff.mp h
        split at h
        · obtain ⟨r, hr, h⟩ := Option.bind_eq_some_iff.mp h
          obtain ⟨_, -, rfl⟩ := Daemon.dropWork_cases h
          exact hr
        · cases h
      · split at h
        · cases h
        · obtain ⟨r, hr, h⟩ := Option.bind_eq_some_iff.mp h
          obtain ⟨_, -, rfl⟩ := Daemon.dropWork_cases h
          exact hr
      · cases h

/-- What else happens to the requests is not a task's doing. -/
theorem Daemon.Transition.requests_cases {d d' : Daemon} (h : d.Transition host e d') :
    d'.requests = d.requests ∨ (∃ event, e = .requests event)
      ∨ ∃ event, d.requests.step host.display event = some d'.requests
          ∧ event.isTask = false := by
  cases h with
  | receive | touch | answer | noObject | routes | step | hit | failed | loading | loadFailed
  | loaded | submit | drop | store | configure | sleep | counted | emptied | timed | exit =>
      exact Or.inl rfl
  | task | dropWork => exact Or.inr (Or.inl ⟨_, rfl⟩)
  | @spawn h handler prog hhandler hcheck hfuture =>
      exact Or.inr (Or.inr ⟨.enter handler.sender handler.token, rfl, rfl⟩)
  | cancel hhandler hmethod hr => exact Or.inr (Or.inr ⟨_, hr, rfl⟩)
  | progress hat hr | «return» hat hr => exact Or.inr (Or.inr ⟨_, hr, rfl⟩)

theorem inTime_of_not_isTask {gone : List String} {s : Requests} {event : RequestEvent}
    (h : event.isTask = false) : InTime gone s event ∧ event.announces = [] := by
  cases event <;> first | exact ⟨trivial, rfl⟩ | cases h

/-- A step of the daemon is a step of the requests with the same
announcement, or none. -/
theorem Watched.requests_cases (h : w.step host e = some w') (hok : w.InTime e) :
    (w'.daemon.requests = w.daemon.requests ∧ w'.announced = w.announced)
      ∨ ∃ event, w.daemon.requests.step host.display event = some w'.daemon.requests
          ∧ Dragomand.InTime w.announced w.daemon.requests event
          ∧ w'.announced = event.announces ++ w.announced := by
  obtain ⟨d, hd, rfl⟩ := Option.map_eq_some_iff.mp h
  by_cases hevent : ∃ event, e = .requests event
  · obtain ⟨event, rfl⟩ := hevent
    exact Or.inr ⟨event, Daemon.step_requests hd, hok, rfl⟩
  · have hnone : e.announces = [] := by
      cases e <;> first | rfl | exact absurd ⟨_, rfl⟩ hevent
    rcases (Daemon.step_cases hd).2.requests_cases with hsame | hown | ⟨event, hr, htask⟩
    · exact Or.inl ⟨hsame, by simp [hnone]⟩
    · exact absurd hown hevent
    · obtain ⟨hin, hann⟩ := inTime_of_not_isTask htask
      exact Or.inr ⟨event, hr, hin, by simp [hnone, hann]⟩

theorem findable_of_reach
    (h : Machine.Reach (Watched.step host) Watched.InTime (Watched.init config host) w) :
    Findable w.announced w.daemon.requests := by
  have hinit : Findable (Watched.init config host).announced
      (Watched.init config host).daemon.requests := by
    simp [Findable, Watched.init, Daemon.init, Requests.init]
  refine h.invariant (I := fun w => Findable w.announced w.daemon.requests) hinit ?_
  intro w e w' _ hok hs hi
  rcases Watched.requests_cases hs hok with ⟨hsame, hann⟩ | ⟨event, hr, hin, hann⟩
  · rwa [hsame, hann]
  · rw [hann]
    exact findable_step (Requests.step_cases hr) hin hi

/-- **A vanished client's requests are cancelled**, in every run in which
they register before the client's end is announced and keep their slots. -/
theorem vanished_requests_cancelled
    (h : Machine.Reach (Watched.step host) Watched.InTime (Watched.init config host) w) :
    w.VanishedCancelled := by
  intro sender hdone c hmem hsender hphase
  obtain ⟨id, hcall⟩ := List.getElem?_of_mem hmem
  have hfound := findable_of_reach h id c hcall (by rw [hphase]; rfl)
  rcases hfound with hflag | hnext | ⟨hhere, -⟩
  · exact hflag
  · exact absurd hsender (hdone.handles id hnext c hcall)
  · exact absurd (hsender ▸ hdone.announced) hhere

end Runs

/-! ## Two runs -/

/-- A client asks for a translation from Bulgarian to English. -/
def askBgEn (token : String) : DaemonEvent :=
  .receive ":1.7" token (.translate ⟨"bg", "en", true, false, .interactive⟩ ["a"] false)

/-- The handler plans the route, makes the request and returns. -/
def spawnBgEn : List DaemonEvent :=
  [.handle 0, .requests (.register 0), .requests (.at 0 none)]

/-- The client leaves the bus, and the daemon hears of it. -/
def leaveBus : List DaemonEvent :=
  [.requests (.vanish ":1.7"), .requests (.cancelClient ":1.7")]

/-- The client leaves after its call has returned. -/
theorem vanished_requests_cancelled_after :
    ∃ w, Machine.Reach (Watched.step echoHost) Watched.InTime (Watched.init .default echoHost) w
      ∧ w.daemon.requests.calls.map (fun c => (c.sender, c.phase, c.cancelled))
          = [(":1.7", .selecting, true)]
      ∧ w.VanishedCancelled := by
  obtain ⟨w, hreach, hw⟩ := Machine.exists_reach_of_run (Watched.step echoHost) Watched.InTime
    (Watched.init .default echoHost)
    ([.store bgEnDisk, askBgEn "t", .touch 0] ++ spawnBgEn ++ leaveBus ++ [.requests .cancelNext])
    (fun w : Watched => decide
      (w.daemon.requests.calls.map (fun c => (c.sender, c.phase, c.cancelled))
        = [(":1.7", .selecting, true)]))
    (by decide)
  exact ⟨w, hreach, of_decide_eq_true hw, vanished_requests_cancelled hreach⟩

/-- The client leaves while its handler plans the route: the request comes
after, and its work goes on. -/
theorem vanished_request_not_cancelled :
    ∃ w, Machine.Reach (Watched.step echoHost) Machine.anyStep (Watched.init .default echoHost) w
      ∧ w.daemon.requests.calls.map (fun c => (c.sender, c.phase, c.cancelled))
          = [(":1.7", .selecting, false)]
      ∧ ¬ w.VanishedCancelled := by
  obtain ⟨w, hreach, hw⟩ := Machine.exists_reach_of_run (Watched.step echoHost) Machine.anyStep
    (Watched.init .default echoHost)
    ([.store bgEnDisk, askBgEn "t", .touch 0] ++ leaveBus ++ spawnBgEn)
    (fun w : Watched => decide
      (w.daemon.requests.calls.map (fun c => (c.sender, c.phase, c.cancelled))
          = [(":1.7", .selecting, false)]
        ∧ ":1.7" ∈ w.announced ∧ w.daemon.requests.cancelling = []
        ∧ w.daemon.handlers.map Handler.answered = [true]))
    (by decide)
  obtain ⟨hcalls, hann, hidle, hanswered⟩ := of_decide_eq_true hw
  refine ⟨w, hreach, hcalls, fun hall => ?_⟩
  have honly : ∀ c ∈ w.daemon.requests.calls, c.phase = .selecting ∧ c.cancelled = false := by
    intro c hc
    have hmem := List.mem_map_of_mem (f := fun c : Call => (c.sender, c.phase, c.cancelled)) hc
    rw [hcalls] at hmem
    simp only [List.mem_singleton, Prod.mk.injEq] at hmem
    exact hmem.2
  have hdone : w.Processed ":1.7" :=
    ⟨hann, by simp [hidle], fun handler hmem _ => by
      have := List.mem_map_of_mem (f := Handler.answered) hmem
      rw [hanswered] at this
      exact List.mem_singleton.mp this, fun c hc _ => by rw [(honly c hc).1]; rfl⟩
  obtain ⟨c, hc, hview⟩ := List.mem_map.mp (hcalls ▸ List.mem_singleton_self _)
  have hflag := hall ":1.7" hdone c hc (congrArg Prod.fst hview) (honly c hc).1
  rw [(honly c hc).2] at hflag
  cases hflag

end Dragomand
