import Dragomand.Daemon
import Dragomand.RequestResponse
import Dragomand.WorkersRoutes

/-!
# Cancellation and the engine

A request's cancel flag and the `cancelled` flag of its jobs are two
atomics. Setting the first drops the future, which leaves the job queued
behind it, and the scheduler reads the second, which stays clear: so the
engine gets what is left of the job. It gets nothing more where the
cancellation finds the request without a job that has segments left, and
the future submits none afterwards (`SettledCancels`).
-/

namespace Dragomand

/-! ## Flags and jobs -/

/-- The flag of the call's `CancelHandle`. -/
def Requests.flag (s : Requests) (id : Nat) : Bool := s.calls[id]?.any Call.cancelled

/-- No route has a segment of the request to hand to the engine. -/
def Workers.settled (w : Workers) (id : Nat) : Prop :=
  ∀ entry ∈ w.heap, id ∉ entry.scheduler.owners

instance (w : Workers) (id : Nat) : Decidable (w.settled id) := by
  unfold Workers.settled; infer_instance

/-- The steps that set the flag of a request only when none of its jobs
has segments left, and submit no job of a request whose flag is set. -/
def SettledCancels (d : Daemon) (e : DaemonEvent) : Prop :=
  (∀ id ∈ (d.cancels e).toList, d.workers.settled id)
    ∧ ∀ submitter ∈ (d.submitter e).toList, d.requests.flag submitter.1 = false

instance (d : Daemon) (e : DaemonEvent) : Decidable (SettledCancels d e) := by
  unfold SettledCancels; infer_instance

section Flags

variable {display : Error → String} {s s' : Requests} {e : RequestEvent} {id : Nat}

@[simp] theorem Requests.flag_setPhase (s : Requests) (id id' : Nat) (phase : Phase) :
    (s.setPhase id' phase).flag id = s.flag id := by
  by_cases h : id' = id <;>
    simp [flag, setPhase, h, Option.any_map]

theorem Requests.flag_cancelHandle {id' : Nat} (h : (s.cancelHandle id').flag id = true) :
    s.flag id = true ∨ id' = id := by
  by_cases hid : id' = id
  · exact Or.inr hid
  · left
    simpa [flag, cancelHandle, hid] using h

theorem Requests.flag_cancelHandle_of_flag {id' : Nat} (h : s.flag id = true) :
    (s.cancelHandle id').flag id = true := by
  by_cases hid : id' = id
  · obtain ⟨c, hc, -⟩ := (Option.any_eq_true _ _).mp h
    simp [flag, cancelHandle, hid, hc]
  · simpa [flag, cancelHandle, hid] using h

/-- Nobody clears a flag. -/
theorem Requests.flag_mono (h : s.Transition display e s') (hflag : s.flag id = true) :
    s'.flag id = true := by
  cases h with
  | enter =>
      obtain ⟨c, hc, hset⟩ := (Option.any_eq_true _ _).mp hflag
      have hlt := (List.getElem?_eq_some_iff.mp hc).1
      simp [flag, List.getElem?_append_left hlt, hc, hset]
  | cancel | cancelNext => exact flag_cancelHandle_of_flag hflag
  | refuse | register | serverError | duplicate | accept | rollback | work | cancelWins | panic
  | decide | emit | unsent | emitLost | remove | release =>
      rw [← flag_setPhase s id _ _] at hflag
      exact hflag
  | progress | progressLost | vanish | cancelClient => exact hflag

/-- A flag is set by the events that set one. -/
theorem Requests.flag_of_step (h : s.Transition display e s') (hflag : s'.flag id = true) :
    s.flag id = true ∨ s.cancels e = some id := by
  cases h with
  | @enter sender token c hsender hclear hphase =>
      left
      unfold flag at hflag ⊢
      by_cases hlt : id < s.calls.length
      · rwa [List.getElem?_append_left hlt] at hflag
      · obtain ⟨c', hc', hset⟩ := (Option.any_eq_true _ _).mp hflag
        rw [List.getElem?_append_right (Nat.le_of_not_lt hlt)] at hc'
        obtain rfl := List.mem_singleton.mp (List.mem_of_getElem? hc')
        rw [hclear] at hset
        cases hset
  | cancel hobj =>
      rcases flag_cancelHandle hflag with hold | rfl
      · exact Or.inl hold
      · exact Or.inr hobj
  | cancelNext hnext =>
      rcases flag_cancelHandle hflag with hold | rfl
      · exact Or.inl hold
      · exact Or.inr (by simp [cancels, hnext])
  | refuse | register | serverError | duplicate | accept | rollback | work | cancelWins | panic
  | decide | emit | unsent | emitLost | remove | release =>
      left
      rw [← flag_setPhase s id _ _]
      exact hflag
  | progress | progressLost | vanish | cancelClient => exact Or.inl hflag

end Flags

section Jobs

variable {translate : ModelSpec → Option ModelSpec → Bool → List String → List Translation}
  {w w' : Workers} {e : WorkersEvent} {id k : Nat}

theorem Workers.settled_of_step (h : w.step translate e = some w') (hs : w.settled id)
    (he : ∀ entry, e.submitter ≠ some (id, entry)) : w'.settled id := by
  intro entry' hmem
  obtain ⟨k, hentry'⟩ := List.getElem?_of_mem hmem
  rcases Workers.heap_cases h hentry' with ⟨entry, hentry, hev⟩ | ⟨-, _, _, _, _, _, _, _, -, rfl⟩
  · have hold := hs entry (List.mem_of_getElem? hentry)
    cases hev with
    | same | stamped | closed => exact hold
    | submitted hsub hs' =>
        intro howner
        rcases List.mem_cons.mp ((Scheduler.owners_submit hs').mem_iff.mp howner)
          with rfl | howner
        · exact he k (by rw [hsub]; rfl)
        · exact hold howner
    | scheduled hsubmit hs' =>
        exact fun howner => hold ((Scheduler.step_cases hs').owners_subset
          (Scheduler.step_accepted hs' hsubmit) howner)
  · simp [Scheduler.owners, Scheduler.toHandOver, Scheduler.init, Pc.toHandOver]

theorem Workers.handed_of_step (h : w.step translate e = some w') (hs : w.settled id) :
    w'.handed id k = w.handed id k := by
  unfold Workers.handed
  cases hentry' : w'.heap[k]? with
  | none =>
      have := Workers.length_heap_le h
      rw [List.getElem?_eq_none (this.trans (List.getElem?_eq_none_iff.mp hentry'))]
  | some entry' =>
      rcases Workers.heap_cases h hentry' with
        ⟨entry, hentry, hev⟩ | ⟨rfl, _, _, _, _, _, _, _, -, rfl⟩
      · rw [hentry]
        have hold := hs entry (List.mem_of_getElem? hentry)
        cases hev with
        | same | stamped | closed => rfl
        | submitted _ hs' => exact Scheduler.handed_submit hs' id
        | scheduled _ hs' => exact (Scheduler.step_cases hs').handed_eq hold
      · rw [List.getElem?_eq_none le_rfl]
        rfl

end Jobs

/-! ## Whole runs -/

section Runs

variable {host : Host} {config : Config} {d d' : Daemon} {e : DaemonEvent} {id : Nat}

theorem Daemon.flag_of_step (h : d.Transition host e d') (hflag : d'.requests.flag id = true) :
    d.requests.flag id = true ∨ d.cancels e = some id := by
  rcases h.requests with hr | ⟨event, hr, hcancels⟩
  · rw [hr] at hflag
    exact Or.inl hflag
  · rw [← hcancels]
    exact Requests.flag_of_step (Requests.step_cases hr) hflag

/-- Every request whose flag is set is settled. -/
def Settled (d : Daemon) : Prop :=
  ∀ id, d.requests.flag id = true → d.workers.settled id

theorem settled_step (h : d.Transition host e d') (hok : SettledCancels d e) (hs : Settled d) :
    Settled d' := by
  intro id hflag'
  have hbefore : d.workers.settled id := by
    rcases Daemon.flag_of_step h hflag' with hold | hnow
    · exact hs id hold
    · exact hok.1 id (by simp [hnow])
  rcases h.workers with hw | ⟨event, hw, hdrives⟩
  · rwa [hw]
  · refine Workers.settled_of_step hw hbefore fun entry hsub => ?_
    -- the submit of a request whose flag is not set, and is not set by it
    rw [hdrives.submitter] at hsub
    have hclear := hok.2 (id, entry) (by simp [hsub])
    rcases Daemon.flag_of_step h hflag' with hold | hnow
    · rw [hclear] at hold
      cases hold
    · have hnone : d.cancels e = none := by
        cases e <;> first | rfl | cases hsub
      rw [hnone] at hnow
      cases hnow

theorem settled_of_reach
    (h : Machine.Reach (Daemon.step host) SettledCancels (Daemon.init config host) d) :
    Settled d :=
  h.invariant (by simp [Settled, Daemon.init, Requests.init, Requests.flag])
    fun _ _ _ _ hok hs hi => settled_step (Daemon.step_cases hs).2 hok hi

theorem handed_step (h : d.Transition host e d') (hs : d.workers.settled id) (k : Nat) :
    d'.workers.handed id k = d.workers.handed id k := by
  rcases h.workers with hw | ⟨event, hw, -⟩
  · rw [hw]
  · exact Workers.handed_of_step hw hs

theorem Daemon.flag_mono (h : d.Transition host e d') (hflag : d.requests.flag id = true) :
    d'.requests.flag id = true := by
  rcases h.requests with hr | ⟨event, hr, -⟩
  · rwa [hr]
  · exact Requests.flag_mono (Requests.step_cases hr) hflag

/-- What a cancelled request asks of the engine from state `d` on, in runs
whose steps meet `ok`. -/
structure CancelReaches (host : Host) (ok : Daemon → DaemonEvent → Prop) (d : Daemon)
    (id : Nat) : Prop where
  /-- No route hands another segment of the request to the engine, -/
  neverHandsOver : ∀ d', Machine.Reach (Daemon.step host) ok d d' →
    ∀ k, d'.workers.handed id k = d.workers.handed id k
  /-- and a job of it that is queued is answered `Cancelled`. -/
  answersQueued : ∀ (k : Nat) (entry : PairEntry), d.workers.heap[k]? = some entry →
    ∀ job ∈ entry.scheduler.queue.inner.interactive ++ entry.scheduler.queue.inner.batch,
    job.cancelled = id →
    ∀ d', Machine.Reach (Daemon.step host) ok d d' →
    ∀ (entry' : PairEntry) (result : JobResult), d'.workers.heap[k]? = some entry' →
    .answered job.reply result ∈ entry'.scheduler.log → result = .error .cancelled

/-- **Cancellation reaches the engine**: from the moment the flag of a
request is set, in every run in which flags are set and jobs submitted as
`SettledCancels` says. -/
theorem cancel_reaches_engine
    (h : Machine.Reach (Daemon.step host) SettledCancels (Daemon.init config host) d)
    (hflag : d.requests.flag id = true) : CancelReaches host SettledCancels d id := by
  have hsettled := settled_of_reach h
  constructor
  · intro d' h'
    -- the flag stays set and the request settled as the run goes on
    suffices hrun : d'.requests.flag id = true ∧ Settled d'
        ∧ ∀ k, d'.workers.handed id k = d.workers.handed id k from hrun.2.2
    induction h' with
    | init => exact ⟨hflag, hsettled, fun _ => rfl⟩
    | tail _ hok hs ih =>
        obtain ⟨hflag₁, hsettled₁, hhanded₁⟩ := ih
        have ht := (Daemon.step_cases hs).2
        exact ⟨Daemon.flag_mono ht hflag₁, settled_step ht hok hsettled₁, fun k =>
          (handed_step ht (hsettled₁ id hflag₁) k).trans (hhanded₁ k)⟩
  · intro k entry hentry job hjob howner
    have howned : id ∈ entry.scheduler.owners :=
      Scheduler.mem_owners.mpr ⟨job, List.mem_append_right _ hjob, howner⟩
    exact absurd howned (hsettled id hflag entry (List.mem_of_getElem? hentry))

end Runs

/-! ## Two runs -/

/-- A client asks for one segment from Bulgarian to English, and its job is
queued on the route just loaded. -/
def queueBgEn : List DaemonEvent :=
  [.store bgEnDisk,
    .receive ":1.7" "t" (.translate ⟨"bg", "en", true, false, .interactive⟩ ["a"] false),
    .touch 0, .handle 0, .requests (.register 0), .requests (.at 0 none),
    .work 0 .proceed, .work 0 .proceed, .work 0 (.ensure bgEnDisk), .work 0 (.loaded (.ok 0)),
    .workers .advance, .work 0 .proceed]

/-- The client calls `Cancel`. -/
def cancelBgEn : List DaemonEvent :=
  [.receive ":1.7" "" (.cancel "/dev/l10n_bg/dragomand/request/_1_7/t"), .handle 1]

/-- The scheduler takes the job, checks its flag, and calls the engine. -/
def callBgEn : List DaemonEvent :=
  List.replicate 3 (.workers (.scheduler 0 .proceed))

/-- A cancellation while the job's only chunk is at the engine. -/
theorem cancel_reaches_engine_last_chunk :
    ∃ d, Machine.Reach (Daemon.step echoHost) SettledCancels (Daemon.init .default echoHost) d
      ∧ (d.requests.flag 0 = true ∧ d.workers.handed 0 0 = [["a"]])
      ∧ CancelReaches echoHost SettledCancels d 0 := by
  obtain ⟨d, hreach, hd⟩ := Machine.exists_reach_of_run (Daemon.step echoHost) SettledCancels
    (Daemon.init .default echoHost) (queueBgEn ++ callBgEn ++ cancelBgEn)
    (fun d : Daemon => decide (d.requests.flag 0 = true ∧ d.workers.handed 0 0 = [["a"]]))
    (by decide)
  have hrun := of_decide_eq_true hd
  exact ⟨d, hreach, hrun, cancel_reaches_engine hreach hrun.1⟩

/-- A cancellation while the job is queued: the engine gets its segment all
the same. -/
theorem cancel_not_reaching_engine :
    ∃ d, Machine.Reach (Daemon.step echoHost) Machine.anyStep (Daemon.init .default echoHost) d
      ∧ (d.requests.flag 0 = true ∧ d.workers.handed 0 0 = [])
      ∧ ¬ CancelReaches echoHost Machine.anyStep d 0 := by
  obtain ⟨d, hreach, hd⟩ := Machine.exists_reach_of_run (Daemon.step echoHost) Machine.anyStep
    (Daemon.init .default echoHost) (queueBgEn ++ cancelBgEn)
    (fun d : Daemon => decide (d.requests.flag 0 = true ∧ d.workers.handed 0 0 = [])
      && (Machine.run (Daemon.step echoHost) Machine.anyStep d callBgEn).any
        fun d' : Daemon => decide (d'.workers.handed 0 0 = [["a"]]))
    (by decide)
  obtain ⟨hbefore, hafter⟩ := Bool.and_eq_true_iff.mp hd
  have hrun := of_decide_eq_true hbefore
  refine ⟨d, hreach, hrun, fun hc => ?_⟩
  obtain ⟨d', hrun', hhanded⟩ := (Option.any_eq_true _ _).mp hafter
  have hsame := hc.neverHandsOver d' (Machine.Reach.of_run hrun') 0
  rw [hrun.2, of_decide_eq_true hhanded] at hsame
  cases hsame

end Dragomand
