import Dragomand.SchedulerJobs

/-!
# No wakeup of the scheduler is lost

`run_scheduler` looks at the queue under the lock and waits after it has
let go of it, so a job or the end of the queue may come in between, and
`Notify` keeps one permit however many notifications arrive. `Wakeable`
is what keeps the task from sleeping on work: while it waits, whatever
came since it looked is announced by a permit or by a notification still
to come. A permit left over from an earlier job only sends it round the
loop once more.
-/

namespace Dragomand

/-- In `notified().await`: about to look for a permit, or parked. -/
def Pc.awaiting : Pc → Bool
  | .idle | .parked => true
  | _ => false

/-- No job to take and no end to come to. -/
def QueueInner.Idle (q : QueueInner) : Prop :=
  q.interactive = [] ∧ q.batch = [] ∧ q.closed = false

structure Wakeable (s : Scheduler) : Prop where
  announced : s.pc.awaiting = true →
    s.queue.permit = true ∨ s.notifiers ≠ 0 ∨ s.queue.inner.Idle
  /-- `notify_one` hands its permit to a parked task at once. -/
  parked : s.pc = .parked → s.queue.permit = false

theorem wakeable_init : Wakeable Scheduler.init :=
  ⟨by simp [Scheduler.init, Pc.awaiting], by simp [Scheduler.init]⟩

section Step

variable {translate : Bool → List String → List Translation} {flags : Nat → Bool}
  {s s' : Scheduler}

/-- Away from `notified().await` there is nothing to keep. -/
theorem Wakeable.of_busy (h : s.pc.awaiting = false) : Wakeable s where
  announced ha := absurd (h.symm.trans ha) Bool.false_ne_true
  parked hpc := by rw [hpc] at h; cases h

/-- A change of the queue leaves its notification to come. -/
theorem Wakeable.of_notifier (h : Wakeable s) (hpc : s'.pc = s.pc)
    (hpermit : s'.queue.permit = s.queue.permit) (hn : s'.notifiers ≠ 0) : Wakeable s' where
  announced _ := Or.inr (Or.inl hn)
  parked hparked := hpermit.trans (h.parked (hpc.symm.trans hparked))

/-- With nothing announced there is nothing to wake up for. -/
theorem Wakeable.idle (h : Wakeable s) (hn : s.notifiers = 0) (hpc : s.pc.awaiting = true)
    (hpermit : s.queue.permit = false) : s.queue.inner.Idle := by
  rcases h.announced hpc with hp | hn' | hidle
  · exact absurd (hpermit.symm.trans hp) Bool.false_ne_true
  · exact absurd hn hn'
  · exact hidle

theorem wakeable_step (h : s.Transition translate flags s') (hw : Wakeable s) :
    Wakeable s' := by
  cases h with
  | accept => exact hw.of_notifier rfl rfl (Nat.succ_ne_zero _)
  | refuse => exact ⟨hw.announced, hw.parked⟩
  | close => exact hw.of_notifier rfl rfl (Nat.succ_ne_zero _)
  | permit hn hpc => exact ⟨fun _ => Or.inl rfl, fun hparked => absurd hparked hpc⟩
  | await hpc hpop hopen =>
      -- nothing was queued under the lock; what comes from here on is announced
      obtain ⟨hi, hb⟩ := QueueInner.popFront_eq_none hpop
      exact ⟨fun _ => Or.inr (Or.inr ⟨hi, hb, hopen⟩), by simp⟩
  | park hpc hp =>
      refine ⟨fun _ => ?_, fun _ => hp⟩
      exact hw.announced (by rw [hpc]; rfl)
  | @answer reply result leftovers hpc => cases leftovers <;> exact .of_busy rfl
  | wake | take | leave | consume | resume | skip | check | call | requeue | finish | drain
  | leftover | stop | completed | progressed | failed => exact .of_busy rfl

end Step

variable {translate : Bool → List String → List Translation} {r : Route}

theorem wakeable_of_reach
    (h : Machine.Reach (Route.step translate) Machine.anyStep Route.init r) :
    Wakeable r.scheduler := by
  refine h.invariant (I := fun r => Wakeable r.scheduler) wakeable_init fun r e r' _ _ hs hw => ?_
  cases e with
  | cancel flag =>
      obtain rfl := Option.some.inj hs
      exact hw
  | scheduler event =>
      obtain ⟨s', hs', rfl⟩ := Option.map_eq_some_iff.mp hs
      exact wakeable_step (Scheduler.step_cases hs') hw

/-- With every change of the queue notified, the task sleeps only on a
queue that is open and empty. -/
theorem scheduler_sleeps_idle
    (h : Machine.Reach (Route.step translate) Machine.anyStep Route.init r)
    (hn : r.scheduler.notifiers = 0) (hpc : r.scheduler.pc.awaiting = true)
    (hpermit : r.scheduler.queue.permit = false) :
    r.scheduler.queue.inner.interactive = [] ∧ r.scheduler.queue.inner.batch = []
      ∧ r.scheduler.queue.inner.closed = false :=
  (wakeable_of_reach h).idle hn hpc hpermit

/-- Two jobs whose notifications collapsed into one permit: the task works
off both, goes round once for the permit, and parks. -/
theorem scheduler_sleeps_idle_parked :
    ∃ r, Machine.Reach (Route.step (perSegment fun _ text => ⟨text, []⟩)) Machine.anyStep
        Route.init r
      ∧ r.scheduler.pc = .parked ∧ r.scheduler.answered.length = 2
      ∧ r.scheduler.queue.inner.interactive = [] ∧ r.scheduler.queue.inner.batch = []
      ∧ r.scheduler.queue.inner.closed = false := by
  obtain ⟨r, hreach, hr⟩ := Machine.exists_reach_of_run
    (Route.step (perSegment fun _ text => ⟨text, []⟩)) Machine.anyStep Route.init
    ([.submit ["a"] false .interactive 0, .submit ["b"] false .batch 0, .notifyOne, .notifyOne,
      .proceed, .proceed, .proceed, .engine none, .proceed, .proceed,
      .proceed, .proceed, .proceed, .engine none, .proceed, .proceed,
      .proceed, .proceed, .proceed, .proceed].map .scheduler)
    (fun r => decide (r.scheduler.notifiers = 0 ∧ r.scheduler.pc = .parked
      ∧ r.scheduler.queue.permit = false ∧ r.scheduler.answered.length = 2)) (by decide)
  obtain ⟨hn, hpc, hpermit, hanswered⟩ := of_decide_eq_true hr
  exact ⟨r, hreach, hpc, hanswered, scheduler_sleeps_idle hreach hn (by rw [hpc]; rfl) hpermit⟩

/-- So the task stops for nothing but the engine, the end, or a queue with
nothing in it. -/
theorem runScheduler_blocked
    (h : Machine.Reach (Route.step translate) Machine.anyStep Route.init r)
    (hn : r.scheduler.notifiers = 0) (hblocked : runScheduler r.flags r.scheduler = none) :
    (∃ job chunk, r.scheduler.pc = .translating job chunk) ∨ r.scheduler.pc = .ended
      ∨ r.scheduler.queue.inner.Idle := by
  have hw := wakeable_of_reach h
  cases hpc : r.scheduler.pc with
  | parked =>
      have hawaiting : r.scheduler.pc.awaiting = true := by rw [hpc]; rfl
      exact Or.inr (Or.inr (hw.idle hn hawaiting (hw.parked hpc)))
  | translating job chunk => exact Or.inl ⟨job, chunk, rfl⟩
  | ended => exact Or.inr (Or.inl rfl)
  | top | idle | taken =>
      simp only [runScheduler, hpc] at hblocked
      split at hblocked <;> cases hblocked
  | draining leftovers => cases leftovers <;> simp [runScheduler, hpc] at hblocked
  | _ => simp [runScheduler, hpc] at hblocked

end Dragomand
