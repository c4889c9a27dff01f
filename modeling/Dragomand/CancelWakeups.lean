import Mathlib.Data.List.Basic
import Dragomand.Machine

/-!
# Cancelling and waiting for it

`CancelHandle::cancel` stores the flag, then wakes the waiters;
`CancelHandle::cancelled` reads the flag and, while it is not set, creates
the future of a notification and awaits that. `Cancellation` interleaves
any calls of the one with a task in the other, atomic by atomic.
`notify_waiters` reaches the futures that exist, so all depends on one
place: a call that gets there between the task's two steps is not heard
(`unheard_lost`), and no other call is missed (`listening_step`).
-/

namespace Dragomand

/-! ## Notifications -/

/-- A `tokio::sync::Notify` that is only used through `notify_waiters`, by
the number of its calls: they leave no permit. -/
structure Notify where
  calls : Nat
deriving DecidableEq, Repr

/-- A `Notified` future, by the calls before it was created. -/
structure Notified where
  seen : Nat
deriving DecidableEq, Repr

namespace Notify

def notified (n : Notify) : Notified := ⟨n.calls⟩

def notify_waiters (n : Notify) : Notify := ⟨n.calls + 1⟩

/-- The future has been woken. -/
def reaches (n : Notify) (f : Notified) : Bool := f.seen < n.calls

/-- A call wakes every future created before. -/
theorem reaches_notify_waiters {n : Notify} {f : Notified} (h : f.seen ≤ n.calls) :
    n.notify_waiters.reaches f = true :=
  decide_eq_true (Nat.lt_succ_of_le h)

/-- None has woken a future that is new. -/
theorem reaches_notified (n : Notify) : n.reaches n.notified = false :=
  decide_eq_false (Nat.lt_irrefl _)

end Notify

/-! ## The handle -/

structure CancelHandle where
  flag : Bool
  notify : Notify
deriving DecidableEq, Repr

/-- Where a call of `cancel` stands. -/
inductive Canceller where
  | storing
  | notifying
  | done
deriving DecidableEq, Repr

/-- Where the task stands in `cancelled`, a branch of its `select!`. -/
inductive Waiter where
  | reading
  | creating
  | polling (future : Notified)
  | parked (future : Notified)
  | returned
  | dropped
deriving DecidableEq, Repr

/-- The future of the notification, once there is one. -/
def Waiter.future : Waiter → Option Notified
  | .polling future | .parked future => some future
  | _ => none

structure Cancellation where
  handle : CancelHandle
  cancels : List Canceller
  task : Waiter
deriving DecidableEq, Repr

/-- The task is about to poll for the first time. -/
def Cancellation.init : Cancellation := ⟨⟨false, ⟨0⟩⟩, [], .reading⟩

/-- Somebody calls `cancel`, or a call goes on; the task goes on, or polls
again since the work was woken; or the work ends and the branch is
dropped. -/
inductive CancellationEvent where
  | call
  | cancel (i : Nat)
  | task
  | poll
  | finish
deriving DecidableEq, Repr

namespace Cancellation

/-- The next action of a call of `cancel`. -/
def cancel (s : Cancellation) (i : Nat) : Option Cancellation :=
  match s.cancels[i]? with
  | some .storing => some { s with
      handle := { s.handle with flag := true }, cancels := s.cancels.set i .notifying }
  | some .notifying => some { s with
      handle := { s.handle with notify := s.handle.notify.notify_waiters }
      cancels := s.cancels.set i .done }
  | _ => none

/-- The next action of `cancelled`; a parked task waits to be woken. -/
def cancelled (s : Cancellation) : Option Cancellation :=
  match s.task with
  | .reading => some { s with task := if s.handle.flag then .returned else .creating }
  | .creating => some { s with task := .polling s.handle.notify.notified }
  | .polling future => some { s with
      task := if s.handle.notify.reaches future then .returned else .parked future }
  | .parked future =>
      if s.handle.notify.reaches future then some { s with task := .returned } else none
  | .returned | .dropped => none

def step (s : Cancellation) : CancellationEvent → Option Cancellation
  | .call => some { s with cancels := s.cancels ++ [.storing] }
  | .cancel i => s.cancel i
  | .task => s.cancelled
  | .poll =>
      match s.task with
      | .parked future => some { s with task := .polling future }
      | _ => none
  | .finish =>
      match s.task with
      | .reading | .parked _ => some { s with task := .dropped }
      | _ => none

/-- `cancel` has completed, the flag is set, and the task is parked with no
notification to come from it. -/
def lost (s : Cancellation) : Bool :=
  match s.task with
  | .parked future =>
      s.handle.flag && decide (.done ∈ s.cancels) && !s.handle.notify.reaches future
  | _ => false

/-- The step does not notify between the task's look at the flag and its
creation of the future. -/
def Heard (s : Cancellation) : CancellationEvent → Prop
  | .cancel i => s.cancels[i]? = some .notifying → s.task ≠ .creating
  | _ => True

instance (s : Cancellation) : DecidablePred s.Heard := fun e => by
  cases e <;> unfold Heard <;> infer_instance

/-! ## What one step can do -/

inductive Transition (s : Cancellation) : CancellationEvent → Cancellation → Prop
  | call : Transition s .call { s with cancels := s.cancels ++ [.storing] }
  | store {i : Nat} (h : s.cancels[i]? = some .storing) : Transition s (.cancel i) { s with
      handle := { s.handle with flag := true }, cancels := s.cancels.set i .notifying }
  | notify {i : Nat} (h : s.cancels[i]? = some .notifying) : Transition s (.cancel i) { s with
      handle := { s.handle with notify := s.handle.notify.notify_waiters }
      cancels := s.cancels.set i .done }
  | unset (htask : s.task = .reading) (hflag : s.handle.flag = false) :
      Transition s .task { s with task := .creating }
  | create (htask : s.task = .creating) :
      Transition s .task { s with task := .polling s.handle.notify.notified }
  | move {e : CancellationEvent} {task : Waiter}
      (hfuture : ∀ future, task.future = some future → s.task.future = some future)
      (htask : task ≠ .creating) : Transition s e { s with task := task }

variable {s s' : Cancellation} {e : CancellationEvent}

theorem step_cases (h : s.step e = some s') : s.Transition e s' := by
  cases e with
  | call => cases h; exact .call
  | cancel i =>
      simp only [step, cancel] at h
      split at h
      · rename_i hi
        cases h; exact .store hi
      · rename_i hi
        cases h; exact .notify hi
      · cases h
  | task =>
      simp only [step, cancelled] at h
      split at h
      · rename_i htask
        cases h
        cases hflag : s.handle.flag with
        | true => exact .move nofun nofun
        | false => exact .unset htask hflag
      · rename_i htask
        cases h; exact .create htask
      · rename_i future htask
        cases h
        cases hreaches : s.handle.notify.reaches future with
        | true => exact .move nofun nofun
        | false => exact .move (fun _ h => htask ▸ h) nofun
      · split at h
        · cases h; exact .move nofun nofun
        · cases h
      · cases h
      · cases h
  | poll =>
      simp only [step] at h
      split at h
      · rename_i future htask
        cases h; exact .move (fun _ h => htask ▸ h) nofun
      · cases h
  | finish =>
      simp only [step] at h
      split at h
      · cases h; exact .move nofun nofun
      · cases h; exact .move nofun nofun
      · cases h

/-! ## Calls that are heard -/

/-- A call past its first action has set the flag. -/
def Stored (s : Cancellation) : Prop :=
  ∀ c ∈ s.cancels, c ≠ .storing → s.handle.flag = true

theorem stored_step (h : s.Transition e s') (hs : s.Stored) : s'.Stored := by
  cases h with
  | call =>
      intro c hc hne
      rcases List.mem_append.mp hc with hc | hc
      · exact hs c hc hne
      · exact absurd (List.mem_singleton.mp hc) hne
  | store => exact fun _ _ _ => rfl
  | notify hi => exact fun _ _ _ => hs .notifying (List.mem_of_getElem? hi) nofun
  | unset | create | move => exact hs

theorem stored_of_reach {ok : Cancellation → CancellationEvent → Prop}
    (hreach : Machine.Reach step ok init s) : s.Stored :=
  hreach.invariant nofun fun _ _ _ _ _ hs h => stored_step (step_cases hs) h

/-- While the task has not been woken, no call has completed. -/
structure Listening (s : Cancellation) : Prop where
  creating : s.task = .creating → .done ∉ s.cancels
  seen : ∀ future, s.task.future = some future → future.seen ≤ s.handle.notify.calls
  waiting : ∀ future, s.task.future = some future → s.handle.notify.reaches future = false →
    .done ∉ s.cancels

theorem listening_step (h : s.Transition e s') (hok : s.Heard e) (hstored : s.Stored)
    (hs : s.Listening) : s'.Listening := by
  cases h with
  | call =>
      have hdone : .done ∉ s.cancels → .done ∉ s.cancels ++ [.storing] := by simp
      exact ⟨fun h => hdone (hs.creating h), hs.seen,
        fun future h hreaches => hdone (hs.waiting future h hreaches)⟩
  | @store i hi =>
      have hdone : .done ∉ s.cancels → .done ∉ s.cancels.set i .notifying := fun h hmem =>
        (List.mem_or_eq_of_mem_set hmem).elim h nofun
      exact ⟨fun h => hdone (hs.creating h), hs.seen,
        fun future h hreaches => hdone (hs.waiting future h hreaches)⟩
  | notify hi =>
      refine ⟨fun h => absurd h (hok hi), fun future h => Nat.le_succ_of_le (hs.seen future h),
        fun future h hreaches => ?_⟩
      rw [Notify.reaches_notify_waiters (hs.seen future h)] at hreaches
      cases hreaches
  | unset htask hflag =>
      refine ⟨fun _ hdone => ?_, nofun, nofun⟩
      rw [hstored .done hdone nofun] at hflag
      cases hflag
  | create htask =>
      refine ⟨nofun, fun future h => ?_, fun future h _ => hs.creating htask⟩
      cases h
      exact Nat.le_refl _
  | move hfuture htask =>
      exact ⟨fun h => absurd h htask, fun future h => hs.seen future (hfuture future h),
        fun future h => hs.waiting future (hfuture future h)⟩

theorem not_lost_of_listening (hs : s.Listening) : s.lost = false := by
  unfold lost
  split
  · rename_i future htask
    cases hreaches : s.handle.notify.reaches future with
    | true => simp
    | false =>
        have hfuture : s.task.future = some future := by rw [htask]; rfl
        simp [hs.waiting future hfuture hreaches]
  · rfl

/-- A call that notifies in between: the task creates its future after it,
and parks. -/
theorem unheard_lost (hstored : s.Stored) (hheard : ¬ s.Heard e) (h : s.step e = some s') :
    ∃ s'', Machine.run step Machine.anyStep s' [.task, .task] = some s'' ∧ s''.lost = true := by
  cases e with
  | call | task | poll | finish => exact absurd trivial hheard
  | cancel i =>
      obtain ⟨hi, htask⟩ : s.cancels[i]? = some .notifying ∧ s.task = .creating := by
        simpa [Heard] using hheard
      have hflag := hstored .notifying (List.mem_of_getElem? hi) nofun
      have hlt := (List.getElem?_eq_some_iff.mp hi).1
      simp only [step, cancel, hi] at h
      cases h
      refine ⟨{ s with
        handle := { s.handle with notify := s.handle.notify.notify_waiters }
        cancels := s.cancels.set i .done
        task := .parked s.handle.notify.notify_waiters.notified }, ?_, ?_⟩
      · simp [Machine.run, step, cancelled, htask, Notify.reaches_notified]
      · simp [lost, hflag, Notify.reaches_notified, List.mem_set hlt]

/-- **No lost wakeup** in the runs in which every call of `cancel` notifies
before the task looks at the flag or after it has its future; any other
call of a run is followed by a state in which the task has lost it. -/
theorem no_lost_wakeup (s : Cancellation) :
    (Machine.Reach step Heard init s → s.lost = false)
    ∧ ∀ e s', Machine.Reach step Machine.anyStep init s → ¬ s.Heard e → s.step e = some s' →
      ∃ s'', Machine.run step Machine.anyStep s' [.task, .task] = some s'' ∧ s''.lost = true := by
  constructor
  · intro hreach
    refine not_lost_of_listening (hreach.invariant ⟨nofun, nofun, nofun⟩ ?_)
    exact fun s e s' hpre hok hs => listening_step (step_cases hs) hok (stored_of_reach hpre)
  · exact fun e s' hreach => unheard_lost (stored_of_reach hreach)

/-- A call that notifies while the task awaits its future. -/
theorem no_lost_wakeup_awaiting :
    ∃ s, Machine.Reach step Heard init s ∧ (.done ∈ s.cancels ∧ s.task = .returned)
      ∧ s.lost = false := by
  obtain ⟨s, hreach, hs⟩ := Machine.exists_reach_of_run step Heard init
    [.task, .task, .task, .call, .cancel 0, .cancel 0, .task]
    (fun s => decide (.done ∈ s.cancels ∧ s.task = .returned)) (by decide)
  exact ⟨s, hreach, of_decide_eq_true hs, (no_lost_wakeup s).1 hreach⟩

/-- The flag is stored and the waiters woken between the task's two steps. -/
theorem lost_wakeup : ∃ s, Machine.Reach step Machine.anyStep init s ∧ s.lost = true :=
  Machine.exists_reach_of_run step Machine.anyStep init
    [.call, .task, .cancel 0, .cancel 0, .task, .task] lost (by decide)

end Cancellation

end Dragomand
