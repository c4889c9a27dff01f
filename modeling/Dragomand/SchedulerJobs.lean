import Mathlib.Data.List.Nodup
import Mathlib.Data.List.Perm.Basic
import Dragomand.Scheduler

/-!
# No job is lost, duplicated or cut up

Conservation of the jobs of one route over whole runs, and transparency
of the batch chunking. `Accounted` splits the accepted jobs into those
still held somewhere (the task's hand, the two deques) and those
finished; `Tracked` ties every held job, and every result on its way out,
to the job as it was accepted; `Drained` says that the loop is left only
with both deques empty. Each is preserved by every `Transition`, and
`scheduler_conserves` reads the answers off them.
-/

namespace Dragomand

/-! ## Views of the history -/

def Scheduler.accepted (s : Scheduler) : List QueuedJob :=
  s.log.filterMap fun | .accepted job => some job | _ => none

def Scheduler.finished (s : Scheduler) : List Nat :=
  s.log.filterMap fun | .finished reply => some reply | _ => none

def Scheduler.answered (s : Scheduler) : List (Nat × JobResult) :=
  s.log.filterMap fun | .answered reply result => some (reply, result) | _ => none

/-- What was sent on the channel `reply`. -/
def Scheduler.answersTo (s : Scheduler) (reply : Nat) : List JobResult :=
  s.answered.filterMap fun a => if a.1 = reply then some a.2 else none

/-- Jobs in the task's hand, not finished. -/
def Pc.inHand : Pc → List Nat
  | .taken job | .calling job | .translating job _ | .requeueing job => [job.reply]
  | .finishing reply _ leftovers => reply :: (leftovers.getD []).map (·.reply)
  | .replying _ _ leftovers => (leftovers.getD []).map (·.reply)
  | .draining leftovers => leftovers.map (·.reply)
  | _ => []

/-- The channel whose job is finished and not answered yet. -/
def Pc.replyingTo : Pc → List Nat
  | .replying reply _ _ => [reply]
  | _ => []

def Scheduler.unfinished (s : Scheduler) : List Nat :=
  s.pc.inHand ++ (s.queue.inner.interactive ++ s.queue.inner.batch).map (·.reply)

/-- The task has left its loop. -/
def Pc.left : Pc → Bool
  | .closing | .draining _ | .ended => true
  | _ => false

@[simp] theorem QueuedJob.drained_reply (job : QueuedJob) : job.drained.reply = job.reply := by
  unfold QueuedJob.drained; split <;> rfl

@[simp] theorem QueueInner.pushBack_closed (q : QueueInner) (job : QueuedJob) :
    (q.pushBack job).closed = q.closed := by
  unfold pushBack; split <;> rfl

theorem QueueInner.pushBack_perm (q : QueueInner) (job : QueuedJob) :
    ((q.pushBack job).interactive ++ (q.pushBack job).batch).Perm
      (job :: (q.interactive ++ q.batch)) := by
  unfold pushBack
  split
  · simp [List.perm_middle]
  · rw [← List.append_assoc]
    exact List.perm_append_singleton job (q.interactive ++ q.batch)

theorem QueueInner.popFront_append {q q' : QueueInner} {job : QueuedJob}
    (h : q.popFront = some (job, q')) :
    q.interactive ++ q.batch = job :: (q'.interactive ++ q'.batch) := by
  rcases popFront_eq_some h with ⟨hi, hb, -⟩ | ⟨hi, hi', hb, -⟩
  · simp [hi, hb]
  · simp [hi, hi', hb]

/-! ## The loop is left empty-handed -/

/-- Outside the loop the queue is closed and both deques are empty, and
`finish` never runs for a leftover. -/
structure Drained (s : Scheduler) : Prop where
  closed : s.pc.left = true → s.queue.inner.closed = true
  empty : s.pc.left = true → s.queue.inner.interactive = [] ∧ s.queue.inner.batch = []
  draining : ∀ job jobs, s.pc ≠ .draining (job :: jobs)
  finishing : ∀ reply result jobs, s.pc ≠ .finishing reply result (some jobs)
  replying : ∀ reply result jobs, s.pc ≠ .replying reply result (some jobs)

section Step

variable {translate : Bool → List String → List Translation} {flags : Nat → Bool}
  {s s' : Scheduler}

theorem drained_step (h : s.Transition translate flags s') (hd : Drained s) : Drained s' := by
  obtain ⟨hclosed, hempty, hnone, hfin, hrep⟩ := hd
  cases h with
  | accept hopen =>
      have hleft : s.pc.left = false := by
        by_contra hl
        simp [hclosed (by simpa using hl)] at hopen
      exact ⟨by simp [hleft], by simp [hleft], hnone, hfin, hrep⟩
  | refuse => exact ⟨hclosed, hempty, hnone, hfin, hrep⟩
  | close => exact ⟨fun _ => rfl, hempty, hnone, hfin, hrep⟩
  | permit => exact ⟨hclosed, hempty, hnone, hfin, hrep⟩
  | leave hpc hpop hc =>
      have := QueueInner.popFront_eq_none hpop
      exact ⟨fun _ => hc, fun _ => this, by simp, by simp, by simp⟩
  | drain hpc =>
      obtain ⟨hi, hb⟩ := hempty (by simp [hpc, Pc.left])
      exact ⟨fun _ => hclosed (by simp [hpc, Pc.left]), fun _ => ⟨rfl, rfl⟩,
        by simp [hi, hb], by simp, by simp⟩
  | leftover hpc => exact absurd hpc (hnone _ _)
  | stop hpc =>
      exact ⟨fun _ => hclosed (by simp [hpc, Pc.left]),
        fun _ => hempty (by simp [hpc, Pc.left]), by simp, by simp, by simp⟩
  | @finish reply result leftovers hpc =>
      cases leftovers with
      | none => exact ⟨by simp [Pc.left], by simp [Pc.left], by simp, by simp, by simp⟩
      | some jobs => exact absurd hpc (hfin reply result jobs)
  | @answer reply result leftovers hpc =>
      cases leftovers with
      | none => exact ⟨by simp [Pc.left], by simp [Pc.left], by simp, by simp, by simp⟩
      | some jobs => exact absurd hpc (hrep reply result jobs)
  | wake | take | await | consume | park | resume | skip | check | call | requeue
  | completed | progressed | failed =>
      exact ⟨by simp [Pc.left], by simp [Pc.left], by simp, by simp, by simp⟩

/-! ## Accounting -/

/-- Every accepted job is held or finished, every finished one is being
answered or answered, and `active` counts those held. -/
structure Accounted (s : Scheduler) : Prop where
  fresh : ∀ job ∈ s.accepted, job.reply < s.nextReply
  nodup : (s.accepted.map (·.reply)).Nodup
  split : (s.accepted.map (·.reply)).Perm (s.unfinished ++ s.finished)
  replied : s.finished.Perm (s.pc.replyingTo ++ s.answered.map (·.1))
  active : s.queue.active = s.unfinished.length

/-- A step that none of the views notices keeps the accounting. -/
theorem Accounted.of_views (h : Accounted s) (hacc : s'.accepted = s.accepted)
    (hnext : s'.nextReply = s.nextReply) (hun : s'.unfinished = s.unfinished)
    (hfin : s'.finished = s.finished) (hrep : s'.pc.replyingTo = s.pc.replyingTo)
    (hans : s'.answered = s.answered) (hact : s'.queue.active = s.queue.active) :
    Accounted s' where
  fresh := by rw [hacc, hnext]; exact h.fresh
  nodup := by rw [hacc]; exact h.nodup
  split := by rw [hacc, hun, hfin]; exact h.split
  replied := by rw [hfin, hrep, hans]; exact h.replied
  active := by rw [hact, hun]; exact h.active

theorem accounted_step (h : s.Transition translate flags s') (ha : Accounted s) :
    Accounted s' := by
  cases h with
  | @accept job hopen hdone hreply =>
      have hun : (s.pc.inHand ++ ((s.queue.inner.pushBack job).interactive
          ++ (s.queue.inner.pushBack job).batch).map (·.reply)).Perm
          (job.reply :: s.unfinished) := by
        refine ((QueueInner.pushBack_perm _ job).map _ |>.append_left _).trans ?_
        rw [List.map_cons]
        exact List.perm_middle
      constructor
      · intro job' hmem
        have hmem' : job' = job ∨ job' ∈ s.accepted := by
          simpa [Scheduler.accepted] using hmem
        rcases hmem' with rfl | hmem'
        · show job'.reply < s.nextReply + 1
          omega
        · exact Nat.lt_succ_of_lt (ha.fresh _ hmem')
      · show (job.reply :: s.accepted.map (·.reply)).Nodup
        refine List.nodup_cons.mpr ⟨fun hmem => ?_, ha.nodup⟩
        obtain ⟨job', hmem', heq⟩ := List.mem_map.mp hmem
        have := ha.fresh _ hmem'
        omega
      · show (job.reply :: s.accepted.map (·.reply)).Perm _
        exact (ha.split.cons _).trans (hun.symm.append_right s.finished)
      · exact ha.replied
      · show s.queue.active + 1 = _
        rw [ha.active]
        exact hun.length_eq.symm
  | refuse => exact ha.of_views rfl rfl rfl rfl rfl rfl rfl
  | close => exact ha.of_views rfl rfl rfl rfl rfl rfl rfl
  | permit => exact ha.of_views rfl rfl rfl rfl rfl rfl rfl
  | take hpc hpop =>
      refine ha.of_views rfl rfl ?_ rfl (by simp [hpc, Pc.replyingTo]) rfl rfl
      simp only [Scheduler.unfinished, hpc, Pc.inHand, QueueInner.popFront_append hpop]
      rfl
  | @requeue job hpc =>
      have hun : (s.queue.inner.interactive ++ job :: s.queue.inner.batch).map (·.reply)
          |>.Perm s.unfinished := by
        simp only [Scheduler.unfinished, hpc, Pc.inHand, List.map_append, List.map_cons]
        exact List.perm_middle
      refine ⟨ha.fresh, ha.nodup, ha.split.trans (hun.symm.append_right _), ?_, ?_⟩
      · have := ha.replied
        rw [hpc] at this
        exact this
      · exact ha.active.trans hun.length_eq.symm
  | @finish reply result leftovers hpc =>
      have hun : s.unfinished = reply :: ((leftovers.getD []).map (·.reply)
          ++ (s.queue.inner.interactive ++ s.queue.inner.batch).map (·.reply)) := by
        simp [Scheduler.unfinished, hpc, Pc.inHand]
      refine ⟨ha.fresh, ha.nodup, ?_, ?_, ?_⟩
      · refine ha.split.trans ?_
        rw [hun]
        exact List.perm_middle.symm
      · have := ha.replied
        rw [hpc] at this
        exact this.cons reply
      · show fetchSub s.queue.active = _
        rw [ha.active, hun]
        rfl
  | @answer reply result leftovers hpc =>
      have hrep := ha.replied
      rw [hpc] at hrep
      have hun : ∀ pc : Pc, pc.inHand = s.pc.inHand →
          ({ s with pc := pc, log := .answered reply result :: s.log } : Scheduler).unfinished
            = s.unfinished := by
        intro pc hhand
        rw [Scheduler.unfinished, hhand]
        rfl
      have hhand : (leftovers.elim Pc.top Pc.draining).inHand = s.pc.inHand := by
        rw [hpc]
        cases leftovers <;> rfl
      refine ⟨ha.fresh, ha.nodup, ?_, ?_, ?_⟩
      · rw [hun _ hhand]
        exact ha.split
      · cases leftovers <;> exact hrep
      · rw [hun _ hhand]
        exact ha.active
  | wake _ hpc | leave hpc | await hpc | consume hpc | park hpc | resume hpc | skip hpc
  | check hpc | call hpc | drain hpc | leftover hpc | stop hpc | completed hpc
  | progressed hpc | failed hpc =>
      exact ha.of_views rfl rfl (by simp [Scheduler.unfinished, hpc, Pc.inHand]) rfl
        (by simp [hpc, Pc.replyingTo]) rfl rfl

end Step

/-! ## Every held job is a prefix of its translation -/

theorem QueuedJob.chunk_append_drained (job : QueuedJob) :
    job.chunk ++ job.drained.remaining = job.remaining := by
  unfold QueuedJob.chunk QueuedJob.drained
  cases job.priority with
  | interactive => exact List.append_nil _
  | batch => exact List.take_append_drop _ _

/-- A backend that answers every chunk segment by segment, by `f`. -/
def perSegment (f : Bool → String → Translation) (html : Bool) (chunk : List String) :
    List Translation :=
  chunk.map (f html)

/-- The translation of a whole job, segment by segment. -/
def QueuedJob.translated (f : Bool → String → Translation) (job : QueuedJob) :
    List Translation :=
  job.remaining.map (f job.html)

/-- `job`, with `chunk` at the engine, is what is left of `job₀`: same
channel, options and flag, and done, chunk and rest still add up. -/
structure Fits (f : Bool → String → Translation) (job₀ job : QueuedJob)
    (chunk : List String) : Prop where
  reply : job.reply = job₀.reply
  html : job.html = job₀.html
  priority : job.priority = job₀.priority
  cancelled : job.cancelled = job₀.cancelled
  segments : job.done ++ (chunk ++ job.remaining).map (f job₀.html) = job₀.translated f

/-- Why `result` may be the answer to the accepted job `job₀`. -/
inductive Explains (f : Bool → String → Translation) (flags : Nat → Bool) (log : List Obs)
    (job₀ : QueuedJob) : JobResult → Prop
  | translated : Explains f flags log job₀ (.ok (job₀.translated f))
  | cancelled (h : flags job₀.cancelled = true) : Explains f flags log job₀ (.error .cancelled)
  | failed {message : String} (h : .failed job₀.reply message ∈ log) :
      Explains f flags log job₀ (.error (.engine message))

theorem Explains.mono {f : Bool → String → Translation} {flags flags' : Nat → Bool}
    {log log' : List Obs} {job₀ : QueuedJob} {result : JobResult}
    (h : Explains f flags log job₀ result)
    (hflags : ∀ n, flags n = true → flags' n = true) (hlog : log ⊆ log') :
    Explains f flags' log' job₀ result := by
  cases h with
  | translated => exact .translated
  | cancelled h => exact .cancelled (hflags _ h)
  | failed h => exact .failed (hlog h)

def Pc.held : Pc → List (QueuedJob × List String)
  | .taken job | .calling job | .requeueing job => [(job, [])]
  | .translating job chunk => [(job, chunk)]
  | _ => []

def Pc.outgoing : Pc → List (Nat × JobResult)
  | .finishing reply result _ | .replying reply result _ => [(reply, result)]
  | _ => []

/-- The jobs still to be worked on, each with its chunk at the engine. -/
def Scheduler.held (s : Scheduler) : List (QueuedJob × List String) :=
  s.pc.held ++ (s.queue.inner.interactive ++ s.queue.inner.batch).map (·, [])

/-- Results about to be sent, and those sent. -/
def Scheduler.outgoing (s : Scheduler) : List (Nat × JobResult) :=
  s.pc.outgoing ++ s.answered

/-- Where a job held after a step comes from. -/
inductive Scheduler.HeldFrom (translate : Bool → List String → List Translation)
    (s s' : Scheduler) : QueuedJob × List String → Prop
  | old {p : QueuedJob × List String} (h : p ∈ s.held) : HeldFrom translate s s' p
  | accepted {job : QueuedJob} (h : job ∈ s'.accepted) (hdone : job.done = []) :
      HeldFrom translate s s' (job, [])
  | called {job : QueuedJob} (h : (job, []) ∈ s.held) :
      HeldFrom translate s s' (job.drained, job.chunk)
  | progressed {job : QueuedJob} {chunk : List String} (h : (job, chunk) ∈ s.held) :
      HeldFrom translate s s' ({ job with done := job.done ++ translate job.html chunk }, [])

/-- Where a result on its way out after a step comes from. -/
inductive Scheduler.OutgoingFrom (translate : Bool → List String → List Translation)
    (flags : Nat → Bool) (s s' : Scheduler) : Nat × JobResult → Prop
  | old {p : Nat × JobResult} (h : p ∈ s.outgoing) : OutgoingFrom translate flags s s' p
  | skipped {job : QueuedJob} (h : (job, []) ∈ s.held) (hflag : flags job.cancelled = true) :
      OutgoingFrom translate flags s s' (job.reply, .error .cancelled)
  | leftover {job : QueuedJob} {rest : List QueuedJob} (hpc : s.pc = .draining (job :: rest)) :
      OutgoingFrom translate flags s s' (job.reply, .error .cancelled)
  | completed {job : QueuedJob} {chunk : List String} (h : (job, chunk) ∈ s.held)
      (hrest : job.remaining = []) :
      OutgoingFrom translate flags s s' (job.reply, .ok (job.done ++ translate job.html chunk))
  | failed {job : QueuedJob} {chunk : List String} {message : String} (h : (job, chunk) ∈ s.held)
      (hlog : .failed job.reply message ∈ s'.log) :
      OutgoingFrom translate flags s s' (job.reply, .error (.engine message))

section Views

variable {translate : Bool → List String → List Translation} {flags : Nat → Bool}
  {s s' : Scheduler}

theorem Scheduler.Transition.log_subset (h : s.Transition translate flags s') : s.log ⊆ s'.log := by
  cases h <;> first | exact List.Subset.refl _ | exact List.subset_cons_self ..

theorem Scheduler.Transition.accepted_subset (h : s.Transition translate flags s') :
    s.accepted ⊆ s'.accepted :=
  List.filterMap_subset _ h.log_subset

theorem Scheduler.Transition.held (h : s.Transition translate flags s')
    {p : QueuedJob × List String} (hp : p ∈ s'.held) : Scheduler.HeldFrom translate s s' p := by
  have hqueued : ∀ pc : Pc, pc.held = [] → p ∈ ({ s with pc := pc } : Scheduler).held →
      Scheduler.HeldFrom translate s s' p := by
    intro pc hpc hmem
    rw [Scheduler.held, hpc, List.nil_append] at hmem
    exact .old (List.mem_append_right _ hmem)
  cases h with
  | @accept job hopen hdone hreply =>
      rcases List.mem_append.mp hp with hpc | hq
      · exact .old (List.mem_append_left _ hpc)
      · obtain ⟨job', hmem', rfl⟩ := List.mem_map.mp hq
        rcases List.mem_cons.mp ((QueueInner.pushBack_perm _ job).mem_iff.mp hmem')
          with rfl | hold
        · exact .accepted (List.mem_cons_self ..) hdone
        · exact .old (List.mem_append_right _ (List.mem_map.mpr ⟨_, hold, rfl⟩))
  | refuse | close | permit => exact .old hp
  | @take job inner hpc hpop =>
      refine .old ?_
      rw [Scheduler.held, QueueInner.popFront_append hpop]
      exact List.mem_append_right _ hp
  | @call job hpc =>
      rcases List.mem_append.mp hp with hnew | hq
      · obtain rfl := List.mem_singleton.mp hnew
        exact .called (by simp [Scheduler.held, hpc, Pc.held])
      · exact .old (List.mem_append_right _ hq)
  | @requeue job hpc =>
      refine .old ?_
      simp only [Scheduler.held, hpc, Pc.held] at hp ⊢
      simp only [List.nil_append, List.map_append, List.map_cons, List.mem_append,
        List.mem_cons, List.cons_append] at hp ⊢
      tauto
  | @check job hpc =>
      refine .old ?_
      rw [Scheduler.held, hpc]
      exact hp
  | @progressed job chunk hpc hrest =>
      rcases List.mem_append.mp hp with hnew | hq
      · obtain rfl := List.mem_singleton.mp hnew
        exact .progressed (by simp [Scheduler.held, hpc, Pc.held])
      · exact .old (List.mem_append_right _ hq)
  | drain hpc => cases hp
  | @answer reply result leftovers hpc =>
      refine hqueued (leftovers.elim Pc.top Pc.draining) ?_ hp
      cases leftovers <;> rfl
  | wake _ hpc | leave hpc | await hpc | consume hpc | park hpc | resume hpc | skip hpc
  | leftover hpc | stop hpc | finish hpc | completed hpc | failed hpc => exact hqueued _ rfl hp

theorem Scheduler.Transition.outgoing (h : s.Transition translate flags s')
    {p : Nat × JobResult} (hp : p ∈ s'.outgoing) :
    Scheduler.OutgoingFrom translate flags s s' p := by
  have hhand : ∀ {job : QueuedJob} {chunk : List String}, (job, chunk) ∈ s.pc.held →
      (job, chunk) ∈ s.held := fun hmem => List.mem_append_left _ hmem
  cases h with
  | accept | refuse | close | permit => exact .old hp
  | @skip job hpc hflag =>
      rcases List.mem_append.mp hp with hnew | hold
      · obtain rfl := List.mem_singleton.mp hnew
        exact .skipped (hhand (by simp [hpc, Pc.held])) hflag
      · exact .old (List.mem_append_right _ hold)
  | @leftover job rest hpc =>
      rcases List.mem_append.mp hp with hnew | hold
      · obtain rfl := List.mem_singleton.mp hnew
        exact .leftover hpc
      · exact .old (List.mem_append_right _ hold)
  | @completed job chunk hpc hrest =>
      rcases List.mem_append.mp hp with hnew | hold
      · obtain rfl := List.mem_singleton.mp hnew
        exact .completed (hhand (by simp [hpc, Pc.held])) hrest
      · exact .old (List.mem_append_right _ hold)
  | @failed job chunk message hpc =>
      rcases List.mem_append.mp hp with hnew | hold
      · obtain rfl := List.mem_singleton.mp hnew
        exact .failed (@hhand job chunk (by simp [hpc, Pc.held])) (List.mem_cons_self ..)
      · exact .old (List.mem_append_right _ hold)
  | @finish reply result leftovers hpc =>
      refine .old ?_
      rw [Scheduler.outgoing, hpc]
      exact hp
  | @answer reply result leftovers hpc =>
      refine .old ?_
      rw [Scheduler.outgoing, hpc]
      have hout : (leftovers.elim Pc.top Pc.draining).outgoing = [] := by cases leftovers <;> rfl
      simp only [Scheduler.outgoing, hout] at hp
      exact hp
  | take | leave | await | wake | consume | park | resume | check | call | requeue | drain | stop
  | progressed => exact .old (List.mem_append_right _ hp)

end Views

structure Tracked (f : Bool → String → Translation) (flags : Nat → Bool)
    (s : Scheduler) : Prop where
  held : ∀ job chunk, (job, chunk) ∈ s.held → ∃ job₀ ∈ s.accepted, Fits f job₀ job chunk
  outgoing : ∀ reply result, (reply, result) ∈ s.outgoing →
    ∃ job₀ ∈ s.accepted, job₀.reply = reply ∧ Explains f flags s.log job₀ result

section Tracking

variable {f : Bool → String → Translation} {flags : Nat → Bool} {s s' : Scheduler}

theorem Fits.drained {job₀ job : QueuedJob} (h : Fits f job₀ job []) :
    Fits f job₀ job.drained job.chunk := by
  have hdrained : job.drained = { job with remaining := job.drained.remaining } := by
    unfold QueuedJob.drained; split <;> rfl
  rw [hdrained]
  refine ⟨h.reply, h.html, h.priority, h.cancelled, ?_⟩
  have hsegments := h.segments
  rwa [List.nil_append, ← job.chunk_append_drained] at hsegments

theorem Fits.progressed {job₀ job : QueuedJob} {chunk : List String} (h : Fits f job₀ job chunk) :
    Fits f job₀ { job with done := job.done ++ perSegment f job.html chunk } [] := by
  refine ⟨h.reply, h.html, h.priority, h.cancelled, ?_⟩
  show (job.done ++ perSegment f job.html chunk) ++ ([] ++ job.remaining).map _ = _
  rw [← h.segments, perSegment, h.html]
  simp

theorem tracked_step (h : s.Transition (perSegment f) flags s') (hd : Drained s)
    (ht : Tracked f flags s) : Tracked f flags s' := by
  have hacc := h.accepted_subset
  constructor
  · intro job chunk hmem
    cases h.held hmem with
    | old hold =>
        obtain ⟨job₀, hmem₀, hfits⟩ := ht.held job chunk hold
        exact ⟨job₀, hacc hmem₀, hfits⟩
    | accepted hnew hdone =>
        exact ⟨job, hnew, rfl, rfl, rfl, rfl, by simp [hdone, QueuedJob.translated]⟩
    | called hold =>
        obtain ⟨job₀, hmem₀, hfits⟩ := ht.held _ _ hold
        exact ⟨job₀, hacc hmem₀, hfits.drained⟩
    | progressed hold =>
        obtain ⟨job₀, hmem₀, hfits⟩ := ht.held _ _ hold
        exact ⟨job₀, hacc hmem₀, hfits.progressed⟩
  · intro reply result hmem
    cases h.outgoing hmem with
    | old hold =>
        obtain ⟨job₀, hmem₀, hreply, hex⟩ := ht.outgoing reply result hold
        exact ⟨job₀, hacc hmem₀, hreply, hex.mono (fun _ h => h) h.log_subset⟩
    | skipped hold hflag =>
        obtain ⟨job₀, hmem₀, hfits⟩ := ht.held _ _ hold
        exact ⟨job₀, hacc hmem₀, hfits.reply.symm, .cancelled (hfits.cancelled ▸ hflag)⟩
    | leftover hpc => exact absurd hpc (hd.draining _ _)
    | @completed job chunk hold hrest =>
        obtain ⟨job₀, hmem₀, hfits⟩ := ht.held _ _ hold
        have hall : job.done ++ perSegment f job.html chunk = job₀.translated f := by
          rw [← hfits.segments, hrest, List.append_nil, perSegment, hfits.html]
        exact ⟨job₀, hacc hmem₀, hfits.reply.symm, hall ▸ .translated⟩
    | failed hold hlog =>
        obtain ⟨job₀, hmem₀, hfits⟩ := ht.held _ _ hold
        exact ⟨job₀, hacc hmem₀, hfits.reply.symm, .failed (hfits.reply ▸ hlog)⟩

end Tracking

/-! ## Whole runs -/

section Runs

variable {f : Bool → String → Translation} {r : Route}

/-- The invariant of a route: what its scheduler keeps, under the flags
set so far. -/
structure RouteInv (f : Bool → String → Translation) (r : Route) : Prop where
  drained : Drained r.scheduler
  accounted : Accounted r.scheduler
  tracked : Tracked f r.flags r.scheduler

theorem routeInv_init : RouteInv f Route.init where
  drained := ⟨by simp [Route.init, Scheduler.init, Pc.left],
    by simp [Route.init, Scheduler.init], by simp [Route.init, Scheduler.init],
    by simp [Route.init, Scheduler.init], by simp [Route.init, Scheduler.init]⟩
  accounted := ⟨by simp [Route.init, Scheduler.init, Scheduler.accepted], by decide,
    by decide, by decide, rfl⟩
  tracked := ⟨by simp [Route.init, Scheduler.init, Scheduler.held, Pc.held],
    by simp [Route.init, Scheduler.init, Scheduler.outgoing, Pc.outgoing,
      Scheduler.answered]⟩

theorem routeInv_step {e : RouteEvent} {r' : Route}
    (h : r.step (perSegment f) e = some r') (hr : RouteInv f r) : RouteInv f r' := by
  obtain ⟨hd, ha, ht⟩ := hr
  cases e with
  | cancel flag =>
      obtain rfl := Option.some.inj h
      have hmono : ∀ n, r.flags n = true → Function.update r.flags flag true n = true := by
        intro n hn
        by_cases hnf : n = flag
        · simp [hnf]
        · simpa [hnf] using hn
      refine ⟨hd, ha, ht.held, fun reply result hmem => ?_⟩
      obtain ⟨job₀, hmem₀, hreply, hex⟩ := ht.outgoing reply result hmem
      exact ⟨job₀, hmem₀, hreply, hex.mono hmono (List.Subset.refl _)⟩
  | scheduler event =>
      obtain ⟨s', hs', rfl⟩ := Option.map_eq_some_iff.mp h
      have htr := Scheduler.step_cases hs'
      exact ⟨drained_step htr hd, accounted_step htr ha, tracked_step htr hd ht⟩

theorem routeInv_of_reach
    (h : Machine.Reach (Route.step (perSegment f)) Machine.anyStep Route.init r) :
    RouteInv f r :=
  h.invariant routeInv_init fun _ _ _ _ _ hs hr => routeInv_step hs hr

theorem Accounted.job_unique {s : Scheduler} (ha : Accounted s) {job job' : QueuedJob}
    (h : job ∈ s.accepted) (h' : job' ∈ s.accepted) (heq : job.reply = job'.reply) :
    job = job' :=
  List.inj_on_of_nodup_map ha.nodup h h' heq

theorem mem_answersTo {s : Scheduler} {reply : Nat} {result : JobResult} :
    result ∈ s.answersTo reply ↔ (reply, result) ∈ s.answered := by
  simp [Scheduler.answersTo]

theorem length_answersTo (s : Scheduler) (reply : Nat) :
    (s.answersTo reply).length = (s.answered.map (·.1)).count reply := by
  unfold Scheduler.answersTo
  induction s.answered with
  | nil => rfl
  | cons a rest ih =>
      by_cases h : a.1 = reply <;> simp [h, ih]

theorem Accounted.count_accepted {s : Scheduler} (ha : Accounted s) (reply : Nat) :
    (s.accepted.map (·.reply)).count reply
      = s.unfinished.count reply + s.pc.replyingTo.count reply
        + (s.answersTo reply).length := by
  rw [ha.split.count_eq, List.count_append, ha.replied.count_eq, List.count_append,
    length_answersTo, Nat.add_assoc]

/-- Conservation and transparency of one route, as seen by its callers. -/
structure Conserved (f : Bool → String → Translation) (r : Route) : Prop where
  /-- (1) answered at most once at any time, and only if accepted, -/
  atMostOnce : ∀ reply, (r.scheduler.answersTo reply).length ≤ 1
  onlyAccepted : ∀ reply result, result ∈ r.scheduler.answersTo reply →
    ∃ job ∈ r.scheduler.accepted, job.reply = reply
  /-- ... and exactly once by the time the scheduler ends. -/
  onceEnded : r.scheduler.pc = .ended →
    ∀ job ∈ r.scheduler.accepted, (r.scheduler.answersTo job.reply).length = 1
  /-- (2) never cancelled and no engine error: the answer is the job's
  segments, translated one by one in their order. -/
  transparent : ∀ job ∈ r.scheduler.accepted, r.flags job.cancelled = false →
    (∀ message, .failed job.reply message ∉ r.scheduler.log) →
    ∀ result ∈ r.scheduler.answersTo job.reply, result = .ok (job.translated f)
  /-- (3) `active` counts the accepted jobs not finished, -/
  active : r.scheduler.queue.active + r.scheduler.finished.length
    = r.scheduler.accepted.length
  /-- ... and is positive whenever `finish` is about to decrement it. -/
  noUnderflow : ∀ reply result leftovers,
    r.scheduler.pc = .finishing reply result leftovers → 0 < r.scheduler.queue.active
  /-- (4) outside the loop both deques are empty, -/
  emptyEnded : r.scheduler.pc.left = true →
    r.scheduler.queue.inner.interactive = [] ∧ r.scheduler.queue.inner.batch = []
  /-- ... a `Cancelled` answer means the job's flag was set, -/
  cancelledOnly : ∀ job ∈ r.scheduler.accepted,
    .error .cancelled ∈ r.scheduler.answersTo job.reply → r.flags job.cancelled = true
  /-- ... and no job is accepted any more. -/
  acceptsNoMore : r.scheduler.pc.left = true → ∀ e r',
    r.step (perSegment f) e = some r' → r'.scheduler.accepted = r.scheduler.accepted

theorem RouteInv.explains (hr : RouteInv f r) {job : QueuedJob}
    (hjob : job ∈ r.scheduler.accepted) {result : JobResult}
    (hmem : result ∈ r.scheduler.answersTo job.reply) :
    Explains f r.flags r.scheduler.log job result := by
  obtain ⟨job₀, hmem₀, hreply, hex⟩ :=
    hr.tracked.outgoing job.reply result (List.mem_append_right _ (mem_answersTo.mp hmem))
  rwa [hr.accounted.job_unique hmem₀ hjob hreply] at hex

theorem RouteInv.acceptsNoMore (hr : RouteInv f r) (hleft : r.scheduler.pc.left = true)
    {e : RouteEvent} {r' : Route} (h : r.step (perSegment f) e = some r') :
    r'.scheduler.accepted = r.scheduler.accepted := by
  cases e with
  | cancel flag =>
      obtain rfl := Option.some.inj h
      rfl
  | scheduler event =>
      obtain ⟨s', hs', rfl⟩ := Option.map_eq_some_iff.mp h
      cases Scheduler.step_cases hs' with
      | accept hopen =>
          rw [hr.drained.closed hleft] at hopen
          cases hopen
      | _ => rfl

/-- **Scheduler conservation and chunk transparency**: in every state of
every run of a route, whoever submits, cancels and drops when, on a
backend that translates segment by segment. -/
theorem scheduler_conserves
    (h : Machine.Reach (Route.step (perSegment f)) Machine.anyStep Route.init r) :
    Conserved f r := by
  have hr := routeInv_of_reach h
  have ha := hr.accounted
  have hone : ∀ reply, (r.scheduler.accepted.map (·.reply)).count reply ≤ 1 := fun reply =>
    List.nodup_iff_count_le_one.mp ha.nodup reply
  refine ⟨?_, ?_, ?_, ?_, ?_, ?_, hr.drained.empty, ?_,
    fun hleft e r' hs => hr.acceptsNoMore hleft hs⟩
  · intro reply
    have := ha.count_accepted reply
    have := hone reply
    omega
  · intro reply result hmem
    obtain ⟨job₀, hmem₀, hreply, -⟩ := hr.tracked.outgoing reply result
      (List.mem_append_right _ (mem_answersTo.mp hmem))
    exact ⟨job₀, hmem₀, hreply⟩
  · intro hended job hjob
    obtain ⟨hi, hb⟩ := hr.drained.empty (by simp [hended, Pc.left])
    have hcount := ha.count_accepted job.reply
    have hpos : 0 < (r.scheduler.accepted.map (·.reply)).count job.reply :=
      List.count_pos_iff.mpr (List.mem_map.mpr ⟨job, hjob, rfl⟩)
    have := hone job.reply
    simp only [Scheduler.unfinished, hended, hi, hb, Pc.inHand, Pc.replyingTo,
      List.append_nil, List.map_nil, List.count_nil, Nat.zero_add] at hcount
    omega
  · intro job hjob hflag hnofail result hmem
    cases hr.explains hjob hmem with
    | translated => rfl
    | cancelled hset =>
        rw [hflag] at hset
        cases hset
    | failed hfail => exact absurd hfail (hnofail _)
  · have := ha.split.length_eq
    rw [List.length_map, List.length_append] at this
    rw [ha.active, this]
  · intro reply result leftovers hpc
    rw [ha.active, Scheduler.unfinished, hpc, Pc.inHand]
    exact Nat.succ_pos _
  · intro job hjob hmem
    cases hr.explains hjob hmem with
    | cancelled hset => exact hset

end Runs

/-- A batch job of 17 segments, answered in two chunks after the entry
was dropped; then the task ends. -/
theorem scheduler_conserves_two_chunks :
    ∃ r, Machine.Reach (Route.step (perSegment fun _ text => ⟨text, []⟩)) Machine.anyStep
        Route.init r
      ∧ (r.scheduler.pc = .ended
        ∧ r.scheduler.answersTo 0 = [.ok (List.replicate 17 ⟨"a", []⟩)])
      ∧ Conserved (fun _ text => ⟨text, []⟩) r := by
  obtain ⟨r, hreach, hr⟩ := Machine.exists_reach_of_run
    (Route.step (perSegment fun _ text => ⟨text, []⟩)) Machine.anyStep Route.init
    ([.scheduler (.submit (List.replicate 17 "a") false .batch 0), .scheduler .close]
      ++ [.proceed, .proceed, .proceed, .engine none, .proceed, .proceed, .proceed, .proceed,
        .engine none, .proceed, .proceed, .proceed, .proceed, .proceed].map .scheduler)
    (fun r => decide (r.scheduler.pc = .ended
      ∧ r.scheduler.answersTo 0 = [.ok (List.replicate 17 ⟨"a", []⟩)])) (by decide)
  exact ⟨r, hreach, of_decide_eq_true hr, scheduler_conserves hreach⟩

end Dragomand
