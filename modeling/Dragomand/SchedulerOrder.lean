import Dragomand.SchedulerJobs

/-!
# Interactive before batch

The order in which one route works on its jobs. `Scheduler.line p` is the
queue of priority `p` with the job in the task's hand in front of it;
`Lined` says that it stays sorted by acceptance, although an unfinished
batch job goes back to the front between its chunks. From it, the batch
jobs are answered in turn and the interactive ones started in turn, and
an interactive job waits for one batch call at most: the one whose job
had been taken before it arrived.
-/

namespace Dragomand

/-! ## Views of the history -/

/-- A batch call is at the engine. The history is newest first. -/
def batchRunning : List Obs → Bool
  | [] => false
  | .called job _ :: _ => job.priority = .batch
  | .returned _ :: _ | .failed _ _ :: _ => false
  | _ :: log => batchRunning log

/-- The engine calls for batch work that ran at some time since `reply`
was accepted: the one running then, and those started later. -/
def batchCallsSince (reply : Nat) : List Obs → Nat
  | [] => 0
  | .accepted job :: log =>
      if job.reply = reply then (batchRunning log).toNat else batchCallsSince reply log
  | .called job _ :: log =>
      batchCallsSince reply log + if job.priority = .batch then 1 else 0
  | _ :: log => batchCallsSince reply log

/-- The jobs taken from the queue since `reply` was accepted. -/
def takenSince (reply : Nat) : List Obs → List QueuedJob
  | [] => []
  | .accepted job :: log => if job.reply = reply then [] else takenSince reply log
  | .taken job :: log => job :: takenSince reply log
  | _ :: log => takenSince reply log

/-- Accepted, and neither started at the engine nor given up. -/
def Scheduler.Waiting (s : Scheduler) (reply : Nat) : Prop :=
  (∀ job chunk, .called job chunk ∈ s.log → job.reply ≠ reply) ∧ .finished reply ∉ s.log

theorem mem_answered {s : Scheduler} {reply : Nat} {result : JobResult} :
    (reply, result) ∈ s.answered ↔ .answered reply result ∈ s.log := by
  unfold Scheduler.answered
  rw [List.mem_filterMap]
  constructor
  · rintro ⟨o, hmem, ho⟩
    split at ho
    · cases ho
      exact hmem
    · cases ho
  · exact fun hmem => ⟨_, hmem, rfl⟩

theorem mem_finished {s : Scheduler} {reply : Nat} :
    reply ∈ s.finished ↔ .finished reply ∈ s.log := by
  unfold Scheduler.finished
  rw [List.mem_filterMap]
  constructor
  · rintro ⟨o, hmem, ho⟩
    split at ho
    · cases ho
      exact hmem
    · cases ho
  · exact fun hmem => ⟨_, hmem, rfl⟩

/-! ## The lines -/

/-- The job in the task's hand that may still need the engine. -/
def Pc.jobs : Pc → List QueuedJob
  | .taken job | .calling job | .translating job _ | .requeueing job => [job]
  | _ => []

def QueueInner.deque (q : QueueInner) : Priority → List QueuedJob
  | .interactive => q.interactive
  | .batch => q.batch

/-- Who is served when: the channels of priority `p`, first come first. -/
def Scheduler.line (s : Scheduler) (p : Priority) : List Nat :=
  (s.pc.jobs.filter (·.priority = p) ++ s.queue.inner.deque p).map (·.reply)

structure Lined (s : Scheduler) : Prop where
  filed : ∀ p, ∀ job ∈ s.queue.inner.deque p, job.priority = p
  sorted : ∀ p, (s.line p).Pairwise (· < ·)
  known : ∀ p, ∀ reply ∈ s.line p, ∃ job ∈ s.accepted, job.reply = reply ∧ job.priority = p
  /-- Only batch jobs take more than one call. -/
  partly : ∀ job chunk, s.pc = .translating job chunk → job.remaining ≠ [] →
    job.priority = .batch
  requeued : ∀ job, s.pc = .requeueing job → job.priority = .batch

@[simp] theorem QueuedJob.drained_priority (job : QueuedJob) :
    job.drained.priority = job.priority := by
  unfold QueuedJob.drained; split <;> simp_all

@[simp] theorem QueueInner.deque_pushBack_self (q : QueueInner) (job : QueuedJob) :
    (q.pushBack job).deque job.priority = q.deque job.priority ++ [job] := by
  unfold pushBack
  cases job.priority <;> rfl

theorem QueueInner.deque_pushBack_of_ne {q : QueueInner} {job : QueuedJob} {p : Priority}
    (h : p ≠ job.priority) : (q.pushBack job).deque p = q.deque p := by
  unfold pushBack
  cases p <;> cases hp : job.priority <;> simp_all [deque]

theorem QueueInner.mem_deque {q : QueueInner} {job : QueuedJob} {p : Priority}
    (h : job ∈ q.deque p) : job ∈ q.interactive ++ q.batch := by
  cases p with
  | interactive => exact List.mem_append_left _ h
  | batch => exact List.mem_append_right _ h

theorem Scheduler.mem_line_unfinished {s : Scheduler} {p : Priority} {reply : Nat}
    (h : reply ∈ s.line p) : reply ∈ s.unfinished := by
  obtain ⟨job, hmem, rfl⟩ := List.mem_map.mp h
  rcases List.mem_append.mp hmem with hpc | hq
  · refine List.mem_append_left _ ?_
    have hjob := (List.mem_filter.mp hpc).1
    revert hjob
    cases s.pc <;> simp [Pc.jobs, Pc.inHand] <;> rintro rfl <;> rfl
  · exact List.mem_append_right _ (List.mem_map.mpr ⟨job, QueueInner.mem_deque hq, rfl⟩)

theorem Accounted.lt_nextReply {s : Scheduler} (ha : Accounted s) {reply : Nat}
    (h : reply ∈ s.unfinished) : reply < s.nextReply := by
  have hmem := ha.split.mem_iff.mpr (List.mem_append_left _ h)
  obtain ⟨job, hjob, rfl⟩ := List.mem_map.mp hmem
  exact ha.fresh job hjob

section Step

variable {translate : Bool → List String → List Translation} {flags : Nat → Bool}
  {s s' : Scheduler}

/-- Steps that at most take someone out of a line. -/
theorem Lined.of_sublist (hl : Lined s) (hacc : s.accepted ⊆ s'.accepted)
    (hline : ∀ p, (s'.line p).Sublist (s.line p))
    (hfiled : ∀ p, ∀ job ∈ s'.queue.inner.deque p, job.priority = p)
    (hpartly : ∀ job chunk, s'.pc = .translating job chunk → job.remaining ≠ [] →
      job.priority = .batch)
    (hrequeued : ∀ job, s'.pc = .requeueing job → job.priority = .batch) : Lined s' where
  filed := hfiled
  sorted := fun p => (hl.sorted p).sublist (hline p)
  known := fun p reply hmem => by
    obtain ⟨job, hjob, hr, hp⟩ := hl.known p reply ((hline p).mem hmem)
    exact ⟨job, hacc hjob, hr, hp⟩
  partly := hpartly
  requeued := hrequeued

theorem lined_step (h : s.Transition translate flags s') (ha : Accounted s) (hl : Lined s) :
    Lined s' := by
  have hsame := hl.filed
  cases h with
  | @accept job hopen hdone hreply =>
      have hline : ∀ p, ({ s with
          queue := { s.queue with
            inner := s.queue.inner.pushBack job, active := s.queue.active + 1 }
          notifiers := s.notifiers + 1
          nextReply := s.nextReply + 1
          log := .accepted job :: s.log } : Scheduler).line p
            = s.line p ++ if p = job.priority then [job.reply] else [] := by
        intro p
        unfold Scheduler.line
        by_cases hp : p = job.priority
        · subst hp
          simp
        · simp [QueueInner.deque_pushBack_of_ne hp, hp]
      refine ⟨?_, ?_, ?_, hl.partly, hl.requeued⟩
      · intro p job' hmem
        by_cases hp : p = job.priority
        · subst hp
          rcases List.mem_append.mp (QueueInner.deque_pushBack_self _ job ▸ hmem) with hold | hnew
          · exact hsame _ _ hold
          · rw [List.mem_singleton.mp hnew]
        · exact hsame p job' (QueueInner.deque_pushBack_of_ne hp ▸ hmem)
      · intro p
        rw [hline]
        refine List.pairwise_append.mpr ⟨hl.sorted p, by split <;> simp, ?_⟩
        intro reply hmem reply' hmem'
        have := ha.lt_nextReply (Scheduler.mem_line_unfinished hmem)
        split at hmem'
        · rw [List.mem_singleton.mp hmem', hreply]
          exact this
        · cases hmem'
      · intro p reply hmem
        rw [hline] at hmem
        rcases List.mem_append.mp hmem with hold | hnew
        · obtain ⟨job', hjob', hr, hp⟩ := hl.known p reply hold
          exact ⟨job', List.mem_cons_of_mem _ hjob', hr, hp⟩
        · split at hnew
          · rename_i hp
            exact ⟨job, List.mem_cons_self .., (List.mem_singleton.mp hnew).symm, hp.symm⟩
          · cases hnew
  | refuse =>
      exact hl.of_sublist (List.Subset.refl _) (fun p => List.Sublist.refl _) hsame
        hl.partly hl.requeued
  | close =>
      exact hl.of_sublist (List.Subset.refl _) (fun p => by cases p <;> exact List.Sublist.refl _)
        (fun p => by cases p with
          | interactive => exact hsame .interactive
          | batch => exact hsame .batch) hl.partly hl.requeued
  | permit =>
      exact hl.of_sublist (List.Subset.refl _) (fun p => List.Sublist.refl _) hsame
        hl.partly hl.requeued
  | @take job inner hpc hpop =>
      refine hl.of_sublist (List.Subset.refl _) ?_ ?_ (by simp) (by simp)
      · intro p
        rcases QueueInner.popFront_eq_some hpop with ⟨hi, hb, -⟩ | ⟨hi, hi', hb, -⟩
        · have hjob := hsame .interactive job (by simp [QueueInner.deque, hi])
          cases p <;> simp [Scheduler.line, hpc, Pc.jobs, QueueInner.deque, hi, hb, hjob]
        · have hjob := hsame .batch job (by simp [QueueInner.deque, hb])
          cases p <;> simp [Scheduler.line, hpc, Pc.jobs, QueueInner.deque, hi, hi', hb, hjob]
      · intro p job' hmem
        refine hsame p job' ?_
        rcases QueueInner.popFront_eq_some hpop with ⟨hi, hb, -⟩ | ⟨hi, hi', hb, -⟩
        · cases p <;> simp_all [QueueInner.deque]
        · cases p <;> simp_all [QueueInner.deque]
  | @call job hpc =>
      refine hl.of_sublist (List.Subset.refl _) ?_ hsame ?_ (by simp)
      · intro p
        by_cases hp : job.priority = p <;> simp [Scheduler.line, hpc, Pc.jobs, hp]
      · intro job' chunk hpc' hrest
        cases hpc'
        cases hp : job.priority with
        | interactive => simp [QueuedJob.drained, hp] at hrest
        | batch => simp [hp]
  | @requeue job hpc =>
      have hjob := hl.requeued job hpc
      refine hl.of_sublist (List.Subset.refl _) ?_ ?_ (by simp) (by simp)
      · intro p
        cases p <;> simp [Scheduler.line, hpc, Pc.jobs, QueueInner.deque, hjob]
      · intro p job' hmem
        cases p with
        | interactive => exact hsame .interactive job' hmem
        | batch =>
            rcases List.mem_cons.mp hmem with rfl | hold
            · exact hjob
            · exact hsame .batch job' hold
  | @progressed job chunk hpc hrest =>
      have hjob := hl.partly job chunk hpc hrest
      refine hl.of_sublist (List.Subset.refl _) ?_ hsame (by simp) ?_
      · intro p
        by_cases hp : job.priority = p <;> simp [Scheduler.line, hpc, Pc.jobs, hp]
      · intro job' hpc'
        cases hpc'
        exact hjob
  | drain hpc =>
      refine hl.of_sublist (List.Subset.refl _) ?_ ?_ (by simp) (by simp)
      · intro p
        cases p <;> simp [Scheduler.line, Pc.jobs, QueueInner.deque]
      · intro p
        cases p <;> simp [QueueInner.deque]
  | @check job hpc =>
      refine hl.of_sublist (List.Subset.refl _) ?_ hsame (by simp) (by simp)
      intro p
      simp [Scheduler.line, hpc, Pc.jobs]
  | @answer reply result leftovers hpc =>
      have hjobs : (leftovers.elim Pc.top Pc.draining).jobs = [] := by cases leftovers <;> rfl
      refine hl.of_sublist (List.Subset.refl _) ?_ hsame ?_ ?_
      · intro p
        rw [Scheduler.line, hjobs]
        simp [Scheduler.line]
      · cases leftovers <;> simp
      · cases leftovers <;> simp
  | wake | leave | await | consume | park | resume | skip | finish | leftover | stop
  | completed | failed =>
      refine hl.of_sublist (List.Subset.refl _) ?_ hsame (by simp) (by simp)
      intro p
      simp [Scheduler.line, Pc.jobs]

end Step

/-! ## Who is answered, who is waiting -/

section Line

variable {s : Scheduler}

/-- A job that is not finished stands in the line of its priority. -/
theorem Lined.mem_line (hl : Lined s) (ha : Accounted s) {job : QueuedJob}
    (hjob : job ∈ s.accepted) (hq : job.reply ∈
      (s.queue.inner.interactive ++ s.queue.inner.batch).map (·.reply)) :
    job.reply ∈ (s.queue.inner.deque job.priority).map (·.reply) := by
  obtain ⟨queued, hmem, hreply⟩ := List.mem_map.mp hq
  have hside : ∃ p, queued ∈ s.queue.inner.deque p := by
    rcases List.mem_append.mp hmem with hi | hb
    · exact ⟨.interactive, hi⟩
    · exact ⟨.batch, hb⟩
  obtain ⟨p, hp⟩ := hside
  obtain ⟨job', hjob', hreply', hprio⟩ := hl.known p queued.reply
    (List.mem_map.mpr ⟨queued, List.mem_append_right _ hp, rfl⟩)
  obtain rfl := ha.job_unique hjob hjob' (by rw [hreply', hreply])
  exact List.mem_map.mpr ⟨queued, hprio ▸ hp, hreply⟩

/-- When the task is about to call the engine for `job`, everybody before
it in its line has been answered. -/
theorem Lined.answered_of_earlier (hl : Lined s) (ha : Accounted s) {job job₀ : QueuedJob}
    (hpc : s.pc = .calling job) (hjob₀ : job₀ ∈ s.accepted)
    (hprio : job₀.priority = job.priority) (hlt : job₀.reply < job.reply) :
    ∃ result, .answered job₀.reply result ∈ s.log := by
  have hmem := ha.split.mem_iff.mp (List.mem_map.mpr ⟨job₀, hjob₀, rfl⟩)
  rcases List.mem_append.mp hmem with hun | hfin
  · rw [Scheduler.unfinished, hpc] at hun
    rcases List.mem_append.mp hun with hhand | hq
    · have := List.mem_singleton.mp hhand
      omega
    · have hbehind := hl.mem_line ha hjob₀ hq
      have hsorted := hl.sorted job.priority
      simp only [Scheduler.line, hpc, Pc.jobs, List.filter_cons, decide_true, if_true,
        List.filter_nil, List.cons_append, List.nil_append, List.map_cons] at hsorted
      have := (List.pairwise_cons.mp hsorted).1 job₀.reply (hprio ▸ hbehind)
      omega
  · have hrep := ha.replied.mem_iff.mp hfin
    rw [hpc] at hrep
    obtain ⟨⟨reply, result⟩, hans, rfl⟩ := List.mem_map.mp hrep
    exact ⟨result, mem_answered.mp hans⟩

/-- At the top of the loop a waiting job is in its deque. -/
theorem Lined.queued_of_waiting (hl : Lined s) (ha : Accounted s) {job : QueuedJob}
    (hpc : s.pc = .top) (hjob : job ∈ s.accepted) (hw : s.Waiting job.reply) :
    job.reply ∈ (s.queue.inner.deque job.priority).map (·.reply) := by
  have hmem := ha.split.mem_iff.mp (List.mem_map.mpr ⟨job, hjob, rfl⟩)
  rcases List.mem_append.mp hmem with hun | hfin
  · rw [Scheduler.unfinished, hpc] at hun
    exact hl.mem_line ha hjob hun
  · exact absurd (mem_finished.mp hfin) hw.2

end Line

/-! ## The calls -/

/-- The job whose call comes next. -/
def Pc.next : Pc → List QueuedJob
  | .taken job | .calling job => [job]
  | _ => []

/-- The task waits for the engine on a batch job. -/
def Pc.batchCall : Pc → Bool
  | .translating job _ => job.priority = .batch
  | _ => false

/-- A call in progress and a call to come exclude each other. -/
theorem Pc.batchCall_add_next_le (pc : Pc) :
    pc.batchCall.toNat + pc.next.countP (·.priority = .batch) ≤ 1 := by
  cases pc with
  | translating job chunk => simpa [Pc.next] using Bool.toNat_le _
  | taken job | calling job =>
      have hle : [job].countP (fun j : QueuedJob => decide (j.priority = .batch)) ≤ 1 :=
        List.countP_le_length
      simpa [Pc.batchCall, Pc.next] using hle
  | _ => simp [Pc.batchCall, Pc.next]

/-- The interactive jobs not started, by their channels. -/
def Scheduler.startable (s : Scheduler) : List Nat :=
  (s.pc.next.filter (·.priority = .interactive) ++ s.queue.inner.interactive).map (·.reply)

/-- What the history says about the engine calls made so far. -/
structure Called (s : Scheduler) : Prop where
  running : batchRunning s.log = s.pc.batchCall
  known : ∀ job chunk, .called job chunk ∈ s.log → job.reply < s.nextReply
  chunks : ∀ job chunk, .called job chunk ∈ s.log → job.priority = .batch →
    chunk.length ≤ BATCH_CHUNK
  ahead : ∀ job chunk, .called job chunk ∈ s.log → job.priority = .interactive →
    ∀ reply ∈ s.startable, job.reply < reply

/-- What was true when a call started. -/
structure InTurn (s : Scheduler) : Prop where
  answered : ∀ post pre job chunk, s.log = post ++ .called job chunk :: pre →
    ∀ job₀ ∈ s.accepted, job₀.priority = job.priority → job₀.reply < job.reply →
      ∃ result, .answered job₀.reply result ∈ pre
  started : ∀ post pre job chunk, s.log = post ++ .called job chunk :: pre →
    job.priority = .interactive → ∀ job' chunk', .called job' chunk' ∈ pre →
      job'.priority = .interactive → job'.reply < job.reply

/-- A waiting interactive job sees one batch call, counting the one that
the task is about to make. -/
structure Overtaking (s : Scheduler) : Prop where
  calls : ∀ job ∈ s.accepted, job.priority = .interactive → s.Waiting job.reply →
    batchCallsSince job.reply s.log + s.pc.next.countP (·.priority = .batch) ≤ 1
  taken : ∀ job ∈ s.accepted, job.priority = .interactive → s.Waiting job.reply →
    ∀ job' ∈ takenSince job.reply s.log, job'.priority = .interactive

theorem QueuedJob.length_chunk_le (job : QueuedJob) (h : job.priority = .batch) :
    job.chunk.length ≤ BATCH_CHUNK := by
  simp only [QueuedJob.chunk, h, List.length_take]
  omega

section Calls

variable {translate : Bool → List String → List Translation} {flags : Nat → Bool}
  {s s' : Scheduler}

/-- Steps without a call: nothing new is startable. -/
theorem Called.of_views (hc : Called s) (hrun : batchRunning s'.log = s'.pc.batchCall)
    (hlog : ∀ job chunk, .called job chunk ∈ s'.log → .called job chunk ∈ s.log)
    (hnext : s.nextReply ≤ s'.nextReply) (hstart : s'.startable ⊆ s.startable) : Called s' where
  running := hrun
  known := fun job chunk hmem => Nat.lt_of_lt_of_le (hc.known job chunk (hlog _ _ hmem)) hnext
  chunks := fun job chunk hmem => hc.chunks job chunk (hlog _ _ hmem)
  ahead := fun job chunk hmem hp reply hr =>
    hc.ahead job chunk (hlog _ _ hmem) hp reply (hstart hr)

theorem called_step (h : s.Transition translate flags s') (ha : Accounted s) (hl : Lined s)
    (hc : Called s) : Called s' := by
  have hrun := hc.running
  cases h with
  | @accept job hopen hdone hreply =>
      refine ⟨hrun, fun job' chunk hmem => ?_, fun job' chunk hmem => ?_,
        fun job' chunk hmem hp reply hr => ?_⟩
      · exact Nat.lt_succ_of_lt (hc.known job' chunk (by simpa using hmem))
      · exact hc.chunks job' chunk (by simpa using hmem)
      · have hold : .called job' chunk ∈ s.log := by simpa using hmem
        have hr' : reply ∈ s.startable ∨ reply = s.nextReply := by
          rw [Scheduler.startable, List.map_append] at hr ⊢
          rcases List.mem_append.mp hr with hnext | hq
          · exact Or.inl (List.mem_append_left _ hnext)
          · unfold QueueInner.pushBack at hq
            split at hq
            · rw [List.map_append] at hq
              rcases List.mem_append.mp hq with hq | hnew
              · exact Or.inl (List.mem_append_right _ hq)
              · exact Or.inr (by simpa [hreply] using hnew)
            · exact Or.inl (List.mem_append_right _ hq)
        rcases hr' with hr' | rfl
        · exact hc.ahead job' chunk hold hp reply hr'
        · exact hc.known job' chunk hold
  | refuse => exact hc.of_views hrun (by simp) (Nat.le_refl _) (List.Subset.refl _)
  | close => exact hc.of_views hrun (by simp [Scheduler.close]) (Nat.le_refl _) (List.Subset.refl _)
  | permit => exact hc.of_views hrun (by simp) (Nat.le_refl _) (List.Subset.refl _)
  | @take job inner hpc hpop =>
      rw [hpc] at hrun
      refine hc.of_views hrun (by simp) (Nat.le_refl _) ?_
      intro reply hr
      rcases QueueInner.popFront_eq_some hpop with ⟨hi, hb, -⟩ | ⟨hi, hi', hb, -⟩
      · have hjob := hl.filed .interactive job (by simp [QueueInner.deque, hi])
        simpa [Scheduler.startable, hpc, Pc.next, hi, hjob] using hr
      · have hjob := hl.filed .batch job (by simp [QueueInner.deque, hb])
        simp [Scheduler.startable, Pc.next, hi', hjob] at hr
  | @check job hpc =>
      rw [hpc] at hrun
      exact hc.of_views hrun (by simp) (Nat.le_refl _)
        (by simp [Scheduler.startable, hpc, Pc.next])
  | @call job hpc =>
      have hjob : job.reply ∈ s.line job.priority := by simp [Scheduler.line, hpc, Pc.jobs]
      refine ⟨by simp [batchRunning, Pc.batchCall], fun job' chunk hmem => ?_,
        fun job' chunk hmem hp => ?_, fun job' chunk hmem hp reply hr => ?_⟩
      · rcases List.mem_cons.mp hmem with hnew | hold
        · cases hnew
          exact ha.lt_nextReply (Scheduler.mem_line_unfinished hjob)
        · exact hc.known job' chunk hold
      · rcases List.mem_cons.mp hmem with hnew | hold
        · cases hnew
          exact job.length_chunk_le hp
        · exact hc.chunks job' chunk hold hp
      · have hq : reply ∈ s.queue.inner.interactive.map (·.reply) := by
          simpa [Scheduler.startable, Pc.next] using hr
        rcases List.mem_cons.mp hmem with hnew | hold
        · cases hnew
          have hsorted := hl.sorted .interactive
          simp only [Scheduler.line, hpc, Pc.jobs, List.filter_cons, hp, decide_true, if_true,
            List.filter_nil, List.cons_append, List.nil_append, List.map_cons,
            QueueInner.deque] at hsorted
          exact (List.pairwise_cons.mp hsorted).1 reply hq
        · refine hc.ahead job' chunk hold hp reply ?_
          rw [Scheduler.startable, List.map_append]
          exact List.mem_append_right _ hq
  | @requeue job hpc =>
      rw [hpc] at hrun
      exact hc.of_views hrun (by simp) (Nat.le_refl _)
        (by simp [Scheduler.startable, hpc, Pc.next])
  | drain hpc =>
      rw [hpc] at hrun
      exact hc.of_views hrun (by simp) (Nat.le_refl _)
        (by simp [Scheduler.startable, Pc.next])
  | @answer reply result leftovers hpc =>
      rw [hpc] at hrun
      refine hc.of_views ?_ (by simp) (Nat.le_refl _) ?_
      · cases leftovers <;> exact hrun
      · cases leftovers <;> simp [Scheduler.startable, hpc, Pc.next]
  | completed hpc | progressed hpc | failed hpc =>
      exact hc.of_views rfl (by simp) (Nat.le_refl _)
        (by simp [Scheduler.startable, hpc, Pc.next])
  | wake _ hpc | leave hpc | await hpc | consume hpc | park hpc | resume hpc | skip hpc
  | finish hpc | leftover hpc | stop hpc =>
      rw [hpc] at hrun
      exact hc.of_views hrun (by simp) (Nat.le_refl _)
        (by simp [Scheduler.startable, Pc.next])

/-- Steps without a call or an acceptance. -/
theorem InTurn.of_views (hi : InTurn s) (hacc : s'.accepted = s.accepted)
    (hlog : s'.log = s.log ∨ ∃ o, s'.log = o :: s.log ∧ ∀ job chunk, o ≠ .called job chunk) :
    InTurn s' := by
  have hpre : ∀ post pre job chunk, s'.log = post ++ .called job chunk :: pre →
      ∃ post, s.log = post ++ .called job chunk :: pre := by
    intro post pre job chunk heq
    rcases hlog with hlog | ⟨o, hlog, ho⟩
    · exact ⟨post, hlog ▸ heq⟩
    · rw [hlog] at heq
      rcases List.cons_eq_append_iff.mp heq with ⟨-, hnil⟩ | ⟨post', -, hrest⟩
      · cases hnil
        exact absurd rfl (ho job chunk)
      · exact ⟨post', hrest⟩
  constructor
  · intro post pre job chunk heq
    obtain ⟨post', heq'⟩ := hpre _ _ _ _ heq
    rw [hacc]
    exact hi.answered post' pre job chunk heq'
  · intro post pre job chunk heq
    obtain ⟨post', heq'⟩ := hpre _ _ _ _ heq
    exact hi.started post' pre job chunk heq'

theorem inTurn_step (h : s.Transition translate flags s') (ha : Accounted s) (hl : Lined s)
    (hc : Called s) (hi : InTurn s) : InTurn s' := by
  cases h with
  | @accept job hopen hdone hreply =>
      constructor
      · intro post pre job' chunk heq job₀ hmem hprio hlt
        rcases List.cons_eq_append_iff.mp heq with ⟨-, hnil⟩ | ⟨post', -, hrest⟩
        · cases hnil
        · rcases List.mem_cons.mp hmem with rfl | hold
          · have := hc.known job' chunk (by simp [hrest])
            omega
          · exact hi.answered post' pre job' chunk hrest job₀ hold hprio hlt
      · intro post pre job' chunk heq
        rcases List.cons_eq_append_iff.mp heq with ⟨-, hnil⟩ | ⟨post', -, hrest⟩
        · cases hnil
        · exact hi.started post' pre job' chunk hrest
  | @call job hpc =>
      constructor
      · intro post pre job' chunk heq job₀ hmem hprio hlt
        rcases List.cons_eq_append_iff.mp heq with ⟨-, hnew⟩ | ⟨post', -, hrest⟩
        · cases hnew
          exact hl.answered_of_earlier ha hpc hmem hprio hlt
        · exact hi.answered post' pre job' chunk hrest job₀ hmem hprio hlt
      · intro post pre job' chunk heq hp job'' chunk'' hmem hp''
        rcases List.cons_eq_append_iff.mp heq with ⟨-, hnew⟩ | ⟨post', -, hrest⟩
        · cases hnew
          exact hc.ahead job'' chunk'' hmem hp'' job.reply
            (by simp [Scheduler.startable, hpc, Pc.next, hp])
        · exact hi.started post' pre job' chunk hrest hp job'' chunk'' hmem hp''
  | wake | permit | leave | await | consume | park | resume | skip | check | requeue | drain
  | leftover | stop => exact hi.of_views rfl (Or.inl rfl)
  | refuse | close | take | finish | answer | completed | progressed | failed =>
      exact hi.of_views rfl (Or.inr ⟨_, rfl, by simp⟩)

/-- Steps that a waiting job does not notice. -/
theorem Overtaking.of_views (ho : Overtaking s) (hacc : s'.accepted = s.accepted)
    (hw : ∀ reply, s'.Waiting reply → s.Waiting reply)
    (hcalls : ∀ reply, batchCallsSince reply s'.log = batchCallsSince reply s.log)
    (htaken : ∀ reply, takenSince reply s'.log = takenSince reply s.log)
    (hnext : s'.pc.next.countP (·.priority = .batch) ≤ s.pc.next.countP (·.priority = .batch)) :
    Overtaking s' where
  calls := fun job hjob hp hwait => by
    have := ho.calls job (hacc ▸ hjob) hp (hw _ hwait)
    have := hcalls job.reply
    omega
  taken := fun job hjob hp hwait => by
    rw [htaken]
    exact ho.taken job (hacc ▸ hjob) hp (hw _ hwait)

/-- An older observation stays in the history. -/
theorem Scheduler.Waiting.of_log {reply : Nat} (h : s'.Waiting reply) (hlog : s.log ⊆ s'.log) :
    s.Waiting reply :=
  ⟨fun job chunk hmem => h.1 job chunk (hlog hmem), fun hmem => h.2 (hlog hmem)⟩

theorem overtaking_step (h : s.Transition translate flags s') (ha : Accounted s) (hl : Lined s)
    (hc : Called s) (ho : Overtaking s) : Overtaking s' := by
  have hcons : ∀ o : Obs, s.log ⊆ o :: s.log := fun o => List.subset_cons_self o s.log
  cases h with
  | @accept job hopen hdone hreply =>
      have hold : ∀ job' : QueuedJob, job' ∈ s.accepted → job.reply ≠ job'.reply := by
        intro job' hmem
        have := ha.fresh job' hmem
        omega
      constructor
      · intro job' hmem hp hw
        rcases List.mem_cons.mp hmem with rfl | hmem
        · have hle : (batchRunning s.log).toNat + s.pc.next.countP (·.priority = .batch) ≤ 1 := by
            rw [hc.running]
            exact s.pc.batchCall_add_next_le
          simpa [batchCallsSince] using hle
        · have := ho.calls job' hmem hp (hw.of_log (hcons _))
          simpa [batchCallsSince, hold job' hmem] using this
      · intro job' hmem hp hw
        rcases List.mem_cons.mp hmem with rfl | hmem
        · simp [takenSince]
        · have := ho.taken job' hmem hp (hw.of_log (hcons _))
          simpa [takenSince, hold job' hmem] using this
  | @take job inner hpc hpop =>
      -- a batch job is taken only when no interactive job waits
      have hprio : ∀ job' ∈ s.accepted, job'.priority = .interactive →
          s.Waiting job'.reply → job.priority = .interactive := by
        intro job' hmem hp hw
        have hq := hl.queued_of_waiting ha hpc hmem hw
        rw [hp] at hq
        rcases QueueInner.popFront_eq_some hpop with ⟨hi, -, -⟩ | ⟨hi, -, -, -⟩
        · exact hl.filed .interactive job (by simp [QueueInner.deque, hi])
        · simp [QueueInner.deque, hi] at hq
      constructor
      · intro job' hmem hp hw
        have hw' : s.Waiting job'.reply := hw.of_log (hcons _)
        have := ho.calls job' hmem hp hw'
        rw [hpc] at this
        simpa [batchCallsSince, Pc.next, hprio job' hmem hp hw'] using this
      · intro job' hmem hp hw job'' hmem''
        have hw' : s.Waiting job'.reply := hw.of_log (hcons _)
        rcases List.mem_cons.mp hmem'' with rfl | hold
        · exact hprio job' hmem hp hw'
        · exact ho.taken job' hmem hp hw' job'' hold
  | @call job hpc =>
      constructor
      · intro job' hmem hp hw
        have := ho.calls job' hmem hp (hw.of_log (hcons _))
        rw [hpc] at this
        cases hjob : job.priority <;> simp_all [batchCallsSince, Pc.next]
      · intro job' hmem hp hw
        exact ho.taken job' hmem hp (hw.of_log (hcons _))
  | @check job hpc =>
      exact ho.of_views rfl (fun _ hw => hw) (fun _ => rfl) (fun _ => rfl)
        (by simp [hpc, Pc.next])
  | @answer reply result leftovers hpc =>
      refine ho.of_views rfl (fun _ hw => hw.of_log (hcons _)) (fun _ => rfl) (fun _ => rfl) ?_
      cases leftovers <;> simp [Pc.next]
  | refuse | close =>
      exact ho.of_views rfl (fun _ hw => hw.of_log (hcons _)) (fun _ => rfl) (fun _ => rfl)
        (Nat.le_refl _)
  | permit => exact ho.of_views rfl (fun _ hw => hw) (fun _ => rfl) (fun _ => rfl) (Nat.le_refl _)
  | wake | leave | await | consume | park | resume | skip | requeue | drain | leftover
  | stop => exact ho.of_views rfl (fun _ hw => hw) (fun _ => rfl) (fun _ => rfl) (by simp [Pc.next])
  | finish | completed | progressed | failed =>
      exact ho.of_views rfl (fun _ hw => hw.of_log (hcons _)) (fun _ => rfl) (fun _ => rfl)
        (by simp [Pc.next])

theorem numbered_step (h : s.Transition translate flags s') (ha : Accounted s)
    (hn : (s.accepted.map (·.reply)).Pairwise (· > ·)) :
    (s'.accepted.map (·.reply)).Pairwise (· > ·) := by
  cases h with
  | @accept job hopen hdone hreply =>
      refine List.pairwise_cons.mpr ⟨fun reply hmem => ?_, hn⟩
      obtain ⟨job', hjob', rfl⟩ := List.mem_map.mp hmem
      show job'.reply < job.reply
      rw [hreply]
      exact ha.fresh job' hjob'
  | _ => exact hn

end Calls

/-! ## Whole runs -/

section Runs

variable {translate : Bool → List String → List Translation} {r : Route}

structure OrderInv (s : Scheduler) : Prop where
  drained : Drained s
  accounted : Accounted s
  numbered : (s.accepted.map (·.reply)).Pairwise (· > ·)
  lined : Lined s
  called : Called s
  inTurn : InTurn s
  overtaking : Overtaking s

theorem orderInv_init : OrderInv Scheduler.init where
  drained := (@routeInv_init fun _ text => ⟨text, []⟩).drained
  accounted := (@routeInv_init fun _ text => ⟨text, []⟩).accounted
  numbered := by simp [Scheduler.init, Scheduler.accepted]
  lined := by
    constructor <;> intro p <;>
      cases p <;> simp [Scheduler.init, QueueInner.deque, Scheduler.line, Pc.jobs]
  called := by constructor <;> simp [Scheduler.init, batchRunning, Pc.batchCall]
  inTurn := by constructor <;> simp [Scheduler.init]
  overtaking := by constructor <;> simp [Scheduler.init, Scheduler.accepted]

theorem orderInv_step {flags : Nat → Bool} {s s' : Scheduler}
    (h : s.Transition translate flags s') (hs : OrderInv s) : OrderInv s' where
  drained := drained_step h hs.drained
  accounted := accounted_step h hs.accounted
  numbered := numbered_step h hs.accounted hs.numbered
  lined := lined_step h hs.accounted hs.lined
  called := called_step h hs.accounted hs.lined hs.called
  inTurn := inTurn_step h hs.accounted hs.lined hs.called hs.inTurn
  overtaking := overtaking_step h hs.accounted hs.lined hs.called hs.overtaking

theorem orderInv_of_reach
    (h : Machine.Reach (Route.step translate) Machine.anyStep Route.init r) :
    OrderInv r.scheduler := by
  refine @Machine.Reach.invariant _ _ _ _ _ _ (fun r => OrderInv r.scheduler) h
    orderInv_init ?_
  intro r e r' _ _ hs hr
  cases e with
  | cancel flag =>
      obtain rfl := Option.some.inj hs
      exact hr
  | scheduler event =>
      obtain ⟨s', hs', rfl⟩ := Option.map_eq_some_iff.mp hs
      exact orderInv_step (Scheduler.step_cases hs') hr

/-- In what order a route serves its callers. -/
structure InteractiveFirst (translate : Bool → List String → List Translation)
    (r : Route) : Prop where
  /-- A job taken while an interactive one is queued is interactive. -/
  takes : ∀ e r' job, r.step translate e = some r' →
    r'.scheduler.log = .taken job :: r.scheduler.log →
    (∃ queued ∈ r.scheduler.queue.inner.interactive ++ r.scheduler.queue.inner.batch,
      queued.priority = .interactive) →
    job.priority = .interactive
  /-- A batch call carries at most `BATCH_CHUNK` segments. -/
  chunks : ∀ job chunk, .called job chunk ∈ r.scheduler.log → job.priority = .batch →
    chunk.length ≤ BATCH_CHUNK
  /-- As long as an accepted interactive job waits for its call, one batch
  call has run at most, -/
  overtakes : ∀ job ∈ r.scheduler.accepted, job.priority = .interactive →
    r.scheduler.Waiting job.reply → batchCallsSince job.reply r.scheduler.log ≤ 1
  /-- ... and its job had been taken before: no batch job was since. -/
  overtaken : ∀ job ∈ r.scheduler.accepted, job.priority = .interactive →
    r.scheduler.Waiting job.reply →
    ∀ job' ∈ takenSince job.reply r.scheduler.log, job'.priority = .interactive
  /-- Channels are numbered in the order of acceptance; -/
  numbered : (r.scheduler.accepted.map (·.reply)).Pairwise (· > ·)
  /-- an interactive job starts after every interactive job before it, -/
  startsInOrder : ∀ post pre job chunk, r.scheduler.log = post ++ .called job chunk :: pre →
    job.priority = .interactive → ∀ job' chunk', .called job' chunk' ∈ pre →
      job'.priority = .interactive → job'.reply < job.reply
  /-- and a batch job, in each of its calls, after every batch job before
  it was answered. -/
  batchInTurn : ∀ post pre job chunk, r.scheduler.log = post ++ .called job chunk :: pre →
    job.priority = .batch → ∀ job₀ ∈ r.scheduler.accepted, job₀.priority = .batch →
      job₀.reply < job.reply → ∃ result, .answered job₀.reply result ∈ pre

theorem OrderInv.takes (hr : OrderInv r.scheduler) {e : RouteEvent} {r' : Route}
    {job : QueuedJob} (h : r.step translate e = some r')
    (hlog : r'.scheduler.log = .taken job :: r.scheduler.log)
    (hq : ∃ queued ∈ r.scheduler.queue.inner.interactive ++ r.scheduler.queue.inner.batch,
      queued.priority = .interactive) : job.priority = .interactive := by
  obtain ⟨queued, hmem, hp⟩ := hq
  have hne : r.scheduler.queue.inner.interactive ≠ [] := by
    rcases List.mem_append.mp hmem with hi | hb
    · exact List.ne_nil_of_mem hi
    · have := hr.lined.filed .batch queued hb
      rw [hp] at this
      cases this
  cases e with
  | cancel flag =>
      obtain rfl := Option.some.inj h
      exact absurd hlog.symm (List.cons_ne_self _ _)
  | scheduler event =>
      obtain ⟨s', hs', rfl⟩ := Option.map_eq_some_iff.mp h
      cases Scheduler.step_cases hs' with
      | take hpc hpop =>
          cases hlog
          rcases QueueInner.popFront_eq_some hpop with ⟨hi, -, -⟩ | ⟨hi, -, -, -⟩
          · exact hr.lined.filed .interactive job (by simp [QueueInner.deque, hi])
          · exact absurd hi hne
      | _ => simp [Scheduler.close] at hlog

/-- **Interactive before batch**: in every state of every run of a route,
in whatever order the jobs arrive. -/
theorem scheduler_interactive_first
    (h : Machine.Reach (Route.step translate) Machine.anyStep Route.init r) :
    InteractiveFirst translate r := by
  have hr := orderInv_of_reach h
  refine ⟨fun e r' job hs hlog hq => hr.takes hs hlog hq, hr.called.chunks, ?_,
    hr.overtaking.taken, hr.numbered, hr.inTurn.started, ?_⟩
  · intro job hjob hp hw
    exact Nat.le_of_add_right_le (hr.overtaking.calls job hjob hp hw)
  · intro post pre job chunk heq hp job₀ hjob₀ hp₀ hlt
    exact hr.inTurn.answered post pre job chunk heq job₀ hjob₀ (hp₀.trans hp.symm) hlt

end Runs

/-- An interactive job arrives during the first chunk of a batch job of 17
segments and is called before the second. -/
theorem scheduler_interactive_first_overtakes :
    ∃ r, Machine.Reach (Route.step (perSegment fun _ text => ⟨text, []⟩)) Machine.anyStep
        Route.init r
      ∧ r.scheduler.log.head? = some (.called ⟨["b"], [], false, .interactive, 1, 1⟩ ["b"])
      ∧ InteractiveFirst (perSegment fun _ text => ⟨text, []⟩) r := by
  obtain ⟨r, hreach, hr⟩ := Machine.exists_reach_of_run
    (Route.step (perSegment fun _ text => ⟨text, []⟩)) Machine.anyStep Route.init
    ([.submit (List.replicate 17 "a") false .batch 0, .proceed, .proceed, .proceed,
      .submit ["b"] false .interactive 1, .engine none, .proceed, .proceed, .proceed,
      .proceed].map .scheduler)
    (fun r => decide (r.scheduler.log.head?
      = some (.called ⟨["b"], [], false, .interactive, 1, 1⟩ ["b"]))) (by decide)
  exact ⟨r, hreach, of_decide_eq_true hr, scheduler_interactive_first hreach⟩

end Dragomand
