import Mathlib.Data.List.Nodup
import Dragomand.EngineWorker

/-!
# What a worker answers

The jobs sent to a worker are answered in the order in which they were
sent, each once, whatever the backend does: `QueueInv.order` is the
equation. `LoadInv` says what the thread has loaded and called by the time
it is where it is. Both are read off in `worker_answers`.

`Worker.rank` goes down with every step of the thread and of the join, and
a thread that has jobs left can take one (`Worker.goes`), so every job is
answered in the end, and every `Drop` returns, with the models gone.
-/

namespace Dragomand

variable {μ : Type} {pivot : Bool} {s s' : Worker μ}

/-! ## Views of the history -/

/-- The jobs that got into the channel, newest first. -/
def Worker.sent (s : Worker μ) : List worker.Job :=
  s.log.filterMap fun | .sent job => some job | _ => none

/-- The replies handed out, newest first. -/
def Worker.issued (s : Worker μ) : List Nat :=
  s.log.filterMap fun | .sent job => some job.reply | .refused reply => some reply | _ => none

/-- What came of the jobs sent, newest first. -/
def Worker.answered (s : Worker μ) : List (Nat × worker.Reply) :=
  s.log.filterMap fun
    | .replied reply result => some (reply, result)
    | .hungUp reply => some (reply, .error .workerGone)
    | _ => none

/-- The models loaded, newest first. -/
def Worker.loadedModels (s : Worker μ) : List μ :=
  s.log.filterMap fun | .loaded model => some model | _ => none

/-- What the load was reported to be. -/
def Worker.reports (s : Worker μ) : List (Except backend.Error Unit) :=
  s.log.filterMap fun | .ready result => some result | _ => none

theorem Worker.reports_ready {result : Except backend.Error Unit} {log : List (WorkerObs μ)}
    (jobs : Channel worker.Job) (pc : ThreadPc μ) (handle : WorkerHandle) (waiting : List Nat)
    (nextReply : Nat) :
    (⟨jobs, pc, handle, waiting, nextReply, .ready result :: log⟩ : Worker μ).reports
      = result :: (⟨jobs, pc, handle, waiting, nextReply, log⟩ : Worker μ).reports := rfl

/-! ## A panic -/

section Unwind

variable (s : Worker μ)

@[simp] theorem Worker.unwind_pc : s.unwind.pc = .ended := rfl
@[simp] theorem Worker.unwind_jobs : s.unwind.jobs = s.jobs.close := rfl
@[simp] theorem Worker.unwind_handle : s.unwind.handle = s.handle := rfl
@[simp] theorem Worker.unwind_waiting : s.unwind.waiting = s.waiting := rfl
@[simp] theorem Worker.unwind_nextReply : s.unwind.nextReply = s.nextReply := rfl

@[simp] theorem Worker.unwind_sent : s.unwind.sent = s.sent := by
  simp [Worker.sent, Worker.unwind, List.filterMap_map]

@[simp] theorem Worker.unwind_issued : s.unwind.issued = s.issued := by
  simp [Worker.issued, Worker.unwind, List.filterMap_map]

@[simp] theorem Worker.unwind_answered : s.unwind.answered
    = s.pending.reverse.map (fun job => (job.reply, .error .workerGone)) ++ s.answered := by
  simp [Worker.answered, Worker.unwind, List.filterMap_map]

@[simp] theorem Worker.unwind_loadedModels : s.unwind.loadedModels = s.loadedModels := by
  simp [Worker.loadedModels, Worker.unwind, List.filterMap_map]

@[simp] theorem Worker.unwind_reports : s.unwind.reports = s.reports := by
  simp [Worker.reports, Worker.unwind, List.filterMap_map]

@[simp] theorem Worker.unwind_pending : s.unwind.pending = [] := rfl

theorem Worker.mem_unwind_log {o : WorkerObs μ} : o ∈ s.unwind.log
    ↔ (∃ job ∈ s.pending, o = .hungUp job.reply) ∨ o = .panicked ∨ o ∈ s.log := by
  simp [Worker.unwind, eq_comm]

end Unwind

theorem ThreadPc.inHand_of_loading {pc : ThreadPc μ} (h : pc.loading = true) : pc.inHand = [] := by
  cases pc <;> first | rfl | cases h

/-! ## The channel -/

/-- `gone` and `hungUp` say who has left, and what was sent is answered, in
hand or queued, in this order. -/
structure QueueInv (s : Worker μ) : Prop where
  order : s.sent.map (·.reply)
    = (s.pending.map (·.reply)).reverse ++ s.answered.map Prod.fst
  issued : s.issued = (List.range s.nextReply).reverse
  gone : s.jobs.gone = true ↔ s.pc = .ended
  empty : s.pc = .ended → s.jobs.queue = []
  hungUp : s.jobs.hungUp = true ↔ s.handle ≠ .live
  alone : s.handle ≠ .live → s.waiting = []
  waiting : ∀ reply ∈ s.waiting, reply < s.nextReply
  dropped : s.handle = .dropped → s.pc = .ended

theorem queueInv_spawn : QueueInv (Worker.spawn : Worker μ) where
  order := rfl
  issued := rfl
  gone := by simp [Worker.spawn, Channel.new]
  empty := by simp [Worker.spawn]
  hungUp := by simp [Worker.spawn, Channel.new]
  alone _ := rfl
  waiting := by simp [Worker.spawn]
  dropped := by simp [Worker.spawn]

/-- Steps of the thread that leave it alive. -/
theorem QueueInv.of_thread (hq : QueueInv s) (hpc : s.pc ≠ .ended) (hpc' : s'.pc ≠ .ended)
    (hgone : s'.jobs.gone = s.jobs.gone) (hhungUp : s'.jobs.hungUp = s.jobs.hungUp)
    (hhandle : s'.handle = s.handle) (hwaiting : s'.waiting = s.waiting)
    (hnext : s'.nextReply = s.nextReply) (hissued : s'.issued = s.issued)
    (horder : s'.sent.map (·.reply)
      = (s'.pending.map (·.reply)).reverse ++ s'.answered.map Prod.fst) : QueueInv s' where
  order := horder
  issued := by rw [hissued, hnext, hq.issued]
  gone := by rw [hgone, hq.gone]; exact iff_of_false hpc hpc'
  empty h := absurd h hpc'
  hungUp := by rw [hhungUp, hhandle, hq.hungUp]
  alone h := by rw [hwaiting]; exact hq.alone (hhandle ▸ h)
  waiting := by rw [hwaiting, hnext]; exact hq.waiting
  dropped h := absurd (hq.dropped (hhandle ▸ h)) hpc

theorem QueueInv.unwind (hq : QueueInv s) : QueueInv s.unwind where
  order := by simp [hq.order]
  issued := by simp [hq.issued]
  gone := by simp [Channel.close]
  empty _ := rfl
  hungUp := by simpa [Channel.close] using hq.hungUp
  alone := hq.alone
  waiting := hq.waiting
  dropped _ := rfl

theorem queueInv_step {e : WorkerEvent μ} (h : s.Transition pivot e s') (hq : QueueInv s) :
    QueueInv s' := by
  have horder := hq.order
  unfold Worker.pending at horder
  cases h with
  | loadedFirst hpc | loadedOnly hpc | loadedSecond hpc =>
      rw [hpc] at horder
      exact hq.of_thread (by simp [hpc]) (by simp) rfl rfl rfl rfl rfl rfl horder
  | loadFailed hpc =>
      rw [ThreadPc.inHand_of_loading hpc] at horder
      refine hq.of_thread (fun hend => ?_) (by simp) rfl rfl rfl rfl rfl rfl horder
      rw [hend] at hpc
      cases hpc
  | loadPanicked | panicked => exact hq.unwind
  | called hpc hqueue =>
      rw [hpc, hqueue] at horder
      exact hq.of_thread (by simp [hpc]) (by simp) rfl rfl rfl rfl rfl rfl horder
  | @refused job rest hpc hqueue =>
      rw [hpc, hqueue] at horder
      refine hq.of_thread (by simp [hpc]) (by simp [hpc]) rfl rfl rfl rfl rfl rfl ?_
      show s.sent.map (·.reply)
        = ((s.pc.inHand ++ rest).map (·.reply)).reverse ++ job.reply :: s.answered.map Prod.fst
      simpa [hpc, ThreadPc.inHand] using horder
  | finished hpc hqueue hhungUp =>
      have hinHand : s.pc.inHand = [] := by
        rcases hpc with ⟨first, second, hpc⟩ | hpc <;> rw [hpc] <;> rfl
      rw [hinHand, hqueue] at horder
      exact ⟨horder, hq.issued, by simp [Channel.close], fun _ => rfl, hq.hungUp, hq.alone,
        hq.waiting, fun _ => rfl⟩
  | @returned first second job result hpc =>
      rw [hpc] at horder
      refine hq.of_thread (by simp [hpc]) (by simp) rfl rfl rfl rfl rfl rfl ?_
      show s.sent.map (·.reply)
        = (s.jobs.queue.map (·.reply)).reverse ++ job.reply :: s.answered.map Prod.fst
      simpa [ThreadPc.inHand] using horder
  | @sent segments html hlive hgone =>
      refine ⟨?_, ?_, hq.gone, fun hend => ?_, hq.hungUp, fun h => absurd hlive h, ?_, hq.dropped⟩
      · show s.nextReply :: s.sent.map (·.reply)
          = ((s.pc.inHand ++ (s.jobs.queue ++ [(⟨segments, html, s.nextReply⟩ : worker.Job)])).map
              (·.reply)).reverse ++ s.answered.map Prod.fst
        simp [horder]
      · show s.nextReply :: s.issued = (List.range (s.nextReply + 1)).reverse
        simp [List.range_succ, hq.issued]
      · exact absurd (hq.gone.mpr hend) (by simp [hgone])
      · intro reply hmem
        rcases List.mem_cons.mp hmem with rfl | hmem
        · exact Nat.lt_succ_self _
        · exact Nat.lt_succ_of_lt (hq.waiting reply hmem)
  | lost hlive hgone =>
      refine ⟨horder, ?_, hq.gone, hq.empty, hq.hungUp, fun h => absurd hlive h, ?_, hq.dropped⟩
      · show s.nextReply :: s.issued = (List.range (s.nextReply + 1)).reverse
        simp [List.range_succ, hq.issued]
      · intro reply hmem
        rcases List.mem_cons.mp hmem with rfl | hmem
        · exact Nat.lt_succ_self _
        · exact Nat.lt_succ_of_lt (hq.waiting reply hmem)
  | received hwaiting | forgot hwaiting =>
      refine ⟨horder, hq.issued, hq.gone, hq.empty, hq.hungUp, fun h => ?_, ?_, hq.dropped⟩
      · simp [hq.alone h] at hwaiting
      · exact fun reply hmem => hq.waiting reply (List.mem_of_mem_erase hmem)
  | dropped hlive hwaiting =>
      refine ⟨horder, hq.issued, hq.gone, hq.empty, ?_, fun _ => hwaiting, hq.waiting, ?_⟩
      · simp [Channel.hangUp]
      · exact fun h => nomatch h
  | joined hjoining hpc =>
      refine ⟨horder, hq.issued, hq.gone, hq.empty, ?_, fun _ => hq.alone ?_, hq.waiting,
        fun _ => hpc⟩
      · simpa [hjoining] using hq.hungUp
      · simp [hjoining]

/-! ## The load and the calls -/

/-- What the thread has loaded by the time it is at `pc`, and reported. -/
def LoadedAt (pivot : Bool) (s : Worker μ) : ThreadPc μ → Prop
  | .loadingFirst => s.loadedModels = [] ∧ s.reports = []
  | .loadingSecond first => s.loadedModels = [first] ∧ s.reports = [] ∧ pivot = true
  | .serving first second | .translating first second _ =>
      s.loadedModels = second.toList ++ [first] ∧ s.reports = [.ok ()] ∧ second.isSome = pivot
  | .refusing => ∃ error, s.reports = [.error error]
  | .ended => s.reports.length ≤ 1

section Backed

variable (answers : μ → Option μ → worker.Job → worker.Reply → Prop)

def ThreadPc.Answers (result : worker.Reply) : ThreadPc μ → Prop
  | .translating first second job => answers first second job result
  | _ => True

/-- The backend answers a call with what `answers` allows. -/
def Worker.Backed (s : Worker μ) : WorkerEvent μ → Prop
  | .translated (some result) => s.pc.Answers answers result
  | _ => True

variable [∀ first second job result, Decidable (answers first second job result)]

instance (result : worker.Reply) : (pc : ThreadPc μ) → Decidable (pc.Answers answers result)
  | .translating first second job => inferInstanceAs (Decidable (answers first second job result))
  | .loadingFirst | .loadingSecond _ | .refusing | .serving _ _ | .ended =>
      inferInstanceAs (Decidable True)

instance (s : Worker μ) : (e : WorkerEvent μ) → Decidable (s.Backed answers e)
  | .translated (some result) => inferInstanceAs (Decidable (s.pc.Answers answers result))
  | .translated none | .load _ | .receiveJob | .call _ => inferInstanceAs (Decidable True)

end Backed

/-- An answer is the backend's, to a call for this job with the models
loaded; or the worker was gone, for the reasons there are. -/
structure LoadInv (answers : μ → Option μ → worker.Job → worker.Reply → Prop) (pivot : Bool)
    (s : Worker μ) : Prop where
  loaded : LoadedAt pivot s s.pc
  calling : ∀ first second job, s.pc = .translating first second job →
    .called first second job ∈ s.log
  calls : ∀ first second job, .called first second job ∈ s.log →
    s.reports = [.ok ()] ∧ s.loadedModels = second.toList ++ [first] ∧ second.isSome = pivot
      ∧ job ∈ s.sent
  queued : ∀ job ∈ s.jobs.queue, job ∈ s.sent
  replies : ∀ reply result, .replied reply result ∈ s.log →
    (∃ first second job, .called first second job ∈ s.log ∧ job.reply = reply
        ∧ answers first second job result)
      ∨ ∃ error, s.reports = [.error error] ∧ result = .error .workerGone
  hungUps : ∀ reply, .hungUp reply ∈ s.log → .panicked ∈ s.log
  refusals : ∀ reply, .refused reply ∈ s.log → .panicked ∈ s.log
  ended : s.pc = .ended → s.handle = .live → .panicked ∈ s.log
  reported : s.pc = .ended → s.reports = [] → .panicked ∈ s.log

variable {answers : μ → Option μ → worker.Job → worker.Reply → Prop}

theorem LoadedAt.congr {pc : ThreadPc μ} (h : LoadedAt pivot s pc) (hreports : s'.reports = s.reports)
    (hmodels : s'.loadedModels = s.loadedModels) : LoadedAt pivot s' pc := by
  cases pc <;> simpa only [LoadedAt, hreports, hmodels] using h

theorem loadInv_spawn : LoadInv answers pivot (Worker.spawn : Worker μ) where
  loaded := ⟨rfl, rfl⟩
  calling := by simp [Worker.spawn]
  calls := by simp [Worker.spawn]
  queued := by simp [Worker.spawn, Channel.new]
  replies := by simp [Worker.spawn]
  hungUps := by simp [Worker.spawn]
  refusals := by simp [Worker.spawn]
  ended := by simp [Worker.spawn]
  reported := by simp [Worker.spawn]

/-- Nothing is called or answered before the report. -/
theorem LoadInv.quiet (hl : LoadInv answers pivot s) (h : s.reports = []) :
    (∀ first second job, .called first second job ∉ s.log)
      ∧ ∀ reply result, .replied reply result ∉ s.log := by
  have hcalls : ∀ first second job, .called first second job ∉ s.log := fun first second job hmem => by
    have := (hl.calls first second job hmem).1
    simp [h] at this
  refine ⟨hcalls, fun reply result hmem => ?_⟩
  rcases hl.replies reply result hmem with ⟨first, second, job, hcall, -, -⟩ | ⟨error, herror, -⟩
  · exact hcalls first second job hcall
  · simp [h] at herror

/-- Steps of the load that leave the thread alive. -/
theorem LoadInv.of_load (hl : LoadInv answers pivot s) (hreports : s.reports = [])
    (hmem : ∀ o ∈ s'.log, o ∈ s.log ∨ (∃ model, o = .loaded model) ∨ ∃ result, o = .ready result)
    (hsub : s.log ⊆ s'.log) (hqueue : s'.jobs = s.jobs) (hsent : s'.sent = s.sent)
    (hcalling : ∀ first second job, s'.pc ≠ .translating first second job) (hpc : s'.pc ≠ .ended)
    (hloaded : LoadedAt pivot s' s'.pc) :
    LoadInv answers pivot s' := by
  obtain ⟨hcalls, hreplies⟩ := hl.quiet hreports
  have hold : ∀ o ∈ s'.log, (∀ model, o ≠ .loaded model) → (∀ result, o ≠ .ready result) →
      o ∈ s.log := fun o ho hne hne' => by
    rcases hmem o ho with h | ⟨model, h⟩ | ⟨result, h⟩
    · exact h
    · exact absurd h (hne model)
    · exact absurd h (hne' result)
  refine ⟨hloaded, fun first second job h => absurd h (hcalling first second job),
    fun first second job h => ?_, ?_, fun reply result h => ?_,
    fun reply h => ?_, fun reply h => ?_, fun h => absurd h hpc, fun h => absurd h hpc⟩
  · exact absurd (hold _ h nofun nofun) (hcalls first second job)
  · rw [hqueue, hsent]
    exact hl.queued
  · exact absurd (hold _ h nofun nofun) (hreplies reply result)
  · exact hsub (hl.hungUps reply (hold _ h nofun nofun))
  · exact hsub (hl.refusals reply (hold _ h nofun nofun))

theorem LoadInv.unwind (hl : LoadInv answers pivot s) (hreports : s.reports.length ≤ 1) :
    LoadInv answers pivot s.unwind := by
  have hpanicked : .panicked ∈ s.unwind.log := s.mem_unwind_log.mpr (Or.inr (Or.inl rfl))
  have hold : ∀ o ∈ s.unwind.log, o ≠ .panicked → (∀ reply, o ≠ .hungUp reply) → o ∈ s.log :=
    fun o ho hne hne' => by
      rcases s.mem_unwind_log.mp ho with ⟨job, -, h⟩ | h | h
      · exact absurd h (hne' _)
      · exact absurd h hne
      · exact h
  have hsub : s.log ⊆ s.unwind.log := fun o ho => s.mem_unwind_log.mpr (Or.inr (Or.inr ho))
  refine ⟨(congrArg List.length s.unwind_reports).trans_le hreports, nofun,
    fun first second job h => ?_, ?_,
    fun reply result h => ?_, fun _ _ => hpanicked, fun _ _ => hpanicked, fun _ _ => hpanicked,
    fun _ _ => hpanicked⟩
  · rw [Worker.unwind_reports, Worker.unwind_loadedModels, Worker.unwind_sent]
    exact hl.calls first second job (hold _ h nofun nofun)
  · simp [Channel.close]
  · rw [Worker.unwind_reports]
    refine (hl.replies reply result (hold _ h nofun nofun)).imp_left ?_
    exact fun ⟨first, second, job, hcall, h⟩ => ⟨first, second, job, hsub hcall, h⟩

theorem LoadedAt.reports_le {pc : ThreadPc μ} (h : LoadedAt pivot s pc) : s.reports.length ≤ 1 := by
  cases pc with
  | loadingFirst => simp [h.2]
  | loadingSecond first => simp [h.2.1]
  | refusing =>
      obtain ⟨error, herror⟩ := h
      simp [herror]
  | serving first second | translating first second job => simp [h.2.1]
  | ended => exact h

theorem loadInv_step {e : WorkerEvent μ} (h : s.Transition pivot e s') (hq : QueueInv s)
    (hok : s.Backed answers e) (hl : LoadInv answers pivot s) : LoadInv answers pivot s' := by
  have hloaded := hl.loaded
  cases h with
  | @loadedFirst first hpc hpivot =>
      rw [hpc] at hloaded
      obtain ⟨hmodels, hreports⟩ := hloaded
      refine hl.of_load hreports (fun o ho => ?_) (List.subset_cons_self ..) rfl rfl nofun nofun
        ⟨congrArg (first :: ·) hmodels, hreports, hpivot⟩
      exact (List.mem_cons.mp ho).elim (fun h => Or.inr (Or.inl ⟨first, h⟩)) Or.inl
  | @loadedOnly first hpc hpivot =>
      rw [hpc] at hloaded
      obtain ⟨hmodels, hreports⟩ := hloaded
      refine hl.of_load hreports (fun o ho => ?_) (fun o ho => by simp [ho]) rfl rfl nofun nofun
        ⟨congrArg (first :: ·) hmodels, by rw [Worker.reports_ready, ← hreports]; rfl, hpivot.symm⟩
      simp only [List.mem_cons] at ho
      rcases ho with h | h | h
      · exact Or.inr (Or.inr ⟨_, h⟩)
      · exact Or.inr (Or.inl ⟨first, h⟩)
      · exact Or.inl h
  | @loadedSecond first second hpc =>
      rw [hpc] at hloaded
      obtain ⟨hmodels, hreports, hpivot⟩ := hloaded
      refine hl.of_load hreports (fun o ho => ?_) (fun o ho => by simp [ho]) rfl rfl nofun nofun
        ⟨congrArg (second :: ·) hmodels, by rw [Worker.reports_ready, ← hreports]; rfl, hpivot.symm⟩
      simp only [List.mem_cons] at ho
      rcases ho with h | h | h
      · exact Or.inr (Or.inr ⟨_, h⟩)
      · exact Or.inr (Or.inl ⟨second, h⟩)
      · exact Or.inl h
  | @loadFailed error hpc =>
      have hreports : s.reports = [] := by
        cases hs : s.pc with
        | loadingFirst => exact (hs ▸ hloaded : LoadedAt pivot s .loadingFirst).2
        | loadingSecond first => exact (hs ▸ hloaded : LoadedAt pivot s (.loadingSecond first)).2.1
        | _ => simp [hs, ThreadPc.loading] at hpc
      refine hl.of_load hreports (fun o ho => ?_) (List.subset_cons_self ..) rfl rfl nofun nofun
        ⟨error, by rw [Worker.reports_ready, ← hreports]; rfl⟩
      exact (List.mem_cons.mp ho).elim (fun h => Or.inr (Or.inr ⟨_, h⟩)) Or.inl
  | loadPanicked | panicked => exact hl.unwind hloaded.reports_le
  | @called first second job rest hpc hqueue =>
      rw [hpc] at hloaded
      obtain ⟨hmodels, hreports, hpivot⟩ := hloaded
      have hjob : job ∈ s.sent := hl.queued job (by simp [hqueue])
      refine ⟨⟨hmodels, hreports, hpivot⟩, ?_, ?_, ?_, ?_, ?_, ?_, nofun, nofun⟩
      · intro first' second' job' hcalling
        cases hcalling
        exact List.mem_cons_self ..
      · intro first' second' job' hmem
        rcases List.mem_cons.mp hmem with heq | hmem
        · cases heq
          exact ⟨hreports, hmodels, hpivot, hjob⟩
        · exact hl.calls first' second' job' hmem
      · exact fun job' hjob' => hl.queued job' (hqueue ▸ List.mem_cons_of_mem _ hjob')
      · intro reply result hmem
        refine (hl.replies reply result (by simpa using hmem)).imp_left ?_
        exact fun ⟨first, second, job, hcall, h⟩ =>
          ⟨first, second, job, List.mem_cons_of_mem _ hcall, h⟩
      · exact fun reply hmem => List.mem_cons_of_mem _ (hl.hungUps reply (by simpa using hmem))
      · exact fun reply hmem => List.mem_cons_of_mem _ (hl.refusals reply (by simpa using hmem))
  | @refused job rest hpc hqueue =>
      rw [hpc] at hloaded
      obtain ⟨error, herror⟩ := hloaded
      refine ⟨hl.loaded.congr rfl rfl, ?_, ?_, ?_, ?_, ?_, ?_, ?_, ?_⟩
      · exact fun first second job hcalling => absurd (hpc.symm.trans hcalling) nofun
      · exact fun first second job hmem => hl.calls first second job (by simpa using hmem)
      · exact fun job' hjob' => hl.queued job' (hqueue ▸ List.mem_cons_of_mem _ hjob')
      · intro reply result hmem
        rcases List.mem_cons.mp hmem with heq | hmem
        · cases heq
          exact Or.inr ⟨error, herror, rfl⟩
        · refine (hl.replies reply result hmem).imp_left ?_
          exact fun ⟨first, second, job, hcall, h⟩ =>
            ⟨first, second, job, List.mem_cons_of_mem _ hcall, h⟩
      · exact fun reply hmem => List.mem_cons_of_mem _ (hl.hungUps reply (by simpa using hmem))
      · exact fun reply hmem => List.mem_cons_of_mem _ (hl.refusals reply (by simpa using hmem))
      · exact fun hend => absurd (hpc.symm.trans hend) nofun
      · exact fun hend => absurd (hpc.symm.trans hend) nofun
  | finished hpc hqueue hhungUp =>
      refine ⟨hloaded.reports_le, nofun, hl.calls, nofun, hl.replies, hl.hungUps, hl.refusals,
        fun _ hlive => absurd hlive (hq.hungUp.mp hhungUp), fun _ hreports => ?_⟩
      have hreports : s.reports = [] := hreports
      rcases hpc with ⟨first, second, hpc⟩ | hpc
      · rw [hpc] at hloaded
        obtain ⟨-, hready, -⟩ := hloaded
        simp [hreports] at hready
      · rw [hpc] at hloaded
        obtain ⟨error, herror⟩ := hloaded
        simp [hreports] at herror
  | @returned first second job result hpc =>
      rw [hpc] at hloaded
      have hcall := hl.calling first second job hpc
      refine ⟨hloaded.congr rfl rfl, nofun, ?_, hl.queued, ?_, ?_, ?_, nofun, nofun⟩
      · exact fun first second job hmem => hl.calls first second job (by simpa using hmem)
      · intro reply result' hmem
        rcases List.mem_cons.mp hmem with heq | hmem
        · cases heq
          have hanswers : s.pc.Answers answers result := hok
          rw [hpc] at hanswers
          exact Or.inl ⟨first, second, job, List.mem_cons_of_mem _ hcall, rfl, hanswers⟩
        · refine (hl.replies reply result' hmem).imp_left ?_
          exact fun ⟨first, second, job, hcall, h⟩ =>
            ⟨first, second, job, List.mem_cons_of_mem _ hcall, h⟩
      · exact fun reply hmem => List.mem_cons_of_mem _ (hl.hungUps reply (by simpa using hmem))
      · exact fun reply hmem => List.mem_cons_of_mem _ (hl.refusals reply (by simpa using hmem))
  | @sent segments html hlive hgone =>
      refine ⟨hloaded.congr rfl rfl, ?_, ?_, ?_, ?_, ?_, ?_, ?_, ?_⟩
      · exact fun first second job hcalling =>
          List.mem_cons_of_mem _ (hl.calling first second job hcalling)
      · intro first second job hmem
        obtain ⟨hreports, hmodels, hpivot, hjob⟩ := hl.calls first second job (by simpa using hmem)
        exact ⟨hreports, hmodels, hpivot, List.mem_cons_of_mem _ hjob⟩
      · intro job hjob
        rcases List.mem_append.mp hjob with hjob | hjob
        · exact List.mem_cons_of_mem _ (hl.queued job hjob)
        · obtain rfl := List.mem_singleton.mp hjob
          exact List.mem_cons_self ..
      · intro reply result hmem
        refine (hl.replies reply result (by simpa using hmem)).imp_left ?_
        exact fun ⟨first, second, job, hcall, h⟩ =>
          ⟨first, second, job, List.mem_cons_of_mem _ hcall, h⟩
      · exact fun reply hmem => List.mem_cons_of_mem _ (hl.hungUps reply (by simpa using hmem))
      · exact fun reply hmem => List.mem_cons_of_mem _ (hl.refusals reply (by simpa using hmem))
      · exact fun hend _ => List.mem_cons_of_mem _ (hl.ended hend hlive)
      · exact fun hend hreports => List.mem_cons_of_mem _ (hl.reported hend hreports)
  | @lost segments html hlive hgone =>
      have hpanicked := hl.ended (hq.gone.mp hgone) hlive
      refine ⟨hloaded.congr rfl rfl, ?_, ?_, hl.queued, ?_, ?_, ?_, ?_, ?_⟩
      · exact fun first second job hcalling =>
          List.mem_cons_of_mem _ (hl.calling first second job hcalling)
      · exact fun first second job hmem => hl.calls first second job (by simpa using hmem)
      · intro reply result hmem
        refine (hl.replies reply result (by simpa using hmem)).imp_left ?_
        exact fun ⟨first, second, job, hcall, h⟩ =>
          ⟨first, second, job, List.mem_cons_of_mem _ hcall, h⟩
      all_goals intros; exact List.mem_cons_of_mem _ hpanicked
  | received | forgot =>
      exact ⟨hloaded.congr rfl rfl, hl.calling, hl.calls, hl.queued, hl.replies, hl.hungUps,
        hl.refusals, hl.ended, hl.reported⟩
  | dropped hlive hwaiting =>
      exact ⟨hloaded.congr rfl rfl, hl.calling, hl.calls, hl.queued, hl.replies, hl.hungUps,
        hl.refusals, nofun, hl.reported⟩
  | joined hjoining hpc =>
      exact ⟨hloaded.congr rfl rfl, hl.calling, hl.calls, hl.queued, hl.replies, hl.hungUps,
        hl.refusals, nofun, hl.reported⟩

/-! ## The replies -/

theorem filterMap_sublist {α β : Type*} {f g : α → Option β}
    (h : ∀ a b, f a = some b → g a = some b) (as : List α) :
    (as.filterMap f).Sublist (as.filterMap g) := by
  induction as with
  | nil => simp
  | cons a as ih =>
      cases hf : f a with
      | some b =>
          rw [List.filterMap_cons_some hf, List.filterMap_cons_some (h a b hf)]
          exact ih.cons_cons b
      | none =>
          rw [List.filterMap_cons_none hf]
          cases hg : g a with
          | some b =>
              rw [List.filterMap_cons_some hg]
              exact ih.cons b
          | none =>
              rw [List.filterMap_cons_none hg]
              exact ih

theorem Worker.sent_sublist (s : Worker μ) : (s.sent.map (·.reply)).Sublist s.issued := by
  rw [Worker.sent, List.map_filterMap]
  refine filterMap_sublist (fun o reply h => ?_) s.log
  cases o with
  | sent job => exact h
  | _ => cases h

theorem QueueInv.nodup_sent (hq : QueueInv s) : (s.sent.map (·.reply)).Nodup := by
  refine s.sent_sublist.nodup ?_
  rw [hq.issued, List.nodup_reverse]
  exact List.nodup_range

theorem QueueInv.nodup_answered (hq : QueueInv s) : (s.answered.map Prod.fst).Nodup :=
  (List.nodup_append'.mp (hq.order ▸ hq.nodup_sent)).2.1

theorem Worker.outcome_of_replied {reply : Nat} {result : worker.Reply}
    (h : (reply, result) ∈ s.answered) : (s.outcome reply).isSome := by
  obtain ⟨o, ho, heq⟩ := List.mem_filterMap.mp h
  rw [Worker.outcome, List.isSome_findSome?, List.any_eq_true]
  refine ⟨o, ho, ?_⟩
  cases o with
  | replied | hungUp =>
      cases heq
      simp
  | _ => cases heq

theorem Worker.outcome_of_refused {reply : Nat} (h : .refused reply ∈ s.log) :
    (s.outcome reply).isSome := by
  rw [Worker.outcome, List.isSome_findSome?, List.any_eq_true]
  exact ⟨_, h, by simp⟩

theorem Worker.outcome_eq_some {reply : Nat} {result : worker.Reply}
    (h : s.outcome reply = some result) : .replied reply result ∈ s.log
      ∨ (.refused reply ∈ s.log ∨ .hungUp reply ∈ s.log) ∧ result = .error .workerGone := by
  obtain ⟨o, ho, heq⟩ := List.exists_of_findSome?_eq_some h
  cases o with
  | replied reply' result' =>
      obtain ⟨rfl, rfl⟩ : reply' = reply ∧ result' = result := by simpa using heq
      exact Or.inl ho
  | refused reply' =>
      obtain ⟨rfl, rfl⟩ : reply' = reply ∧ .error .workerGone = result := by simpa using heq
      exact Or.inr ⟨Or.inl ho, rfl⟩
  | hungUp reply' =>
      obtain ⟨rfl, rfl⟩ : reply' = reply ∧ .error .workerGone = result := by simpa using heq
      exact Or.inr ⟨Or.inr ho, rfl⟩
  | _ => cases heq

/-- A reply that has not come to anything is that of a pending job. -/
theorem QueueInv.pending_of_outcome (hq : QueueInv s) {reply : Nat} (hissued : reply ∈ s.issued)
    (h : s.outcome reply = none) : reply ∈ s.pending.map (·.reply) := by
  obtain ⟨o, ho, heq⟩ := List.mem_filterMap.mp hissued
  cases o with
  | sent job =>
      obtain rfl : job.reply = reply := Option.some.inj heq
      have hsent : job.reply ∈ s.sent.map (·.reply) :=
        List.mem_map_of_mem (List.mem_filterMap.mpr ⟨_, ho, rfl⟩)
      rw [hq.order, List.mem_append, List.mem_reverse] at hsent
      refine hsent.resolve_right fun hanswered => ?_
      obtain ⟨answer, hmem, hreply⟩ := List.mem_map.mp hanswered
      have hsome : (s.outcome answer.1).isSome := Worker.outcome_of_replied hmem
      simp [hreply, h] at hsome
  | refused reply' =>
      obtain rfl : reply' = reply := Option.some.inj heq
      simpa [h] using Worker.outcome_of_refused ho
  | _ => cases heq

section Reach

theorem queueInv_of_reach {ok : Worker μ → WorkerEvent μ → Prop}
    (h : Machine.Reach (Worker.step pivot) ok .spawn s) : QueueInv s :=
  h.invariant queueInv_spawn fun _ _ _ _ _ hs => queueInv_step (Worker.step_cases hs)

theorem invs_of_reach (h : Machine.Reach (Worker.step pivot) (Worker.Backed answers) .spawn s) :
    QueueInv s ∧ LoadInv answers pivot s :=
  h.invariant (I := fun s => QueueInv s ∧ LoadInv answers pivot s)
    ⟨queueInv_spawn, loadInv_spawn⟩ fun _ _ _ _ hok hs hinv =>
      ⟨queueInv_step (Worker.step_cases hs) hinv.1,
        loadInv_step (Worker.step_cases hs) hinv.1 hok hinv.2⟩

/-- In every run the jobs are answered in the order in which they were sent,
each once. An answer is one of the backend's to this job, from the models of
the route; otherwise the load had failed or the thread had panicked. -/
theorem worker_answers
    (h : Machine.Reach (Worker.step pivot) (Worker.Backed answers) .spawn s) :
    s.sent.map (·.reply) = (s.pending.map (·.reply)).reverse ++ s.answered.map Prod.fst
      ∧ (s.answered.map Prod.fst).Nodup
      ∧ s.reports.length ≤ 1
      ∧ ∀ reply result, s.outcome reply = some result →
        (∃ first second job, s.loadedModels = second.toList ++ [first] ∧ second.isSome = pivot
          ∧ job ∈ s.sent ∧ job.reply = reply ∧ answers first second job result)
        ∨ result = .error .workerGone
          ∧ ((∃ error, s.reports = [.error error]) ∨ .panicked ∈ s.log) := by
  obtain ⟨hq, hl⟩ := invs_of_reach h
  refine ⟨hq.order, hq.nodup_answered, hl.loaded.reports_le, fun reply result houtcome => ?_⟩
  rcases Worker.outcome_eq_some houtcome with hreplied | ⟨hgone, hresult⟩
  · rcases hl.replies reply result hreplied with
      ⟨first, second, job, hcall, hreply, hanswers⟩ | ⟨error, herror, hresult⟩
    · obtain ⟨-, hmodels, hpivot, hjob⟩ := hl.calls first second job hcall
      exact Or.inl ⟨first, second, job, hmodels, hpivot, hjob, hreply, hanswers⟩
    · exact Or.inr ⟨hresult, Or.inl ⟨error, herror⟩⟩
  · exact Or.inr ⟨hresult, Or.inr (hgone.elim (hl.refusals reply) (hl.hungUps reply))⟩

/-- The second job panics the backend; a third comes too late. -/
theorem worker_answers_panicked :
    ∃ s, Machine.Reach (Worker.step true) (Worker.Backed fun first _ job result =>
          result = .ok (job.segments.map fun text => ⟨first ++ text, []⟩)) .spawn s
      ∧ s.outcome 0 = some (.ok [⟨"deen a", []⟩])
      ∧ s.outcome 1 = some (.error .workerGone) ∧ s.outcome 2 = some (.error .workerGone)
      ∧ s.sent.map (·.reply) = [1, 0] ∧ s.answered.map Prod.fst = [1, 0]
      ∧ (∃ (first : String) (second : Option String) (job : worker.Job),
        s.loadedModels = second.toList ++ [first] ∧ second.isSome = true
        ∧ job ∈ s.sent ∧ job.reply = 0
        ∧ .ok [⟨"deen a", []⟩] = (.ok (job.segments.map fun text => ⟨first ++ text, []⟩)
          : worker.Reply)) := by
  obtain ⟨s, hreach, hs⟩ := Machine.exists_reach_of_run (Worker.step true)
    (Worker.Backed fun first _ job result =>
      result = .ok (job.segments.map fun text => ⟨first ++ text, []⟩)) .spawn
    [.load (some (.ok "deen ")), .call (.translate ["a"] false), .load (some (.ok "enfr ")),
      .receiveJob, .call (.translate ["b"] true), .translated (some (.ok [⟨"deen a", []⟩])),
      .call (.receive 0), .receiveJob, .translated none, .call (.translate ["c"] false)]
    (fun s => decide (s.outcome 0 = some (.ok [⟨"deen a", []⟩])
      ∧ s.outcome 1 = some (.error .workerGone) ∧ s.outcome 2 = some (.error .workerGone)
      ∧ s.sent.map (·.reply) = [1, 0] ∧ s.answered.map Prod.fst = [1, 0])) (by decide)
  obtain ⟨h0, h1, h2, hsent, hanswered⟩ := of_decide_eq_true hs
  refine ⟨s, hreach, h0, h1, h2, hsent, hanswered, ?_⟩
  obtain ⟨-, -, -, houtcome⟩ := worker_answers hreach
  rcases houtcome 0 _ h0 with h | h
  · exact h
  · exact absurd h.1 nofun

end Reach

/-! ## Every wait is over -/

def ThreadPc.rank : ThreadPc μ → Nat
  | .loadingFirst => 3
  | .loadingSecond _ | .translating _ _ _ => 2
  | .serving _ _ | .refusing => 1
  | .ended => 0

def WorkerHandle.rank : WorkerHandle → Nat
  | .live => 2
  | .joining => 1
  | .dropped => 0

/-- A queued job is taken and answered, a waiting future ends. -/
def Worker.rank (s : Worker μ) : Nat :=
  s.pc.rank + 2 * s.jobs.queue.length + s.waiting.length + s.handle.rank

/-- Every call of `translate` has its outcome. -/
def Worker.Settled (s : Worker μ) : Prop := ∀ reply ∈ s.issued, (s.outcome reply).isSome

/-- The load was reported, once, or the thread has panicked in it, which
closes the channel of the report. -/
def Worker.Reported (s : Worker μ) : Prop :=
  s.reports.length = 1 ∨ s.reports = [] ∧ .panicked ∈ s.log ∧ s.pc = .ended

/-- Behind the load there is the report. -/
theorem LoadInv.reportedOnce (hl : LoadInv answers pivot s) (hpc : s.pc.loading = false) :
    s.Reported := by
  have hloaded := hl.loaded
  cases hs : s.pc with
  | loadingFirst | loadingSecond =>
      rw [hs] at hpc
      cases hpc
  | serving first second | translating first second job =>
      rw [hs] at hloaded
      exact .inl (congrArg List.length hloaded.2.1)
  | refusing =>
      rw [hs] at hloaded
      obtain ⟨error, herror⟩ := hloaded
      exact .inl (congrArg List.length herror)
  | ended =>
      rcases Nat.le_one_iff_eq_zero_or_eq_one.mp hl.loaded.reports_le with hnone | hone
      · have hreports := List.length_eq_zero_iff.mp hnone
        exact .inr ⟨hreports, hl.reported hs hreports, hs⟩
      · exact .inl hone

/-- No further call. -/
def Worker.Quiet : Worker μ → WorkerEvent μ → Prop
  | _, .call (.translate _ _) => False
  | _, _ => True

theorem Worker.rank_lt {e : WorkerEvent μ} (h : s.Transition pivot e s') (hquiet : s.Quiet e) :
    s'.rank < s.rank := by
  cases h with
  | loadedFirst hpc | loadedOnly hpc | loadedSecond hpc =>
      simp only [Worker.rank, hpc, ThreadPc.rank]
      omega
  | loadFailed hpc =>
      cases hs : s.pc <;> simp_all [Worker.rank, ThreadPc.rank, ThreadPc.loading]
  | loadPanicked hpc =>
      cases hs : s.pc <;>
        simp_all [Worker.rank, ThreadPc.rank, ThreadPc.loading, Channel.close]
  | called hpc hqueue | refused hpc hqueue =>
      simp only [Worker.rank, hpc, hqueue, ThreadPc.rank, List.length_cons]
      omega
  | finished hpc hqueue =>
      rcases hpc with ⟨first, second, hpc⟩ | hpc <;>
        simp [Worker.rank, hpc, hqueue, ThreadPc.rank, Channel.close]
  | returned hpc =>
      simp only [Worker.rank, hpc, ThreadPc.rank]
      omega
  | panicked hpc =>
      simp only [Worker.rank, hpc, ThreadPc.rank, Worker.unwind_pc, Worker.unwind_jobs,
        Worker.unwind_waiting, Worker.unwind_handle, Channel.close, List.length_nil]
      omega
  | sent | lost => exact absurd hquiet id
  | received hwaiting | forgot hwaiting =>
      have := List.length_erase_of_mem hwaiting
      have := List.length_pos_of_mem hwaiting
      simp only [Worker.rank]
      omega
  | dropped hlive hwaiting =>
      simp [Worker.rank, hlive, WorkerHandle.rank, Channel.hangUp]
  | joined hjoining hpc =>
      simp [Worker.rank, hjoining, WorkerHandle.rank]

/-- The thread waits for nothing but a job, or the end of them. -/
theorem Worker.goes (hpc : s.pc ≠ .ended) (h : s.jobs.queue ≠ [] ∨ s.jobs.hungUp = true
    ∨ s.pc.inHand ≠ [] ∨ s.pc.loading = true) :
    ∃ e s', e.ofThread = true ∧ Worker.step pivot s e = some s' := by
  cases hs : s.pc with
  | loadingFirst | loadingSecond =>
      refine ⟨.load none, s.unwind, rfl, ?_⟩
      simp [Worker.step, Worker.load, hs]
  | translating first second job =>
      refine ⟨.translated none, s.unwind, rfl, ?_⟩
      simp [Worker.step, Worker.translated, hs]
  | ended => exact absurd hs hpc
  | serving | refusing =>
      cases hqueue : s.jobs.queue with
      | cons job rest =>
          have hsome : (Worker.step pivot s .receiveJob).isSome := by
            simp [Worker.step, Worker.receiveJob, hs, hqueue]
          obtain ⟨s', hs'⟩ := Option.isSome_iff_exists.mp hsome
          exact ⟨.receiveJob, s', rfl, hs'⟩
      | nil =>
          have hhungUp : s.jobs.hungUp = true := by
            simpa [hqueue, hs, ThreadPc.inHand, ThreadPc.loading] using h
          refine ⟨.receiveJob, { s with jobs := s.jobs.close, pc := .ended }, rfl, ?_⟩
          simp [Worker.step, Worker.receiveJob, hs, hqueue, hhungUp]

theorem Worker.quiet_of_thread {e : WorkerEvent μ} (h : e.ofThread = true) : s.Quiet e := by
  cases e with
  | call => cases h
  | _ => trivial

/-- Who waits has a job with the thread. -/
theorem QueueInv.goes_of_outcome (hq : QueueInv s) {reply : Nat} (hissued : reply ∈ s.issued)
    (h : s.outcome reply = none) :
    ∃ e s', e.ofThread = true ∧ Worker.step pivot s e = some s' := by
  have hpending := hq.pending_of_outcome hissued h
  have hne : s.pending ≠ [] := fun hnil => by simp [hnil] at hpending
  refine Worker.goes (fun hend => hne ?_) ?_
  · simp [Worker.pending, hq.empty hend, hend, ThreadPc.inHand]
  · by_contra hall
    simp only [not_or, not_not] at hall
    exact hne (by simp [Worker.pending, hall.1, hall.2.2.1])

section Reach

variable {s₀ : Worker μ}

/-- Once no calls come in, every run gives each call its outcome and the load
its report. -/
theorem worker_settles (h : Machine.Reach (Worker.step pivot) Machine.anyStep .spawn s₀) :
    Machine.Inevitable (Worker.step pivot) Worker.Quiet (fun s => s.Settled ∧ s.Reported) s₀ := by
  -- what the backend answers does not matter
  have hbacked : ∀ (s : Worker μ) e, s.Backed (fun _ _ _ _ => True) e := by
    intro s e
    unfold Worker.Backed
    split
    · unfold ThreadPc.Answers
      split <;> trivial
    · trivial
  have hinv := invs_of_reach (h.mono fun s e _ => hbacked s e)
  refine Machine.Inevitable.of_rank (I := fun s => QueueInv s
    ∧ LoadInv (fun _ _ _ _ => True) pivot s) Worker.rank ?_ ?_ ?_ hinv
  · exact fun s e s' hinv _ hs => ⟨queueInv_step (Worker.step_cases hs) hinv.1,
      loadInv_step (Worker.step_cases hs) hinv.1 (hbacked s e) hinv.2⟩
  · intro s hinv hP
    cases hloading : s.pc.loading with
    | true =>
        have hpc : s.pc ≠ .ended := by
          intro hend
          rw [hend] at hloading
          cases hloading
        obtain ⟨e, s', hevent, hs⟩ := Worker.goes hpc (.inr (.inr (.inr hloading)))
        exact ⟨e, s', Worker.quiet_of_thread hevent, hs⟩
    | false =>
        obtain ⟨reply, hissued, hnone⟩ : ∃ reply ∈ s.issued, s.outcome reply = none := by
          simpa [Worker.Settled, hinv.2.reportedOnce hloading] using hP
        obtain ⟨e, s', hevent, hs⟩ := hinv.1.goes_of_outcome hissued hnone
        exact ⟨e, s', Worker.quiet_of_thread hevent, hs⟩
  · exact fun s e s' _ _ hok hs => Worker.rank_lt (Worker.step_cases hs) hok

/-- Two jobs come in while the models load. -/
theorem worker_settles_loading :
    ∃ s, Machine.Reach (Worker.step false) Machine.anyStep (.spawn : Worker String) s
      ∧ s.pending.length = 2 ∧ s.pc.loading = true ∧ s.reports = []
      ∧ Machine.Inevitable (Worker.step false) Worker.Quiet (fun s => s.Settled ∧ s.Reported)
        s := by
  obtain ⟨s, hreach, hs⟩ := Machine.exists_reach_of_run (Worker.step false) Machine.anyStep
    (.spawn : Worker String) [.call (.translate ["a"] false), .call (.translate ["b"] true)]
    (fun s => decide (s.pending.length = 2 ∧ s.pc.loading = true ∧ s.reports = [])) (by decide)
  obtain ⟨hpending, hloading, hreports⟩ := of_decide_eq_true hs
  exact ⟨s, hreach, hpending, hloading, hreports, worker_settles hreach⟩

/-- `Drop` takes the worker for good. -/
theorem dropping_step {e : WorkerEvent μ} (h : Worker.step pivot s e = some s')
    (hinv : QueueInv s ∧ s.handle ≠ .live) : QueueInv s' ∧ s'.handle ≠ .live := by
  refine ⟨queueInv_step (Worker.step_cases h) hinv.1, ?_⟩
  cases Worker.step_cases h with
  | sent hlive | lost hlive | dropped hlive => exact absurd hlive hinv.2
  | joined => exact nofun
  | _ => exact hinv.2

/-- A `Drop` that has begun returns in every run, with the thread at its
end, the models dropped and every call answered. -/
theorem worker_drop_returns (h : Machine.Reach (Worker.step pivot) Machine.anyStep .spawn s₀)
    (hdrop : s₀.handle ≠ .live) :
    Machine.Inevitable (Worker.step pivot) Machine.anyStep
      (fun s => s.handle = .dropped ∧ s.pc = .ended ∧ s.pc.models = [] ∧ s.Settled) s₀ := by
  have hinv₀ : QueueInv s₀ ∧ s₀.handle ≠ .live := ⟨queueInv_of_reach h, hdrop⟩
  have hdropped : Machine.Inevitable (Worker.step pivot) Machine.anyStep
      (fun s => s.handle = .dropped) s₀ := by
    refine Machine.Inevitable.of_rank (I := fun s => QueueInv s ∧ s.handle ≠ .live) Worker.rank
      (fun s e s' hinv _ hs => dropping_step hs hinv) ?_ ?_ hinv₀
    · intro s hinv hP
      have hjoining : s.handle = .joining := by
        cases hs : s.handle with
        | live => exact absurd hs hinv.2
        | joining => rfl
        | dropped => exact absurd hs hP
      by_cases hpc : s.pc = .ended
      · refine ⟨.call .join, { s with handle := .dropped }, trivial, ?_⟩
        simp [Worker.step, Worker.call, hjoining, hpc]
      · obtain ⟨e, s', -, hs⟩ := Worker.goes hpc
          (Or.inr (Or.inl (hinv.1.hungUp.mpr hinv.2)))
        exact ⟨e, s', trivial, hs⟩
    · intro s e s' hinv hP _ hs
      refine Worker.rank_lt (Worker.step_cases hs) ?_
      cases Worker.step_cases hs with
      | sent hlive | lost hlive => exact absurd hlive hinv.2
      | _ => trivial
  refine hdropped.imp_reach fun s hreach hhandle => ?_
  obtain ⟨hq, -⟩ := hreach.invariant (I := fun s => QueueInv s ∧ s.handle ≠ .live) hinv₀
    fun s e s' _ _ hs hinv => dropping_step hs hinv
  have hpc := hq.dropped hhandle
  refine ⟨hhandle, hpc, by rw [hpc]; rfl, fun reply hissued => ?_⟩
  by_contra hnone
  have hpending := hq.pending_of_outcome hissued (by simpa using hnone)
  simp [Worker.pending, hpc, hq.empty hpc, ThreadPc.inHand] at hpending

/-- The worker is dropped while its thread translates for a caller that has
gone away. -/
theorem worker_drop_returns_translating :
    ∃ s, Machine.Reach (Worker.step false) Machine.anyStep (.spawn : Worker String) s
      ∧ s.handle ≠ .live ∧ s.pc.models = ["deen"] ∧ s.pending.length = 2
      ∧ Machine.Inevitable (Worker.step false) Machine.anyStep
        (fun s => s.handle = .dropped ∧ s.pc = .ended ∧ s.pc.models = [] ∧ s.Settled) s := by
  obtain ⟨s, hreach, hs⟩ := Machine.exists_reach_of_run (Worker.step false) Machine.anyStep
    (.spawn : Worker String)
    [.load (some (.ok "deen")), .call (.translate ["a"] false), .call (.translate ["b"] false),
      .receiveJob, .call (.forget 0), .call (.forget 1), .call .drop]
    (fun s => decide (s.handle ≠ .live ∧ s.pc.models = ["deen"] ∧ s.pending.length = 2)) (by decide)
  obtain ⟨hdrop, hmodels, hpending⟩ := of_decide_eq_true hs
  exact ⟨s, hreach, hdrop, hmodels, hpending, worker_drop_returns hreach hdrop⟩

end Reach

end Dragomand
