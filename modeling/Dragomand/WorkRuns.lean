import Dragomand.Daemon
import Dragomand.RunTranslation
import Dragomand.SchedulerJobs

/-!
# The history of a future

What is left of a request's future is what is left of its method's future
after the answers that the daemon gave it (`Work.Ran`): so a fact about all
runs of a method's future is one about every request. `Daemon.Tells` says
what the daemon answers, `Daemon.follows` is the step of one future, and
`histories_of_reach` the induction over a run of the daemon with the
history of every future at hand.
-/

namespace Dragomand

section Tells

variable (host : Host)

/-- What the daemon answers the future of call `id`, from `d` to `d'`. -/
def Daemon.Tells (d d' : Daemon) (id : Nat) : (op : Op) → op.Answer → Prop
  | .stores, disk => disk = d.disk
  | .ensure_loaded source target _ _, .ok entry =>
      d'.workers.lock = none ∧ d.workers.entries.lookup (source, target) = some entry
        ∨ d.workers.loadsFor id = true ∧ entry = d.workers.heap.length
          ∧ ∃ measured, d.workers.loaded (.ok measured) = some d'.workers
  | .submit entry segments html priority, receiver =>
      d.workers.step host.translate (.submit id entry segments html priority id) = some d'.workers
        ∧ ∃ e, d.workers.heap[entry]? = some e
          ∧ receiver = if e.accepts then some e.scheduler.nextReply else none
  | .receive entry receiver, some result =>
      ∃ e, d.workers.heap[entry]? = some e ∧ (receiver, result) ∈ e.scheduler.answered
  | .pivot entry, pivot => ∃ e, d.workers.heap[entry]? = some e ∧ e.pivot = pivot
  | _, _ => True

/-- How `work'`, the future of call `id` after the step, comes about. -/
inductive Daemon.Follows (d : Daemon) (e : DaemonEvent) (d' : Daemon) (id : Nat)
    (work' : Work) : Prop
  | same (hwork : d.works[id]? = some work') (hquiet : ∀ entry, d.submitter e ≠ some (id, entry))
  | answered {work : Work} {op : Op} {next : op.Answer → Async Results} {answer : op.Answer}
      (hevent : ∃ event, e = .work id event)
      (hwork : d.works[id]? = some work) (hprog : work.prog = .op op next)
      (hwork' : work' = { work with used := op.use work.used answer, prog := next answer })
      (htold : d.Tells host d' id op answer)
  | spawned {handler : Handler} {prog : Async Results} (hnone : d.works[id]? = none)
      (hcheck : handler.method.check host d.config d.disk handler.sender handler.token = .ok ())
      (hfuture : handler.method.future host = some prog)
      (hwork' : work' = ⟨handler.method, [], prog⟩)

variable {host} {d d' : Daemon} {e : DaemonEvent} {id : Nat}

/-- The future of call `id` gets its answer, or waits on, or has returned. -/
theorem Daemon.work_tells {event : WorkEvent} {prog : Async Results}
    (h : d.work host id prog event = some d') :
    (d'.works = d.works ∧ ∀ entry segments html priority next,
        prog ≠ .op (.submit entry segments html priority) next)
      ∨ ∃ (op : Op) (next : op.Answer → Async Results) (answer : op.Answer) (d₀ : Daemon),
          prog = .op op next ∧ d₀.works = d.works ∧ d' = d₀.resume id op next answer
            ∧ d.Tells host d' id op answer := by
  unfold Daemon.work at h
  split at h
  · obtain ⟨r, hr, rfl⟩ := Option.map_eq_some_iff.mp h
    exact Or.inl ⟨rfl, nofun⟩
  · cases h; exact Or.inr ⟨_, _, _, d, rfl, rfl, rfl, trivial⟩
  · cases h; exact Or.inr ⟨_, _, _, d, rfl, rfl, rfl, trivial⟩
  · cases h; exact Or.inr ⟨_, _, _, d, rfl, rfl, rfl, rfl⟩
  · obtain ⟨⟨w, ensured⟩, hw, rfl⟩ := Option.map_eq_some_iff.mp h
    cases ensured with
    | hit entry =>
        refine Or.inr ⟨_, _, _, { d with workers := w, disk := _ }, rfl, rfl, rfl, Or.inl ?_⟩
        obtain ⟨hfree, hcases⟩ := Workers.ensure_loaded_cases hw
        rcases hcases with ⟨_, hlookup, heq, rfl⟩ | ⟨_, heq, -⟩ | ⟨_, _, _, -, heq, -⟩ <;> cases heq
        exact ⟨hfree, hlookup⟩
    | failed error => exact Or.inr ⟨_, _, _, { d with workers := w, disk := _ }, rfl, rfl, rfl, trivial⟩
    | loading => exact Or.inl ⟨rfl, nofun⟩
  · rename_i result
    dsimp only at h
    split at h
    · rename_i hlock
      cases result with
      | error message =>
          obtain ⟨w, hw, rfl⟩ := Option.map_eq_some_iff.mp h
          exact Or.inr ⟨_, _, _, { d with workers := w }, rfl, rfl, rfl, trivial⟩
      | ok measured =>
          obtain ⟨w, hw, rfl⟩ := Option.map_eq_some_iff.mp h
          exact Or.inr ⟨_, _, _, { d with workers := w }, rfl, rfl, rfl,
            Or.inr ⟨hlock, rfl, measured, hw⟩⟩
    · cases h
  · obtain ⟨e, he, h⟩ := Option.bind_eq_some_iff.mp h
    obtain ⟨w, hw, rfl⟩ := Option.map_eq_some_iff.mp h
    exact Or.inr ⟨_, _, _, { d with workers := w }, rfl, rfl, rfl, hw, e, he, rfl⟩
  · obtain ⟨e, he, h⟩ := Option.bind_eq_some_iff.mp h
    split at h
    · rename_i result hfound
      cases h
      obtain ⟨obs, hobs, hmatch⟩ := List.exists_of_findSome?_eq_some hfound
      split at hmatch
      · rename_i reply result'
        obtain ⟨rfl, heq⟩ := Option.ite_none_right_eq_some.mp hmatch
        cases heq
        exact Or.inr ⟨_, _, _, d, rfl, rfl, rfl, e, he, List.mem_filterMap.mpr ⟨_, hobs, rfl⟩⟩
      · cases hmatch
    · split at h
      · cases h; exact Or.inr ⟨_, _, _, d, rfl, rfl, rfl, trivial⟩
      · cases h
  · obtain ⟨e, he, rfl⟩ := Option.map_eq_some_iff.mp h
    exact Or.inr ⟨_, _, _, d, rfl, rfl, rfl, e, he, rfl⟩
  · obtain ⟨w, hw, rfl⟩ := Option.map_eq_some_iff.mp h
    exact Or.inr ⟨_, _, _, { d with workers := w }, rfl, rfl, rfl, trivial⟩
  · obtain ⟨r, hr, rfl⟩ := Option.map_eq_some_iff.mp h
    exact Or.inr ⟨_, _, _, { d with requests := r }, rfl, rfl, rfl, trivial⟩
  · cases h; exact Or.inr ⟨_, _, _, d, rfl, rfl, rfl, trivial⟩
  · cases h; exact Or.inr ⟨_, _, _, d, rfl, rfl, rfl, trivial⟩
  · cases h; exact Or.inr ⟨_, _, _, d, rfl, rfl, rfl, trivial⟩
  · cases h; exact Or.inr ⟨_, _, _, d, rfl, rfl, rfl, trivial⟩
  · cases h; exact Or.inr ⟨_, _, _, d, rfl, rfl, rfl, trivial⟩
  · cases h

theorem Daemon.submitter_work {id₀ entry : Nat} {event : WorkEvent}
    (h : d.submitter (.work id₀ event) = some (id, entry)) : id = id₀ := by
  unfold Daemon.submitter at h
  split at h
  · rename_i hevent
    cases hevent
    obtain ⟨work, -, h⟩ := Option.bind_eq_some_iff.mp h
    split at h <;> cases h
    rfl
  · cases h

/-- The step of one future. -/
theorem Daemon.follows (hs : d.step host e = some d') {work' : Work}
    (hwork' : d'.works[id]? = some work') : d.Follows host e d' id work' := by
  have htr := (Daemon.step_cases hs).2
  by_cases hevent : ∃ id₀ event, e = .work id₀ event
  · obtain ⟨id₀, event, rfl⟩ := hevent
    have hact : d.act host (.work id₀ event) = some d' := by
      unfold Daemon.step at hs
      split at hs
      · cases hs
      · exact hs
    obtain ⟨work, hwork, h⟩ := Option.bind_eq_some_iff.mp hact
    split at h
    · rcases Daemon.work_tells h with
        ⟨hworks, hno⟩ | ⟨op, next, answer, d₀, hprog, hworks, rfl, htold⟩
      · refine .same (hworks ▸ hwork') fun entry hsub => ?_
        obtain rfl := Daemon.submitter_work hsub
        obtain ⟨work₀, _, _, _, _, hwork₀, hprog⟩ := Daemon.submitter_eq_some hsub
        obtain rfl := Option.some.inj (hwork.symm.trans hwork₀)
        exact hno _ _ _ _ _ hprog
      · rw [Daemon.resume_getElem? (hworks ▸ hwork)] at hwork'
        split at hwork'
        · rename_i hid
          subst hid
          exact .answered ⟨event, rfl⟩ hwork hprog (Option.some.inj hwork').symm htold
        · rename_i hid
          exact .same (hworks ▸ hwork') fun entry hsub => hid (Daemon.submitter_work hsub).symm
    · cases h
  · have hquiet : ∀ entry, d.submitter e ≠ some (id, entry) := by
      intro entry hsub
      cases e <;> first | exact hevent ⟨_, _, rfl⟩ | cases hsub
    cases htr with
    | receive | touch | answer | noObject | cancel | task | routes | store | configure | sleep
    | counted | emptied | timed | exit | dropWork => exact .same hwork' hquiet
    | step | progress | «return» | hit | failed | loading | loadFailed | loaded | submit | drop =>
        exact absurd ⟨_, _, rfl⟩ hevent
    | @spawn h handler prog hhandler hcheck hfuture =>
        have hworks : (d.works ++ [(⟨handler.method, [], prog⟩ : Work)])[id]? = some work' :=
          hwork'
        by_cases hlt : id < d.works.length
        · rw [List.getElem?_append_left hlt] at hworks
          exact .same hworks hquiet
        · have hle := Nat.le_of_not_lt hlt
          rw [List.getElem?_append_right hle] at hworks
          exact .spawned (List.getElem?_eq_none hle) hcheck hfuture
            (List.mem_singleton.mp (List.mem_of_getElem? hworks))

end Tells

/-! ## Histories -/

/-- The future was made by its method, past the checks of the handler, and
has had the answers of `h`. -/
structure Work.Ran (host : Host) (work : Work) (h : Asked) : Prop where
  checked : ∃ config disk sender token,
    work.method.check host config disk sender token = .ok ()
  path : ∃ prog, work.method.future host = some prog ∧ prog.Path h work.prog
  used : work.used = (loads h).reverse

/-- One more answer. -/
theorem Work.Ran.snoc {host : Host} {work : Work} {h : Asked} {op : Op}
    {next : op.Answer → Async Results} (hran : work.Ran host h) (hprog : work.prog = .op op next)
    (answer : op.Answer) :
    Work.Ran host { work with used := op.use work.used answer, prog := next answer }
      (h ++ [⟨op, answer⟩]) where
  checked := hran.checked
  path := by
    obtain ⟨prog, hfuture, hpath⟩ := hran.path
    rw [hprog] at hpath
    exact ⟨prog, hfuture, hpath.snoc answer⟩
  used := by
    rw [loads_append, List.reverse_append, ← hran.used]
    cases op with
    | ensure_loaded => cases answer <;> rfl
    | start | config | stores | submit | receive | pivot | drop | emit_progress | install_pair
    | check_for_updates | refresh | read_document | write_document => rfl

section Runs

variable {host : Host} {σ ε : Type*} {step : σ → ε → Option σ} {ok : σ → ε → Prop} {s₀ s : σ}
  {f : σ → Daemon} {g : ε → DaemonEvent} {I : σ → Nat → Method → Asked → Prop}

/-- **Induction over a run, with the history of every future**, for a
machine that drives a daemon: what holds when a future is spawned, and is
kept by the steps that leave it alone and by those that answer it, holds of
every future with its history. -/
theorem histories_of_reach
    (hdaemon : ∀ s e s', step s e = some s' →
      (f s).step host (g e) = some (f s'))
    (hreach : Machine.Reach step ok s₀ s) (hinit : (f s₀).works = [])
    (hspawn : ∀ s e s' id method, Machine.Reach step ok s₀ s → step s e = some s' →
      (f s).works[id]? = none → I s' id method [])
    (hsame : ∀ s e s' id method h, Machine.Reach step ok s₀ s → step s e = some s' →
      (∀ entry, (f s).submitter (g e) ≠ some (id, entry)) →
      I s id method h → I s' id method h)
    (hanswer : ∀ s e s' id work h op (next : op.Answer → Async Results) (answer : op.Answer),
      Machine.Reach step ok s₀ s → ok s e → step s e = some s' →
      (∃ ev, g e = .work id ev) → (f s).works[id]? = some work →
      work.prog = .op op next → work.Ran host h →
      (f s).Tells host (f s') id op answer →
      I s id work.method h → I s' id work.method (h ++ [⟨op, answer⟩]))
    {id : Nat} {work : Work} (hwork : (f s).works[id]? = some work) :
    ∃ h, work.Ran host h ∧ I s id work.method h := by
  refine hreach.invariant (I := fun s => ∀ id work, (f s).works[id]? = some work →
    ∃ h, work.Ran host h ∧ I s id work.method h) ?_ ?_ id work hwork
  · simp [hinit]
  · intro s e s' hpre hok hs ih id work' hwork'
    cases Daemon.follows (hdaemon s e s' hs) hwork' with
    | same hwork hquiet =>
        obtain ⟨h, hran, hI⟩ := ih id work' hwork
        exact ⟨h, hran, hsame s e s' id _ h hpre hs hquiet hI⟩
    | @answered work op next answer hevent hwork hprog hwork' htold =>
        obtain ⟨h, hran, hI⟩ := ih id work hwork
        subst hwork'
        exact ⟨_, hran.snoc hprog answer,
          hanswer s e s' id work h op next answer hpre hok hs hevent hwork hprog hran htold hI⟩
    | spawned hnone hcheck hfuture hwork' =>
        subst hwork'
        exact ⟨[], ⟨⟨_, _, _, _, hcheck⟩, ⟨_, hfuture, .nil⟩, rfl⟩,
          hspawn s e s' id _ hpre hs hnone⟩

end Runs

theorem ran_of_reach {host : Host} {ok : Daemon → DaemonEvent → Prop} {config : Config} {d : Daemon}
    (hreach : Machine.Reach (Daemon.step host) ok (Daemon.init config host) d) {id : Nat}
    {work : Work} (hwork : d.works[id]? = some work) : ∃ h, work.Ran host h := by
  obtain ⟨h, hran, -⟩ := histories_of_reach (I := fun _ _ _ _ => True) (f := fun d => d)
    (g := fun e => e) (fun _ _ _ hs => hs) hreach rfl (fun _ _ _ _ _ _ _ _ => trivial)
    (fun _ _ _ _ _ _ _ _ _ _ => trivial) (fun _ _ _ _ _ _ _ _ _ _ _ _ _ _ _ _ _ _ => trivial)
    hwork
  exact ⟨h, hran⟩

end Dragomand
