import Dragomand.WorkRuns
import Dragomand.WorkersRoutes

/-!
# The jobs of a request

What a future was told of the routes is so: the jobs in its history are
those that the routes accepted with its flag (`Daemon.Backs`), a reply in
it was sent by the route's task, and a pivot is the route's. A route
remembers all its jobs and answers (`PairEntry.Evolves.log_subset`), so
that only a submit of the request itself adds to them.
-/

namespace Dragomand

/-! ## A route remembers -/

section Evolves

variable {translate : ModelSpec → Option ModelSpec → Bool → List String → List Translation}
  {flags : Nat → Bool} {e : WorkersEvent} {id : Nat} {entry entry' : PairEntry}

theorem Scheduler.submit_eq_some {s s' : Scheduler} {segments : List String} {html : Bool}
    {priority : Priority} {cancelled : Nat}
    (h : s.submit segments html priority cancelled = some s') :
    s'.log = .accepted ⟨segments, [], html, priority, cancelled, s.nextReply⟩ :: s.log := by
  unfold Scheduler.submit at h
  dsimp only at h
  split at h <;> cases h
  rfl

/-- Its scheduler makes a step of its own, or none. -/
theorem PairEntry.Evolves.transition (h : entry.Evolves translate flags e id entry') :
    entry'.scheduler = entry.scheduler ∨ entry.scheduler.Transition
      (translate entry.first entry.second) flags entry'.scheduler := by
  cases h with
  | same | stamped => exact Or.inl rfl
  | closed => exact Or.inr .close
  | @submitted caller cancelled segments html priority s he hs =>
      refine Or.inr (Scheduler.step_cases (e := .submit segments html priority cancelled) ?_)
      simp only [Scheduler.step, hs, Option.getD_some]
  | scheduled hsubmit hs => exact Or.inr (Scheduler.step_cases hs)

theorem PairEntry.Evolves.log_subset (h : entry.Evolves translate flags e id entry') :
    entry.scheduler.log ⊆ entry'.scheduler.log := by
  rcases h.transition with hsame | htr
  · exact hsame ▸ List.Subset.refl _
  · exact htr.log_subset

theorem PairEntry.Evolves.accepted_subset (h : entry.Evolves translate flags e id entry') :
    entry.scheduler.accepted ⊆ entry'.scheduler.accepted :=
  List.filterMap_subset _ h.log_subset

theorem PairEntry.Evolves.answered_subset (h : entry.Evolves translate flags e id entry') :
    entry.scheduler.answered ⊆ entry'.scheduler.answered :=
  List.filterMap_subset _ h.log_subset

/-- A route accepts the job that the step submits to it, and no other. -/
theorem PairEntry.Evolves.accepted (h : entry.Evolves translate flags e id entry')
    {job : QueuedJob} (hjob : job ∈ entry'.scheduler.accepted) :
    job ∈ entry.scheduler.accepted ∨ ∃ caller segments html priority,
      e = .submit caller id segments html priority job.cancelled := by
  cases h with
  | same | stamped | closed => exact Or.inl hjob
  | @submitted caller cancelled segments html priority s he hs =>
      have hjob' : job ∈ s.accepted := hjob
      rw [Scheduler.accepted, Scheduler.submit_eq_some hs] at hjob'
      rcases List.mem_cons.mp hjob' with rfl | hold
      · exact Or.inr ⟨caller, segments, html, priority, he⟩
      · exact Or.inl hold
  | scheduled hsubmit hs =>
      have hsame := Scheduler.step_accepted hs hsubmit
      dsimp only at hjob
      rw [hsame] at hjob
      exact Or.inl hjob

end Evolves

/-! ## Histories and routes -/

/-- What the history of the future of call `id` says of the routes is so. -/
structure Daemon.Recalls (d : Daemon) (id : Nat) (h : Asked) : Prop where
  pivots : ∀ entry pivot, (entry, pivot) ∈ pivots h →
    ∃ e, d.workers.heap[entry]? = some e ∧ e.pivot = pivot
  replies : ∀ entry receiver result, (entry, receiver, some result) ∈ replies h →
    ∃ e, d.workers.heap[entry]? = some e ∧ (receiver, result) ∈ e.scheduler.answered
  submitted : ∀ job ∈ submissions h, ∃ e, d.workers.heap[job.entry]? = some e
    ∧ ∃ j ∈ e.scheduler.accepted,
      j.reply = job.receiver ∧ j.remaining = job.segments ∧ j.cancelled = id

/-- And the history has all the jobs of the call. -/
structure Daemon.Backs (d : Daemon) (id : Nat) (h : Asked) : Prop extends d.Recalls id h where
  accepted : ∀ k e j, d.workers.heap[k]? = some e → j ∈ e.scheduler.accepted →
    j.cancelled = id → ⟨k, j.reply, j.remaining⟩ ∈ submissions h

section Step

variable {host : Host} {d d' : Daemon} {e : DaemonEvent} {id : Nat} {h : Asked}

/-- A route after a step that submits nothing for call `id`. -/
theorem Daemon.Transition.accepted (htr : d.Transition host e d')
    (hquiet : ∀ entry, d.submitter e ≠ some (id, entry)) {k : Nat} {entry' : PairEntry}
    (hentry' : d'.workers.heap[k]? = some entry') {j : QueuedJob}
    (hj : j ∈ entry'.scheduler.accepted) (hid : j.cancelled = id) :
    ∃ entry, d.workers.heap[k]? = some entry ∧ j ∈ entry.scheduler.accepted := by
  rcases htr.workers with hw | ⟨event, hw, hdrives⟩
  · exact ⟨entry', hw ▸ hentry', hj⟩
  · rcases Workers.heap_cases hw hentry' with
      ⟨entry, hentry, hev⟩ | ⟨-, _, _, _, _, _, _, _, -, rfl⟩
    · rcases hev.accepted hj with hold | ⟨caller, segments, html, priority, rfl⟩
      · exact ⟨entry, hentry, hold⟩
      · refine absurd ?_ (hquiet k)
        rw [← hdrives.submitter, ← hid]
        rfl
    · cases hj

/-- The routes of before the step remember what they were. -/
theorem Daemon.Transition.remembers (htr : d.Transition host e d') {k : Nat} {entry : PairEntry}
    (hentry : d.workers.heap[k]? = some entry) :
    ∃ entry', d'.workers.heap[k]? = some entry' ∧ entry'.pivot = entry.pivot
      ∧ entry.scheduler.accepted ⊆ entry'.scheduler.accepted
      ∧ entry.scheduler.answered ⊆ entry'.scheduler.answered := by
  rcases htr.workers with hw | ⟨event, hw, -⟩
  · exact ⟨entry, hw ▸ hentry, rfl, List.Subset.refl _, List.Subset.refl _⟩
  · obtain ⟨entry', hentry', hev⟩ := Workers.heap_persists hw hentry
    exact ⟨entry', hentry', hev.route.2.1, hev.accepted_subset, hev.answered_subset⟩

theorem Daemon.Recalls.step (hr : d.Recalls id h) (htr : d.Transition host e d') :
    d'.Recalls id h where
  pivots := by
    intro k pivot hmem
    obtain ⟨entry, hentry, hpivot⟩ := hr.pivots k pivot hmem
    obtain ⟨entry', hentry', hsame, -⟩ := htr.remembers hentry
    exact ⟨entry', hentry', hsame.trans hpivot⟩
  replies := by
    intro k receiver result hmem
    obtain ⟨entry, hentry, hanswered⟩ := hr.replies k receiver result hmem
    obtain ⟨entry', hentry', -, -, hsub⟩ := htr.remembers hentry
    exact ⟨entry', hentry', hsub hanswered⟩
  submitted := by
    intro job hjob
    obtain ⟨entry, hentry, j, hj, hsame⟩ := hr.submitted job hjob
    obtain ⟨entry', hentry', -, hsub, -⟩ := htr.remembers hentry
    exact ⟨entry', hentry', j, hsub hj, hsame⟩

/-- One more answer. -/
theorem Daemon.Recalls.append {h' : Asked} (hr : d.Recalls id h) (hr' : d.Recalls id h') :
    d.Recalls id (h ++ h') where
  pivots := by
    intro entry pivot hmem
    rw [pivots_append] at hmem
    exact (List.mem_append.mp hmem).elim (hr.pivots entry pivot) (hr'.pivots entry pivot)
  replies := by
    intro entry receiver result hmem
    rw [replies_append] at hmem
    exact (List.mem_append.mp hmem).elim (hr.replies entry receiver result)
      (hr'.replies entry receiver result)
  submitted := by
    intro job hmem
    rw [submissions_append] at hmem
    exact (List.mem_append.mp hmem).elim (hr.submitted job) (hr'.submitted job)

/-- What a submit leaves of the routes: the job is the latest of a route
that accepts, and nothing else is new. -/
theorem Workers.submit_cases {w w' : Workers} {caller k cancelled : Nat} {segments : List String}
    {html : Bool} {priority : Priority} {entry : PairEntry}
    (hw : w.step host.translate (.submit caller k segments html priority cancelled) = some w')
    (hentry : w.heap[k]? = some entry) :
    ∃ entry', (∀ k', w'.heap[k']? = if k = k' then some entry' else w.heap[k']?)
      ∧ ((entry.accepts = false ∧ entry' = entry)
        ∨ (entry.accepts = true ∧ entry'.scheduler.accepted
          = ⟨segments, [], html, priority, cancelled, entry.scheduler.nextReply⟩
            :: entry.scheduler.accepted)) := by
  simp only [Workers.step] at hw
  split at hw <;> cases hw
  refine ⟨(entry.scheduler.submit segments html priority cancelled).elim entry fun s =>
    { entry with scheduler := s, stamping := entry.stamping + 1 }, fun k' => ?_, ?_⟩
  · show (w.heap.modify k _)[k']? = _
    rw [List.getElem?_modify]
    split
    · rename_i hk
      rw [← hk, hentry]
      simp only [Option.map_eq_map, Option.map_some]
      cases entry.scheduler.submit segments html priority cancelled <;> rfl
    · simp
  · cases hs : entry.scheduler.submit segments html priority cancelled with
    | none =>
        refine Or.inl ⟨?_, rfl⟩
        unfold Scheduler.submit at hs
        dsimp only at hs
        split at hs
        · rename_i hclosed
          simp [PairEntry.accepts, hclosed]
        · cases hs
    | some s =>
        refine Or.inr ⟨?_, ?_⟩
        · unfold Scheduler.submit at hs
          dsimp only at hs
          split at hs
          · cases hs
          · rename_i hclosed
            simpa [PairEntry.accepts] using hclosed
        · show s.accepted = _
          rw [Scheduler.accepted, Scheduler.submit_eq_some hs]
          rfl

/-- What the daemon has just told is so. -/
theorem Daemon.Tells.recalls (htr : d.Transition host e d') {op : Op} {answer : op.Answer}
    (htold : d.Tells host d' id op answer) : d'.Recalls id [⟨op, answer⟩] := by
  have hquiet : pivots [⟨op, answer⟩] = [] → replies [⟨op, answer⟩] = [] →
      submissions [⟨op, answer⟩] = [] → d'.Recalls id [⟨op, answer⟩] := by
    intro hp hr hs
    exact ⟨by simp [hp], by simp [hr], by simp [hs]⟩
  cases op with
  | pivot k =>
      obtain ⟨entry, hentry, hpivot⟩ := htold
      obtain ⟨entry', hentry', hsame, -⟩ := htr.remembers hentry
      refine ⟨?_, nofun, nofun⟩
      intro k' pivot' hmem
      cases List.mem_singleton.mp hmem
      exact ⟨entry', hentry', hsame.trans hpivot⟩
  | receive k receiver =>
      cases answer with
      | none =>
          refine ⟨nofun, ?_, nofun⟩
          intro k' receiver' result hmem
          cases List.mem_singleton.mp hmem
      | some result =>
          obtain ⟨entry, hentry, hanswered⟩ := htold
          obtain ⟨entry', hentry', -, -, hsub⟩ := htr.remembers hentry
          refine ⟨nofun, ?_, nofun⟩
          intro k' receiver' result' hmem
          cases List.mem_singleton.mp hmem
          exact ⟨entry', hentry', hsub hanswered⟩
  | submit k segments html priority =>
      cases answer with
      | none => exact hquiet rfl rfl rfl
      | some receiver =>
          obtain ⟨hw, entry, hentry, hreceiver⟩ := htold
          obtain ⟨entry', hheap, ⟨hclosed, -⟩ | ⟨haccepts, hnew⟩⟩ := Workers.submit_cases hw hentry
          · simp [hclosed] at hreceiver
          · rw [if_pos haccepts] at hreceiver
            cases hreceiver
            refine ⟨nofun, nofun, ?_⟩
            intro job hjob
            cases List.mem_singleton.mp hjob
            exact ⟨entry', by rw [hheap, if_pos rfl], _, hnew ▸ List.mem_cons_self .., rfl, rfl, rfl⟩
  | start | config | stores | ensure_loaded | drop | emit_progress | install_pair
  | check_for_updates | refresh | read_document | write_document => exact hquiet rfl rfl rfl

theorem Daemon.Backs.step (hb : d.Backs id h) (htr : d.Transition host e d')
    (hquiet : ∀ entry, d.submitter e ≠ some (id, entry)) : d'.Backs id h where
  toRecalls := hb.toRecalls.step htr
  accepted := by
    intro k entry' j hentry' hj hid
    obtain ⟨entry, hentry, hold⟩ := htr.accepted hquiet hentry' hj hid
    exact hb.accepted k entry j hentry hold hid

/-- The history grows with the jobs. -/
theorem Daemon.Backs.tells (hb : d.Backs id h) (htr : d.Transition host e d') {work : Work}
    {op : Op} {next : op.Answer → Async Results} {answer : op.Answer}
    (hwork : d.works[id]? = some work) (hprog : work.prog = .op op next)
    (htold : d.Tells host d' id op answer) : d'.Backs id (h ++ [⟨op, answer⟩]) where
  toRecalls := (hb.toRecalls.step htr).append (htold.recalls htr)
  accepted := by
    intro k' e' j he' hj hid
    rw [submissions_append]
    by_cases hquiet : ∀ entry, d.submitter e ≠ some (id, entry)
    · obtain ⟨entry, hentry, hold⟩ := htr.accepted hquiet he' hj hid
      exact List.mem_append_left _ (hb.accepted k' entry j hentry hold hid)
    · -- the request submits
      push Not at hquiet
      obtain ⟨k, hsub⟩ := hquiet
      obtain ⟨work', segments, html, priority, next', hwork', hprog'⟩ :=
        Daemon.submitter_eq_some hsub
      obtain rfl := Option.some.inj (hwork.symm.trans hwork')
      obtain rfl : op = .submit k segments html priority := by
        rw [hprog] at hprog'
        injection hprog'
      obtain ⟨hw, entry, hentry, rfl⟩ := htold
      obtain ⟨entry', hheap, hcases⟩ := Workers.submit_cases hw hentry
      rw [hheap] at he'
      split at he'
      · rename_i hk
        subst hk
        cases he'
        rcases hcases with ⟨-, rfl⟩ | ⟨haccepts, hnew⟩
        · exact List.mem_append_left _ (hb.accepted _ _ j hentry hj hid)
        · rw [hnew] at hj
          rcases List.mem_cons.mp hj with rfl | hold
          · refine List.mem_append_right _ ?_
            rw [if_pos haccepts]
            exact List.mem_singleton_self _
          · exact List.mem_append_left _ (hb.accepted _ _ j hentry hold hid)
      · exact List.mem_append_left _ (hb.accepted k' e' j he' hj hid)

end Step

/-! ## Whole runs -/

section Runs

variable {host : Host} {ok : Daemon → DaemonEvent → Prop} {config : Config} {d : Daemon}

/-- Every job has the flag of a request. -/
theorem works_of_accepted
    (hreach : Machine.Reach (Daemon.step host) ok (Daemon.init config host) d) {k : Nat}
    {entry : PairEntry} {j : QueuedJob} (hentry : d.workers.heap[k]? = some entry)
    (hj : j ∈ entry.scheduler.accepted) : ∃ work, d.works[j.cancelled]? = some work := by
  refine hreach.invariant (I := fun d => ∀ (k : Nat) (entry : PairEntry) (j : QueuedJob),
    d.workers.heap[k]? = some entry → j ∈ entry.scheduler.accepted →
    ∃ work, d.works[j.cancelled]? = some work) ?_ ?_ k entry j hentry hj
  · simp [Daemon.init, Workers.init]
  · intro d e d' _ _ hs ih k entry' j hentry' hj
    have htr := (Daemon.step_cases hs).2
    have hold : ∃ work, d.works[j.cancelled]? = some work := by
      by_cases hquiet : ∀ entry, d.submitter e ≠ some (j.cancelled, entry)
      · obtain ⟨entry, hentry, hj⟩ := htr.accepted hquiet hentry' hj rfl
        exact ih k entry j hentry hj
      · push Not at hquiet
        obtain ⟨k', hsub⟩ := hquiet
        obtain ⟨work, _, _, _, _, hwork, -⟩ := Daemon.submitter_eq_some hsub
        exact ⟨work, hwork⟩
    obtain ⟨work, hwork⟩ := hold
    obtain ⟨work', hwork', -⟩ := htr.works_self hwork
    exact ⟨work', hwork'⟩

/-- Every future has a history, which agrees with the routes. -/
theorem backs_of_reach
    (hreach : Machine.Reach (Daemon.step host) ok (Daemon.init config host) d) {id : Nat}
    {work : Work} (hwork : d.works[id]? = some work) :
    ∃ h, work.Ran host h ∧ d.Backs id h := by
  refine histories_of_reach (I := fun d id _ h => d.Backs id h) (f := fun d => d)
    (g := fun e => e) (fun _ _ _ hs => hs) hreach rfl ?_ ?_ ?_ hwork
  · intro d e d' id _ hpre hs hnone
    refine ⟨⟨nofun, nofun, nofun⟩, fun k entry' j hentry' hj hid => ?_⟩
    have hquiet : ∀ entry, d.submitter e ≠ some (id, entry) := by
      intro entry hsub
      obtain ⟨work, _, _, _, _, hwork, -⟩ := Daemon.submitter_eq_some hsub
      rw [hnone] at hwork
      cases hwork
    obtain ⟨entry, hentry, hj⟩ := (Daemon.step_cases hs).2.accepted hquiet hentry' hj hid
    obtain ⟨work, hwork⟩ := works_of_accepted hpre hentry hj
    rw [hid, hnone] at hwork
    cases hwork
  · exact fun d e d' id _ h _ hs hquiet hb => hb.step (Daemon.step_cases hs).2 hquiet
  · exact fun d e d' id work h op next answer _ _ hs _ hwork hprog _ htold hb =>
      hb.tells (Daemon.step_cases hs).2 hwork hprog htold

end Runs

end Dragomand
