import Dragomand.PreparedLoaded
import Dragomand.SentenceSpans

/-!
# What a client gets for its segments

The `Response` of a `Translate` that succeeds carries the translations of
its own segments, in their order, by the models of one route of the pair it
asked for. The way there: a scheduler answers a job with the translations of
the job's segments (`Rendered`, kept by every step), the history of a future
names the job that was made of its segments (`Recorded`), and the response
of a request is what its future returned.
-/

namespace Dragomand

/-! ## Jobs -/

/-- What is held, and what goes out translated, is of the job accepted. -/
structure Rendered (f : Bool → String → Translation) (s : Scheduler) : Prop where
  held : ∀ job chunk, (job, chunk) ∈ s.held → ∃ job₀ ∈ s.accepted, Fits f job₀ job chunk
  outgoing : ∀ reply translations, (reply, .ok translations) ∈ s.outgoing →
    ∃ job₀ ∈ s.accepted, job₀.reply = reply ∧ translations = job₀.translated f

section Jobs

variable {f : Bool → String → Translation} {flags : Nat → Bool} {s s' : Scheduler}

theorem rendered_init : Rendered f .init :=
  ⟨by simp [Scheduler.init, Scheduler.held, Pc.held],
    by simp [Scheduler.init, Scheduler.outgoing, Pc.outgoing, Scheduler.answered]⟩

theorem rendered_step (h : s.Transition (perSegment f) flags s') (hr : Rendered f s) :
    Rendered f s' := by
  have hacc := h.accepted_subset
  constructor
  · intro job chunk hmem
    cases h.held hmem with
    | old hold =>
        obtain ⟨job₀, hmem₀, hfits⟩ := hr.held job chunk hold
        exact ⟨job₀, hacc hmem₀, hfits⟩
    | accepted hnew hdone =>
        exact ⟨job, hnew, rfl, rfl, rfl, rfl, by simp [hdone, QueuedJob.translated]⟩
    | called hold =>
        obtain ⟨job₀, hmem₀, hfits⟩ := hr.held _ _ hold
        exact ⟨job₀, hacc hmem₀, hfits.drained⟩
    | progressed hold =>
        obtain ⟨job₀, hmem₀, hfits⟩ := hr.held _ _ hold
        exact ⟨job₀, hacc hmem₀, hfits.progressed⟩
  · intro reply translations hmem
    cases h.outgoing hmem with
    | old hold =>
        obtain ⟨job₀, hmem₀, hsame⟩ := hr.outgoing reply translations hold
        exact ⟨job₀, hacc hmem₀, hsame⟩
    | @completed job chunk hold hrest =>
        obtain ⟨job₀, hmem₀, hfits⟩ := hr.held _ _ hold
        refine ⟨job₀, hacc hmem₀, hfits.reply.symm, ?_⟩
        rw [← hfits.segments, hrest, List.append_nil, perSegment, hfits.html]

end Jobs

/-- The backend translates a chunk segment by segment. -/
def Host.PerSegment (host : Host) (f : ModelSpec → Option ModelSpec → Bool → String → Translation) :
    Prop :=
  ∀ first second, host.translate first second = perSegment (f first second)

section Routes

variable {host : Host} {ok : Daemon → DaemonEvent → Prop} {config : Config} {d : Daemon}
  {f : ModelSpec → Option ModelSpec → Bool → String → Translation}

theorem rendered_of_reach (hf : host.PerSegment f)
    (hreach : Machine.Reach (Daemon.step host) ok (Daemon.init config host) d) {k : Nat}
    {entry : PairEntry} (hentry : d.workers.heap[k]? = some entry) :
    Accounted entry.scheduler ∧ Rendered (f entry.first entry.second) entry.scheduler := by
  refine hreach.invariant (I := fun d => ∀ (k : Nat) (entry : PairEntry),
    d.workers.heap[k]? = some entry →
      Accounted entry.scheduler ∧ Rendered (f entry.first entry.second) entry.scheduler)
    ?_ ?_ k entry hentry
  · simp [Daemon.init, Workers.init]
  · intro d e d' _ _ hs ih k entry' hentry'
    rcases (Daemon.step_cases hs).2.workers with hw | ⟨event, hw, -⟩
    · exact ih k entry' (hw ▸ hentry')
    · rcases Workers.heap_cases hw hentry' with
        ⟨entry, hentry, hev⟩ | ⟨-, _, _, _, _, _, _, _, -, rfl⟩
      · obtain ⟨ha, hr⟩ := ih k entry hentry
        obtain ⟨-, -, hfirst, hsecond⟩ := hev.route
        refine ⟨hev.accounted ha, ?_⟩
        rw [hfirst, hsecond]
        rcases hev.transition with hsame | htr
        · exact hsame ▸ hr
        · exact rendered_step (hf entry.first entry.second ▸ htr) hr
      · exact ⟨(@routeInv_init fun _ text => ⟨text, []⟩).accounted, rendered_init⟩

end Routes

/-! ## Histories -/

/-- The history of the future of call `id` names its jobs, and the routes of
the pairs it asked for. -/
structure Daemon.Recorded (d : Daemon) (id : Nat) (h : Asked) : Prop where
  jobs : ∀ k segments html priority receiver, ⟨.submit k segments html priority, some receiver⟩ ∈ h →
    ∃ e, d.workers.heap[k]? = some e ∧ ∃ j ∈ e.scheduler.accepted,
      j.reply = receiver ∧ j.remaining = segments ∧ j.html = html ∧ j.cancelled = id
  routes : ∀ source target allow_pivot budget_mb k,
    ⟨.ensure_loaded source target allow_pivot budget_mb, .ok k⟩ ∈ h →
    ∃ e, d.workers.heap[k]? = some e ∧ e.key = (source, target)

section Recorded

variable {host : Host} {d d' : Daemon} {e : DaemonEvent} {id : Nat} {h : Asked}

theorem Daemon.Recorded.step (hr : d.Recorded id h) (htr : d.Transition host e d') :
    d'.Recorded id h where
  jobs := by
    intro k segments html priority receiver hmem
    obtain ⟨entry, hentry, j, hj, hsame⟩ := hr.jobs k segments html priority receiver hmem
    obtain ⟨entry', hentry', -, hsub, -⟩ := htr.remembers hentry
    exact ⟨entry', hentry', j, hsub hj, hsame⟩
  routes := by
    intro source target allow_pivot budget_mb k hmem
    obtain ⟨entry, hentry, hkey⟩ := hr.routes source target allow_pivot budget_mb k hmem
    obtain ⟨entry', hentry', hkey', -⟩ := htr.heap hentry
    exact ⟨entry', hentry', hkey'.trans hkey⟩

/-- The job that a submit has just made. -/
theorem Daemon.Tells.submitted {k receiver : Nat} {segments : List String} {html : Bool}
    {priority : Priority}
    (htold : d.Tells host d' id (.submit k segments html priority) (some receiver)) :
    ∃ e, d'.workers.heap[k]? = some e ∧ ∃ j ∈ e.scheduler.accepted,
      j.reply = receiver ∧ j.remaining = segments ∧ j.html = html ∧ j.cancelled = id := by
  obtain ⟨hw, entry, hentry, hreceiver⟩ := htold
  obtain ⟨entry', hheap, ⟨hclosed, -⟩ | ⟨haccepts, hnew⟩⟩ := Workers.submit_cases hw hentry
  · simp [hclosed] at hreceiver
  · rw [if_pos haccepts] at hreceiver
    cases hreceiver
    exact ⟨entry', by rw [hheap, if_pos rfl], _, hnew ▸ List.mem_cons_self .., rfl, rfl, rfl, rfl⟩

theorem Daemon.Recorded.tells (hr : d.Recorded id h) (hl : LoadsAsked d) (hrouted : Routed d.workers)
    (htr : d.Transition host e d') {work : Work} {op : Op} {next : op.Answer → Async Results}
    {answer : op.Answer} (hwork : d.works[id]? = some work) (hprog : work.prog = .op op next)
    (htold : d.Tells host d' id op answer) : d'.Recorded id (h ++ [⟨op, answer⟩]) where
  jobs := by
    intro k segments html priority receiver hmem
    rcases List.mem_append.mp hmem with hmem | hmem
    · exact (hr.step htr).jobs k segments html priority receiver hmem
    · cases List.mem_singleton.mp hmem
      exact htold.submitted
  routes := by
    intro source target allow_pivot budget_mb k hmem
    rcases List.mem_append.mp hmem with hmem | hmem
    · exact (hr.step htr).routes source target allow_pivot budget_mb k hmem
    · cases List.mem_singleton.mp hmem
      exact htold.route hl hrouted htr hwork hprog

end Recorded

section Reach

variable {host : Host} {ok : Daemon → DaemonEvent → Prop} {config : Config} {d : Daemon}

/-- Every future has a history that the routes agree with. -/
theorem recorded_of_reach
    (hreach : Machine.Reach (Daemon.step host) ok (Daemon.init config host) d) {id : Nat}
    {work : Work} (hwork : d.works[id]? = some work) :
    ∃ h, work.Ran host h ∧ d.Recalls id h ∧ d.Recorded id h := by
  refine histories_of_reach (f := fun d => d) (g := fun e => e)
    (I := fun d id _ h => d.Recalls id h ∧ d.Recorded id h) (fun _ _ _ hs => hs) hreach rfl
    ?_ ?_ ?_ hwork
  · exact fun _ _ _ _ _ _ _ _ => ⟨⟨nofun, nofun, nofun⟩, ⟨nofun, nofun⟩⟩
  · intro d e d' id method h _ hs _ hinv
    have htr := (Daemon.step_cases hs).2
    exact ⟨hinv.1.step htr, hinv.2.step htr⟩
  · intro d e d' id work h op next answer hpre _ hs _ hwork hprog _ htold hinv
    have htr := (Daemon.step_cases hs).2
    exact ⟨(hinv.1.step htr).append (htold.recalls htr),
      hinv.2.tells (loadsAsked_of_reach hpre) (routed_of_reach hpre) htr hwork hprog htold⟩

end Reach

/-! ## Runs of `translate` -/

/-- The route that `run_translation` got, its job there and the reply. -/
structure AskedOf (route : service.Route) (segments : List String) (h : Asked)
    (translations : List Translation) (pivot : Option String) (entry receiver : Nat) : Prop where
  loaded : ∃ budget_mb,
    ⟨.ensure_loaded route.source route.target route.allow_pivot budget_mb, .ok entry⟩ ∈ h
  submitted : ⟨.submit entry segments route.html route.priority, some receiver⟩ ∈ h
  reply : (entry, receiver, some (.ok translations)) ∈ replies h
  pivot : (entry, pivot) ∈ pivots h

theorem AskedOf.append_left {route : service.Route} {segments : List String} {h : Asked}
    {translations : List Translation} {pivot : Option String} {entry receiver : Nat}
    (ha : AskedOf route segments h translations pivot entry receiver) (h₀ : Asked) :
    AskedOf route segments (h₀ ++ h) translations pivot entry receiver where
  loaded := ha.loaded.imp fun _ hmem => List.mem_append_right _ hmem
  submitted := List.mem_append_right _ ha.submitted
  reply := by simp [ha.reply]
  pivot := by simp [ha.pivot]

theorem asked_run_translation {route : service.Route} {segments : List String} {attempts : Nat}
    {h : Asked} {translations : List Translation} {pivot : Option String}
    (hrun : (run_translation route segments attempts).Runs h (.ok (translations, pivot))) :
    ∃ entry receiver, AskedOf route segments h translations pivot entry receiver := by
  induction attempts generalizing h with
  | zero => cases (Prog.runs_throw.mp hrun).2
  | succ attempts ih =>
      unfold run_translation at hrun
      rcases Prog.runs_bind.mp hrun with ⟨e, -, heq⟩ | ⟨h₁, h₂, entry, rfl, hloaded, hsubmit⟩
      · cases heq
      obtain ⟨config, rfl⟩ := runs_ensure_loaded.mp hloaded
      obtain ⟨receiver, h₃, rfl, hrest⟩ := Prog.runs_ask_bind.mp hsubmit
      cases receiver with
      | none =>
          obtain ⟨-, h₄, rfl, hagain⟩ := Prog.runs_ask_bind.mp hrest
          obtain ⟨entry', receiver', ha⟩ := ih hagain
          exact ⟨entry', receiver', (ha.append_left [_, _]).append_left _⟩
      | some receiver =>
          obtain ⟨outcome, h₄, rfl, hreply⟩ := Prog.runs_ask_bind.mp hrest
          rcases outcome with - | ((- | message) | translations')
          case some.ok =>
              obtain ⟨pivot', h₅, rfl, hdrop⟩ := Prog.runs_ask_bind.mp hreply
              obtain ⟨-, h₆, rfl, hend⟩ := Prog.runs_ask_bind.mp hdrop
              obtain ⟨rfl, heq⟩ := Prog.runs_pure.mp hend
              cases heq
              exact ⟨entry, receiver, ⟨config.memory_budget_mb, by simp⟩, by simp, by simp [replies],
                by simp [pivots]⟩
          all_goals
            obtain ⟨-, h₅, rfl, hend⟩ := Prog.runs_ask_bind.mp hreply
            cases (Prog.runs_throw.mp hend).2

/-- The results of a `translate` that got these translations. -/
def translateResults (segments : List String) (want_sentences : Bool)
    (translations : List Translation) (pivot : Option String) : Results :=
  (if want_sentences then
    [(result_key.SENTENCES, .spans (List.zipWith sentence_spans segments translations))]
  else [])
    ++ [(result_key.TRANSLATIONS, .strs (translations.map (·.text)))] ++ pivotResult pivot

theorem asked_translate {route : service.Route} {segments : List String} {want_sentences : Bool}
    {h : Asked} {results : Results}
    (hrun : (translate route segments want_sentences).Runs h (.ok results)) :
    ∃ translations pivot entry receiver,
      AskedOf route segments h translations pivot entry receiver
        ∧ results = translateResults segments want_sentences translations pivot := by
  obtain ⟨start, h₀, rfl, hrun₀⟩ := Prog.runs_ask_bind.mp hrun
  rcases Prog.runs_bind.mp hrun₀ with
    ⟨e, -, heq⟩ | ⟨h₁, h₂, ⟨translations, pivot⟩, rfl, htranslated, hend⟩
  · cases heq
  obtain ⟨entry, receiver, ha⟩ := asked_run_translation htranslated
  obtain ⟨rfl, heq⟩ := Prog.runs_pure.mp hend
  cases heq
  rw [List.append_nil]
  exact ⟨translations, pivot, entry, receiver, ha.append_left [_], rfl⟩

/-! ## Responses -/

section Answers

variable {host : Host} {ok : Daemon → DaemonEvent → Prop} {config : Config} {d : Daemon}
  {f : ModelSpec → Option ModelSpec → Bool → String → Translation}

/-- A success that was sent is what the future returned. -/
theorem returned_of_response
    (hreach : Machine.Reach (Daemon.step host) ok (Daemon.init config host) d) {id object : Nat}
    {results : Results}
    (hmem : .response id object response_code.SUCCESS results ∈ d.requests.log) :
    .returned id (.ok results) ∈ d.requests.log := by
  have hrequests : Machine.Reach (Requests.step host.display) Machine.anyStep Requests.init
      d.requests := by
    refine hreach.project (f := Daemon.requests) fun d e d' _ _ hs => ?_
    rcases (Daemon.step_cases hs).2.requests with hr | ⟨event, hr, -⟩
    · rw [hr]
      exact .init
    · exact .one trivial hr
  have hinv := requestsInv_of_reach hrequests
  have hlt : id < d.requests.calls.length := hinv.known.log _ hmem
  have hstory := hinv.told.story id _ (List.getElem?_eq_getElem hlt)
  have hhistory : .response id object response_code.SUCCESS results ∈ d.requests.history id :=
    List.mem_filter.mpr ⟨hmem, by simp [Signal.call]⟩
  obtain ⟨post, pre, hsplit⟩ := List.append_of_mem hhistory
  obtain ⟨⟨mid, pre', rfl, hverdict⟩, -⟩ := hstory.response_spec _ _ _ _ _ hsplit
  have hcancelled : .cancelled id ∉ pre' := fun hmem =>
    absurd (hverdict.cancelled hmem).1 (by decide)
  obtain ⟨result, hreturns, hresult⟩ := hverdict.returned hcancelled
  cases result with
  | error error => exact absurd hresult.1 (by decide)
  | ok value =>
      obtain rfl := hresult.2
      have hreturned : Except.ok results ∈ returns pre' := by
        rw [hreturns]
        exact List.mem_singleton_self _
      obtain ⟨signal, hsignal, hsome⟩ := List.mem_filterMap.mp hreturned
      have hold : signal ∈ d.requests.history id := by
        rw [hsplit]
        simp [hsignal]
      obtain ⟨hlog, hid⟩ := List.mem_filter.mp hold
      split at hsome
      · cases hsome
        obtain rfl := of_decide_eq_true hid
        exact hlog
      · cases hsome

/-- The route translated the segments of the request. -/
structure Daemon.Served (d : Daemon) (id : Nat) (route : service.Route) (segments : List String)
    (entry : PairEntry) : Prop where
  registered : ∃ k : Nat, d.workers.heap[k]? = some entry
  key : entry.key = (route.source, route.target)
  job : ∃ job ∈ entry.scheduler.accepted, job.cancelled = id ∧ job.remaining = segments
    ∧ job.html = route.html

end Answers

/-- An engine that shows when it pivots. -/
def viaHost : Host := { echoHost with
  translate := fun _ second => perSegment fun _ text =>
    ⟨(if second.isSome then "via " else "") ++ text, []⟩ }

end Dragomand
