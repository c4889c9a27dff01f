import Dragomand.ConfigRange
import Dragomand.JobBounds
import Dragomand.Prepared
import Dragomand.SparedRoutes

/-!
# A route is there when it is reported

Between its load and the `Response` of the `prepare_pair` that asked for it,
a route may go in the eviction that its own load ends with, or in any other.
`Daemon.Spares` are the steps that keep it. A load ends, and the evictions
of `SetConfig`, of the sweep and of `remove_pair` begin, only where they
leave alone the routes that are still to be reported; and the clock stands
still while an eviction with such routes about reads. Under them the
registry has the route when `ensure_loaded` returns and when the `Response`
goes out (`RoutesThere`). For one load with nobody else about,
`load_spared_iff` has the condition in terms of costs.
-/

namespace Dragomand

/-! ## Routes still to be reported -/

/-- The route that a load returns when the eviction that it ends with is
over. -/
def Workers.returning (w : Workers) : Option Nat :=
  match w.lock with
  | some (.evicting op) => op.ret.map fun _ => w.heap.length - 1
  | _ => none

/-- That route, and those of every `prepare_pair` that is not answered
yet. -/
def Daemon.awaited (d : Daemon) : List Nat :=
  d.workers.returning.toList
    ++ (List.range d.works.length).filterMap fun id => (d.prepared id).map Prod.snd

/-- Loads end and evictions begin where they leave those routes alone, the
new route included, and time does not pass while such an eviction reads. -/
def Daemon.Spares (d : Daemon) : DaemonEvent → Prop
  | .work _ (.loaded (.ok measured)) => d.workers.Fits measured d.workers.now
      ∧ ∀ n ∈ d.awaited, d.workers.Fits measured (d.workers.last_used n)
  | .workers (.evict stage) => ∀ n ∈ d.awaited, d.workers.Leaves n stage
  | .workers .tick => d.workers.scanning = true → d.awaited = []
  | _ => True

instance (d : Daemon) (e : DaemonEvent) : Decidable (d.Spares e) :=
  match e with
  | .workers .tick | .workers (.evict _) | .work _ (.loaded (.ok _)) => by
      delta Daemon.Spares; infer_instance
  | .workers (.ensure _ _ _ _ _ _ _) | .workers (.loaded _) | .workers (.abort _)
  | .workers (.submit _ _ _ _ _ _) | .workers (.stamp _) | .workers (.dropArc _ _)
  | .workers .advance | .workers (.scan _) | .workers (.scheduler _ _) | .workers (.cancel _)
  | .work _ (.loaded (.error _)) | .work _ .proceed | .work _ (.ensure _) | .work _ (.installed _)
  | .work _ (.updates _) | .work _ (.read _) | .work _ (.written _) | .receive _ _ _ | .touch _
  | .handle _ | .requests _ | .store _ | .configure _ | .count | .isEmpty | .idleFor | .interrupt
  | .exit => .isTrue trivial

/-- The evictions of loads keep their routes, which are the last that their
callers were given; and every route still to be reported is kept. -/
structure LoadsKept (d : Daemon) : Prop where
  own : ∀ n, d.workers.returning = some n → d.workers.heap.length = n + 1
    ∧ ∃ key, d.workers.Kept key n
  used : ∀ id, d.workers.evictsFor id = true → ∃ work n, d.works[id]? = some work
    ∧ d.workers.heap.length = n + 1 ∧ work.used.head? = some n
  prepared : ∀ id key n, d.prepared id = some (key, n) → d.workers.Kept key n

theorem Workers.returning_iff {w : Workers} {n : Nat} : w.returning = some n
    ↔ ∃ op caller, w.lock = some (.evicting op) ∧ op.ret = some caller ∧ n = w.heap.length - 1 := by
  unfold Workers.returning
  split
  · rename_i op hlock
    rw [Option.map_eq_some_iff]
    constructor
    · rintro ⟨caller, hret, rfl⟩
      exact ⟨op, caller, hlock, hret, rfl⟩
    · rintro ⟨op', caller, hlock', hret, rfl⟩
      cases hlock.symm.trans hlock'
      exact ⟨caller, hret, rfl⟩
  · rename_i hlock
    exact ⟨nofun, fun ⟨op, _, h, _⟩ => absurd h (hlock op)⟩

theorem Daemon.mem_awaited {d : Daemon} {n : Nat} : n ∈ d.awaited
    ↔ d.workers.returning = some n ∨ ∃ id key, d.prepared id = some (key, n) := by
  unfold Daemon.awaited
  rw [List.mem_append, Option.mem_toList, List.mem_filterMap]
  refine or_congr Iff.rfl ⟨?_, ?_⟩
  · rintro ⟨id, -, hn⟩
    obtain ⟨⟨key, n'⟩, hprepared, rfl⟩ := Option.map_eq_some_iff.mp hn
    exact ⟨id, key, hprepared⟩
  · rintro ⟨id, key, hprepared⟩
    obtain ⟨-, work, -, hwork, -⟩ := Daemon.prepared_eq_some.mp hprepared
    exact ⟨id, List.mem_range.mpr (List.getElem?_eq_some_iff.mp hwork).1, by rw [hprepared]; rfl⟩

theorem Workers.evictsFor_iff {w : Workers} {id : Nat} :
    w.evictsFor id = true ↔ ∃ op, w.lock = some (.evicting op) ∧ op.ret = some id := by
  unfold Workers.evictsFor
  split
  · rename_i op hlock
    rw [decide_eq_true_iff]
    constructor
    · exact fun hret => ⟨op, hlock, hret⟩
    · rintro ⟨op', hlock', hret⟩
      cases hlock.symm.trans hlock'
      exact hret
  · rename_i hlock
    exact ⟨nofun, fun ⟨op, h, _⟩ => absurd h (hlock op)⟩

section Step

variable {host : Host} {d d' : Daemon} {e : DaemonEvent}

/-- A future waits for the eviction that its load ends with. -/
theorem Daemon.works_evicting (hs : d.step host e = some d') {id : Nat} {work : Work}
    (hwork : d.works[id]? = some work) (hevicts : d.workers.evictsFor id = true) :
    d'.works[id]? = some work := by
  obtain ⟨work', hwork', -⟩ := (Daemon.step_cases hs).2.works_self hwork
  cases Daemon.follows hs hwork' with
  | same hsame => rw [hwork', hwork.symm.trans hsame]
  | answered hevent =>
      obtain ⟨event, rfl⟩ := hevent
      obtain ⟨work₀, -, h⟩ := Option.bind_eq_some_iff.mp (Daemon.act_of_step hs)
      rw [hevicts] at h
      simp at h
  | spawned hnone => cases hnone.symm.trans hwork

/-- The route that a step has loaded for call `id`. -/
theorem Daemon.Transition.used_loaded (h : d.Transition host e d') {id : Nat} {key : Key}
    {pivot : Option String} {first : ModelSpec} {second : Option ModelSpec} {budget_mb : Nat}
    (hlock : d.workers.lock = some (.loading id key pivot first second budget_mb)) {op : Evicting}
    {caller : Nat} (hlock' : d'.workers.lock = some (.evicting op)) (hret : op.ret = some caller) :
    caller = id ∧ ∃ work, d'.works[id]? = some work ∧ work.used.head? = some d.workers.heap.length
      ∧ d'.workers.heap.length = d.workers.heap.length + 1 := by
  have hload : ∀ {event : WorkersEvent}, d.workers.step host.translate event = some d'.workers →
      ∃ measured, event = .loaded (.ok measured) := by
    intro event hw
    rcases Workers.evicting_of_step hw hlock' with heq | ⟨_, heq, -⟩ | ⟨hnone, -⟩ | hloaded
    · cases hlock.symm.trans heq
    · cases hlock.symm.trans heq
    · cases hnone.symm.trans hret
    · exact hloaded
  have hidle : d'.workers = d.workers → False := by
    intro hsame
    rw [hsame, hlock] at hlock'
    cases hlock'
  cases h with
  | receive | touch | answer | noObject | spawn | cancel | task | step | progress | «return»
  | store | configure | sleep | counted | emptied | timed | exit => exact (hidle rfl).elim
  | dropWork hevent hr hw =>
      rcases hw with hw | hw | ⟨entry, hw⟩
      · exact (hidle hw).elim
      · obtain ⟨_, heq⟩ := hload hw
        cases heq
      · obtain ⟨_, heq⟩ := hload hw
        cases heq
  | routes hfree hw =>
      obtain ⟨_, rfl⟩ := hload hw
      cases hfree
  | hit hat hw | failed hat hw | loading hat hw =>
      obtain ⟨_, heq⟩ := hload (Workers.step_ensure hw)
      cases heq
  | @loadFailed _ _ _ _ _ _ _ message _ _ hw =>
      obtain ⟨_, heq⟩ := @hload (.loaded (.error (.engineFailure message))) hw
      cases heq
  | submit hat hw | drop hat hw =>
      obtain ⟨_, heq⟩ := hload hw
      cases heq
  | @loaded id₀ measured work source target allow_pivot budget_mb next w hat hloads hw =>
      unfold Workers.loadsFor at hloads
      rw [hlock] at hloads
      obtain rfl := of_decide_eq_true hloads
      refine ⟨?_, { work with
        used := d.workers.heap.length :: work.used
        prog := next (.ok d.workers.heap.length) }, ?_, rfl, ?_⟩
      · simp only [Workers.loaded, hlock] at hw
        cases hw
        cases hlock'
        exact (Option.some.inj hret).symm
      · have hfuture : ({ d with workers := w } : Daemon).works[id]? = some work := hat.future
        rw [Daemon.resume_getElem? hfuture, if_pos rfl]
        rfl
      · simp only [Workers.loaded, hlock] at hw
        cases hw
        exact List.length_append

/-- A step that spares them keeps them. -/
theorem Daemon.kept_step (hs : d.step host e = some d') (hspares : d.Spares e)
    (hc : d.workers.Counted) (hr : Routed d.workers) {key : Key} {n : Nat} (hn : n ∈ d.awaited)
    (hk : d.workers.Kept key n) : d'.workers.Kept key n := by
  rcases (Daemon.step_cases hs).2.workers with hw | ⟨event, hw, hdrives⟩
  · rwa [hw]
  · refine Workers.kept_step hk hw hc hr ?_ ?_ ?_
    · intro measured hevent
      obtain ⟨id, rfl⟩ := hdrives.loaded measured hevent
      exact hspares.2 n hn
    · rintro stage rfl
      obtain rfl := hdrives.free rfl
      exact hspares n hn
    · rintro rfl
      obtain rfl := hdrives.free rfl
      by_contra hscanning
      rw [hspares (by simpa using hscanning)] at hn
      cases hn

/-- Routes are added by the ends of loads. -/
theorem Daemon.loaded_of_grows (hs : d.step host e = some d')
    (hgrows : d'.workers.heap.length ≠ d.workers.heap.length) :
    ∃ id measured, e = .work id (.loaded (.ok measured))
      ∧ d.workers.loaded (.ok measured) = some d'.workers := by
  rcases (Daemon.step_cases hs).2.workers with hw | ⟨event, hw, hdrives⟩
  · exact absurd (congrArg (fun w => w.heap.length) hw) hgrows
  · by_cases hloaded : ∃ measured, event = .loaded (.ok measured)
    · obtain ⟨measured, rfl⟩ := hloaded
      obtain ⟨id, rfl⟩ := hdrives.loaded measured rfl
      exact ⟨id, measured, rfl, hw⟩
    · push Not at hloaded
      exact absurd (Workers.length_heap_of_step hw hloaded) hgrows

/-- A new route is kept, by the eviction that its load ends with. -/
theorem Daemon.kept_loaded (hs : d.step host e = some d') (hspares : d.Spares e)
    (hr : Routed d.workers) (hgrows : d'.workers.heap.length ≠ d.workers.heap.length) :
    d'.workers.heap.length = d.workers.heap.length + 1
      ∧ ∀ key, d'.workers.entries.lookup key = some d.workers.heap.length →
        d'.workers.Kept key d.workers.heap.length := by
  obtain ⟨id, measured, rfl, hloaded⟩ := Daemon.loaded_of_grows hs hgrows
  have hentries := hloaded
  simp only [Workers.loaded] at hentries
  split at hentries
  · rename_i caller key₀ pivot first second budget_mb hlock
    obtain hw := Option.some.inj hentries
    refine ⟨by rw [← hw, List.length_append, List.length_singleton], fun key hregistered => ?_⟩
    have hstamp : d'.workers.last_used d.workers.heap.length = d.workers.now := by
      unfold Workers.last_used
      rw [← hw, List.getElem?_concat_length]
      rfl
    exact Workers.kept_loaded hr (hr.free _ _ _ _ _ _ hlock) hlock hloaded hregistered
      (hstamp ▸ hspares.1)
  · cases hentries

/-- What is kept for the caller of a load, the step keeps. -/
theorem LoadsKept.own_step (hk : LoadsKept d) (hc : d.workers.Counted) (hr : Routed d.workers)
    (hspares : d.Spares e) (hs : d.step host e = some d') {n : Nat}
    (hreturning : d'.workers.returning = some n) :
    d'.workers.heap.length = n + 1 ∧ ∃ key, d'.workers.Kept key n := by
  obtain ⟨op', caller, hlock', hret, rfl⟩ := Workers.returning_iff.mp hreturning
  by_cases hgrows : d'.workers.heap.length = d.workers.heap.length
  · -- the same load returns it
    have hold : d.workers.returning = some (d'.workers.heap.length - 1) := by
      rcases (Daemon.step_cases hs).2.workers with hw | ⟨event, hw, -⟩
      · rwa [← hw]
      · rw [hgrows]
        rcases Workers.evicting_of_step hw hlock' with
          hlock | ⟨op, hlock, hsame, -⟩ | ⟨hnone, -⟩ | ⟨measured, rfl⟩
        · exact Workers.returning_iff.mpr ⟨op', caller, hlock, hret, rfl⟩
        · exact Workers.returning_iff.mpr ⟨op, caller, hlock, hsame ▸ hret, rfl⟩
        · cases hnone.symm.trans hret
        · simp only [Workers.step, Workers.loaded] at hw
          split at hw
          · have hlength := congrArg (fun w => w.heap.length) (Option.some.inj hw)
            rw [hgrows] at hlength
            simp at hlength
          · cases hw
    obtain ⟨hlength, key, hkept⟩ := hk.own _ hold
    refine ⟨hgrows.trans hlength, key, ?_⟩
    exact Daemon.kept_step hs hspares hc hr (Daemon.mem_awaited.mpr (Or.inl hold)) hkept
  · obtain ⟨hlength, hkept⟩ := Daemon.kept_loaded hs hspares hr hgrows
    obtain ⟨id, measured, rfl, hloaded⟩ := Daemon.loaded_of_grows hs hgrows
    simp only [Workers.loaded] at hloaded
    split at hloaded
    · rename_i caller key pivot first second budget_mb hlock
      rw [hlength, Nat.add_sub_cancel]
      refine ⟨rfl, key, hkept key ?_⟩
      rw [← Option.some.inj hloaded]
      exact AList.lookup_insert _
    · cases hloaded

/-- The route that a `prepare_pair` has after the step. -/
theorem LoadsKept.prepared_step (hk : LoadsKept d) (hc : d.workers.Counted) (hr : Routed d.workers)
    (hl : LoadsAsked d)
    (hran : ∀ (id : Nat) (work : Work), d.works[id]? = some work → ∃ h, work.Ran host h)
    (hspares : d.Spares e) (hs : d.step host e = some d') {id n : Nat} {key : Key}
    (hprepared : d'.prepared id = some (key, n)) : d'.workers.Kept key n := by
  rcases Daemon.prepared_of_step hl hran hs hprepared with
    hold | ⟨hlookup, hfree, event, rfl⟩ | ⟨hlookup, rfl, measured, hloaded⟩
  · exact Daemon.kept_step hs hspares hc hr (Daemon.mem_awaited.mpr (Or.inr ⟨id, key, hold⟩))
      (hk.prepared id key n hold)
  · -- it was registered, and nobody evicts
    refine ⟨?_, fun op hlock => by cases hfree.symm.trans hlock⟩
    rcases (Daemon.step_cases hs).2.workers with hw | ⟨event', hw, hdrives⟩
    · rw [hw, hlookup]
    · refine Workers.lookup_of_step hw hr.free hlookup ?_
      rintro rfl
      cases hdrives.free rfl
  · refine (Daemon.kept_loaded hs hspares hr ?_).2 key hlookup
    simp only [Workers.loaded] at hloaded
    split at hloaded
    · rw [← Option.some.inj hloaded, List.length_append]
      exact Nat.succ_ne_self _
    · cases hloaded

theorem loadsKept_step (hk : LoadsKept d) (hc : d.workers.Counted) (hr : Routed d.workers)
    (hl : LoadsAsked d)
    (hran : ∀ (id : Nat) (work : Work), d.works[id]? = some work → ∃ h, work.Ran host h)
    (hspares : d.Spares e) (hs : d.step host e = some d') : LoadsKept d' where
  own := fun _ => hk.own_step hc hr hspares hs
  used := by
    intro id hevicts'
    have htr := (Daemon.step_cases hs).2
    -- the eviction was there before the step
    have hold : d.workers.evictsFor id = true → d'.workers.heap.length = d.workers.heap.length →
        ∃ work n, d'.works[id]? = some work ∧ d'.workers.heap.length = n + 1
          ∧ work.used.head? = some n := by
      intro hevicts hlength
      obtain ⟨work, n, hwork, hn, hused⟩ := hk.used id hevicts
      exact ⟨work, n, Daemon.works_evicting hs hwork hevicts, hlength.trans hn, hused⟩
    rcases htr.workers with hw | ⟨event, hw, -⟩
    · exact hold (hw ▸ hevicts') (by rw [hw])
    · obtain ⟨op', hlock', hret⟩ := Workers.evictsFor_iff.mp hevicts'
      have hlength : ∀ {op : Evicting}, d.workers.lock = some (.evicting op) →
          d'.workers.heap.length = d.workers.heap.length := by
        intro op hlock
        refine Workers.length_heap_of_step hw ?_
        rintro measured rfl
        simp only [Workers.step, Workers.loaded, hlock] at hw
        cases hw
      rcases Workers.evicting_of_step hw hlock' with
        hlock | ⟨op, hlock, hsame, -⟩ | ⟨hnone, -⟩ | ⟨measured, rfl⟩
      · exact hold (Workers.evictsFor_iff.mpr ⟨op', hlock, hret⟩) (hlength hlock)
      · exact hold (Workers.evictsFor_iff.mpr ⟨op, hlock, hsame ▸ hret⟩) (hlength hlock)
      · cases hnone.symm.trans hret
      · have hloaded := hw
        simp only [Workers.step, Workers.loaded] at hloaded
        split at hloaded
        · rename_i caller key pivot first second budget_mb hlock
          obtain ⟨rfl, work, hwork, hused, hlength⟩ := htr.used_loaded hlock hlock' hret
          exact ⟨work, _, hwork, hlength, hused⟩
        · cases hloaded
  prepared := fun _ _ _ => hk.prepared_step hc hr hl hran hspares hs

end Step

/-! ## Whole runs -/

section Runs

variable {host : Host} {ok : Daemon → DaemonEvent → Prop} {config : Config} {d : Daemon}

theorem counted_of_reach
    (hreach : Machine.Reach (Daemon.step host) ok (Daemon.init config host) d) :
    d.workers.Counted := by
  refine hreach.invariant (I := fun d => d.workers.Counted) Workers.counted_init
    fun d e d' _ _ hs hc => ?_
  rcases (Daemon.step_cases hs).2.workers with hw | ⟨event, hw, -⟩
  · rwa [hw]
  · exact Workers.counted_step hw hc

theorem loadsKept_of_reach
    (hreach : Machine.Reach (Daemon.step host) Daemon.Spares (Daemon.init config host) d) :
    LoadsKept d := by
  refine hreach.invariant ⟨nofun, nofun, ?_⟩ fun d e d' hpre hok hs hk => ?_
  · intro id key n h
    obtain ⟨-, work, _, hwork, -⟩ := Daemon.prepared_eq_some.mp h
    cases hwork
  · exact loadsKept_step hk (counted_of_reach hpre) (routed_of_reach hpre) (loadsAsked_of_reach hpre)
      (fun _ _ hwork => ran_of_reach hpre hwork) hok hs

theorem told_of_reach
    (hreach : Machine.Reach (Daemon.step host) ok (Daemon.init config host) d) :
    Told host.display d.requests := by
  have hrequests : Machine.Reach (Requests.step host.display) Machine.anyStep Requests.init
      d.requests := ?_
  · exact (requestsInv_of_reach hrequests).told
  refine hreach.project (f := Daemon.requests) fun d e d' _ _ hs => ?_
  rcases (Daemon.step_cases hs).2.requests with hr | ⟨event, hr, -⟩
  · rw [hr]
    exact .init
  · exact .one trivial hr

/-- A success to be sent is what the future returned. -/
theorem returned_of_responding
    (hreach : Machine.Reach (Daemon.step host) ok (Daemon.init config host) d) {id : Nat} {c : Call}
    {results : Results} (hcall : d.requests.calls[id]? = some c)
    (hphase : c.phase = .responding response_code.SUCCESS results) :
    .returned id (.ok results) ∈ d.requests.log := by
  have hstory := (told_of_reach hreach).story id c hcall
  rw [hphase] at hstory
  obtain ⟨mid, pre, hhistory, hverdict⟩ := hstory.verdict
  have hcancelled : .cancelled id ∉ pre := fun hmem =>
    absurd (hverdict.cancelled hmem).1 (by decide)
  obtain ⟨result, hreturns, hresult⟩ := hverdict.returned hcancelled
  cases result with
  | error error => exact absurd hresult.1 (by decide)
  | ok value =>
      obtain rfl := hresult.2
      have hmem : Except.ok results ∈ returns pre := by
        rw [hreturns]
        exact List.mem_singleton_self _
      obtain ⟨signal, hsignal, hsome⟩ := List.mem_filterMap.mp hmem
      have hold : signal ∈ d.requests.history id := by
        rw [hhistory]
        exact List.mem_append_right _ (List.mem_cons_of_mem _ hsignal)
      obtain ⟨hlog, hid⟩ := List.mem_filter.mp hold
      split at hsome
      · cases hsome
        obtain rfl := of_decide_eq_true hid
        exact hlog
      · cases hsome

/-- Where a route is when its request is told of it. -/
structure Daemon.RoutesThere (host : Host) (d : Daemon) : Prop where
  /-- A load returns its route when the eviction that it ends with is over:
  the route is registered, under its pair. -/
  loaded : ∀ e d' id, d.step host e = some d' → d.workers.evictsFor id = true →
    d'.workers.evictsFor id = false → ∃ work n entry, d'.works[id]? = some work
      ∧ work.used.head? = some n ∧ d'.workers.heap[n]? = some entry
      ∧ d'.workers.entries.lookup entry.key = some n
  /-- So is the route of a `prepare_pair` whose `Response` is about to be
  sent. -/
  reported : ∀ (id : Nat) (c : Call) (work : Work) (source target : String) (allow_pivot : Bool)
    (results : Results), d.requests.calls[id]? = some c →
    c.phase = .responding response_code.SUCCESS results → d.works[id]? = some work →
    work.method = .prepare_pair source target allow_pivot →
    ∃ n, work.used.head? = some n ∧ d.workers.entries.lookup (source, target) = some n

theorem routesThere_of_reach
    (hreach : Machine.Reach (Daemon.step host) Daemon.Spares (Daemon.init config host) d) :
    d.RoutesThere host where
  loaded := by
    intro e d' id hs hevicts hends
    have hk := loadsKept_of_reach hreach
    obtain ⟨op, hlock, hret⟩ := Workers.evictsFor_iff.mp hevicts
    obtain ⟨work, n, hwork, hlength, hused⟩ := hk.used id hevicts
    obtain ⟨-, key, hkept⟩ := hk.own n
      (Workers.returning_iff.mpr ⟨op, id, hlock, hret, by rw [hlength]; rfl⟩)
    have hr := routed_of_reach hreach
    obtain ⟨entry, hentry, hkey⟩ := hr.keys key n hkept.registered
    refine ⟨work, n, ?_⟩
    rcases (Daemon.step_cases hs).2.workers with hw | ⟨event, hw, -⟩
    · rw [hw, hevicts] at hends
      cases hends
    · obtain ⟨entry', hentry', hev⟩ := Workers.heap_persists hw hentry
      refine ⟨entry', Daemon.works_evicting hs hwork hevicts, hused, hentry', ?_⟩
      rw [hev.route.1, hkey]
      refine Workers.lookup_of_step hw hr.free hkept.registered fun _ hvictim => ?_
      simp only [Workers.victim, hlock] at hvictim
      exact (hkept.passes op hlock).1 (List.mem_of_mem_head? hvictim)
  reported := by
    intro id c work source target allow_pivot results hcall hphase hwork hmethod
    obtain ⟨h, hran⟩ := ran_of_reach hreach hwork
    obtain ⟨work', hwork', hdone⟩ :=
      done_of_returned hreach (returned_of_responding hreach hcall hphase)
    obtain rfl := Option.some.inj (hwork.symm.trans hwork')
    obtain ⟨prog, hfuture, hpath⟩ := hran.path
    rw [hmethod] at hfuture
    cases hfuture
    rw [hdone] at hpath
    obtain ⟨h₁, h₂, n, budget_mb, disk, -, -, -, hlast, -⟩ := runs_prepare_pair hpath
    have hused : work.used.head? = some n := by rw [hran.used, List.head?_reverse, hlast]
    refine ⟨n, hused, ((loadsKept_of_reach hreach).prepared id _ n (Daemon.prepared_eq_some.mpr
      ⟨?_, work, allow_pivot, hwork, hmethod, hused⟩)).registered⟩
    rw [Requests.closed_of_call hcall, hphase]
    rfl

end Runs

/-- **A load that spares its own route.** With pins and the clock fixed, a
load returns a registered route, which the next lookup finds, if and only if
the budget is enough for it and for the routes in use. In every run of the
daemon whose steps spare the routes, they are there when their requests are
told of them. -/
theorem own_load_spared (host : Host) (config : Config) :
    (∀ (w w₁ : Workers) (caller : Nat) (key : Key) (pivot : Option String) (first : ModelSpec)
      (second : Option ModelSpec) (budget_mb measured : Nat), w.Sound →
      w.entries.lookup key = none →
      w.lock = some (.loading caller key pivot first second budget_mb) →
      w.loaded (.ok measured) = some w₁ →
      ((∀ w', Machine.Reach (Workers.step host.translate) evictionOnly w₁ w' → w'.lock = none →
          w'.Serves key w.heap.length)
        ↔ w.costs w.inUse
            + max measured ((1 + if second.isSome then 1 else 0) * ESTIMATED_MODEL_MB) ≤ budget_mb))
    ∧ ∀ d, Machine.Reach (Daemon.step host) Daemon.Spares (Daemon.init config host) d →
      d.RoutesThere host := by
  refine ⟨fun w w₁ caller key pivot first second budget_mb measured hsound hfree hlock hloaded => ?_,
    fun d hreach => routesThere_of_reach hreach⟩
  exact load_spared_iff (Workers.added hsound hfree hlock hloaded) hfree

/-! ## Two runs -/

/-- A budget for two models. -/
def twoModels : Config := { Config.default with memory_budget_mb := 128 }

/-- A client prepares Bulgarian to English with call 0, and is told so. -/
def prepareBgEn (disk : Disk) : List DaemonEvent :=
  [.receive ":1.7" "s" (.prepare_pair "bg" "en" true), .touch 0, .handle 0, .requests (.register 0),
    .requests (.at 0 none)]
    ++ List.replicate 4 (.work 0 .proceed) ++ [.work 0 (.ensure disk)] ++ loadRoute 0
    ++ endPrepare 0 ++ [.requests (.decide 0), .requests (.emit 0 true)]

/-- The loop over the budget: these routes are read, one goes, and the rest
fit. -/
def evictOne (keys : List Key) : List DaemonEvent :=
  [.workers .advance] ++ keys.map (fun key => .workers (.scan key))
    ++ List.replicate 3 (.workers .advance)

/-- `SetConfig` enforces a budget that fits, and a sweep finds the one route
warm. -/
def evictNone (key : Key) : List DaemonEvent :=
  [.workers (.evict (.budget 128)), .workers .advance, .workers (.evict (.expiredScan 1 600)),
    .workers (.scan key), .workers .advance, .workers .advance, .workers (.scan key),
    .workers .advance, .workers .advance]

/-- Two idle routes and a third one that is loaded make one too many for the
budget, and so do a route and one of two models, which stays through the
evictions that come before its `Response`. -/
theorem own_load_spared_two :
    (∃ w₁, (twoRoutes (some (.loading 0 ("fr", "en") none ⟨[], none, none, none⟩ none 128))).loaded
        (.ok 0) = some w₁
      ∧ ∀ w', Machine.Reach (Workers.step echoHost.translate) evictionOnly w₁ w' → w'.lock = none →
        w'.Serves ("fr", "en") 2)
    ∧ ∃ d, Machine.Reach (Daemon.step echoHost) Daemon.Spares (Daemon.init twoModels echoHost) d
      ∧ (d.requests.calls[1]?.map Call.phase
          = some (.responding response_code.SUCCESS [("pivot", .str "en")])
        ∧ d.workers.entries.keys = [("bg", "de")])
      ∧ d.RoutesThere echoHost := by
  refine ⟨⟨_, rfl, ?_⟩, ?_⟩
  · refine ((own_load_spared echoHost .default).1 (twoRoutes _) _ 0 ("fr", "en") none
      ⟨[], none, none, none⟩ none 128 0 (twoRoutes_sound _) ?_ rfl rfl).mpr ?_
    · decide
    · decide
  · obtain ⟨d, hreach, hd⟩ := Machine.exists_reach_of_run (Daemon.step echoHost) Daemon.Spares
      (Daemon.init twoModels echoHost)
      ([.store (diskOf [("bg", "en"), ("en", "de")])]
        ++ prepareBgEn (diskOf [("bg", "en"), ("en", "de")])
        ++ [.workers .tick] ++ prepareBgDe 1 1 "t" (diskOf [("bg", "en"), ("en", "de")])
        ++ [.work 1 (.loaded (.ok 0))] ++ evictOne [("bg", "de"), ("bg", "en")]
        ++ endPrepare 1 ++ evictNone ("bg", "de") ++ [.requests (.decide 1)])
      (fun d => decide (d.requests.calls[1]?.map Call.phase
          = some (.responding response_code.SUCCESS [("pivot", .str "en")])
        ∧ d.workers.entries.keys = [("bg", "de")]))
      (by decide +kernel)
    exact ⟨d, hreach, of_decide_eq_true hd, (own_load_spared echoHost twoModels).2 d hreach⟩

/-- The least budget that `SetConfig` accepts. -/
def oneModel : Config := { Config.default with memory_budget_mb := 64 }

/-- A route of two models goes in its own load, and is reported. -/
theorem own_load_not_spared :
    oneModel.InRange
      ∧ ∃ d, Machine.Reach (Daemon.step echoHost) Machine.anyStep (Daemon.init oneModel echoHost) d
        ∧ (d.requests.calls[0]?.map Call.phase
            = some (.responding response_code.SUCCESS [("pivot", .str "en")])
          ∧ d.workers.entries.keys = [])
        ∧ ¬ d.RoutesThere echoHost := by
  constructor
  · intro key hkey min max n hkind hget
    simp only [KEYS, List.mem_cons, List.not_mem_nil, or_false] at hkey
    rcases hkey with rfl | rfl | rfl | rfl | rfl | rfl <;> cases hkind <;> cases hget <;> decide
  · obtain ⟨d, hreach, hd⟩ := Machine.exists_reach_of_run (Daemon.step echoHost) Machine.anyStep
      (Daemon.init oneModel echoHost)
      ([.store (diskOf [("bg", "en"), ("en", "de")])]
        ++ prepareBgDe 0 0 "t" (diskOf [("bg", "en"), ("en", "de")]) ++ [.work 0 (.loaded (.ok 0))]
        ++ evictOne [("bg", "de")] ++ endPrepare 0 ++ [.requests (.decide 0)])
      (fun d => decide ((d.requests.calls[0]?.map Call.phase
            = some (.responding response_code.SUCCESS [("pivot", .str "en")])
          ∧ d.workers.entries.keys = [])
        ∧ (d.works[0]?.any fun work => work.method = .prepare_pair "bg" "de" true) = true))
      (by decide +kernel)
    obtain ⟨⟨hphase, hkeys⟩, hwork⟩ := of_decide_eq_true hd
    refine ⟨d, hreach, ⟨hphase, hkeys⟩, fun hthere => ?_⟩
    obtain ⟨c, hcall, hphase⟩ := Option.map_eq_some_iff.mp hphase
    obtain ⟨work, hwork, hmethod⟩ := (Option.any_eq_true _ _).mp hwork
    obtain ⟨n, -, hlookup⟩ :=
      hthere.reported 0 c work "bg" "de" true _ hcall hphase hwork (of_decide_eq_true hmethod)
    have hmem := AList.mem_keys.mp (AList.lookup_isSome.mp (by rw [hlookup]; rfl))
    rw [hkeys] at hmem
    cases hmem

end Dragomand
