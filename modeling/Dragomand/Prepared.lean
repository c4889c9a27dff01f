import Dragomand.LoadedFrom
import Dragomand.PivotReported
import Dragomand.RequestResponse
import Dragomand.RouteKeys

/-!
# What `prepare_pair` reports

The future of `prepare_pair` looks the pair up once more when its route is
loaded, and reports the version that it finds. `Sourced` runs the daemon
next to the record of the models that its routes were built from
(`Loads`). The report is right as long as no change of the stores gives a
pair another version while a route of it is in use (`Steady`): then what the
stores have for the pair is what its route was loaded from (`Settled`).
-/

namespace Dragomand

/-- The models that the step makes a load read. -/
def Daemon.loads (d : Daemon) : DaemonEvent → Option (List InstalledModel)
  | .work id (.ensure specs) => d.works[id]?.bind fun work =>
      match work.prog with
      | .op (.ensure_loaded source target allow_pivot budget_mb) _ =>
          some (d.workers.loads (.ensure id source target allow_pivot budget_mb d.disk specs))
      | _ => none
  | _ => none

/-- The step adds a route. -/
def DaemonEvent.builds : DaemonEvent → Bool
  | .work _ (.loaded (.ok _)) => true
  | _ => false

/-- The daemon, with the models of the load in progress and of every
route. -/
structure Sourced where
  daemon : Daemon
  reading : List InstalledModel
  sources : Nat → List InstalledModel

def Sourced.init (config : Config) (host : Host) : Sourced :=
  ⟨.init config host, [], fun _ => []⟩

def Sourced.step (host : Host) (s : Sourced) (e : DaemonEvent) : Option Sourced :=
  (s.daemon.step host e).map fun d =>
    { daemon := d
      reading := (s.daemon.loads e).getD s.reading
      sources :=
        if e.builds then Function.update s.sources s.daemon.workers.heap.length s.reading
        else s.sources }

/-- The registry, with the record. -/
def Sourced.record (s : Sourced) : Loads := ⟨s.daemon.workers, s.reading, s.sources⟩

/-- The copy that route `k`, if it is direct, was loaded from. -/
def Loads.copyOf (s : Loads) (k : Nat) : Option InstalledModel :=
  match s.workers.heap[k]?.map PairEntry.pivot, s.sources k with
  | some none, [m] => some m
  | _, _ => none

/-! ## Requests that have their Response -/

/-- No `Response` of the call is still to come. -/
def Phase.closed : Phase → Bool
  | .emitted | .removed | .ended | .failed _ | .panicked => true
  | _ => false

def Requests.closed (s : Requests) (id : Nat) : Bool := s.calls[id]?.any fun c => c.phase.closed

section Closed

variable {display : Error → String} {s s' : Requests} {e : RequestEvent} {id : Nat}

theorem Requests.closed_of_call {c : Call} (hcall : s.calls[id]? = some c) :
    s.closed id = c.phase.closed := by
  unfold Requests.closed
  rw [hcall]
  rfl

theorem Requests.closed_cancelHandle (id' : Nat) : (s.cancelHandle id').closed id = s.closed id := by
  unfold Requests.closed
  by_cases h : id = id'
  · subst h
    cases hcall : s.calls[id]? <;> simp [cancelHandle, hcall]
  · rw [Requests.calls_cancelHandle_of_ne h]

theorem Requests.closed_setPhase {id' : Nat} {c : Call} {phase : Phase}
    (hcall : s.calls[id']? = some c) (hphase : c.phase.closed = true → phase.closed = true)
    (h : s.closed id = true) : (s.setPhase id' phase).closed id = true := by
  by_cases hid : id = id'
  · subst hid
    rw [Requests.closed_of_call hcall] at h
    rw [Requests.closed_of_call (Requests.calls_setPhase_self hcall)]
    exact hphase h
  · unfold Requests.closed at h ⊢
    rwa [Requests.calls_setPhase_of_ne hid]

theorem Requests.closed_step (h : s.Transition display e s') (hc : s.closed id = true) :
    s'.closed id = true := by
  have hopen : ∀ {id' : Nat} {c : Call} {phase : Phase}, s.calls[id']? = some c →
      c.phase.closed = false → (s.setPhase id' phase).closed id = true := by
    intro id' c phase hcall hphase
    exact Requests.closed_setPhase hcall (fun hc' => absurd hc' (by simp [hphase])) hc
  cases h with
  | @enter sender token c hsender hflag hphase =>
      obtain ⟨c', hcall, hc'⟩ := (Option.any_eq_true _ _).mp hc
      refine (Option.any_eq_true _ _).mpr ⟨c', ?_, hc'⟩
      rw [List.getElem?_append_left (List.getElem?_eq_some_iff.mp hcall).1, hcall]
  | refuse hcall hphase | serverError hcall hphase | duplicate hcall hphase | rollback hcall hphase
  | register hcall hphase | accept hcall hphase | work hcall hphase | cancelWins hcall hphase
  | panic hcall hphase | decide hcall hphase | emit hcall hphase | unsent hcall hphase
  | emitLost hcall hphase => exact hopen hcall (by rw [hphase]; rfl)
  | remove hcall | release hcall => exact Requests.closed_setPhase hcall (fun _ => rfl) hc
  | progress | progressLost | vanish | cancelClient => exact hc
  | cancel | cancelNext => exact (Requests.closed_cancelHandle _).trans hc

theorem Requests.open_of_selecting (h : s.selecting id = true) : s.closed id = false := by
  obtain ⟨c, hcall, hphase⟩ := (Option.any_eq_true _ _).mp h
  rw [Requests.closed_of_call hcall, of_decide_eq_true hphase]
  rfl

end Closed

/-! ## Pairs in use -/

/-- The pair and the route of a `prepare_pair` that has it. -/
def Work.prepared (work : Work) : Option (Key × Nat) :=
  match work.method, work.used with
  | .prepare_pair source target _, n :: _ => some ((source, target), n)
  | _, _ => none

/-- The same, while the `Response` is still to come. -/
def Daemon.prepared (d : Daemon) (id : Nat) : Option (Key × Nat) :=
  if d.requests.closed id then none else d.works[id]?.bind Work.prepared

theorem Daemon.prepared_eq_some {d : Daemon} {id : Nat} {key : Key} {n : Nat} :
    d.prepared id = some (key, n) ↔ d.requests.closed id = false
      ∧ ∃ work allow_pivot, d.works[id]? = some work
        ∧ work.method = .prepare_pair key.1 key.2 allow_pivot ∧ work.used.head? = some n := by
  unfold Daemon.prepared
  cases hclosed : d.requests.closed id with
  | true => simp
  | false =>
      rw [if_neg Bool.false_ne_true]
      constructor
      · intro h
        obtain ⟨work, hwork, h⟩ := Option.bind_eq_some_iff.mp h
        unfold Work.prepared at h
        split at h
        · rename_i source target allow_pivot k used hmethod hused
          cases h
          exact ⟨rfl, work, allow_pivot, hwork, hmethod, by rw [hused]; rfl⟩
        · cases h
      · rintro ⟨-, work, allow_pivot, hwork, hmethod, hused⟩
        rw [hwork, Option.bind_some]
        unfold Work.prepared
        cases hlist : work.used with
        | nil => simp [hlist] at hused
        | cons k used =>
            rw [hlist] at hused
            cases hused
            rw [hmethod]

section Closed

variable {host : Host} {d d' : Daemon} {e : DaemonEvent}

theorem Daemon.Transition.closed (h : d.Transition host e d') {id : Nat}
    (hopen : d'.requests.closed id = false) : d.requests.closed id = false := by
  by_contra hclosed
  rw [Bool.not_eq_false] at hclosed
  rcases h.requests with hr | ⟨event, hr, -⟩
  · rw [hr, hclosed] at hopen
    cases hopen
  · rw [Requests.closed_step (Requests.step_cases hr) hclosed] at hopen
    cases hopen

end Closed

/-- The pair of the load in progress. -/
def Workers.loadingKey (w : Workers) : Option Key :=
  match w.lock with
  | some (.loading _ key _ _ _ _) => some key
  | _ => none

/-- The pairs with a route that is registered, that is being loaded, or that
a `prepare_pair` has which is not answered yet. -/
def Daemon.inUse (d : Daemon) : List Key :=
  d.workers.entries.keys ++ d.workers.loadingKey.toList
    ++ (List.range d.works.length).filterMap fun id => (d.prepared id).map Prod.fst

/-- The pair that call `id` asks a route for. -/
def Daemon.asks (d : Daemon) (id : Nat) : Option Key :=
  d.works[id]?.bind fun work =>
    match work.prog with
    | .op (.ensure_loaded source target _ _) _ => some (source, target)
    | _ => none

/-- After the change there is no copy of the pair, or the best one has the
version that the best one had. -/
def Disk.Keeps (disk disk' : Disk) (key : Key) : Prop :=
  ∀ m' ∈ (disk'.resolve key.1 key.2).toList,
    ((disk.resolve key.1 key.2).any fun m => m.version.raw = m'.version.raw) = true

instance (disk disk' : Disk) (key : Key) : Decidable (disk.Keeps disk' key) := by
  unfold Disk.Keeps
  infer_instance

/-- No change of the stores gives a pair in use another version; nor does one
between the two looks of a load, to the pair of the load. -/
def Daemon.Steady (d : Daemon) : DaemonEvent → Prop
  | .store disk => ∀ key ∈ d.inUse, d.disk.Keeps disk key
  | .work id (.ensure specs) => ∀ key ∈ (d.asks id).toList ++ d.inUse, d.disk.Keeps specs key
  | _ => True

instance (d : Daemon) (e : DaemonEvent) : Decidable (d.Steady e) :=
  match e with
  | .store _ | .work _ (.ensure _) => by delta Daemon.Steady; infer_instance
  | .work _ .proceed | .work _ (.loaded _) | .work _ (.installed _) | .work _ (.updates _)
  | .work _ (.read _) | .work _ (.written _) | .receive _ _ _ | .touch _ | .handle _ | .requests _
  | .workers _ | .configure _ | .count | .isEmpty | .idleFor | .interrupt | .exit => .isTrue trivial

section Step

variable {host : Host} {s s' : Sourced} {e : DaemonEvent}

theorem Sourced.daemon_step (h : s.step host e = some s') :
    s.daemon.step host e = some s'.daemon := by
  obtain ⟨d, hd, rfl⟩ := Option.map_eq_some_iff.mp h
  exact hd

theorem Daemon.act_of_step {d d' : Daemon} (h : d.step host e = some d') :
    d.act host e = some d' := by
  unfold Daemon.step at h
  split at h
  · cases h
  · exact h

/-- The work of a call, in a step of it. -/
theorem Daemon.work_of_step {d d' : Daemon} {id : Nat} {event : WorkEvent}
    (h : d.step host (.work id event) = some d') :
    ∃ work, d.works[id]? = some work ∧ d.work host id work.prog event = some d' := by
  obtain ⟨work, hwork, h⟩ := Option.bind_eq_some_iff.mp (Daemon.act_of_step h)
  split at h
  · exact ⟨work, hwork, h⟩
  · cases h

theorem Daemon.selecting_of_work {d d' : Daemon} {id : Nat} {event : WorkEvent}
    (h : d.step host (.work id event) = some d') : d.requests.selecting id = true := by
  obtain ⟨work, -, h⟩ := Option.bind_eq_some_iff.mp (Daemon.act_of_step h)
  split at h
  · rename_i hselects
    exact (Bool.and_eq_true_iff.mp hselects).1
  · cases h

/-- An event of the registry that neither reads models nor adds a route. -/
def WorkersEvent.isPlain : WorkersEvent → Bool
  | .ensure _ _ _ _ _ _ _ | .loaded (.ok _) => false
  | _ => true

theorem Loads.step_plain
    {translate : ModelSpec → Option ModelSpec → Bool → List String → List Translation}
    {s : Loads} {event : WorkersEvent} {w : Workers} (hplain : event.isPlain = true)
    (hw : s.workers.step translate event = some w) :
    s.step translate event = some { s with workers := w } := by
  unfold Loads.step
  rw [hw]
  cases event with
  | ensure => cases hplain
  | loaded result =>
      cases result with
      | error => rfl
      | ok measured => cases hplain
  | abort | submit | stamp | dropArc | evict | scan | advance | scheduler | cancel | tick => rfl

/-- Other steps of the daemon are plain ones of the registry, or none. -/
theorem Daemon.Transition.plain {d d' : Daemon} (h : d.Transition host e d')
    (hensure : ∀ id specs, e ≠ .work id (.ensure specs)) (hbuilds : e.builds = false) :
    d'.workers = d.workers
      ∨ ∃ event : WorkersEvent, event.isPlain = true
        ∧ d.workers.step host.translate event = some d'.workers := by
  cases h with
  | receive | touch | answer | noObject | spawn | cancel | task | step | progress | «return»
  | store | configure | sleep | counted | emptied | timed | exit => exact Or.inl rfl
  | dropWork hevent hr hw =>
      rcases hw with rfl | hw | ⟨entry, hw⟩
      · exact Or.inl rfl
      · exact Or.inr ⟨_, rfl, hw⟩
      · exact Or.inr ⟨_, rfl, hw⟩
  | @routes event w hfree hw =>
      refine Or.inr ⟨event, ?_, hw⟩
      cases event <;> first | rfl | cases hfree
  | hit | failed | loading => exact absurd rfl (hensure _ _)
  | @loadFailed _ _ _ _ _ _ _ message _ _ hw =>
      exact Or.inr ⟨.loaded (.error (.engineFailure message)), rfl, hw⟩
  | loaded => cases hbuilds
  | submit hat hw | drop hat hw => exact Or.inr ⟨_, rfl, hw⟩

theorem Daemon.work_ensure {d d' : Daemon} {id : Nat} {prog : Async Results} {specs : Disk}
    (h : d.work host id prog (.ensure specs) = some d') :
    ∃ source target allow_pivot budget_mb next ensured,
      prog = .op (.ensure_loaded source target allow_pivot budget_mb) next ∧ d'.disk = specs
        ∧ d.workers.ensure_loaded id source target allow_pivot budget_mb d.disk specs
          = some (d'.workers, ensured) := by
  cases prog with
  | done => cases h
  | op op next =>
      cases op with
      | ensure_loaded source target allow_pivot budget_mb =>
          obtain ⟨⟨w, ensured⟩, hw, rfl⟩ := Option.map_eq_some_iff.mp h
          refine ⟨source, target, allow_pivot, budget_mb, next, ensured, rfl, ?_, ?_⟩
          · cases ensured <;> rfl
          · cases ensured <;> exact hw
      | start | config | stores | submit | receive | pivot | drop | emit_progress | install_pair
      | check_for_updates | refresh | read_document | write_document => cases h

theorem Daemon.work_loaded {d d' : Daemon} {id measured : Nat} {prog : Async Results}
    (h : d.work host id prog (.loaded (.ok measured)) = some d') :
    d.workers.loaded (.ok measured) = some d'.workers := by
  cases prog with
  | done => cases h
  | op op next =>
      cases op with
      | ensure_loaded source target allow_pivot budget_mb =>
          simp only [Daemon.work] at h
          split at h
          · obtain ⟨w, hw, rfl⟩ := Option.map_eq_some_iff.mp h
            exact hw
          · cases h
      | start | config | stores | submit | receive | pivot | drop | emit_progress | install_pair
      | check_for_updates | refresh | read_document | write_document => cases h

/-- The record is the registry's. -/
theorem Sourced.record_step (h : s.step host e = some s') :
    s'.record = s.record ∨ ∃ event, s.record.step host.translate event = some s'.record := by
  obtain ⟨d', hd, rfl⟩ := Option.map_eq_some_iff.mp h
  by_cases hensure : ∃ id specs, e = .work id (.ensure specs)
  · -- the models are read
    obtain ⟨id, specs, rfl⟩ := hensure
    obtain ⟨work, hwork, hs⟩ := Daemon.work_of_step hd
    obtain ⟨source, target, allow_pivot, budget_mb, next, ensured, hprog, -, hw⟩ :=
      Daemon.work_ensure hs
    refine Or.inr ⟨.ensure id source target allow_pivot budget_mb s.daemon.disk specs, ?_⟩
    have hloads : s.daemon.loads (.work id (.ensure specs)) = some (s.daemon.workers.loads
        (.ensure id source target allow_pivot budget_mb s.daemon.disk specs)) := by
      simp only [Daemon.loads, hwork, Option.bind_some, hprog]
    rw [Loads.step, show s.record.workers = s.daemon.workers from rfl, Workers.step_ensure hw,
      hloads]
    rfl
  · push Not at hensure
    by_cases hbuilds : e.builds = true
    · -- a route is added
      obtain ⟨id, measured, rfl⟩ : ∃ id measured, e = .work id (.loaded (.ok measured)) := by
        unfold DaemonEvent.builds at hbuilds
        split at hbuilds
        · exact ⟨_, _, rfl⟩
        · cases hbuilds
      obtain ⟨work, hwork, hs⟩ := Daemon.work_of_step hd
      refine Or.inr ⟨.loaded (.ok measured), ?_⟩
      have hw : s.record.workers.step host.translate (.loaded (.ok measured)) = some d'.workers :=
        Daemon.work_loaded hs
      rw [Loads.step, hw]
      rfl
    · have hloads : s.daemon.loads e = none := by
        unfold Daemon.loads
        split
        · exact absurd rfl (hensure _ _)
        · rfl
      have hrecord : Sourced.record { daemon := d', reading := (s.daemon.loads e).getD s.reading
                                      sources := if e.builds then Function.update s.sources
                                        s.daemon.workers.heap.length s.reading else s.sources }
          = { s.record with workers := d'.workers } := by
        rw [hloads, if_neg hbuilds]
        rfl
      rw [hrecord]
      rcases (Daemon.step_cases hd).2.plain hensure (by simpa using hbuilds) with
        hsame | ⟨event, hplain, hw⟩
      · rw [hsame]
        exact Or.inl rfl
      · exact Or.inr ⟨event, Loads.step_plain hplain hw⟩

end Step

/-! ## The copy of a route -/

theorem Loads.copyOf_eq_some {s : Loads} {k : Nat} {m : InstalledModel} :
    s.copyOf k = some m ↔ (∃ entry, s.workers.heap[k]? = some entry ∧ entry.pivot = none)
      ∧ s.sources k = [m] := by
  unfold Loads.copyOf
  constructor
  · intro h
    split at h
    · rename_i hpivot hsources
      cases h
      obtain ⟨entry, hentry, hnone⟩ := Option.map_eq_some_iff.mp hpivot
      exact ⟨⟨entry, hentry, hnone⟩, hsources⟩
    · cases h
  · rintro ⟨⟨entry, hentry, hpivot⟩, hsources⟩
    rw [hentry, hsources, Option.map_some, hpivot]

/-- It is the same for life. -/
theorem Loads.copyOf_step
    {translate : ModelSpec → Option ModelSpec → Bool → List String → List Translation}
    {s s' : Loads} {event : WorkersEvent} (h : s.step translate event = some s') {k : Nat}
    {m : InstalledModel} (hm : s.copyOf k = some m) : s'.copyOf k = some m := by
  obtain ⟨⟨entry, hentry, hpivot⟩, hsources⟩ := Loads.copyOf_eq_some.mp hm
  obtain ⟨entry', hentry', hev⟩ := Workers.heap_persists (Loads.workers_step h) hentry
  refine Loads.copyOf_eq_some.mpr ⟨⟨entry', hentry', hev.route.2.1.trans hpivot⟩, ?_⟩
  rcases Loads.sources_of_step h hentry' with ⟨_, -, -, hsame⟩ | ⟨rfl, -⟩
  · rw [hsame, hsources]
  · exact absurd (List.getElem?_eq_some_iff.mp hentry).1 (lt_irrefl _)

section Record

variable {host : Host} {ok : Sourced → DaemonEvent → Prop} {config : Config} {s s' : Sourced}
  {e : DaemonEvent}

theorem Sourced.copyOf_step (h : s.step host e = some s') {k : Nat} {m : InstalledModel}
    (hm : s.record.copyOf k = some m) : s'.record.copyOf k = some m := by
  rcases Sourced.record_step h with hsame | ⟨event, hstep⟩
  · rwa [hsame]
  · exact Loads.copyOf_step hstep hm

theorem Sourced.daemon_reach
    (h : Machine.Reach (Sourced.step host) ok (Sourced.init config host) s) :
    Machine.Reach (Daemon.step host) Machine.anyStep (Daemon.init config host) s.daemon :=
  Machine.Reach.project (f := Sourced.daemon) (fun _ _ _ _ _ hs =>
    Machine.Reach.one trivial (Sourced.daemon_step hs)) h

theorem Sourced.right_of_reach
    (h : Machine.Reach (Sourced.step host) ok (Sourced.init config host) s) : s.record.Right := by
  refine h.invariant (I := fun s => s.record.Right) Loads.right_init fun s e s' _ _ hs hr => ?_
  rcases Sourced.record_step hs with hsame | ⟨event, hstep⟩
  · rwa [hsame]
  · exact Loads.right_step hstep hr

end Record

/-! ## The versions that routes have -/

/-- What the stores have for the pair is the copy that the route was loaded
from, as to its version. -/
def Loads.Fits (s : Loads) (disk : Disk) (k : Nat) (key : Key) : Prop :=
  ∀ m, disk.resolve key.1 key.2 = some m → (s.copyOf k).map (·.version.raw) = some m.version.raw

/-- So it is for every route in use, and for the load in progress. -/
structure Sourced.Settled (s : Sourced) : Prop where
  registered : ∀ key k, s.daemon.workers.entries.lookup key = some k →
    s.record.Fits s.daemon.disk k key
  prepared : ∀ id key k, s.daemon.prepared id = some (key, k) → s.record.Fits s.daemon.disk k key
  loading : ∀ caller key pivot first second budget_mb,
    s.daemon.workers.lock = some (.loading caller key pivot first second budget_mb) →
    ∀ m, s.daemon.disk.resolve key.1 key.2 = some m →
      pivot = none ∧ ∃ m', s.reading = [m'] ∧ m'.version.raw = m.version.raw

section Settled

variable {host : Host} {ok : Sourced → DaemonEvent → Prop} {config : Config} {s s' : Sourced}
  {d d' : Daemon} {e : DaemonEvent} {key : Key}

theorem Disk.keeps_iff {disk disk' : Disk} : disk.Keeps disk' key
    ↔ ∀ m', disk'.resolve key.1 key.2 = some m' →
      ∃ m, disk.resolve key.1 key.2 = some m ∧ m.version.raw = m'.version.raw := by
  unfold Disk.Keeps
  simp only [Option.mem_toList, Option.any_eq_true, decide_eq_true_eq]

theorem Disk.Keeps.refl (disk : Disk) : disk.Keeps disk key :=
  Disk.keeps_iff.mpr fun m hm => ⟨m, hm, rfl⟩

theorem Loads.Fits.keeps {r : Loads} {disk disk' : Disk} {k : Nat} (h : r.Fits disk k key)
    (hkeeps : disk.Keeps disk' key) : r.Fits disk' k key := by
  intro m' hm'
  obtain ⟨m, hm, hversion⟩ := Disk.keeps_iff.mp hkeeps m' hm'
  rw [h m hm, hversion]

theorem Sourced.fits_step (hs : s.step host e = some s') {disk : Disk} {k : Nat}
    (h : s.record.Fits disk k key) : s'.record.Fits disk k key := by
  intro m hm
  obtain ⟨copy, hcopy, hversion⟩ := Option.map_eq_some_iff.mp (h m hm)
  rw [Sourced.copyOf_step hs hcopy, Option.map_some, hversion]

theorem Daemon.mem_inUse : key ∈ d.inUse
    ↔ (∃ k, d.workers.entries.lookup key = some k) ∨ d.workers.loadingKey = some key
      ∨ ∃ id k, d.prepared id = some (key, k) := by
  unfold Daemon.inUse
  rw [List.mem_append, List.mem_append, or_assoc, Option.mem_toList, List.mem_filterMap]
  refine or_congr ?_ (or_congr Iff.rfl ⟨?_, ?_⟩)
  · rw [← AList.mem_keys, ← AList.lookup_isSome, Option.isSome_iff_exists]
  · rintro ⟨id, -, hkey⟩
    obtain ⟨⟨key', k⟩, hprepared, rfl⟩ := Option.map_eq_some_iff.mp hkey
    exact ⟨id, k, hprepared⟩
  · rintro ⟨id, k, hprepared⟩
    obtain ⟨-, work, -, hwork, -⟩ := Daemon.prepared_eq_some.mp hprepared
    exact ⟨id, List.mem_range.mpr (List.getElem?_eq_some_iff.mp hwork).1, by rw [hprepared]; rfl⟩

/-- What the step does to the stores. -/
theorem Daemon.Transition.disk (h : d.Transition host e d') :
    d'.disk = d.disk ∨ e = .store d'.disk ∨ ∃ id, e = .work id (.ensure d'.disk) := by
  cases h with
  | store => exact Or.inr (Or.inl rfl)
  | @hit id | @failed id | @loading id => exact Or.inr (Or.inr ⟨id, rfl⟩)
  | @answer h handler => cases handler.method <;> exact Or.inl rfl
  | @spawn h handler => cases handler.method <;> exact Or.inl rfl
  | receive | touch | noObject | cancel | task | dropWork | routes | step | progress | «return»
  | loadFailed | loaded | submit | drop | configure | sleep | counted | emptied | timed | exit =>
      exact Or.inl rfl

theorem Daemon.Steady.keeps (hok : d.Steady e) (h : d.Transition host e d') (hkey : key ∈ d.inUse) :
    d.disk.Keeps d'.disk key := by
  rcases h.disk with hsame | he | ⟨id, he⟩
  · rw [hsame]
    exact Disk.Keeps.refl _
  · rw [he] at hok
    exact hok key hkey
  · rw [he] at hok
    exact hok key (List.mem_append_right _ hkey)

/-- A `prepare_pair` has its route from the registry, or from its own load. -/
theorem Daemon.prepared_of_step (hl : LoadsAsked d)
    (hran : ∀ (id : Nat) (work : Work), d.works[id]? = some work → ∃ h, work.Ran host h)
    (hs : d.step host e = some d') {id n : Nat} (hprepared : d'.prepared id = some (key, n)) :
    d.prepared id = some (key, n)
      ∨ (d.workers.entries.lookup key = some n ∧ d'.workers.lock = none ∧ ∃ event, e = .work id event)
      ∨ (d'.workers.entries.lookup key = some n ∧ n = d.workers.heap.length
        ∧ ∃ measured, d.workers.loaded (.ok measured) = some d'.workers) := by
  have htr := (Daemon.step_cases hs).2
  obtain ⟨hopen, work', allow_pivot, hwork', hmethod, hused⟩ := Daemon.prepared_eq_some.mp hprepared
  have hkeeps : ∀ {work : Work}, d.works[id]? = some work →
      work.method = .prepare_pair key.1 key.2 allow_pivot → work.used.head? = some n →
      d.prepared id = some (key, n) := fun hwork hmethod hused =>
    Daemon.prepared_eq_some.mpr ⟨htr.closed hopen, _, _, hwork, hmethod, hused⟩
  cases Daemon.follows hs hwork' with
  | same hwork => exact Or.inl (hkeeps hwork hmethod hused)
  | spawned hnone hcheck hfuture hspawned =>
      rw [hspawned] at hused
      cases hused
  | @answered work op next answer hevent hwork hprog hanswered htold =>
      subst hanswered
      cases op with
      | start | config | stores | submit | receive | pivot | drop | emit_progress | install_pair
      | check_for_updates | refresh | read_document | write_document =>
          exact Or.inl (hkeeps hwork hmethod hused)
      | ensure_loaded source target allow_pivot' budget_mb =>
          cases answer with
          | error error => exact Or.inl (hkeeps hwork hmethod hused)
          | ok entry =>
              obtain rfl : entry = n := Option.some.inj hused
              -- it asked for its own pair
              obtain ⟨h, hran⟩ := hran id work hwork
              obtain ⟨prog, hfuture, hpath⟩ := hran.path
              rw [hprog] at hpath
              have hmethod : work.method = .prepare_pair key.1 key.2 allow_pivot := hmethod
              rw [hmethod] at hfuture
              cases hfuture
              obtain ⟨hpair, -⟩ := only_prepare_pair h _ ⟨next, hpath⟩
              rcases htold with ⟨hunlocked, hlookup⟩ | ⟨hloads, rfl, measured, hloaded⟩
              · rw [hpair] at hlookup
                exact Or.inr (Or.inl ⟨hlookup, hunlocked, hevent⟩)
              · unfold Workers.loadsFor at hloads
                split at hloads
                · rename_i caller key₀ pivot first second budget hlock
                  obtain rfl := of_decide_eq_true hloads
                  obtain ⟨work₀, _, _, _, hwork₀, hprog₀⟩ := hl _ _ _ _ _ _ hlock
                  obtain rfl := Option.some.inj (hwork.symm.trans hwork₀)
                  rw [hprog] at hprog₀
                  injection hprog₀ with hop
                  injection hop with hsource htarget
                  obtain rfl : key₀ = key := Prod.ext
                    (hsource.symm.trans (congrArg Prod.fst hpair))
                    (htarget.symm.trans (congrArg Prod.snd hpair))
                  refine Or.inr (Or.inr ⟨?_, rfl, measured, hloaded⟩)
                  simp only [Workers.loaded, hlock] at hloaded
                  rw [← Option.some.inj hloaded]
                  exact AList.lookup_insert _
                · cases hloads

/-- A load reads the version that the stores have. -/
theorem Sourced.Settled.loading_step (hst : s.Settled) (hok : s.daemon.Steady e)
    (hs : s.step host e = some s') {caller budget_mb : Nat} {pivot : Option String}
    {first : ModelSpec} {second : Option ModelSpec}
    (hlock' : s'.daemon.workers.lock = some (.loading caller key pivot first second budget_mb))
    {m : InstalledModel} (hm : s'.daemon.disk.resolve key.1 key.2 = some m) :
    pivot = none ∧ ∃ m', s'.reading = [m'] ∧ m'.version.raw = m.version.raw := by
  obtain ⟨d', hd, rfl⟩ := Option.map_eq_some_iff.mp hs
  have htr := (Daemon.step_cases hd).2
  have hsame : s.daemon.workers.lock = some (.loading caller key pivot first second budget_mb) →
      pivot = none ∧ ∃ m', s.reading = [m'] ∧ m'.version.raw = m.version.raw := by
    intro hlock
    have hkey : s.daemon.workers.loadingKey = some key := by
      unfold Workers.loadingKey
      rw [hlock]
    have hkeeps := hok.keeps htr (Daemon.mem_inUse.mpr (Or.inr (Or.inl hkey)))
    obtain ⟨m₀, hm₀, hversion⟩ := Disk.keeps_iff.mp hkeeps m hm
    obtain ⟨hpivot, m', hreading, hversion'⟩ := hst.loading _ _ _ _ _ _ hlock m₀ hm₀
    exact ⟨hpivot, m', hreading, hversion'.trans hversion⟩
  by_cases hensure : ∃ id specs, e = .work id (.ensure specs)
  · obtain ⟨id, specs, rfl⟩ := hensure
    obtain ⟨work, hwork, hw⟩ := Daemon.work_of_step hd
    obtain ⟨source, target, allow_pivot, budget, next, ensured, hprog, hdisk, hw⟩ :=
      Daemon.work_ensure hw
    obtain ⟨hfree, hcases⟩ := Workers.ensure_loaded_cases hw
    rcases hcases with ⟨_, -, -, hw'⟩ | ⟨_, -, hw'⟩ |
      ⟨pivot', first', second', hlookup, -, hplan, hspecs, hw'⟩
    · cases hfree.symm.trans ((congrArg Workers.lock hw').symm.trans hlock')
    · cases hfree.symm.trans ((congrArg Workers.lock hw').symm.trans hlock')
    · cases (congrArg Workers.lock hw').symm.trans hlock'
      -- the pair had a copy, so the load is of the pair itself
      have hasks : s.daemon.asks caller = some (source, target) := by
        unfold Daemon.asks
        rw [hwork, Option.bind_some, hprog]
      have hm : specs.resolve source target = some m := hdisk ▸ hm
      have hkeeps : s.daemon.disk.Keeps specs (source, target) :=
        hok (source, target) (List.mem_append_left _ (by rw [hasks]; exact List.mem_singleton_self _))
      obtain ⟨m₀, hm₀, -⟩ := Disk.keeps_iff.mp hkeeps m hm
      obtain rfl : pivot = none := by
        have hplan := hplan
        unfold plan_route at hplan
        rw [if_pos (by rw [hm₀]; rfl)] at hplan
        exact (Except.ok.inj hplan).symm
      refine ⟨rfl, m, ?_, rfl⟩
      show (s.daemon.loads (.work caller (.ensure specs))).getD s.reading = [m]
      simp only [Daemon.loads, hwork, Option.bind_some, hprog, Option.getD_some, Workers.loads,
        hlookup, Option.isSome_none, Bool.false_eq_true, if_false, hplan, hspecs, route_models, hm,
        Option.toList_some]
  · push Not at hensure
    have hloads : s.daemon.loads e = none := by
      unfold Daemon.loads
      split
      · exact absurd rfl (hensure _ _)
      · rfl
    have hreading : (s.daemon.loads e).getD s.reading = s.reading := by
      rw [hloads]
      rfl
    dsimp only
    rw [hreading]
    refine hsame ?_
    rcases htr.workers with hw | ⟨event, hw, hdrives⟩
    · rwa [← hw]
    · rcases (Workers.loading_of_step hw hlock').2 with hlock | ⟨_, plan, specs, rfl, -⟩
      · exact hlock
      · -- only `ensure_loaded` begins a load
        have hlookup : s.daemon.lookup e ≠ none := by
          rw [← hdrives.lookup]
          exact Option.some_ne_none _
        unfold Daemon.lookup at hlookup
        split at hlookup
        · exact absurd rfl (hensure _ _)
        · exact absurd rfl hlookup

/-- **What is in use keeps its version.** -/
theorem Sourced.settled_step (hst : s.Settled) (hr : Routed s.daemon.workers) (hl : LoadsAsked s.daemon)
    (hran : ∀ (id : Nat) (work : Work), s.daemon.works[id]? = some work → ∃ h, work.Ran host h)
    (hok : s.daemon.Steady e) (hs : s.step host e = some s') : s'.Settled := by
  have hd := Sourced.daemon_step hs
  have htr := (Daemon.step_cases hd).2
  have hregistered : ∀ {key k}, s.daemon.workers.entries.lookup key = some k →
      s'.record.Fits s'.daemon.disk k key := by
    intro key k hlookup
    exact Sourced.fits_step hs ((hst.registered key k hlookup).keeps
      (hok.keeps htr (Daemon.mem_inUse.mpr (Or.inl ⟨k, hlookup⟩))))
  have hregistered' : ∀ {key k}, s'.daemon.workers.entries.lookup key = some k →
      s'.record.Fits s'.daemon.disk k key := by
    intro key k hlookup'
    rcases Sourced.record_step hs with hsame | ⟨event, hstep⟩
    · exact hregistered ((congrArg (fun r : Loads => r.workers.entries.lookup key) hsame).symm.trans
        hlookup')
    · rcases (Workers.effect_of_step (Loads.workers_step hstep) hr.free).lookup hlookup' with
        hlookup | ⟨entry, hheap, rfl, rfl⟩
      · exact hregistered hlookup
      · -- the route that was loaded
        have hentry : s'.record.workers.heap[s.record.workers.heap.length]? = some entry := by
          rw [hheap]
          exact List.getElem?_concat_length ..
        rcases Loads.sources_of_step hstep hentry with
          ⟨entry₀, hentry₀, -⟩ | ⟨-, hsources, caller, budget_mb, hlock⟩
        · exact absurd (List.getElem?_eq_some_iff.mp hentry₀).1 (lt_irrefl _)
        · have hkey : s.daemon.workers.loadingKey = some entry.key := by
            unfold Workers.loadingKey
            rw [show s.daemon.workers.lock = _ from hlock]
          have hkeeps := hok.keeps htr (Daemon.mem_inUse.mpr (Or.inr (Or.inl hkey)))
          intro m hm
          obtain ⟨m₀, hm₀, hversion⟩ := Disk.keeps_iff.mp hkeeps m hm
          obtain ⟨hpivot, m', hreading, hversion'⟩ := hst.loading _ _ _ _ _ _ hlock m₀ hm₀
          have hcopy : s'.record.copyOf s.record.workers.heap.length = some m' :=
            Loads.copyOf_eq_some.mpr ⟨⟨entry, hentry, hpivot⟩, hsources.trans hreading⟩
          rw [hcopy, Option.map_some, hversion', hversion]
  refine ⟨fun _ _ => hregistered', fun id key k hprepared => ?_, fun _ _ _ _ _ _ hlock' m hm =>
    hst.loading_step hok hs hlock' hm⟩
  rcases Daemon.prepared_of_step hl hran hd hprepared with hold | ⟨hlookup, -⟩ | ⟨hlookup', -⟩
  · exact Sourced.fits_step hs ((hst.prepared id key k hold).keeps
      (hok.keeps htr (Daemon.mem_inUse.mpr (Or.inr (Or.inr ⟨id, k, hold⟩)))))
  · exact hregistered hlookup
  · exact hregistered' hlookup'

theorem Sourced.settled_of_reach (hreach : Machine.Reach (Sourced.step host)
    (fun s e => s.daemon.Steady e) (Sourced.init config host) s) : s.Settled := by
  refine hreach.invariant ⟨nofun, ?_, nofun⟩ fun s e s' hpre hok hs hst => ?_
  · intro id key k h
    obtain ⟨-, work, _, hwork, -⟩ := Daemon.prepared_eq_some.mp h
    cases hwork
  · have hdaemon := Sourced.daemon_reach hpre
    exact Sourced.settled_step hst (routed_of_reach hdaemon) (loadsAsked_of_reach hdaemon)
      (fun _ _ hwork => ran_of_reach hdaemon hwork) hok hs

end Settled

/-! ## The report -/

/-- The report of the version is the last thing that the future asks for,
with its route loaded. -/
theorem runs_prepare_pair {source target : String} {allow_pivot : Bool} {h : Asked}
    {results : Results}
    (hrun : (prepare_pair source target allow_pivot).Runs h (.ok results)) :
    ∃ h₁ h₂ k budget_mb disk, h = h₁ ++ ⟨.stores, disk⟩ :: h₂
      ∧ ⟨.ensure_loaded source target allow_pivot budget_mb, .ok k⟩ ∈ h₁
      ∧ (loads h₁).getLast? = some k ∧ (loads h).getLast? = some k
      ∧ ∀ value, ("version", value) ∈ results →
        ∃ m, disk.resolve source target = some m ∧ value = .str m.version.raw := by
  obtain ⟨start, h₀, rfl, hrun₀⟩ := Prog.runs_ask_bind.mp hrun
  rcases Prog.runs_bind.mp hrun₀ with ⟨e, -, heq⟩ | ⟨hmissing, hrest, _, rfl, -, hrun₁⟩
  · cases heq
  obtain ⟨emitted, h₂, rfl, hrun₂⟩ := Prog.runs_ask_bind.mp hrun₁
  rcases Prog.runs_bind.mp hrun₂ with ⟨e, -, heq⟩ | ⟨hload, h₃, k, rfl, hloaded, hrun₃⟩
  · cases heq
  obtain ⟨config, rfl⟩ := runs_ensure_loaded.mp hloaded
  obtain ⟨pivot, h₄, rfl, hrun₄⟩ := Prog.runs_ask_bind.mp hrun₃
  obtain ⟨disk, h₅, rfl, hrun₅⟩ := Prog.runs_ask_bind.mp hrun₄
  obtain ⟨dropped, h₆, rfl, hend⟩ := Prog.runs_ask_bind.mp hrun₅
  obtain ⟨rfl, heq⟩ := Prog.runs_pure.mp hend
  cases heq
  refine ⟨⟨.start, start⟩ :: (hmissing ++ [⟨.emit_progress (7, 10) "loading", emitted⟩,
    ⟨.config, config⟩, ⟨.ensure_loaded source target allow_pivot config.memory_budget_mb, .ok k⟩,
    ⟨.pivot k, pivot⟩]), [⟨.drop k, dropped⟩], k, config.memory_budget_mb, disk, ?_, ?_, ?_, ?_, ?_⟩
  · simp
  · simp
  · show (loads (hmissing ++ _)).getLast? = some k
    rw [loads_append]
    exact List.getLast?_concat
  · show (loads (hmissing ++ _)).getLast? = some k
    rw [loads_append]
    exact List.getLast?_concat
  · intro value hvalue
    rcases List.mem_append.mp hvalue with hpivot | hversion
    · cases pivot with
      | none => cases hpivot
      | some pivot =>
          have hkey : "version" = result_key.PIVOT := congrArg Prod.fst (List.mem_singleton.mp hpivot)
          exact absurd hkey (by decide)
    · split at hversion
      · cases hversion
      · rename_i m hm
        cases List.mem_singleton.mp hversion
        exact ⟨m, hm, rfl⟩

/-- The routes that the future was given are of the pairs that it asked for,
and where a `prepare_pair` has looked the stores up with its route loaded,
they had the version of the route. -/
structure Sourced.Knows (s : Sourced) (method : Method) (h : Asked) : Prop where
  routes : ∀ source target allow_pivot budget_mb k,
    ⟨.ensure_loaded source target allow_pivot budget_mb, .ok k⟩ ∈ h →
    ∃ entry, s.daemon.workers.heap[k]? = some entry ∧ entry.key = (source, target)
  versions : ∀ source target allow_pivot, method = .prepare_pair source target allow_pivot →
    ∀ h₁ disk h₂ k, h = h₁ ++ ⟨.stores, disk⟩ :: h₂ → (loads h₁).getLast? = some k →
    ∀ m, disk.resolve source target = some m →
    (s.record.copyOf k).map (·.version.raw) = some m.version.raw

section Knows

variable {host : Host} {ok : Sourced → DaemonEvent → Prop} {config : Config} {s s' : Sourced}
  {e : DaemonEvent} {method : Method} {h : Asked}

theorem Sourced.version_step (hs : s.step host e = some s') {k : Nat} {version : String}
    (hversion : (s.record.copyOf k).map (·.version.raw) = some version) :
    (s'.record.copyOf k).map (·.version.raw) = some version := by
  obtain ⟨m, hm, hraw⟩ := Option.map_eq_some_iff.mp hversion
  rw [Sourced.copyOf_step hs hm, Option.map_some, hraw]

theorem Sourced.Knows.step (hk : s.Knows method h) (hs : s.step host e = some s') :
    s'.Knows method h where
  routes := by
    intro source target allow_pivot budget_mb k hmem
    obtain ⟨entry, hentry, hkey⟩ := hk.routes _ _ _ _ k hmem
    obtain ⟨entry', hentry', hkey', -⟩ :=
      (Daemon.step_cases (Sourced.daemon_step hs)).2.heap hentry
    exact ⟨entry', hentry', hkey'.trans hkey⟩
  versions := fun source target allow_pivot hmethod h₁ disk h₂ k heq hlast m hm =>
    Sourced.version_step hs (hk.versions source target allow_pivot hmethod h₁ disk h₂ k heq hlast m hm)

/-- What the future is told next. -/
theorem Sourced.Knows.tells (hk : s.Knows method h)
    (hreach : Machine.Reach (Sourced.step host) ok (Sourced.init config host) s) (hst : s.Settled)
    (hs : s.step host e = some s') {id : Nat} {work : Work} {op : Op}
    {next : op.Answer → Async Results} {answer : op.Answer} (hevent : ∃ event, e = .work id event)
    (hwork : s.daemon.works[id]? = some work) (hmethod : work.method = method)
    (hprog : work.prog = .op op next) (hran : work.Ran host h)
    (htold : s.daemon.Tells host s'.daemon id op answer) :
    s'.Knows method (h ++ [⟨op, answer⟩]) := by
  have hk' := hk.step hs
  have hdaemon := Sourced.daemon_reach hreach
  refine ⟨?_, ?_⟩
  · intro source target allow_pivot budget_mb k hmem
    rcases List.mem_append.mp hmem with hold | hnew
    · exact hk'.routes _ _ _ _ k hold
    · cases List.mem_singleton.mp hnew
      exact htold.route (loadsAsked_of_reach hdaemon) (routed_of_reach hdaemon)
        (Daemon.step_cases (Sourced.daemon_step hs)).2 hwork hprog
  · intro source target allow_pivot hprepare h₁ disk h₂ k heq hlast m hm
    rcases List.eq_nil_or_concat h₂ with rfl | ⟨h₂', x, rfl⟩
    · -- the look at the stores is this step
      obtain ⟨rfl, hx⟩ := List.append_inj' heq rfl
      cases List.singleton_inj.mp hx
      obtain ⟨event, rfl⟩ := hevent
      obtain rfl : disk = s.daemon.disk := htold
      refine Sourced.version_step hs (hst.prepared id (source, target) k ?_ m hm)
      refine Daemon.prepared_eq_some.mpr ⟨?_, work, allow_pivot, hwork, hmethod.trans hprepare, ?_⟩
      · exact Requests.open_of_selecting (Daemon.selecting_of_work (Sourced.daemon_step hs))
      · rw [hran.used, List.head?_reverse, hlast]
    · rw [List.concat_eq_append, ← List.cons_append, ← List.append_assoc] at heq
      exact hk'.versions source target allow_pivot hprepare h₁ disk h₂' k
        (List.append_inj' heq rfl).1 hlast m hm

theorem knows_of_reach
    (hreach : Machine.Reach (Sourced.step host) (fun s e => s.daemon.Steady e)
      (Sourced.init config host) s)
    {id : Nat} {work : Work} (hwork : s.daemon.works[id]? = some work) :
    ∃ h, work.Ran host h ∧ s.Knows work.method h := by
  refine histories_of_reach (I := fun s _ method h => s.Knows method h) (f := Sourced.daemon)
    (g := fun e => e) (fun _ _ _ => Sourced.daemon_step) hreach rfl ?_ ?_ ?_ hwork
  · intro s e s' id method _ _ _
    exact ⟨nofun, fun _ _ _ _ _ _ _ _ heq => absurd heq (by simp)⟩
  · exact fun s e s' id method h _ hs _ hk => hk.step hs
  · exact fun s e s' id work h op next answer hpre hok hs hevent hwork hprog hran htold hk =>
      hk.tells hpre (Sourced.settled_of_reach hpre) hs hevent hwork rfl hprog hran htold

end Knows

/-- The claim: a `prepare_pair` that succeeds has prepared a route of its
pair, and reports no version, or that of the copy that the route, which is
direct, was loaded from. -/
def Sourced.ReportsPrepared (s : Sourced) : Prop :=
  ∀ (id : Nat) (work : Work) (source target : String) (allow_pivot : Bool) (results : Results),
    s.daemon.works[id]? = some work → work.method = .prepare_pair source target allow_pivot →
    .returned id (.ok results) ∈ s.daemon.requests.log →
    ∃ k entry, work.used.head? = some k ∧ s.daemon.workers.heap[k]? = some entry
      ∧ entry.key = (source, target)
      ∧ ∀ value, ("version", value) ∈ results → entry.pivot = none
        ∧ ∃ m, s.sources k = [m] ∧ value = .str m.version.raw
          ∧ m.pair = source ++ "-" ++ target ∧ model_spec m = .ok entry.first

/-- **`prepare_pair` reports what it prepared**, in every run in which no
change of the stores gives a pair another version while a route of it is in
use. -/
theorem prepared_as_reported (host : Host) (config : Config) (s : Sourced)
    (hreach : Machine.Reach (Sourced.step host) (fun s e => s.daemon.Steady e)
      (Sourced.init config host) s) : s.ReportsPrepared := by
  intro id work source target allow_pivot results hwork hmethod hreturned
  obtain ⟨h, hran, hk⟩ := knows_of_reach hreach hwork
  obtain ⟨work', hwork', hdone⟩ := done_of_returned (Sourced.daemon_reach hreach) hreturned
  obtain rfl := Option.some.inj (hwork.symm.trans hwork')
  have hrun : (prepare_pair source target allow_pivot).Runs h (.ok results) := by
    obtain ⟨prog, hfuture, hpath⟩ := hran.path
    rw [hdone] at hpath
    rw [hmethod] at hfuture
    cases hfuture
    exact hpath
  obtain ⟨h₁, h₂, k, budget_mb, disk, rfl, hloaded, hlast, hlast', hversion⟩ :=
    runs_prepare_pair hrun
  obtain ⟨entry, hentry, hkey⟩ :=
    hk.routes _ _ _ _ k (List.mem_append_left _ hloaded)
  refine ⟨k, entry, ?_, hentry, hkey, fun value hvalue => ?_⟩
  · rw [hran.used, List.head?_reverse, hlast']
  · obtain ⟨m, hm, rfl⟩ := hversion value hvalue
    obtain ⟨copy, hcopy, hraw⟩ := Option.map_eq_some_iff.mp
      (hk.versions _ _ _ hmethod h₁ disk h₂ k rfl hlast m hm)
    obtain ⟨⟨entry', hentry', hpivot⟩, hsources⟩ := Loads.copyOf_eq_some.mp hcopy
    obtain rfl := Option.some.inj (hentry.symm.trans hentry')
    have hfrom := (Sourced.right_of_reach hreach).routes k entry hentry
    rw [show s.record.sources k = [copy] from hsources, hkey, hpivot] at hfrom
    refine ⟨hpivot, copy, hsources, by rw [hraw], ?_, ?_⟩
    · exact List.singleton_inj.mp hfrom.pairs
    · exact (List.cons.inj hfrom.specs).1

/-- A client prepares Bulgarian to German, through English if need be, with
call `id` on `handler`, up to the lookup of the route. -/
def prepareBgDe (id handler : Nat) (token : String) (disk : Disk) : List DaemonEvent :=
  [.receive ":1.7" token (.prepare_pair "bg" "de" true), .touch handler, .handle handler,
    .requests (.register id), .requests (.at id none)]
    ++ List.replicate 4 (.work id .proceed) ++ [.work id (.ensure disk)]

/-- From the loaded route to the return. -/
def endPrepare (id : Nat) : List DaemonEvent := List.replicate 4 (.work id .proceed)

/-- The direct model is installed: it is loaded, and its version reported. -/
theorem prepared_as_reported_direct :
    ∃ s, Machine.Reach (Sourced.step echoHost) (fun s e => s.daemon.Steady e)
        (Sourced.init .default echoHost) s
      ∧ .returned 0 (.ok [("version", .str "3.0")]) ∈ s.daemon.requests.log
      ∧ s.ReportsPrepared := by
  obtain ⟨s, hreach, hs⟩ := Machine.exists_reach_of_run (Sourced.step echoHost)
    (fun s e => s.daemon.Steady e) (Sourced.init .default echoHost)
    ([.store (diskOf [("bg", "de")])] ++ prepareBgDe 0 0 "t" (diskOf [("bg", "de")]) ++ loadRoute 0
      ++ endPrepare 0)
    (fun s : Sourced => decide (.returned 0 (.ok [("version", .str "3.0")]) ∈ s.daemon.requests.log))
    (by decide)
  exact ⟨s, hreach, of_decide_eq_true hs, prepared_as_reported echoHost .default s hreach⟩

/-- The route goes through English and stays loaded while the direct model
is installed: the second call reports both the pivot and the version. -/
theorem prepared_not_as_reported :
    ∃ s, Machine.Reach (Sourced.step echoHost) Machine.anyStep (Sourced.init .default echoHost) s
      ∧ .returned 1 (.ok [("pivot", .str "en"), ("version", .str "3.0")]) ∈ s.daemon.requests.log
      ∧ ¬ s.ReportsPrepared := by
  obtain ⟨s, hreach, hs⟩ := Machine.exists_reach_of_run (Sourced.step echoHost) Machine.anyStep
    (Sourced.init .default echoHost)
    ([.store (diskOf [("bg", "en"), ("en", "de")])]
      ++ prepareBgDe 0 0 "t" (diskOf [("bg", "en"), ("en", "de")]) ++ loadRoute 0 ++ endPrepare 0
      ++ [.store (diskOf [("bg", "en"), ("en", "de"), ("bg", "de")])]
      ++ prepareBgDe 1 1 "u" (diskOf [("bg", "en"), ("en", "de"), ("bg", "de")]) ++ endPrepare 1)
    (fun s : Sourced => decide (
      .returned 1 (.ok [("pivot", .str "en"), ("version", .str "3.0")]) ∈ s.daemon.requests.log
        ∧ (s.daemon.works[1]?.any fun work =>
          work.method = .prepare_pair "bg" "de" true && work.used.head? = some 0) = true
        ∧ (s.daemon.workers.heap[0]?.any fun entry => entry.pivot.isSome) = true))
    (by decide +kernel)
  obtain ⟨hreturned, hworks, hheap⟩ := of_decide_eq_true hs
  obtain ⟨work, hwork, h⟩ := (Option.any_eq_true _ _).mp hworks
  obtain ⟨hmethod, hused⟩ := Bool.and_eq_true_iff.mp h
  obtain ⟨entry, hentry, hpivot⟩ := (Option.any_eq_true _ _).mp hheap
  refine ⟨s, hreach, hreturned, fun hclaim => ?_⟩
  obtain ⟨k, entry', hk, hentry', -, hversion⟩ := hclaim 1 work "bg" "de" true _ hwork
    (of_decide_eq_true hmethod) hreturned
  obtain rfl := Option.some.inj (hk.symm.trans (of_decide_eq_true hused))
  obtain rfl := Option.some.inj (hentry.symm.trans hentry')
  rw [(hversion (.str "3.0") (by decide)).1] at hpivot
  cases hpivot

end Dragomand
