import Mathlib.Data.List.AList
import Dragomand.Manifest
import Dragomand.Requests
import Dragomand.Scheduler

/-!
# The registry of loaded routes

`PairWorkers` with the routes it has loaded, the callers that hold an
`Arc` on one, and the five operations that take routes out again:
`evict_over_budget` (from `ensure_loaded` and from `enforce_budget`),
`sweep`, `evict_unpinned` and `unload_pair`. An `Arc<PairEntry>` is the
number of the entry; `holders` lists the clones that callers own, and
`Drop` runs when the last of them and the registry's own are gone.

The registry is behind a lock, but `submit` and the schedulers are not:
an eviction reads the pinned flags and idle times of one entry after the
other (`scan`) and removes its victims one after the other (`advance`),
with everybody else free to act in between.
-/

namespace Dragomand

def PIVOT_LANGUAGE : String := "en"
/-- Assumed cost per loaded model when the measured one is smaller. -/
def ESTIMATED_MODEL_MB : Nat := 64

/-! ## Planning a route -/

/-- The answers of `Stores::resolve` at one time: a model of the pair
asked for, if any. -/
structure Disk where
  resolve : String → String → Option InstalledModel
  pair : ∀ source target m, resolve source target = some m → m.pair = source ++ "-" ++ target

/-- The route that would serve the pair: `none` for a direct model. -/
def plan_route (disk : Disk) (source target : String) (allow_pivot : Bool) :
    Except Error (Option String) :=
  if (disk.resolve source target).isSome then .ok none
  else if !allow_pivot || source = PIVOT_LANGUAGE || target = PIVOT_LANGUAGE then
    .error (.notInstalled (source ++ "-" ++ target))
  else
    let missing :=
      (if (disk.resolve source PIVOT_LANGUAGE).isNone then [source ++ "-" ++ PIVOT_LANGUAGE]
        else [])
      ++ (if (disk.resolve PIVOT_LANGUAGE target).isNone then [PIVOT_LANGUAGE ++ "-" ++ target]
        else [])
    if missing.isEmpty then .ok (some PIVOT_LANGUAGE)
    else .error (.notInstalled (", ".intercalate missing))

/-- The files the engine is given for one model. -/
structure ModelSpec where
  model : PathBuf
  vocab : Option PathBuf
  src_vocab : Option PathBuf
  trg_vocab : Option PathBuf
deriving DecidableEq, Repr

def model_spec (installed : InstalledModel) : Except Error ModelSpec :=
  match installed.file_path "model" with
  | none => .error (.engineFailure
      ("/".intercalate installed.directory ++ ": manifest has no model file"))
  | some model => .ok
      ⟨model, installed.file_path "vocab", installed.file_path "srcvocab",
        installed.file_path "trgvocab"⟩

/-- The models of the route planned, resolved once more; `first` and
`second` are the legs. -/
def route_specs (disk : Disk) (source target : String) :
    Option String → Except Error (ModelSpec × Option ModelSpec)
  | none =>
      match disk.resolve source target with
      | none => .error (.notInstalled (source ++ "-" ++ target))
      | some installed => (model_spec installed).map fun spec => (spec, none)
  | some pivot =>
      match disk.resolve source pivot, disk.resolve pivot target with
      | none, _ => .error (.notInstalled (source ++ "-" ++ pivot))
      | some _, none => .error (.notInstalled (pivot ++ "-" ++ target))
      | some first, some second =>
          (model_spec first).bind fun first =>
            (model_spec second).map fun second => (first, some second)

/-! ## States -/

abbrev Key := String × String

instance : LawfulBEq Key := inferInstance

/-- One loaded route: the `PairEntry`, its worker's models and its
scheduler. `stamping` counts the submitters that have queued their job
and not set `last_used` yet. -/
structure PairEntry where
  source : String
  target : String
  pivot : Option String
  cost_mb : Nat
  last_used : Nat
  stamping : Nat
  first : ModelSpec
  second : Option ModelSpec
  scheduler : Scheduler
deriving DecidableEq, Repr

def PairEntry.key (e : PairEntry) : Key := (e.source, e.target)

def PairEntry.is_pinned (e : PairEntry) : Bool := 0 < e.scheduler.queue.active

/-- The route's queue takes jobs. -/
def PairEntry.accepts (e : PairEntry) : Bool := !e.scheduler.queue.inner.closed

/-- What an eviction has read of one entry. -/
structure Snapshot where
  key : Key
  pinned : Bool
  idle : Nat
deriving DecidableEq, Repr

/-- What comes once every entry to be read is read and every victim
removed. -/
inductive Stage where
  | budget (budget_mb : Nat)
  | budgetScan (budget_mb : Nat)
  | expiredScan (keep_warm window : Nat)
  | expired (keep_warm : Nat)
  | warmScan (keep_warm : Nat)
  | unpinnedScan
  | unloadScan (source target : String)
  | done
deriving DecidableEq, Repr

/-- An eviction under the registry's lock. `ret` is the caller of the
`ensure_loaded` it is part of. -/
structure Evicting where
  stage : Stage
  todo : List Key
  seen : List Snapshot
  victims : List Key
  ret : Option Nat
deriving DecidableEq, Repr

/-- Who holds the lock of the registry: `ensure_loaded` while the worker
loads its models, or an eviction. -/
inductive Lock where
  | loading (caller : Nat) (key : Key) (pivot : Option String) (first : ModelSpec)
      (second : Option ModelSpec) (budget_mb : Nat)
  | evicting (op : Evicting)
deriving DecidableEq, Repr

/-- `heap` has every entry ever built; `entries` is the registry, `holders`
the clones of callers `(caller, entry)`. -/
structure Workers where
  entries : AList fun _ : Key => Nat
  heap : List PairEntry
  holders : List (Nat × Nat)
  lock : Option Lock
  now : Nat
  flags : Nat → Bool

def Workers.init : Workers := ⟨∅, [], [], none, 0, fun _ => false⟩

def Workers.modify (w : Workers) (id : Nat) (f : PairEntry → PairEntry) : Workers :=
  { w with heap := w.heap.modify id f }

/-- The model cost of all loaded routes. -/
def Workers.total (w : Workers) : Nat :=
  (w.entries.entries.map fun entry => (w.heap[entry.2]?.map PairEntry.cost_mb).getD 0).sum

/-- `(loaded routes, total queued jobs, model cost)`. -/
def Workers.status (w : Workers) : List String × Nat × Nat :=
  let routes := w.entries.entries.filterMap fun entry => w.heap[entry.2]?.map fun e =>
    match e.pivot with
    | some p => e.source ++ "-" ++ e.target ++ " (via " ++ p ++ ")"
    | none => e.source ++ "-" ++ e.target
  let queued := (w.entries.entries.map fun entry => (w.heap[entry.2]?.map fun e =>
    e.scheduler.queue.inner.interactive.length + e.scheduler.queue.inner.batch.length).getD 0).sum
  (routes.mergeSort, queued, w.total)

/-! ## Arcs -/

def Workers.registered (w : Workers) (id : Nat) : Bool :=
  w.entries.entries.any fun entry => entry.2 = id

def Workers.held (w : Workers) (id : Nat) : Bool :=
  w.holders.any fun holder => holder.2 = id

/-- `Drop for PairEntry`, when no `Arc` is left. -/
def Workers.dropped (w : Workers) (id : Nat) : Workers :=
  if w.registered id || w.held id then w
  else w.modify id fun e => { e with scheduler := e.scheduler.close }

/-- `entries.remove(&key)`. -/
def Workers.remove (w : Workers) (key : Key) : Workers :=
  match w.entries.lookup key with
  | none => w
  | some id => { w with entries := w.entries.erase key }.dropped id

/-- A caller drops its clone. -/
def Workers.dropArc (w : Workers) (caller id : Nat) : Option Workers :=
  if (caller, id) ∈ w.holders then
    some ({ w with holders := w.holders.erase (caller, id) }.dropped id)
  else none

/-! ## Loading -/

inductive Ensured where
  | hit (id : Nat)
  | failed (error : Error)
  | loading
deriving DecidableEq, Repr

/-- `ensure_loaded` from taking the lock to waiting for the worker. The
store is read twice, and may change in between. -/
def Workers.ensure_loaded (w : Workers) (caller : Nat) (source target : String)
    (allow_pivot : Bool) (budget_mb : Nat) (plan specs : Disk) : Option (Workers × Ensured) :=
  if w.lock.isSome then none
  else
    match w.entries.lookup (source, target) with
    | some id => some ({ w with holders := (caller, id) :: w.holders }, .hit id)
    | none =>
        match plan_route plan source target allow_pivot with
        | .error e => some (w, .failed e)
        | .ok pivot =>
            match route_specs specs source target pivot with
            | .error e => some (w, .failed e)
            | .ok (first, second) =>
                some ({ w with
                  lock := some (.loading caller (source, target) pivot first second budget_mb) },
                  .loading)

/-- The worker has loaded, at a measured cost, or failed to. The new entry
is in the registry before the budget is enforced. -/
def Workers.loaded (w : Workers) : Except Error Nat → Option Workers
  | .error _ =>
      match w.lock with
      | some (.loading _ _ _ _ _ _) => some { w with lock := none }
      | _ => none
  | .ok measured =>
      match w.lock with
      | some (.loading caller key pivot first second budget_mb) =>
          let estimated := (1 + if second.isSome then 1 else 0) * ESTIMATED_MODEL_MB
          let entry : PairEntry :=
            ⟨key.1, key.2, pivot, max measured estimated, w.now, 0, first, second, .init⟩
          some { w with
            entries := w.entries.insert key w.heap.length
            heap := w.heap ++ [entry]
            holders := (caller, w.heap.length) :: w.holders
            lock := some (.evicting ⟨.budget budget_mb, [], [], [], some caller⟩) }
      | _ => none

/-- The caller waiting for the worker is dropped, and the lock with it. -/
def Workers.abort (w : Workers) (caller : Nat) : Option Workers :=
  match w.lock with
  | some (.loading caller' _ _ _ _ _) => if caller' = caller then some { w with lock := none } else none
  | _ => none

/-! ## Evicting -/

/-- The stages an eviction starts with. -/
def Stage.initial : Stage → Bool
  | .budget _ | .expiredScan _ _ | .unpinnedScan | .unloadScan _ _ => true
  | _ => false

/-- Takes the lock for `enforce_budget`, `sweep`, `evict_unpinned` or
`unload_pair`. -/
def Workers.evict (w : Workers) (stage : Stage) : Option Workers :=
  if w.lock.isSome || !stage.initial then none
  else
    let todo := match stage with
      | .budget _ => []
      | _ => w.entries.keys
    some { w with lock := some (.evicting ⟨stage, todo, [], [], none⟩) }

/-- The last of the longest idle entries read, among the unpinned. -/
def longestIdle (seen : List Snapshot) : Option Key :=
  ((seen.filter fun s => !s.pinned).foldl
    (fun best s => match best with
      | some b => if b.idle ≤ s.idle then some s else some b
      | none => some s) none).map Snapshot.key

/-- The routes idle beyond the window. -/
def expiredKeys (window : Nat) (seen : List Snapshot) : List Key :=
  (seen.filter fun s => !s.pinned && window ≤ s.idle).map Snapshot.key

/-- The unpinned routes beyond the keep-warm capacity, longest idle first. -/
def excessKeys (keep_warm : Nat) (seen : List Snapshot) : List Key :=
  let unpinned := seen.filter fun s => !s.pinned
  if unpinned.length > keep_warm then
    ((unpinned.mergeSort fun a b => b.idle ≤ a.idle).take (unpinned.length - keep_warm)).map
      Snapshot.key
  else []

def PairEntry.touches (e : PairEntry) (source target : String) : Bool :=
  e.source = source && e.target = target
    || e.pivot.isSome && (e.source = source || e.target = target)

/-- The eviction reads one more entry; `retain` removes it at once. -/
def Workers.scan (w : Workers) (key : Key) : Option Workers :=
  match w.lock with
  | some (.evicting op) =>
      if key ∈ op.todo ∧ op.victims = [] then
        match (w.entries.lookup key).bind fun id => w.heap[id]? with
        | none => none
        | some e =>
            let snapshot : Snapshot := ⟨key, e.is_pinned, w.now - e.last_used⟩
            let op := { op with todo := op.todo.erase key }
            let op := match op.stage with
              | .unpinnedScan => if e.is_pinned then op else { op with victims := [key] }
              | .unloadScan source target =>
                  if e.touches source target then { op with victims := [key] } else op
              | _ => { op with seen := op.seen ++ [snapshot] }
            some { w with lock := some (.evicting op) }
      else none
  | _ => none

/-- The route the eviction is about to remove. -/
def Workers.victim (w : Workers) : Option Key :=
  match w.lock with
  | some (.evicting op) => op.victims.head?
  | _ => none

/-- The eviction removes its next victim, or goes on to its next stage. -/
def Workers.advance (w : Workers) : Option Workers :=
  match w.lock with
  | some (.evicting op) =>
      match op.victims, op.todo, op.stage with
      | key :: rest, _, _ =>
          some { w.remove key with lock := some (.evicting { op with victims := rest }) }
      | [], _ :: _, _ => none
      | [], [], .budget budget_mb =>
          if w.total ≤ budget_mb then some { w with lock := none }
          else some { w with lock := some (.evicting
            { op with stage := .budgetScan budget_mb, todo := w.entries.keys, seen := [] }) }
      | [], [], .budgetScan budget_mb =>
          match longestIdle op.seen with
          | none => some { w with lock := none }
          | some key => some { w with lock := some (.evicting
              { op with stage := .budget budget_mb, victims := [key] }) }
      | [], [], .expiredScan keep_warm window => some { w with lock := some (.evicting
          { op with stage := .expired keep_warm, victims := expiredKeys window op.seen }) }
      | [], [], .expired keep_warm => some { w with lock := some (.evicting
          { op with stage := .warmScan keep_warm, todo := w.entries.keys, seen := [] }) }
      | [], [], .warmScan keep_warm => some { w with lock := some (.evicting
          { op with stage := .done, victims := excessKeys keep_warm op.seen }) }
      | [], [], .unpinnedScan => some { w with lock := none }
      | [], [], .unloadScan _ _ => some { w with lock := none }
      | [], [], .done => some { w with lock := none }
  | _ => none

/-! ## The machine -/

inductive WorkersEvent where
  | ensure (caller : Nat) (source target : String) (allow_pivot : Bool) (budget_mb : Nat)
      (plan specs : Disk)
  | loaded (result : Except Error Nat)
  | abort (caller : Nat)
  | submit (caller id : Nat) (segments : List String) (html : Bool) (priority : Priority)
      (cancelled : Nat)
  | stamp (id : Nat)
  | dropArc (caller id : Nat)
  | evict (stage : Stage)
  | scan (key : Key)
  | advance
  | scheduler (id : Nat) (event : SchedulerEvent)
  | cancel (flag : Nat)
  | tick

/-- A caller submits on a clone it holds, once `ensure_loaded` has
returned it. -/
def Workers.mayUse (w : Workers) (caller id : Nat) : Bool :=
  (caller, id) ∈ w.holders && match w.lock with
    | some (.evicting op) => op.ret ≠ some caller
    | _ => true

/-- `PairEntry::submit`; a refused submit changes nothing. -/
def Workers.submit (w : Workers) (id : Nat) (segments : List String) (html : Bool)
    (priority : Priority) (cancelled : Nat) : Workers :=
  w.modify id fun e =>
    match e.scheduler.submit segments html priority cancelled with
    | none => e
    | some s => { e with scheduler := s, stamping := e.stamping + 1 }

section Step

variable (translate : ModelSpec → Option ModelSpec → Bool → List String → List Translation)

/-- The events of a route's own task, its engine and its submitters'
`notify_one`. -/
def Workers.schedule (w : Workers) (id : Nat) (event : SchedulerEvent) : Option Workers :=
  match event with
  | .submit _ _ _ _ | .close => none
  | event => w.heap[id]?.bind fun e =>
      (e.scheduler.step (translate e.first e.second) w.flags event).map fun s =>
        w.modify id fun e => { e with scheduler := s }

def Workers.step (w : Workers) : WorkersEvent → Option Workers
  | .ensure caller source target allow_pivot budget_mb plan specs =>
      (w.ensure_loaded caller source target allow_pivot budget_mb plan specs).map Prod.fst
  | .loaded result => w.loaded result
  | .abort caller => w.abort caller
  | .submit caller id segments html priority cancelled =>
      if w.mayUse caller id then some (w.submit id segments html priority cancelled) else none
  | .stamp id => w.heap[id]?.bind fun e =>
      if e.stamping = 0 then none
      else some (w.modify id fun e => { e with last_used := w.now, stamping := e.stamping - 1 })
  | .dropArc caller id => if w.mayUse caller id then w.dropArc caller id else none
  | .evict stage => w.evict stage
  | .scan key => w.scan key
  | .advance => w.advance
  | .scheduler id event => w.schedule translate id event
  | .cancel flag => some { w with flags := Function.update w.flags flag true }
  | .tick => some { w with now := w.now + 1 }

end Step

/-! ## What the operations can do -/

section Cases

variable {translate : ModelSpec → Option ModelSpec → Bool → List String → List Translation}
  {w w' : Workers}

theorem Workers.ensure_loaded_cases {caller : Nat} {source target : String}
    {allow_pivot : Bool} {budget_mb : Nat} {plan specs : Disk} {r : Ensured}
    (h : w.ensure_loaded caller source target allow_pivot budget_mb plan specs = some (w', r)) :
    w.lock = none ∧
      ((∃ id, w.entries.lookup (source, target) = some id ∧ r = .hit id
          ∧ w' = { w with holders := (caller, id) :: w.holders })
        ∨ (∃ error, r = .failed error ∧ w' = w)
        ∨ (∃ pivot first second, w.entries.lookup (source, target) = none ∧ r = .loading
            ∧ plan_route plan source target allow_pivot = .ok pivot
            ∧ route_specs specs source target pivot = .ok (first, second)
            ∧ w' = { w with
              lock := some (.loading caller (source, target) pivot first second budget_mb) })) := by
  unfold Workers.ensure_loaded at h
  split at h
  · cases h
  · rename_i hlock
    refine ⟨by simpa using hlock, ?_⟩
    split at h
    · rename_i id hlookup
      cases h
      exact Or.inl ⟨id, hlookup, rfl, rfl⟩
    · rename_i hlookup
      split at h
      · cases h
        exact Or.inr (Or.inl ⟨_, rfl, rfl⟩)
      · rename_i pivot hplan
        split at h
        · cases h
          exact Or.inr (Or.inl ⟨_, rfl, rfl⟩)
        · rename_i first second hspecs
          cases h
          exact Or.inr (Or.inr ⟨pivot, first, second, hlookup, rfl, hplan, hspecs, rfl⟩)

/-- The lock is held by an eviction, or free. -/
def notLoading (lock : Option Lock) : Prop :=
  ∀ caller key pivot first second budget_mb,
    lock ≠ some (.loading caller key pivot first second budget_mb)

/-- Either the next victim goes, or only the lock moves on. -/
theorem Workers.advance_cases (h : w.advance = some w') :
    (∃ key op, w.victim = some key ∧ w' = { w.remove key with lock := op } ∧ notLoading op)
      ∨ (w.victim = none ∧ ∃ op, w' = { w with lock := op } ∧ notLoading op) := by
  unfold Workers.advance at h
  unfold Workers.victim
  split at h
  · rename_i op hlock
    split at h
    · cases h
      exact Or.inl ⟨_, _, by simp [*], rfl, by simp [notLoading]⟩
    all_goals
      refine Or.inr ⟨by simp [*], ?_⟩
      first
        | (cases h; done)
        | (cases h; exact ⟨_, rfl, by simp [notLoading]⟩)
        | (split at h <;> cases h <;> exact ⟨_, rfl, by simp [notLoading]⟩)
  · cases h

theorem Workers.scan_cases {key : Key} (h : w.scan key = some w') :
    ∃ op, w' = { w with lock := some (.evicting op) } := by
  unfold Workers.scan at h
  split at h
  · split at h
    · split at h
      · cases h
      · cases h
        exact ⟨_, rfl⟩
    · cases h
  · cases h

theorem Workers.schedule_cases {id : Nat} {event : SchedulerEvent}
    (h : w.schedule translate id event = some w') :
    ∃ entry s, w.heap[id]? = some entry
      ∧ entry.scheduler.step (translate entry.first entry.second) w.flags event = some s
      ∧ event ≠ .close
      ∧ w' = w.modify id fun e => { e with scheduler := s } := by
  unfold Workers.schedule at h
  split at h
  · cases h
  · cases h
  · rename_i hsubmit hclose
    obtain ⟨entry, hentry, hmap⟩ := Option.bind_eq_some_iff.mp h
    obtain ⟨s, hs, rfl⟩ := Option.map_eq_some_iff.mp hmap
    exact ⟨entry, s, hentry, hs, hclose, rfl⟩

end Cases

end Dragomand
