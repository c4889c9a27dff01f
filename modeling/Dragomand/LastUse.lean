import Dragomand.DaemonIdle
import Dragomand.EvictionRuns

/-!
# The last use of a route

An eviction goes by `last_used`, which is set when a route is loaded and
when a job is submitted to it. A use of the route goes on until its last job
is finished, and `ensure_loaded` returns a loaded route without setting
anything.

`Uses` runs the registry next to a record of the uses: `used` has the end of
the last one of each route. No step reads the record. A use ends later than
the stamp, so that between the stamp and its end, and for as long as the
window after either, an eviction may take the route for one that was not
used. `Timely` are the runs in which none comes at such a time.
-/

namespace Dragomand

/-! ## Uses -/

/-- A job of the route is queued or being translated. -/
def PairEntry.busy (e : PairEntry) : Bool := !e.scheduler.unfinished.isEmpty

def Workers.busy (w : Workers) (id : Nat) : Bool := (w.heap[id]?.map PairEntry.busy).getD false

def Workers.last_used (w : Workers) (id : Nat) : Nat :=
  (w.heap[id]?.map PairEntry.last_used).getD 0

/-- The route that `ensure_loaded` has found or loaded, or returns once the
budget is enforced. -/
def Workers.returned (w : Workers) : WorkersEvent → Option Nat
  | .ensure _ source target _ _ _ _ => w.entries.lookup (source, target)
  | .loaded (.ok _) => some w.heap.length
  | .advance =>
      match w.lock with
      | some (.evicting op) =>
          if op.ret.isSome && w.advance.any fun w' => w'.lock.isNone then some (w.heap.length - 1)
          else none
      | _ => none
  | _ => none

/-- The registry, with the end of the last use of every route (for a use that
goes on, the current time), whether the route was used since an eviction last
read it, and the window of the last sweep. -/
structure Uses where
  workers : Workers
  used : Nat → Nat
  unused : Nat → Bool
  window : Nat

namespace Uses

def init : Uses := ⟨.init, fun _ => 0, fun _ => false, 0⟩

/-- The step to `w` is part of a use of the route. -/
def uses (s : Uses) (e : WorkersEvent) (w : Workers) (id : Nat) : Bool :=
  s.workers.busy id || w.busy id || s.workers.returned e = some id

/-- An eviction reads the route. -/
def reads (s : Uses) : WorkersEvent → Nat → Bool
  | .scan key, id => s.workers.entries.lookup key = some id
  | _, _ => false

section Step

variable (translate : ModelSpec → Option ModelSpec → Bool → List String → List Translation)

def step (s : Uses) (e : WorkersEvent) : Option Uses :=
  (s.workers.step translate e).map fun w =>
    { workers := w
      used := fun id => if s.uses e w id then w.now else s.used id
      unused := fun id => !s.uses e w id && (s.reads e id || s.unused id)
      window := match e with
        | .evict (.expiredScan _ window) => window
        | _ => s.window }

end Step

end Uses

/-! ## Evictions that go by the stamps -/

/-- What the lock of the registry is held for. -/
def Workers.stage (w : Workers) : Option Stage :=
  match w.lock with
  | some (.evicting op) => some op.stage
  | _ => none

/-- The stages that compare routes with each other. -/
def Stage.compares : Stage → Bool
  | .budgetScan _ | .warmScan _ => true
  | _ => false

/-- The stages that remove the routes found by comparison. -/
def Stage.oldest : Stage → Bool
  | .budget _ | .done => true
  | _ => false

/-- The stage that removes the routes idle for the window. -/
def Stage.expires : Stage → Bool
  | .expired _ => true
  | _ => false

/-- The route that is about to be removed for not having been used. -/
def Workers.unwanted (w : Workers) : Option Nat :=
  if w.stage.any fun stage => stage.oldest || stage.expires then
    w.victim.bind fun key => w.entries.lookup key
  else none

/-- Some of the routes to be compared are read, and some are not. -/
def Workers.comparing (w : Workers) : Bool :=
  match w.lock with
  | some (.evicting op) => op.stage.compares && !op.seen.isEmpty && !op.todo.isEmpty
  | _ => false

namespace Uses

/-- The keep-warm window, the budget and the capacity count from the last use:
what a sweep is about to remove as idle is not in use and was not during its
window, and what goes for the budget or the capacity was last used no later
than any route that is loaded. -/
structure Respected (s : Uses) : Prop where
  window : ∀ id, s.workers.unwanted = some id → s.workers.stage.any Stage.expires = true →
    s.workers.busy id = false ∧ s.used id + s.window ≤ s.workers.now
  order : ∀ id, s.workers.unwanted = some id → s.workers.stage.any Stage.oldest = true →
    ∀ key id', s.workers.entries.lookup key = some id' → s.used id ≤ s.used id'

/-- For the route, if it has no job: where the window is over since the
stamp, it is over since the last use. -/
def Outlasted (s : Uses) (window id : Nat) : Prop :=
  s.workers.busy id = false → s.workers.last_used id + window ≤ s.workers.now →
    s.used id + window ≤ s.workers.now

instance (s : Uses) (window id : Nat) : Decidable (s.Outlasted window id) := by
  unfold Outlasted
  infer_instance

/-- No route without a job was used until later than another that has a stamp
no older than its own. -/
def InOrder (s : Uses) : Prop :=
  ∀ entry ∈ s.workers.entries.entries, ∀ entry' ∈ s.workers.entries.entries,
    s.workers.busy entry.2 = false → s.workers.busy entry'.2 = false →
    s.workers.last_used entry.2 ≤ s.workers.last_used entry'.2 →
    s.used entry.2 ≤ s.used entry'.2

instance (s : Uses) : Decidable s.InOrder := by
  unfold InOrder
  infer_instance

/-- When an eviction of the stage reads the route, the stamps say what the
uses say. -/
def ReadsTimely (s : Uses) (key : Key) : Stage → Prop
  | .expiredScan _ window => ∀ id ∈ (s.workers.entries.lookup key).toList, s.Outlasted window id
  | .budgetScan _ | .warmScan _ => s.InOrder
  | _ => True

instance (s : Uses) (key : Key) (stage : Stage) : Decidable (s.ReadsTimely key stage) := by
  cases stage <;> unfold ReadsTimely <;> infer_instance

/-- No sweep reads a route whose window is over since the stamp and not since
the last use, and no comparison finds the stamps in another order than the
uses; no time passes while routes are compared, and no stamp comes then for a
job that is finished; and a route that goes for not being used was not used
since it was read. -/
def Timely (s : Uses) : WorkersEvent → Prop
  | .scan key => ∀ stage ∈ s.workers.stage.toList, s.ReadsTimely key stage
  | .stamp id => s.workers.comparing = true → s.workers.busy id = true
  | .advance => s.workers.unwanted.all s.unused = true
  | .tick => s.workers.comparing = false
  | _ => True

instance (s : Uses) (e : WorkersEvent) : Decidable (s.Timely e) :=
  match e with
  | .ensure _ _ _ _ _ _ _ | .loaded _ | .abort _ | .submit _ _ _ _ _ _ | .stamp _ | .dropArc _ _
  | .evict _ | .scan _ | .advance | .scheduler _ _ | .cancel _ | .tick => by
      delta Timely; infer_instance

end Uses

/-! ## Stamps and time -/

section Stamps

variable {translate : ModelSpec → Option ModelSpec → Bool → List String → List Translation}
  {w w' : Workers} {e : WorkersEvent} {id id' : Nat} {f : PairEntry → PairEntry}

/-- The step sets the stamp of the route. -/
def WorkersEvent.stamps : WorkersEvent → Nat → Bool
  | .stamp id, id' => id = id'
  | _, _ => false

/-- What a change leaves as it is in the route that it changes. -/
theorem Workers.map_modify {α : Type} {g : PairEntry → α} (hf : ∀ entry, g (f entry) = g entry) :
    (w.modify id' f).heap[id]?.map g = w.heap[id]?.map g := by
  unfold Workers.modify
  rw [List.getElem?_modify]
  cases w.heap[id]? with
  | none => rfl
  | some entry =>
      show some (g (if id' = id then f entry else entry)) = some (g entry)
      split
      · rw [hf]
      · rfl

theorem Workers.last_used_modify (hf : ∀ entry, (f entry).last_used = entry.last_used) :
    (w.modify id' f).last_used id = w.last_used id := by
  unfold Workers.last_used
  rw [Workers.map_modify hf]

theorem Workers.last_used_dropped : (w.dropped id').last_used id = w.last_used id := by
  unfold Workers.dropped
  split
  · rfl
  · exact Workers.last_used_modify fun _ => rfl

theorem Workers.last_used_remove (key : Key) :
    (w.remove key).last_used id = w.last_used id := by
  unfold Workers.remove
  split
  · rfl
  · exact Workers.last_used_dropped

/-- Only a stamp changes a stamp. -/
theorem Workers.last_used_of_step (h : w.step translate e = some w') (hid : id < w.heap.length)
    (he : e.stamps id = false) : w'.last_used id = w.last_used id := by
  cases e with
  | ensure caller source target allow_pivot budget_mb plan specs =>
      obtain ⟨⟨w'', r⟩, hr, rfl⟩ := Option.map_eq_some_iff.mp h
      rcases (Workers.ensure_loaded_cases hr).2 with
        ⟨_, -, -, rfl⟩ | ⟨error, -, rfl⟩ | ⟨pivot, first, second, -, -, -, -, rfl⟩ <;> rfl
  | loaded result =>
      cases result <;> simp only [Workers.step, Workers.loaded] at h <;> split at h <;> cases h
      · rfl
      · show ((w.heap ++ [_])[id]?.map PairEntry.last_used).getD 0 = _
        rw [List.getElem?_append_left hid]
        rfl
  | abort caller =>
      simp only [Workers.step, Workers.abort] at h
      split at h
      · split at h <;> cases h
        rfl
      · cases h
  | submit caller id' segments html priority cancelled =>
      simp only [Workers.step] at h
      split at h <;> cases h
      refine Workers.last_used_modify fun entry => ?_
      split <;> rfl
  | stamp id' =>
      obtain ⟨entry, -, h⟩ := Option.bind_eq_some_iff.mp h
      split at h <;> cases h
      have hne : id' ≠ id := by simpa [WorkersEvent.stamps] using he
      unfold Workers.last_used Workers.modify
      rw [List.getElem?_modify_ne _ _ hne]
  | dropArc caller id' =>
      simp only [Workers.step, Workers.dropArc] at h
      split at h
      · split at h <;> cases h
        exact Workers.last_used_dropped
      · cases h
  | evict stage =>
      simp only [Workers.step, Workers.evict] at h
      split at h <;> cases h
      rfl
  | scan key =>
      obtain ⟨op, rfl⟩ := Workers.scan_cases h
      rfl
  | advance =>
      rcases Workers.advance_cases h with ⟨key, op, -, rfl, -⟩ | ⟨-, op, rfl, -⟩
      · exact Workers.last_used_remove key
      · rfl
  | scheduler id' event =>
      obtain ⟨entry, s, -, -, -, rfl⟩ := Workers.schedule_cases h
      exact Workers.last_used_modify fun _ => rfl
  | cancel flag | tick =>
      obtain rfl := Option.some.inj h
      rfl

/-- Stamps are not in the future. -/
theorem Workers.last_used_le_step (h : w.step translate e = some w')
    (hpast : ∀ id, w.last_used id ≤ w.now) (id : Nat) : w'.last_used id ≤ w'.now := by
  by_cases hid : id < w.heap.length
  · cases hstamps : e.stamps id with
    | false =>
        rw [Workers.last_used_of_step h hid hstamps]
        exact (hpast id).trans (Workers.now_le h)
    | true =>
        cases e with
        | stamp id' =>
            obtain rfl : id' = id := of_decide_eq_true hstamps
            obtain ⟨entry, hentry, h⟩ := Option.bind_eq_some_iff.mp h
            split at h <;> cases h
            unfold Workers.last_used Workers.modify
            rw [List.getElem?_modify_eq, hentry]
            exact le_rfl
        | _ => cases hstamps
  · cases hentry : w'.heap[id]? with
    | none =>
        unfold Workers.last_used
        rw [hentry]
        exact Nat.zero_le _
    | some entry' =>
        rcases Workers.heap_cases h hentry with
          ⟨entry, hentry₀, -⟩ | ⟨rfl, _, _, _, _, _, _, _, -, heq⟩
        · exact absurd (List.getElem?_eq_some_iff.mp hentry₀).1 hid
        · unfold Workers.last_used
          rw [hentry, heq]
          exact Workers.now_le h

end Stamps

/-! ## The record -/

namespace Uses

/-- The record says what it is meant to. -/
structure Tracked (s : Uses) : Prop where
  routed : Routed s.workers
  accounted : ∀ (id : Nat) (entry : PairEntry), s.workers.heap[id]? = some entry →
    Accounted entry.scheduler
  past : ∀ id, s.used id ≤ s.workers.now
  stamps : ∀ id, s.workers.last_used id ≤ s.workers.now
  busy : ∀ id, s.workers.busy id = true → s.used id = s.workers.now
  unused : ∀ id, s.unused id = true → s.workers.busy id = false

theorem tracked_init : init.Tracked where
  routed := routed_init
  accounted id entry h := by cases h
  past _ := le_rfl
  stamps _ := le_rfl
  busy _ h := by cases h
  unused _ h := by cases h

section Tracked

variable {translate : ModelSpec → Option ModelSpec → Bool → List String → List Translation}
  {s s' : Uses} {e : WorkersEvent} {w : Workers} {id : Nat}

theorem workers_step (h : s.step translate e = some s') :
    s.workers.step translate e = some s'.workers := by
  obtain ⟨w, hw, rfl⟩ := Option.map_eq_some_iff.mp h
  exact hw

/-- A use brings the record up to the time; what is not used stays as it is,
or is read. -/
theorem record_step (h : s.step translate e = some s') (id : Nat) :
    (s.uses e s'.workers id = true ∧ s'.used id = s'.workers.now ∧ s'.unused id = false)
      ∨ (s.uses e s'.workers id = false ∧ s'.used id = s.used id
        ∧ s'.unused id = (s.reads e id || s.unused id)) := by
  obtain ⟨w, hw, rfl⟩ := Option.map_eq_some_iff.mp h
  cases huses : s.uses e w id with
  | true => exact Or.inl ⟨rfl, by simp [huses], by simp [huses]⟩
  | false => exact Or.inr ⟨rfl, by simp [huses], by simp [huses]⟩

theorem uses_eq_false (h : s.uses e w id = false) :
    s.workers.busy id = false ∧ w.busy id = false ∧ s.workers.returned e ≠ some id := by
  simpa [uses, and_assoc] using h

theorem tracked_step (h : s.step translate e = some s') (hs : s.Tracked) : s'.Tracked where
  routed := routed_step (workers_step h) hs.routed
  accounted id entry' hentry' := by
    rcases Workers.heap_cases (workers_step h) hentry' with
      ⟨entry, hentry, hev⟩ | ⟨-, _, _, _, _, _, _, _, -, rfl⟩
    · exact hev.accounted (hs.accounted id entry hentry)
    · exact (@routeInv_init fun _ text => ⟨text, []⟩).accounted
  past id := by
    rcases record_step h id with ⟨-, hused, -⟩ | ⟨-, hused, -⟩
    · exact hused.le
    · rw [hused]
      exact (hs.past id).trans (Workers.now_le (workers_step h))
  stamps := Workers.last_used_le_step (workers_step h) hs.stamps
  busy id hbusy := by
    rcases record_step h id with ⟨-, hused, -⟩ | ⟨hnot, -⟩
    · exact hused
    · cases hbusy.symm.trans (uses_eq_false hnot).2.1
  unused id hunused := by
    rcases record_step h id with ⟨-, -, hunused'⟩ | ⟨hnot, -⟩
    · cases hunused.symm.trans hunused'
    · exact (uses_eq_false hnot).2.1

end Tracked

end Uses

end Dragomand
