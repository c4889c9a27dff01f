import Mathlib.Data.List.Perm.Basic
import Mathlib.Data.List.Nodup
import Dragomand.SchedulerJobs
import Dragomand.Workers

/-!
# Evicted routes

Which routes take jobs. `closed` is set when the last `Arc` goes, so a
route that is taken out of the registry while a caller holds it keeps
taking jobs, next to the route that replaces it. Where every eviction
removes routes that nobody holds, the routes that take jobs are the
registered ones (`Registry`), one for each pair at most.
-/

namespace Dragomand

/-! ## What a step does to entries, heap and holders -/

/-- Only `Drop` closes a queue. -/
theorem Scheduler.step_closed {translate : Bool → List String → List Translation}
    {flags : Nat → Bool} {s s' : Scheduler} {e : SchedulerEvent}
    (h : s.step translate flags e = some s') (he : e ≠ .close) :
    s'.queue.inner.closed = s.queue.inner.closed := by
  cases e with
  | submit segments html priority cancelled =>
      obtain rfl := Option.some.inj h
      unfold Scheduler.submit
      dsimp only
      split
      · rfl
      · exact QueueInner.pushBack_closed _ _
  | close => exact absurd rfl he
  | notifyOne =>
      simp only [Scheduler.step, Scheduler.notifyOne] at h
      split at h
      · cases h
      · split at h <;> cases h <;> rfl
  | proceed =>
      simp only [Scheduler.step, runScheduler] at h
      split at h
      · split at h
        · rename_i hpop
          cases h
          rcases QueueInner.popFront_eq_some hpop with ⟨-, -, hc⟩ | ⟨-, -, -, hc⟩ <;> exact hc
        · cases h
          rfl
      all_goals first
        | (cases h; done)
        | (cases h; rfl)
        | (split at h <;> cases h <;> rfl)
  | engine error =>
      simp only [Scheduler.step, Scheduler.engine] at h
      split at h
      · cases h
        rfl
      · cases h
        rfl
      · cases h

/-- What a step does to the registry, the routes and their holders: one
constructor for each thing that can happen to them. -/
inductive Workers.Effect (w : Workers) : WorkersEvent → Workers → Prop
  | quiet {e : WorkersEvent} {w' : Workers} (hentries : w'.entries = w.entries)
      (hheap : w'.heap = w.heap) (hholders : w'.holders = w.holders) : Effect w e w'
  | hold {e : WorkersEvent} {w' : Workers} {caller id : Nat} {key : Key}
      (hlookup : w.entries.lookup key = some id) (hentries : w'.entries = w.entries)
      (hheap : w'.heap = w.heap) (hholders : w'.holders = (caller, id) :: w.holders) :
      Effect w e w'
  | insert {e : WorkersEvent} {w' : Workers} {caller : Nat} {entry : PairEntry}
      (hfree : w.entries.lookup entry.key = none) (haccepts : entry.accepts = true)
      (hentries : w'.entries = w.entries.insert entry.key w.heap.length)
      (hheap : w'.heap = w.heap ++ [entry])
      (hholders : w'.holders = (caller, w.heap.length) :: w.holders) : Effect w e w'
  | touch {e : WorkersEvent} {w' : Workers} {id : Nat} {f : PairEntry → PairEntry}
      (hf : ∀ entry, w.heap[id]? = some entry → (f entry).key = entry.key
        ∧ (f entry).cost_mb = entry.cost_mb ∧ (f entry).accepts = entry.accepts)
      (hentries : w'.entries = w.entries) (hheap : w'.heap = w.heap.modify id f)
      (hholders : w'.holders = w.holders) : Effect w e w'
  | remove {w' : Workers} {key : Key} (hvictim : w.victim = some key)
      (hentries : w'.entries = (w.remove key).entries) (hheap : w'.heap = (w.remove key).heap)
      (hholders : w'.holders = (w.remove key).holders) : Effect w .advance w'
  | drop {e : WorkersEvent} {caller id : Nat} (hmem : (caller, id) ∈ w.holders) :
      Effect w e ({ w with holders := w.holders.erase (caller, id) }.dropped id)

@[simp] theorem Workers.entries_dropped (w : Workers) (id : Nat) :
    (w.dropped id).entries = w.entries := by
  unfold dropped; split <;> rfl

@[simp] theorem Workers.holders_dropped (w : Workers) (id : Nat) :
    (w.dropped id).holders = w.holders := by
  unfold dropped; split <;> rfl

@[simp] theorem Workers.lock_dropped (w : Workers) (id : Nat) :
    (w.dropped id).lock = w.lock := by
  unfold dropped; split <;> rfl

/-- The events of those who do without the lock of the registry. -/
def WorkersEvent.unlocked : WorkersEvent → Bool
  | .submit _ _ _ _ _ _ | .stamp _ | .dropArc _ _ | .scheduler _ _ | .cancel _ | .tick => true
  | _ => false

/-- The key being loaded stays free: `loading` holds the lock. -/
def LoadingFree (w : Workers) : Prop :=
  ∀ caller key pivot first second budget_mb,
    w.lock = some (.loading caller key pivot first second budget_mb) →
    w.entries.lookup key = none

section Step

variable {translate : ModelSpec → Option ModelSpec → Bool → List String → List Translation}
  {w w' : Workers} {e : WorkersEvent}

/-- The registry and its lock are for those who take the lock. -/
theorem Workers.unlocked_step (h : w.step translate e = some w') (he : e.unlocked = true) :
    w'.entries = w.entries ∧ w'.lock = w.lock := by
  cases e with
  | submit caller id segments html priority cancelled =>
      simp only [Workers.step] at h
      split at h <;> cases h
      exact ⟨rfl, rfl⟩
  | stamp id =>
      obtain ⟨entry, -, h⟩ := Option.bind_eq_some_iff.mp h
      split at h <;> cases h
      exact ⟨rfl, rfl⟩
  | dropArc caller id =>
      simp only [Workers.step, Workers.dropArc] at h
      split at h
      · split at h <;> cases h
        exact ⟨Workers.entries_dropped _ _, Workers.lock_dropped _ _⟩
      · cases h
  | scheduler id event =>
      obtain ⟨entry, s, -, -, -, rfl⟩ := Workers.schedule_cases h
      exact ⟨rfl, rfl⟩
  | cancel flag | tick =>
      obtain rfl := Option.some.inj h
      exact ⟨rfl, rfl⟩
  | ensure | loaded | abort | evict | scan | advance => cases he

theorem Workers.effect_of_step (h : w.step translate e = some w') (hfree : LoadingFree w) :
    w.Effect e w' := by
  cases e with
  | ensure caller source target allow_pivot budget_mb plan specs =>
      obtain ⟨⟨w'', r⟩, hr, rfl⟩ := Option.map_eq_some_iff.mp h
      rcases (Workers.ensure_loaded_cases hr).2 with
        ⟨id, hlookup, -, rfl⟩ | ⟨error, -, rfl⟩ | ⟨pivot, first, second, -, -, -, -, rfl⟩
      · exact .hold hlookup rfl rfl rfl
      · exact .quiet rfl rfl rfl
      · exact .quiet rfl rfl rfl
  | loaded result =>
      cases result with
      | error e =>
          simp only [Workers.step, Workers.loaded] at h
          split at h
          · cases h
            exact .quiet rfl rfl rfl
          · cases h
      | ok measured =>
          simp only [Workers.step, Workers.loaded] at h
          split at h
          · rename_i caller key pivot first second budget_mb hlock
            cases h
            exact .insert (hfree _ _ _ _ _ _ hlock) rfl rfl rfl rfl
          · cases h
  | abort caller =>
      simp only [Workers.step, Workers.abort] at h
      split at h
      · split at h
        · cases h
          exact .quiet rfl rfl rfl
        · cases h
      · cases h
  | submit caller id segments html priority cancelled =>
      simp only [Workers.step] at h
      split at h
      · cases h
        refine .touch (fun entry hentry => ?_) rfl rfl rfl
        cases hs : entry.scheduler.submit segments html priority cancelled with
        | none => exact ⟨rfl, rfl, rfl⟩
        | some s =>
            have hstep : entry.scheduler.step (translate entry.first entry.second) w.flags
                (.submit segments html priority cancelled) = some s := by
              simp only [Scheduler.step, hs, Option.getD_some]
            have hclosed := Scheduler.step_closed hstep (by simp)
            exact ⟨rfl, rfl, by simp only [PairEntry.accepts, hclosed]⟩
      · cases h
  | stamp id =>
      obtain ⟨entry, -, h⟩ := Option.bind_eq_some_iff.mp h
      split at h
      · cases h
      · cases h
        refine .touch ?_ rfl rfl rfl
        exact fun entry _ => ⟨rfl, rfl, rfl⟩
  | dropArc caller id =>
      simp only [Workers.step, Workers.dropArc] at h
      split at h
      · split at h
        · rename_i hmem
          cases h
          exact .drop hmem
        · cases h
      · cases h
  | evict stage =>
      simp only [Workers.step, Workers.evict] at h
      split at h
      · cases h
      · cases h
        exact .quiet rfl rfl rfl
  | scan key =>
      obtain ⟨op, rfl⟩ := Workers.scan_cases h
      exact .quiet rfl rfl rfl
  | advance =>
      rcases Workers.advance_cases h with ⟨key, op, hvictim, rfl, -⟩ | ⟨-, op, rfl, -⟩
      · exact .remove hvictim rfl rfl rfl
      · exact .quiet rfl rfl rfl
  | scheduler id event =>
      obtain ⟨entry, s, hentry, hs, hne, rfl⟩ := Workers.schedule_cases h
      refine .touch (fun entry' hentry' => ?_) rfl rfl rfl
      obtain rfl := Option.some.inj (hentry.symm.trans hentry')
      have hclosed := Scheduler.step_closed hs hne
      exact ⟨rfl, rfl, by simp only [PairEntry.accepts, hclosed]⟩
  | cancel flag =>
      obtain rfl := Option.some.inj h
      exact .quiet rfl rfl rfl
  | tick =>
      obtain rfl := Option.some.inj h
      exact .quiet rfl rfl rfl

/-- A load in progress was so before the step, or the step starts it. -/
theorem Workers.loading_of_step (h : w.step translate e = some w') {caller : Nat} {key : Key}
    {pivot : Option String} {first : ModelSpec} {second : Option ModelSpec} {budget_mb : Nat}
    (hlock' : w'.lock = some (.loading caller key pivot first second budget_mb)) :
    w'.entries = w.entries
      ∧ (w.lock = some (.loading caller key pivot first second budget_mb)
        ∨ ∃ allow_pivot plan specs, e = .ensure caller key.1 key.2 allow_pivot budget_mb plan specs
            ∧ w.entries.lookup key = none ∧ plan_route plan key.1 key.2 allow_pivot = .ok pivot
            ∧ route_specs specs key.1 key.2 pivot = .ok (first, second)) := by
  cases e with
  | ensure caller' source target allow_pivot budget_mb' plan specs =>
      obtain ⟨⟨w'', r⟩, hr, rfl⟩ := Option.map_eq_some_iff.mp h
      rcases (Workers.ensure_loaded_cases hr).2 with ⟨id, hlookup, -, rfl⟩ | ⟨error, -, rfl⟩ |
        ⟨pivot', first', second', hlookup, -, hplan, hspecs, rfl⟩
      · exact ⟨rfl, Or.inl hlock'⟩
      · exact ⟨rfl, Or.inl hlock'⟩
      · cases hlock'
        exact ⟨rfl, Or.inr ⟨allow_pivot, plan, specs, rfl, hlookup, hplan, hspecs⟩⟩
  | loaded result =>
      cases result <;> simp only [Workers.step, Workers.loaded] at h <;> split at h <;> cases h
      · cases hlock'
      · cases hlock'
  | abort caller' =>
      simp only [Workers.step, Workers.abort] at h
      split at h
      · split at h <;> cases h
        cases hlock'
      · cases h
  | submit caller' id segments html priority cancelled =>
      simp only [Workers.step] at h
      split at h <;> cases h
      exact ⟨rfl, Or.inl hlock'⟩
  | stamp id =>
      obtain ⟨entry, -, h⟩ := Option.bind_eq_some_iff.mp h
      split at h <;> cases h
      exact ⟨rfl, Or.inl hlock'⟩
  | dropArc caller' id =>
      simp only [Workers.step, Workers.dropArc] at h
      split at h
      · split at h <;> cases h
        rw [Workers.lock_dropped] at hlock'
        exact ⟨Workers.entries_dropped _ _, Or.inl hlock'⟩
      · cases h
  | evict stage =>
      simp only [Workers.step, Workers.evict] at h
      split at h <;> cases h
      cases hlock'
  | scan key' =>
      obtain ⟨op, rfl⟩ := Workers.scan_cases h
      cases hlock'
  | advance =>
      rcases Workers.advance_cases h with ⟨key', op, hvictim, rfl, hop⟩ | ⟨-, op, rfl, hop⟩
      · exact absurd hlock' (hop _ _ _ _ _ _)
      · exact absurd hlock' (hop _ _ _ _ _ _)
  | scheduler id event =>
      obtain ⟨entry, s, -, -, -, rfl⟩ := Workers.schedule_cases h
      exact ⟨rfl, Or.inl hlock'⟩
  | cancel flag | tick =>
      obtain rfl := Option.some.inj h
      exact ⟨rfl, Or.inl hlock'⟩

theorem loadingFree_step (h : w.step translate e = some w') (hf : LoadingFree w) :
    LoadingFree w' := by
  intro caller key pivot first second budget_mb hlock'
  obtain ⟨hentries, hlock | ⟨_, _, _, -, hfree, -, -⟩⟩ := Workers.loading_of_step h hlock'
  · rw [hentries]
    exact hf _ _ _ _ _ _ hlock
  · rw [hentries]
    exact hfree

end Step

/-! ## The routes that take jobs are the registered ones -/

/-- The registry has the routes that take jobs, and callers hold no
others. -/
structure Registry (w : Workers) : Prop where
  entry : ∀ key id, w.entries.lookup key = some id →
    ∃ e, w.heap[id]? = some e ∧ e.key = key ∧ e.accepts = true
  registered : ∀ id e, w.heap[id]? = some e → e.accepts = true →
    w.entries.lookup e.key = some id
  held : ∀ id, w.held id = true → ∃ key, w.entries.lookup key = some id

/-- Every eviction removes a route that no caller holds. -/
def RemovesUnheld (w : Workers) : WorkersEvent → Prop
  | .advance => ((w.victim.bind fun key => w.entries.lookup key).all fun id => !w.held id) = true
  | _ => True

instance (w : Workers) (e : WorkersEvent) : Decidable (RemovesUnheld w e) :=
  match e with
  | .ensure _ _ _ _ _ _ _ | .loaded _ | .abort _ | .submit _ _ _ _ _ _ | .stamp _ | .dropArc _ _
  | .evict _ | .scan _ | .advance | .scheduler _ _ | .cancel _ | .tick => by
      delta RemovesUnheld; infer_instance

theorem Workers.registered_iff {w : Workers} {id : Nat} :
    w.registered id = true ↔ ∃ key, w.entries.lookup key = some id := by
  simp only [registered, List.any_eq_true, decide_eq_true_eq]
  constructor
  · rintro ⟨⟨key, id'⟩, hmem, rfl⟩
    exact ⟨key, AList.mem_lookup_iff.mpr hmem⟩
  · rintro ⟨key, hlookup⟩
    exact ⟨⟨key, id⟩, AList.mem_lookup_iff.mp hlookup, rfl⟩

theorem Workers.held_iff {w : Workers} {id : Nat} :
    w.held id = true ↔ ∃ caller, (caller, id) ∈ w.holders := by
  simp only [held, List.any_eq_true, decide_eq_true_eq]
  constructor
  · rintro ⟨⟨caller, id'⟩, hmem, rfl⟩
    exact ⟨caller, hmem⟩
  · rintro ⟨caller, hmem⟩
    exact ⟨(caller, id), hmem, rfl⟩

section Registry

variable {w w' : Workers} {e : WorkersEvent}

theorem Registry.of_hold (hr : Registry w) {caller id : Nat} {key : Key}
    (hlookup : w.entries.lookup key = some id) (hentries : w'.entries = w.entries)
    (hheap : w'.heap = w.heap) (hholders : w'.holders = (caller, id) :: w.holders) :
    Registry w' where
  entry := by rw [hentries, hheap]; exact hr.entry
  registered := by rw [hentries, hheap]; exact hr.registered
  held := fun id' hheld => by
    rw [hentries]
    obtain ⟨caller', hmem⟩ := Workers.held_iff.mp hheld
    rw [hholders] at hmem
    rcases List.mem_cons.mp hmem with hnew | hold
    · cases hnew
      exact ⟨key, hlookup⟩
    · exact hr.held id' (Workers.held_iff.mpr ⟨caller', hold⟩)

theorem Registry.of_insert (hr : Registry w) {caller : Nat} {entry : PairEntry}
    (hfree : w.entries.lookup entry.key = none) (haccepts : entry.accepts = true)
    (hentries : w'.entries = w.entries.insert entry.key w.heap.length)
    (hheap : w'.heap = w.heap ++ [entry])
    (hholders : w'.holders = (caller, w.heap.length) :: w.holders) : Registry w' := by
  have hold : ∀ {key id}, w.entries.lookup key = some id →
      w'.entries.lookup key = some id := by
    intro key id hlookup
    have hne : key ≠ entry.key := by
      rintro rfl
      rw [hfree] at hlookup
      cases hlookup
    rw [hentries, AList.lookup_insert_ne hne, hlookup]
  have hnew : w'.entries.lookup entry.key = some w.heap.length := by
    rw [hentries, AList.lookup_insert]
  constructor
  · intro key id hlookup
    by_cases hkey : key = entry.key
    · subst hkey
      obtain rfl := Option.some.inj (hnew.symm.trans hlookup)
      exact ⟨entry, by simp [hheap], rfl, haccepts⟩
    · rw [hentries, AList.lookup_insert_ne hkey] at hlookup
      obtain ⟨e, he, hek, hea⟩ := hr.entry key id hlookup
      have hlt := (List.getElem?_eq_some_iff.mp he).1
      exact ⟨e, by rw [hheap, List.getElem?_append_left hlt, he], hek, hea⟩
  · intro id e he hea
    rw [hheap] at he
    by_cases hlt : id < w.heap.length
    · rw [List.getElem?_append_left hlt] at he
      exact hold (hr.registered id e he hea)
    · obtain rfl : id = w.heap.length := by
        have := (List.getElem?_eq_some_iff.mp he).1
        rw [List.length_append, List.length_singleton] at this
        omega
      rw [List.getElem?_concat_length] at he
      obtain rfl := Option.some.inj he
      exact hnew
  · intro id hheld
    obtain ⟨caller', hmem⟩ := Workers.held_iff.mp hheld
    rw [hholders] at hmem
    rcases List.mem_cons.mp hmem with hnew' | hmem
    · cases hnew'
      exact ⟨entry.key, hnew⟩
    · obtain ⟨key, hlookup⟩ := hr.held id (Workers.held_iff.mpr ⟨caller', hmem⟩)
      exact ⟨key, hold hlookup⟩

theorem Registry.of_touch (hr : Registry w) {id : Nat} {f : PairEntry → PairEntry}
    (hf : ∀ entry, w.heap[id]? = some entry → (f entry).key = entry.key
      ∧ (f entry).cost_mb = entry.cost_mb ∧ (f entry).accepts = entry.accepts)
    (hentries : w'.entries = w.entries) (hheap : w'.heap = w.heap.modify id f)
    (hholders : w'.holders = w.holders) : Registry w' := by
  constructor
  · intro key id' hlookup
    rw [hentries] at hlookup
    obtain ⟨e, he, hek, hea⟩ := hr.entry key id' hlookup
    by_cases hid : id = id'
    · subst hid
      obtain ⟨hkey, -, hacc⟩ := hf e he
      exact ⟨f e, by simp [hheap, he], hkey.trans hek, hacc.trans hea⟩
    · exact ⟨e, by simp [hheap, hid, he], hek, hea⟩
  · intro id' e he hea
    rw [hheap] at he
    rw [hentries]
    rcases getElem?_modify_cases he with ⟨rfl, e₀, he₀, rfl⟩ | ⟨-, hold⟩
    · obtain ⟨hkey, -, hacc⟩ := hf e₀ he₀
      rw [hkey]
      exact hr.registered id' e₀ he₀ (hacc.symm.trans hea)
    · exact hr.registered id' e hold hea
  · intro id' hheld
    rw [hentries]
    refine hr.held id' ?_
    rw [Workers.held, ← hholders]
    exact hheld

/-- A route nobody holds closes as it is removed. -/
theorem Registry.of_remove (hr : Registry w) {key : Key}
    (hunheld : ∀ id, w.entries.lookup key = some id → w.held id = false)
    (hentries : w'.entries = (w.remove key).entries) (hheap : w'.heap = (w.remove key).heap)
    (hholders : w'.holders = (w.remove key).holders) : Registry w' := by
  unfold Workers.remove at hentries hheap hholders
  cases hlookup : w.entries.lookup key with
  | none =>
      simp only [hlookup] at hentries hheap hholders
      refine ⟨by rw [hentries, hheap]; exact hr.entry,
        by rw [hentries, hheap]; exact hr.registered, fun id hheld => ?_⟩
      rw [hentries]
      refine hr.held id ?_
      rw [Workers.held, ← hholders]
      exact hheld
  | some id =>
      obtain ⟨e, he, hek, hea⟩ := hr.entry key id hlookup
      -- no other key leads to the entry, so the registry's `Arc` was the last
      have hother : ∀ key', w.entries.lookup key' = some id → key' = key := by
        intro key' hlookup'
        obtain ⟨e', he', hek', -⟩ := hr.entry key' id hlookup'
        obtain rfl := Option.some.inj (he.symm.trans he')
        exact hek'.symm.trans hek
      have hgone : ({ w with entries := w.entries.erase key } : Workers).registered id = false := by
        refine Bool.eq_false_iff.mpr fun hreg => ?_
        obtain ⟨key', hlookup'⟩ := Workers.registered_iff.mp hreg
        by_cases hkey : key' = key
        · subst hkey
          exact absurd ((AList.lookup_erase _ _).symm.trans hlookup') (by simp)
        · exact hkey (hother key' ((AList.lookup_erase_ne hkey).symm.trans hlookup'))
      have hfree : ({ w with entries := w.entries.erase key } : Workers).held id = false :=
        hunheld id hlookup
      simp only [hlookup, Workers.dropped, hgone, hfree, Bool.or_self, Bool.false_eq_true,
        if_false, Workers.modify] at hentries hheap hholders
      constructor
      · intro key' id' hlookup'
        rw [hentries] at hlookup'
        have hkey : key' ≠ key := by
          rintro rfl
          exact absurd ((AList.lookup_erase _ _).symm.trans hlookup') (by simp)
        rw [AList.lookup_erase_ne hkey] at hlookup'
        obtain ⟨e', he', hek', hea'⟩ := hr.entry key' id' hlookup'
        have hid : id ≠ id' := fun hid => hkey (hother key' (hid ▸ hlookup'))
        exact ⟨e', by simp [hheap, hid, he'], hek', hea'⟩
      · intro id' e' he' hea'
        rw [hheap] at he'
        rcases getElem?_modify_cases he' with ⟨rfl, e₀, he₀, rfl⟩ | ⟨hid, hold⟩
        · simp [PairEntry.accepts, Scheduler.close] at hea'
        · have hreg := hr.registered id' e' hold hea'
          have hkey : e'.key ≠ key := by
            intro hkey
            rw [hkey, hlookup] at hreg
            exact hid (Option.some.inj hreg).symm
          rw [hentries, AList.lookup_erase_ne hkey, hreg]
      · intro id' hheld
        have hheld' : w.held id' = true := by
          rw [Workers.held, ← hholders]
          exact hheld
        obtain ⟨key', hlookup'⟩ := hr.held id' hheld'
        have hkey : key' ≠ key := by
          rintro rfl
          obtain rfl := Option.some.inj (hlookup.symm.trans hlookup')
          rw [hunheld id hlookup] at hheld'
          cases hheld'
        exact ⟨key', by rw [hentries, AList.lookup_erase_ne hkey, hlookup']⟩

/-- A clone that is dropped is never the last `Arc`. -/
theorem Registry.of_drop (hr : Registry w) {caller id : Nat} (hmem : (caller, id) ∈ w.holders) :
    Registry ({ w with holders := w.holders.erase (caller, id) }.dropped id) := by
  obtain ⟨key, hlookup⟩ := hr.held id (Workers.held_iff.mpr ⟨caller, hmem⟩)
  have hreg : ({ w with holders := w.holders.erase (caller, id) } : Workers).registered id
      = true := Workers.registered_iff.mpr ⟨key, hlookup⟩
  rw [Workers.dropped, hreg, Bool.true_or, if_pos rfl]
  refine ⟨hr.entry, hr.registered, fun id' hheld => ?_⟩
  obtain ⟨caller', hmem'⟩ := Workers.held_iff.mp hheld
  exact hr.held id' (Workers.held_iff.mpr ⟨caller', List.mem_of_mem_erase hmem'⟩)

theorem registry_step (h : w.Effect e w') (hok : RemovesUnheld w e) (hr : Registry w) :
    Registry w' := by
  cases h with
  | quiet hentries hheap hholders =>
      refine ⟨by rw [hentries, hheap]; exact hr.entry,
        by rw [hentries, hheap]; exact hr.registered, fun id hheld => ?_⟩
      rw [hentries]
      refine hr.held id ?_
      rw [Workers.held, ← hholders]
      exact hheld
  | hold hlookup hentries hheap hholders => exact hr.of_hold hlookup hentries hheap hholders
  | insert hfree haccepts hentries hheap hholders =>
      exact hr.of_insert hfree haccepts hentries hheap hholders
  | touch hf hentries hheap hholders => exact hr.of_touch hf hentries hheap hholders
  | @remove _ key hvictim hentries hheap hholders =>
      refine hr.of_remove (fun id hlookup => ?_) hentries hheap hholders
      simpa [RemovesUnheld, hvictim, hlookup] using hok
  | drop hmem => exact hr.of_drop hmem

end Registry

/-! ## Whole runs -/

section Runs

variable {translate : ModelSpec → Option ModelSpec → Bool → List String → List Translation}
  {w : Workers}

theorem loadingFree_of_reach {ok : Workers → WorkersEvent → Prop}
    (h : Machine.Reach (Workers.step translate) ok Workers.init w) : LoadingFree w :=
  h.invariant (by simp [LoadingFree, Workers.init]) fun _ _ _ _ _ hs hf =>
    loadingFree_step hs hf

theorem registry_of_reach
    (h : Machine.Reach (Workers.step translate) RemovesUnheld Workers.init w) : Registry w :=
  h.invariant ⟨by simp [Workers.init], by simp [Workers.init],
    by simp [Workers.init, Workers.held]⟩ fun _ _ _ hpre hok hs hr =>
      registry_step (Workers.effect_of_step hs (loadingFree_of_reach hpre)) hok hr

/-- The entries that take jobs. -/
def Workers.accepting (w : Workers) : List Nat :=
  (List.range w.heap.length).filter fun id => w.heap[id]?.any PairEntry.accepts

def Workers.cost (w : Workers) (id : Nat) : Nat :=
  (w.heap[id]?.map PairEntry.cost_mb).getD 0

theorem Workers.mem_accepting {id : Nat} :
    id ∈ w.accepting ↔ ∃ e, w.heap[id]? = some e ∧ e.accepts = true := by
  simp only [accepting, List.mem_filter, List.mem_range, Option.any_eq_true]
  constructor
  · exact fun h => h.2
  · rintro ⟨e, he, hea⟩
    exact ⟨(List.getElem?_eq_some_iff.mp he).1, e, he, hea⟩

theorem Registry.perm_accepting (hr : Registry w) :
    (w.entries.entries.map (·.2)).Perm w.accepting := by
  have hnodup : (w.entries.entries.map (·.2)).Nodup := by
    refine List.Nodup.map_on (fun entry hmem entry' hmem' heq => ?_) w.entries.nodupKeys.nodup
    obtain ⟨key, id⟩ := entry
    obtain ⟨key', id'⟩ := entry'
    obtain rfl : id = id' := heq
    obtain ⟨e, he, hek, -⟩ := hr.entry key id (AList.mem_lookup_iff.mpr hmem)
    obtain ⟨e', he', hek', -⟩ := hr.entry key' id (AList.mem_lookup_iff.mpr hmem')
    obtain rfl := Option.some.inj (he.symm.trans he')
    rw [← hek, ← hek']
  have hnodup' : w.accepting.Nodup := List.nodup_range.filter _
  refine (List.perm_ext_iff_of_nodup hnodup hnodup').mpr fun id => ?_
  rw [Workers.mem_accepting, List.mem_map]
  constructor
  · rintro ⟨⟨key, id'⟩, hmem, rfl⟩
    obtain ⟨e, he, -, hea⟩ := hr.entry key id' (AList.mem_lookup_iff.mpr hmem)
    exact ⟨e, he, hea⟩
  · rintro ⟨e, he, hea⟩
    exact ⟨⟨e.key, id⟩, AList.mem_lookup_iff.mp (hr.registered id e he hea), rfl⟩

/-- An evicted route takes no more work. -/
structure EvictedRefuses (w : Workers) : Prop where
  /-- A route out of the registry refuses every submit, -/
  refuses : ∀ id e, w.heap[id]? = some e → w.registered id = false →
    ∀ segments html priority cancelled,
      e.scheduler.submit segments html priority cancelled = none
  /-- so the routes that take jobs are registered under their pair, -/
  registered : ∀ id e, w.heap[id]? = some e → e.accepts = true →
    w.entries.lookup e.key = some id
  /-- one for each pair at most, -/
  unique : ∀ (id id' : Nat) (e e' : PairEntry), w.heap[id]? = some e → w.heap[id']? = some e' →
    e.accepts = true → e'.accepts = true → e.key = e'.key → id = id'
  /-- and what they cost is what `status` reports and the budget counts. -/
  counted : w.status.2.2 = (w.accepting.map w.cost).sum

/-- **An evicted route takes no more work**: in every run in which each
eviction, from whichever of its five places, removes only routes that no
caller holds. -/
theorem evicted_refuses
    (h : Machine.Reach (Workers.step translate) RemovesUnheld Workers.init w) :
    EvictedRefuses w := by
  have hr := registry_of_reach h
  refine ⟨fun id e he hreg segments html priority cancelled => ?_, hr.registered,
    fun id id' e e' he he' hea hea' hkey => ?_, ?_⟩
  · have hclosed : e.accepts = false := by
      refine Bool.eq_false_iff.mpr fun hea => ?_
      rw [Workers.registered_iff.mpr ⟨e.key, hr.registered id e he hea⟩] at hreg
      cases hreg
    have : e.scheduler.queue.inner.closed = true := by simpa [PairEntry.accepts] using hclosed
    simp [Scheduler.submit, this]
  · have hlookup := hr.registered id e he hea
    rw [hkey] at hlookup
    exact Option.some.inj (hlookup.symm.trans (hr.registered id' e' he' hea'))
  · have hsum := (hr.perm_accepting.map w.cost).sum_nat
    rw [List.map_map] at hsum
    exact hsum

end Runs

/-! ## Two runs -/

/-- Bulgarian to English, one installed model. -/
def bgEn : InstalledModel where
  origin := .user
  directory := ["models", "p", "bg-en", "3.0"]
  version := ⟨"3.0", _, parseParts_3_0⟩
  manifest := ⟨1, "p", "bg", "en", "3.0", none, none, [], "", [⟨"model.bin", "model", 1, ""⟩]⟩

/-- A store with `bgEn` and nothing else. -/
def bgEnDisk : Disk where
  resolve source target := if source = "bg" ∧ target = "en" then some bgEn else none
  pair := by
    intro source target m h
    split at h
    · rename_i hpair
      cases h
      rw [hpair.1, hpair.2]
      decide
    · cases h

/-- Loads bg-en for a caller, within the budget. -/
def loadBgEn (caller : Nat) : List WorkersEvent :=
  [.ensure caller "bg" "en" true 512 bgEnDisk bgEnDisk, .loaded (.ok 0), .advance]

/-- The caller drops its clone before memory pressure evicts the route. -/
theorem evicted_refuses_unheld :
    ∃ w, Machine.Reach (Workers.step fun _ _ _ _ => []) RemovesUnheld Workers.init w
      ∧ (w.heap.length = 1 ∧ w.registered 0 = false) ∧ EvictedRefuses w := by
  obtain ⟨w, hreach, hw⟩ := Machine.exists_reach_of_run (Workers.step fun _ _ _ _ => [])
    RemovesUnheld Workers.init
    (loadBgEn 0 ++ [.dropArc 0 0, .evict .unpinnedScan, .scan ("bg", "en"), .advance, .advance])
    (fun w : Workers => decide (w.heap.length = 1 ∧ w.registered 0 = false)) (by decide)
  exact ⟨w, hreach, of_decide_eq_true hw, evicted_refuses hreach⟩

/-- Memory pressure between a caller's lookup and its submit: the evicted
route takes the job, and the next caller loads the pair a second time. -/
theorem evicted_accepts :
    ∃ w, Machine.Reach (Workers.step fun _ _ _ _ => []) Machine.anyStep Workers.init w
      ∧ ((w.heap[0]?.any fun e => e.accepts && e.is_pinned) = true ∧ w.registered 0 = false
        ∧ (w.heap[1]?.any fun e => e.accepts) = true ∧ w.registered 1 = true
        ∧ w.heap[0]?.map PairEntry.key = w.heap[1]?.map PairEntry.key)
      ∧ ¬ EvictedRefuses w := by
  obtain ⟨w, hreach, hw⟩ := Machine.exists_reach_of_run (Workers.step fun _ _ _ _ => [])
    Machine.anyStep Workers.init
    (loadBgEn 0 ++ [.evict .unpinnedScan, .scan ("bg", "en"), .advance, .advance,
      .submit 0 0 ["a"] false .interactive 0] ++ loadBgEn 1)
    (fun w : Workers => decide ((w.heap[0]?.any fun e => e.accepts && e.is_pinned) = true
      ∧ w.registered 0 = false ∧ (w.heap[1]?.any fun e => e.accepts) = true
      ∧ w.registered 1 = true ∧ w.heap[0]?.map PairEntry.key = w.heap[1]?.map PairEntry.key))
    (by decide)
  have hrun := of_decide_eq_true hw
  refine ⟨w, hreach, hrun, fun h => ?_⟩
  obtain ⟨e, he, hea⟩ := (Option.any_eq_true _ _).mp hrun.1
  have hreg := Workers.registered_iff.mpr
    ⟨e.key, h.registered 0 e he (Bool.and_eq_true_iff.mp hea).1⟩
  rw [hrun.2.1] at hreg
  cases hreg

end Dragomand
