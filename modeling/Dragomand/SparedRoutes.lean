import Dragomand.LastUse
import Dragomand.OwnLoad
import Dragomand.SweepEviction

/-!
# What a whole eviction leaves alone

An eviction over the budget, or over the warm capacity, takes the routes that
were used longest ago first. So it leaves a route alone if that route and
those that it may come to instead are few enough: the ones used as late, and
the ones that it may not take, or find used again when it gets there, because
somebody has them or they run a job (`since`). `Leaves` says so when the
eviction begins, and `kept_step` takes it to the end, whoever submits or
finishes jobs meanwhile. The clock must stand still while routes are read:
what is read late looks older.
-/

namespace Dragomand

/-- Nobody can submit to the route, its stamp is set and is earlier than
`last`, and it runs no job. -/
def Workers.resting (w : Workers) (last : Nat) (key : Key) : Bool :=
  (w.entries.lookup key).any fun id => !w.held id && (w.heap[id]?).any fun e =>
    !e.is_pinned && e.stamping = 0 && e.last_used < last

/-- The other routes. -/
def Workers.since (w : Workers) (last : Nat) : List Key :=
  w.entries.keys.filter fun key => !w.resting last key

def Workers.costAll (w : Workers) (keys : List Key) : Nat :=
  (keys.map (w.costOf fun _ => true)).sum

/-- An eviction that begins with the stage leaves route `id` alone. -/
def Workers.Leaves (w : Workers) (id : Nat) : Stage → Prop
  | .budget budget_mb => w.costAll (w.since (w.last_used id)) ≤ budget_mb
  | .expiredScan keep_warm window =>
      w.now - w.last_used id < window ∧ (w.since (w.last_used id)).length ≤ keep_warm
  | .unpinnedScan => False
  | .unloadScan source target =>
      (w.heap[id]?.all fun e => !e.touches source target) = true
  | _ => True

instance (w : Workers) (id : Nat) : (stage : Stage) → Decidable (w.Leaves id stage)
  | .budget budget_mb =>
      inferInstanceAs (Decidable (w.costAll (w.since (w.last_used id)) ≤ budget_mb))
  | .expiredScan keep_warm window => inferInstanceAs (Decidable
      (w.now - w.last_used id < window ∧ (w.since (w.last_used id)).length ≤ keep_warm))
  | .unpinnedScan => inferInstanceAs (Decidable False)
  | .unloadScan source target =>
      inferInstanceAs (Decidable ((w.heap[id]?.all fun e => !e.touches source target) = true))
  | .budgetScan _ | .expired _ | .warmScan _ | .done => inferInstanceAs (Decidable True)

/-- The load in progress, at this measured cost, leaves room for the routes
used at `last` or later. -/
def Workers.Fits (w : Workers) (measured last : Nat) : Prop :=
  match w.lock with
  | some (.loading _ _ _ _ second budget_mb) => w.costAll (w.since last)
      + max measured ((1 + if second.isSome then 1 else 0) * ESTIMATED_MODEL_MB) ≤ budget_mb
  | _ => True

instance (w : Workers) (measured last : Nat) : Decidable (w.Fits measured last) := by
  unfold Workers.Fits
  split <;> infer_instance

/-- An eviction collects what it reads. -/
def Workers.scanning (w : Workers) : Bool :=
  match w.lock with
  | some (.evicting op) => op.stage.collects
  | _ => false

/-- What a scan has read and has yet to read, for a route that was used at
`last` or later: the routes outside `kept` were all used earlier. -/
structure Workers.Scanning (w : Workers) (key : Key) (id : Nat) (todo : List Key)
    (seen : List Snapshot) (kept : List Key) (last : Nat) : Prop where
  stamp : last ≤ w.last_used id
  keys : (seen.map Snapshot.key ++ todo).Perm w.entries.keys
  unread : ∀ key' ∈ todo, key' ∉ kept → w.resting last key' = true
  read : ∀ s ∈ seen, s.key ∉ kept → s.pinned = false ∧ w.now - last < s.idle
  own : ∀ s ∈ seen, s.key = key → s.idle ≤ w.now - last

/-- The eviction in progress does not come to route `id`. -/
def Workers.Passes (w : Workers) (op : Evicting) (key : Key) (id : Nat) : Prop :=
  key ∉ op.victims ∧ match op.stage with
    | .budget budget_mb => w.costAll (w.since (w.last_used id)) ≤ budget_mb
    | .budgetScan budget_mb => op.victims = []
        ∧ w.costAll (w.since (w.last_used id)) ≤ budget_mb
        ∧ ∃ kept last, w.Scanning key id op.todo op.seen kept last
          ∧ ∃ key' ∈ w.entries.keys, key' ∉ kept
    | .expiredScan keep_warm window => (w.since (w.last_used id)).length ≤ keep_warm
        ∧ w.now - w.last_used id < window
        ∧ ∀ s ∈ op.seen, s.key = key → s.idle < window
    | .expired keep_warm => (w.since (w.last_used id)).length ≤ keep_warm
    | .warmScan keep_warm => op.victims = []
        ∧ ∃ kept last, w.Scanning key id op.todo op.seen kept last ∧ kept.length ≤ keep_warm
    | .unpinnedScan => False
    | .unloadScan source target => (w.heap[id]?.all fun e => !e.touches source target) = true
    | .done => True

/-- The route is registered, and no eviction in progress comes to it. -/
structure Workers.Kept (w : Workers) (key : Key) (id : Nat) : Prop where
  registered : w.entries.lookup key = some id
  passes : ∀ op, w.lock = some (.evicting op) → w.Passes op key id

/-- Pins count jobs, and stamps are not in the future. -/
structure Workers.Counted (w : Workers) : Prop where
  accounted : ∀ (id : Nat) (entry : PairEntry), w.heap[id]? = some entry → Accounted entry.scheduler
  past : ∀ id, w.last_used id ≤ w.now

/-! ## What can still change about a route -/

section Resting

variable {translate : ModelSpec → Option ModelSpec → Bool → List String → List Translation}
  {w w' : Workers} {e : WorkersEvent} {op : Evicting} {key : Key} {id last last' : Nat}

theorem Workers.counted_init : Workers.init.Counted where
  accounted _ _ h := by cases h
  past _ := le_rfl

theorem Workers.counted_step (h : w.step translate e = some w') (hc : w.Counted) : w'.Counted where
  accounted := by
    intro id entry' hentry'
    rcases Workers.heap_cases h hentry' with ⟨entry, hentry, hev⟩ | ⟨-, _, _, _, _, _, _, _, -, rfl⟩
    · exact hev.accounted (hc.accounted id entry hentry)
    · exact (@routeInv_init fun _ text => ⟨text, []⟩).accounted
  past := Workers.last_used_le_step h hc.past

theorem Workers.resting_iff : w.resting last key = true ↔ ∃ id e, w.entries.lookup key = some id
    ∧ w.held id = false ∧ w.heap[id]? = some e ∧ e.is_pinned = false ∧ e.stamping = 0
    ∧ e.last_used < last := by
  unfold Workers.resting
  constructor
  · intro h
    obtain ⟨id, hid, h⟩ := (Option.any_eq_true _ _).mp h
    obtain ⟨hheld, h⟩ := Bool.and_eq_true_iff.mp h
    obtain ⟨e, he, h⟩ := (Option.any_eq_true _ _).mp h
    simp only [Bool.and_eq_true, Bool.not_eq_true', decide_eq_true_eq] at h hheld
    exact ⟨id, e, hid, hheld, he, h.1.1, h.1.2, h.2⟩
  · rintro ⟨id, e, hid, hheld, he, hpinned, hstamping, hlast⟩
    simp [hid, hheld, he, hpinned, hstamping, hlast]

theorem Workers.resting_mono (h : w.resting last key = true) (hle : last ≤ last') :
    w.resting last' key = true := by
  obtain ⟨id, e, hid, hheld, he, hpinned, hstamping, hlast⟩ := Workers.resting_iff.mp h
  exact Workers.resting_iff.mpr ⟨id, e, hid, hheld, he, hpinned, hstamping, hlast.trans_le hle⟩

/-- Who acts while an eviction has the lock. -/
theorem Workers.evicting_only (h : w.step translate e = some w')
    (hlock : w.lock = some (.evicting op)) :
    e.unlocked = true ∨ (∃ key, e = .scan key) ∨ e = .advance := by
  cases e with
  | submit | stamp | dropArc | scheduler | cancel | tick => exact Or.inl rfl
  | scan key => exact Or.inr (Or.inl ⟨key, rfl⟩)
  | advance => exact Or.inr (Or.inr rfl)
  | ensure =>
      obtain ⟨⟨w'', r⟩, hr, rfl⟩ := Option.map_eq_some_iff.mp h
      cases hlock.symm.trans (Workers.ensure_loaded_cases hr).1
  | loaded result => cases result <;> simp only [Workers.step, Workers.loaded, hlock] at h <;> cases h
  | abort =>
      simp only [Workers.step, Workers.abort, hlock] at h
      cases h
  | evict =>
      simp [Workers.step, Workers.evict, hlock] at h

theorem Workers.holders_remove : (w.remove key).holders = w.holders := by
  unfold Workers.remove
  split
  · rfl
  · exact Workers.holders_dropped _ _

/-- Nobody gets a route meanwhile. -/
theorem Workers.held_of_step (h : w.step translate e = some w')
    (hlock : w.lock = some (.evicting op)) (hheld : w.held id = false) : w'.held id = false := by
  have hsubset : w'.holders ⊆ w.holders := by
    rcases Workers.evicting_only h hlock with he | ⟨key, rfl⟩ | rfl
    · cases e with
      | submit =>
          simp only [Workers.step] at h
          split at h <;> cases h
          exact List.Subset.refl _
      | stamp =>
          obtain ⟨entry, -, h⟩ := Option.bind_eq_some_iff.mp h
          split at h <;> cases h
          exact List.Subset.refl _
      | dropArc caller id' =>
          simp only [Workers.step, Workers.dropArc] at h
          split at h
          · split at h <;> cases h
            rw [Workers.holders_dropped]
            exact List.erase_subset
          · cases h
      | scheduler =>
          obtain ⟨entry, s, -, -, -, rfl⟩ := Workers.schedule_cases h
          exact List.Subset.refl _
      | cancel | tick =>
          obtain rfl := Option.some.inj h
          exact List.Subset.refl _
      | ensure | loaded | abort | evict | scan | advance => cases he
    · obtain ⟨op, rfl⟩ := Workers.scan_cases h
      exact List.Subset.refl _
    · rcases Workers.advance_cases h with ⟨key, op, -, rfl, -⟩ | ⟨-, op, rfl, -⟩
      · show (w.remove key).holders ⊆ w.holders
        rw [Workers.holders_remove]
        exact List.Subset.refl _
      · exact List.Subset.refl _
  by_contra hheld'
  rw [Bool.not_eq_false] at hheld'
  obtain ⟨caller, hmem⟩ := Workers.held_iff.mp hheld'
  rw [Workers.held_iff.mpr ⟨caller, hsubset hmem⟩] at hheld
  cases hheld

/-- What is registered afterwards was so before, for the same route. -/
theorem Workers.lookup_of_mem (h : w.step translate e = some w')
    (hlock : w.lock = some (.evicting op)) (hfree : LoadingFree w) (hkey : key ∈ w'.entries.keys) :
    ∃ id, w.entries.lookup key = some id ∧ w'.entries.lookup key = some id := by
  obtain ⟨id, hid⟩ := Option.isSome_iff_exists.mp
    (AList.lookup_isSome.mpr (AList.mem_keys.mpr hkey))
  rcases (Workers.effect_of_step h hfree).lookup hid with hold | ⟨entry, hheap, -, -⟩
  · exact ⟨id, hold, hid⟩
  · -- no route is added under this lock
    have hlength := Workers.length_heap_of_step h fun measured he => by
      rcases Workers.evicting_only h hlock with hfree | ⟨_, hscan⟩ | hadvance
      · rw [he] at hfree
        cases hfree
      · cases he.symm.trans hscan
      · cases he.symm.trans hadvance
    rw [hheap, List.length_append] at hlength
    exact absurd hlength (Nat.succ_ne_self _)

/-- A route at rest stays so while it is registered. -/
theorem Workers.resting_step (h : w.step translate e = some w')
    (hlock : w.lock = some (.evicting op)) (hc : w.Counted) (hfree : LoadingFree w)
    (hkey : key ∈ w'.entries.keys) (hrest : w.resting last key = true) :
    w'.resting last key = true := by
  obtain ⟨id, entry, hid, hheld, hentry, hpinned, hstamping, hlast⟩ := Workers.resting_iff.mp hrest
  obtain ⟨entry', hentry', hev⟩ := Workers.heap_persists h hentry
  obtain ⟨id', hold, hid'⟩ := Workers.lookup_of_mem h hlock hfree hkey
  obtain rfl := Option.some.inj (hid.symm.trans hold)
  have hheld' := Workers.held_of_step h hlock hheld
  have hsubmit : ∀ {caller segments html priority cancelled},
      e ≠ .submit caller id segments html priority cancelled := by
    rintro caller segments html priority cancelled rfl
    simp only [Workers.step] at h
    split at h
    · rename_i huse
      obtain ⟨hmem, -⟩ := Bool.and_eq_true_iff.mp huse
      rw [Workers.held_iff.mpr ⟨caller, of_decide_eq_true hmem⟩] at hheld
      cases hheld
    · cases h
  have hpinned' : entry'.is_pinned = false := by
    have ha := hc.accounted id entry hentry
    rcases hev.unfinished ha (ha.idle hpinned) with hidle | ⟨_, _, _, _, _, he⟩
    · have hactive := (hev.accounted ha).active
      rw [hidle, List.length_nil] at hactive
      unfold PairEntry.is_pinned
      rw [hactive]
      rfl
    · exact absurd he hsubmit
  refine Workers.resting_iff.mpr ⟨id, entry', hid', hheld', hentry', hpinned', ?_⟩
  cases hev with
  | same | closed | scheduled => exact ⟨hstamping, hlast⟩
  | stamped hpos => exact absurd hstamping hpos
  | submitted he => exact absurd he hsubmit

/-- Stamps only grow. -/
theorem Workers.last_used_mono (h : w.step translate e = some w') (hc : w.Counted)
    (hid : id < w.heap.length) : w.last_used id ≤ w'.last_used id := by
  cases hstamps : e.stamps id with
  | false => exact (Workers.last_used_of_step h hid hstamps).ge
  | true =>
      cases e with
      | stamp id' =>
          obtain rfl : id' = id := of_decide_eq_true hstamps
          obtain ⟨entry, hentry, h⟩ := Option.bind_eq_some_iff.mp h
          split at h <;> cases h
          refine (hc.past id').trans ?_
          unfold Workers.last_used Workers.modify
          rw [List.getElem?_modify_eq, hentry]
          exact le_rfl
      | _ => cases hstamps

end Resting

/-! ## What the routes kept cost -/

section Since

variable {translate : ModelSpec → Option ModelSpec → Bool → List String → List Translation}
  {w w' : Workers} {e : WorkersEvent} {op : Evicting} {key : Key} {id last last' : Nat}

theorem Workers.mem_since : key ∈ w.since last ↔ key ∈ w.entries.keys ∧ w.resting last key = false := by
  unfold Workers.since
  rw [List.mem_filter]
  simp

theorem Workers.nodup_since (w : Workers) (last : Nat) : (w.since last).Nodup :=
  (show w.entries.keys.Nodup from w.entries.nodupKeys).filter _

theorem Workers.total_eq (w : Workers) : w.total = w.costAll w.entries.keys := w.total_eq_costs

theorem Workers.costAll_le {keys keys' : List Key} (hnodup : keys'.Nodup) (hsubset : keys' ⊆ keys)
    (hcost : ∀ key ∈ keys', w'.costOf (fun _ => true) key = w.costOf (fun _ => true) key) :
    w'.costAll keys' ≤ w.costAll keys := by
  unfold Workers.costAll
  rw [List.map_congr_left hcost]
  obtain ⟨keys₁, hperm, hsublist⟩ := List.subperm_of_subset hnodup hsubset
  rw [← (hperm.map _).sum_eq]
  exact (hsublist.map _).sum_le_sum fun _ _ => Nat.zero_le _

/-- Where the routes kept fit the budget and the others do not fit with them,
there are others. -/
theorem Workers.exists_outside {keys : List Key} {budget_mb : Nat} (hexceeds : budget_mb < w.total)
    (hfits : w.costAll keys ≤ budget_mb) : ∃ key ∈ w.entries.keys, key ∉ keys := by
  by_contra hnone
  push Not at hnone
  have hle : w.costAll w.entries.keys ≤ w.costAll keys :=
    Workers.costAll_le w.entries.nodupKeys hnone fun _ _ => rfl
  rw [w.total_eq] at hexceeds
  exact absurd (hexceeds.trans_le (hle.trans hfits)) (lt_irrefl _)

/-- What a registered route costs, it costs for life. -/
theorem Workers.costOf_step (h : w.step translate e = some w')
    (hlock : w.lock = some (.evicting op)) (hfree : LoadingFree w) (hsound : w.Sound)
    (hkey : key ∈ w'.entries.keys) :
    w'.costOf (fun _ => true) key = w.costOf (fun _ => true) key := by
  obtain ⟨id, hid, hid'⟩ := Workers.lookup_of_mem h hlock hfree hkey
  obtain ⟨entry, hentry⟩ := hsound key id hid
  obtain ⟨entry', hentry', hev⟩ := Workers.heap_persists h hentry
  have hbefore : w.entry? key = some entry := by rw [Workers.entry?, hid, Option.bind_some, hentry]
  have hafter : w'.entry? key = some entry' := by
    rw [Workers.entry?, hid', Option.bind_some, hentry']
  rw [Workers.costOf_eq hbefore, Workers.costOf_eq hafter, if_pos rfl, if_pos rfl]
  cases hev <;> rfl

/-- No step of an eviction, or of others meanwhile, adds to them. -/
theorem Workers.since_step (h : w.step translate e = some w')
    (hlock : w.lock = some (.evicting op)) (hc : w.Counted) (hr : Routed w)
    (hid : id < w.heap.length) :
    w'.since (w'.last_used id) ⊆ w.since (w.last_used id)
      ∧ w'.costAll (w'.since (w'.last_used id)) ≤ w.costAll (w.since (w.last_used id)) := by
  have hsubset : w'.since (w'.last_used id) ⊆ w.since (w.last_used id) := by
    intro key hkey
    obtain ⟨hmem', hawake⟩ := Workers.mem_since.mp hkey
    obtain ⟨id', hid', -⟩ := Workers.lookup_of_mem h hlock hr.free hmem'
    refine Workers.mem_since.mpr
      ⟨AList.mem_keys.mp (AList.lookup_isSome.mp (by rw [hid']; rfl)), ?_⟩
    by_contra hrest
    rw [Bool.not_eq_false] at hrest
    have hrest' := Workers.resting_mono (Workers.resting_step h hlock hc hr.free hmem' hrest)
      (Workers.last_used_mono h hc hid)
    rw [hawake] at hrest'
    cases hrest'
  refine ⟨hsubset, Workers.costAll_le (w'.nodup_since _) hsubset fun key hkey => ?_⟩
  exact Workers.costOf_step h hlock hr.free hr.sound (Workers.mem_since.mp hkey).1

theorem Workers.length_since_step (h : w.step translate e = some w')
    (hlock : w.lock = some (.evicting op)) (hc : w.Counted) (hr : Routed w)
    (hid : id < w.heap.length) :
    (w'.since (w'.last_used id)).length ≤ (w.since (w.last_used id)).length :=
  (List.subperm_of_subset (w'.nodup_since _) (Workers.since_step h hlock hc hr hid).1).length_le

end Since

/-! ## Reading -/

section Scanning

variable {translate : ModelSpec → Option ModelSpec → Bool → List String → List Translation}
  {w w' : Workers} {e : WorkersEvent} {op : Evicting} {key key' : Key} {id last : Nat}
  {todo kept : List Key} {seen : List Snapshot}

theorem Workers.Scanning.start (w : Workers) (key : Key) (id : Nat) :
    w.Scanning key id w.entries.keys [] (w.since (w.last_used id)) (w.last_used id) where
  stamp := le_rfl
  keys := List.Perm.refl _
  unread key' hkey' hkept := by
    by_contra hawake
    rw [Bool.not_eq_true] at hawake
    exact hkept (Workers.mem_since.mpr ⟨hkey', hawake⟩)
  read := nofun
  own := nofun

theorem Workers.Scanning.lock (h : w.Scanning key id todo seen kept last) (l : Option Lock) :
    ({ w with lock := l }).Scanning key id todo seen kept last :=
  ⟨h.stamp, h.keys, h.unread, h.read, h.own⟩

/-- Others act meanwhile. -/
theorem Workers.Scanning.step (hs : w.Scanning key id todo seen kept last)
    (h : w.step translate e = some w') (he : e.unlocked = true) (hlock : w.lock = some (.evicting op))
    (hc : w.Counted) (hr : Routed w) (hid : id < w.heap.length) (hnow : w'.now = w.now) :
    w'.Scanning key id todo seen kept last := by
  have hentries := (Workers.unlocked_step h he).1
  refine ⟨hs.stamp.trans (Workers.last_used_mono h hc hid), ?_, ?_, ?_, ?_⟩
  · rw [hentries]
    exact hs.keys
  · intro key' hkey' hkept
    refine Workers.resting_step h hlock hc hr.free ?_ (hs.unread key' hkey' hkept)
    rw [hentries]
    exact hs.keys.subset (List.mem_append_right _ hkey')
  · rw [hnow]
    exact hs.read
  · rw [hnow]
    exact hs.own

/-- One more route is read. -/
theorem Workers.Scanning.scan (hs : w.Scanning key id todo seen kept last) (hc : w.Counted)
    (hregistered : w.entries.lookup key = some id) (hkey' : key' ∈ todo) {entry : PairEntry}
    (hentry : w.entry? key' = some entry) :
    w.Scanning key id (todo.erase key') (seen ++ [⟨key', entry.is_pinned, w.idle_for entry⟩]) kept
      last where
  stamp := hs.stamp
  keys := by
    rw [List.map_append, List.append_assoc]
    exact ((List.perm_cons_erase hkey').symm.append_left _).trans hs.keys
  unread key₁ hkey₁ := hs.unread key₁ (List.mem_of_mem_erase hkey₁)
  read s hmem hkept := by
    rcases List.mem_append.mp hmem with hold | hnew
    · exact hs.read s hold hkept
    · obtain rfl := List.mem_singleton.mp hnew
      obtain ⟨id', e, hid', -, he, hpinned, -, hlast⟩ :=
        Workers.resting_iff.mp (hs.unread key' hkey' hkept)
      rw [Workers.entry?, hid', Option.bind_some, he] at hentry
      obtain rfl := Option.some.inj hentry
      have hpast := hs.stamp.trans (hc.past id)
      exact ⟨hpinned, Nat.sub_lt_sub_left (hlast.trans_le hpast) hlast⟩
  own s hmem hkey := by
    rcases List.mem_append.mp hmem with hold | hnew
    · exact hs.own s hold hkey
    · obtain rfl := List.mem_singleton.mp hnew
      obtain rfl : key' = key := hkey
      have hstamp : entry.last_used = w.last_used id := by
        rw [Workers.entry?, hregistered, Option.bind_some] at hentry
        unfold Workers.last_used
        rw [hentry]
        rfl
      exact Nat.sub_le_sub_left (hstamp ▸ hs.stamp) _

/-- What is read of the routes outside is older than what is read of this
one. -/
theorem Workers.Scanning.older (hs : w.Scanning key id todo seen kept last) {s s' : Snapshot}
    (hs' : s' ∈ seen) (hkey : s'.key = key) (hmem : s ∈ seen) (hidle : s.idle ≤ s'.idle) :
    s.key ∈ kept := by
  by_contra hkept
  exact absurd ((hs.read s hmem hkept).2.trans_le (hidle.trans (hs.own s' hs' hkey))) (lt_irrefl _)

/-- The longest idle route is another one. -/
theorem Workers.Scanning.longestIdle_ne (hs : w.Scanning key id [] seen kept last)
    (houtside : ∃ key' ∈ w.entries.keys, key' ∉ kept) (hlongest : longestIdle seen = some key') :
    key' ≠ key := by
  rintro rfl
  obtain ⟨s', hs', hkey, -, hmax⟩ := longestIdle_eq_some hlongest
  obtain ⟨key₁, hkey₁, hkept⟩ := houtside
  have hread := hs.keys.symm.subset hkey₁
  rw [List.append_nil] at hread
  obtain ⟨s, hmem, rfl⟩ := List.mem_map.mp hread
  exact hkept (hs.older hs' hkey hmem (hmax s hmem (hs.read s hmem hkept).1))

/-- Nor is this one of those beyond the warm capacity. -/
theorem Workers.Scanning.not_excess (hs : w.Scanning key id [] seen kept last) {keep_warm : Nat}
    (hkept : kept.length ≤ keep_warm) : key ∉ excessKeys keep_warm seen := by
  rw [excessKeys_eq]
  generalize hn : (unpinnedByIdle seen).length - keep_warm = n
  intro hmem
  obtain ⟨s', hs', hkey⟩ := List.mem_map.mp hmem
  have hsorted := @sorted_unpinnedByIdle seen
  rw [← List.take_append_drop n (unpinnedByIdle seen), List.pairwise_append] at hsorted
  -- those that stay, and this one, are all among the routes kept
  have hread : ∀ {s}, s ∈ unpinnedByIdle seen → s ∈ seen := fun h => (mem_unpinnedByIdle.mp h).1
  have hseen' := hread (List.mem_of_mem_take hs')
  have hnodup : ((unpinnedByIdle seen).map Snapshot.key).Nodup := by
    have hperm := hs.keys
    rw [List.append_nil] at hperm
    have hseen : (seen.map Snapshot.key).Nodup := hperm.nodup_iff.mpr w.entries.nodupKeys
    exact (((List.mergeSort_perm ..).map _).nodup_iff).mpr (hseen.sublist (List.filter_sublist.map _))
  have hsubset : s'.key :: ((unpinnedByIdle seen).drop n).map Snapshot.key ⊆ kept := by
    intro key₁ hkey₁
    rcases List.mem_cons.mp hkey₁ with rfl | hkey₁
    · exact hs.older hseen' hkey hseen' le_rfl
    · obtain ⟨s, hs₁, rfl⟩ := List.mem_map.mp hkey₁
      exact hs.older hseen' hkey (hread (List.mem_of_mem_drop hs₁)) (hsorted.2.2 s' hs' s hs₁)
  have hnodup' : (s'.key :: ((unpinnedByIdle seen).drop n).map Snapshot.key).Nodup := by
    rw [← List.take_append_drop n (unpinnedByIdle seen), List.map_append, List.nodup_append] at hnodup
    refine List.nodup_cons.mpr ⟨fun hdrop => ?_, hnodup.2.1⟩
    exact hnodup.2.2 s'.key (List.mem_map_of_mem hs') s'.key hdrop rfl
  have hlength := (List.subperm_of_subset hnodup' hsubset).length_le
  have hpos := List.length_pos_of_mem hs'
  rw [List.length_take] at hpos
  rw [List.length_cons, List.length_map, List.length_drop] at hlength
  omega

end Scanning

/-! ## The eviction, step by step -/

section Passes

variable {translate : ModelSpec → Option ModelSpec → Bool → List String → List Translation}
  {w w' : Workers} {e : WorkersEvent} {op op' : Evicting} {key : Key} {id : Nat}

theorem Workers.touches_step (h : w.step translate e = some w') {source target : String}
    (hid : id < w.heap.length)
    (htouches : (w.heap[id]?.all fun e => !e.touches source target) = true) :
    (w'.heap[id]?.all fun e => !e.touches source target) = true := by
  obtain ⟨entry, hentry⟩ : ∃ entry, w.heap[id]? = some entry := ⟨_, List.getElem?_eq_getElem hid⟩
  obtain ⟨entry', hentry', hev⟩ := Workers.heap_persists h hentry
  obtain ⟨hkey, hpivot, -⟩ := hev.route
  rw [hentry] at htouches
  rw [hentry']
  unfold PairEntry.key at hkey
  unfold PairEntry.touches at htouches ⊢
  simp only [Option.all_some] at htouches ⊢
  rw [(Prod.mk.inj hkey).1, (Prod.mk.inj hkey).2, hpivot]
  exact htouches

/-- Others act while it has the lock. -/
theorem Workers.Passes.step (hp : w.Passes op key id) (h : w.step translate e = some w')
    (he : e.unlocked = true) (hlock : w.lock = some (.evicting op)) (hc : w.Counted) (hr : Routed w)
    (hid : id < w.heap.length) (hnow : op.stage.collects = true → w'.now = w.now) :
    w'.Passes op key id := by
  have hcost := (Workers.since_step h hlock hc hr hid).2
  have hlength := Workers.length_since_step h hlock hc hr hid
  have hmono := Workers.last_used_mono h hc hid
  obtain ⟨stage, todo, seen, victims, ret⟩ := op
  obtain ⟨hvictims, hp⟩ := hp
  refine ⟨hvictims, ?_⟩
  cases stage with
  | budget => exact hcost.trans hp
  | budgetScan =>
      obtain ⟨hnil, hfits, kept, last, hscanning, key', hkey', hkept⟩ := hp
      refine ⟨hnil, hcost.trans hfits, kept, last,
        hscanning.step h he hlock hc hr hid (hnow rfl), key', ?_, hkept⟩
      rw [(Workers.unlocked_step h he).1]
      exact hkey'
  | expiredScan =>
      refine ⟨hlength.trans hp.1, ?_, hp.2.2⟩
      rw [hnow rfl]
      exact (Nat.sub_le_sub_left hmono _).trans_lt hp.2.1
  | expired => exact hlength.trans hp
  | warmScan =>
      obtain ⟨hnil, kept, last, hscanning, hkept⟩ := hp
      exact ⟨hnil, kept, last, hscanning.step h he hlock hc hr hid (hnow rfl), hkept⟩
  | unpinnedScan => exact hp
  | unloadScan => exact Workers.touches_step h hid hp
  | done => exact hp

/-- It reads a route. -/
theorem Workers.Passes.scan (hp : w.Passes op key id) {key' : Key} (h : w.scan key' = some w')
    (hlock : w.lock = some (.evicting op)) (hc : w.Counted)
    (hregistered : w.entries.lookup key = some id) (hlock' : w'.lock = some (.evicting op')) :
    w'.Passes op' key id := by
  obtain ⟨hkey', hnil, entry, hentry⟩ := Workers.scan_enabled h hlock
  obtain ⟨id', hid', he'⟩ := Option.bind_eq_some_iff.mp hentry
  have hown : key' = key → w.heap[id]? = some entry := by
    rintro rfl
    obtain rfl := Option.some.inj (hid'.symm.trans hregistered)
    exact he'
  obtain ⟨stage, todo, seen, victims, ret⟩ := op
  obtain ⟨hvictims, hp⟩ := hp
  unfold Workers.scan at h
  rw [hlock] at h
  dsimp only at h hkey' hnil hp hvictims
  rw [if_pos ⟨hkey', hnil⟩, hid', Option.bind_some, he'] at h
  cases stage with
  | unpinnedScan => exact hp.elim
  | unloadScan source target =>
      obtain rfl := Option.some.inj h
      dsimp only at hlock'
      split at hlock'
      · rename_i htouches
        cases hlock'
        refine ⟨fun hmem => ?_, hp⟩
        have hp : (w.heap[id]?.all fun e => !e.touches source target) = true := hp
        rw [hown (List.mem_singleton.mp hmem).symm, Option.all_some, htouches] at hp
        cases hp
      · cases hlock'
        exact ⟨hvictims, hp⟩
  | budget | expired | done =>
      obtain rfl := Option.some.inj h
      cases hlock'
      exact ⟨hvictims, hp⟩
  | budgetScan =>
      obtain rfl := Option.some.inj h
      cases hlock'
      obtain ⟨-, hfits, kept, last, hscanning, houtside⟩ := hp
      exact ⟨hvictims, hnil, hfits, kept, last,
        (hscanning.scan hc hregistered hkey' hentry).lock _, houtside⟩
  | warmScan =>
      obtain rfl := Option.some.inj h
      cases hlock'
      obtain ⟨-, kept, last, hscanning, hkept⟩ := hp
      exact ⟨hvictims, hnil, kept, last, (hscanning.scan hc hregistered hkey' hentry).lock _, hkept⟩
  | expiredScan keep_warm window =>
      obtain rfl := Option.some.inj h
      cases hlock'
      refine ⟨hvictims, hp.1, hp.2.1, fun s hs hkey => ?_⟩
      rcases List.mem_append.mp hs with hold | hnew
      · exact hp.2.2 s hold hkey
      · obtain rfl := List.mem_singleton.mp hnew
        have hstamp : w.last_used id = entry.last_used := by
          unfold Workers.last_used
          rw [hown hkey]
          rfl
        have hidle := hp.2.1
        rwa [hstamp] at hidle

/-- It removes a route, or goes on. -/
theorem Workers.Passes.advance (hp : w.Passes op key id)
    (h : w.step translate .advance = some w') (hlock : w.lock = some (.evicting op))
    (hc : w.Counted) (hr : Routed w) (hid : id < w.heap.length)
    (hlock' : w'.lock = some (.evicting op')) : w'.Passes op' key id := by
  have hcost := (Workers.since_step h hlock hc hr hid).2
  have hlength := Workers.length_since_step h hlock hc hr hid
  have hmono := Workers.last_used_mono h hc hid
  have htouches := fun source target => @Workers.touches_step _ _ _ _ _ h source target hid
  obtain ⟨stage, todo, seen, victims, ret⟩ := op
  obtain ⟨hvictims, hp⟩ := hp
  simp only [Workers.step, Workers.advance, hlock] at h
  dsimp only at hvictims hp
  cases victims with
  | cons key' rest =>
      obtain rfl := Option.some.inj h
      cases hlock'
      refine ⟨fun hmem => hvictims (List.mem_cons_of_mem _ hmem), ?_⟩
      cases stage with
      | budget => exact hcost.trans hp
      | budgetScan | warmScan => cases hp.1
      | expiredScan =>
          refine ⟨hlength.trans hp.1, ?_, hp.2.2⟩
          refine (Nat.sub_le_sub_left hmono _).trans_lt ?_
          show (w.remove key').now - _ < _
          rw [Workers.now_remove]
          exact hp.2.1
      | expired => exact hlength.trans hp
      | unpinnedScan => exact hp
      | unloadScan => exact htouches _ _ hp
      | done => exact hp
  | nil =>
      cases todo with
      | cons => cases h
      | nil =>
          cases stage with
          | budget budget_mb =>
              dsimp only at h
              split at h <;> cases h <;> cases hlock'
              rename_i hexceeds
              refine ⟨List.not_mem_nil, rfl, hp, _, _, (Workers.Scanning.start w key id).lock _, ?_⟩
              exact Workers.exists_outside (Nat.lt_of_not_le hexceeds) hp
          | budgetScan budget_mb =>
              dsimp only at h
              split at h <;> cases h <;> cases hlock'
              rename_i key' hlongest
              obtain ⟨-, hfits, kept, last, hscanning, houtside⟩ := hp
              refine ⟨fun hmem => ?_, hfits⟩
              exact hscanning.longestIdle_ne houtside hlongest (List.mem_singleton.mp hmem).symm
          | expiredScan keep_warm window =>
              obtain rfl := Option.some.inj h
              cases hlock'
              refine ⟨fun hmem => ?_, hp.1⟩
              obtain ⟨s, hs, hkey⟩ := List.mem_map.mp hmem
              obtain ⟨hs, hcond⟩ := List.mem_filter.mp hs
              simp only [Bool.and_eq_true, decide_eq_true_eq] at hcond
              exact absurd (hp.2.2 s hs hkey) (Nat.not_lt_of_le hcond.2)
          | expired keep_warm =>
              obtain rfl := Option.some.inj h
              cases hlock'
              exact ⟨List.not_mem_nil, rfl, _, _, (Workers.Scanning.start w key id).lock _, hp⟩
          | warmScan keep_warm =>
              obtain rfl := Option.some.inj h
              cases hlock'
              obtain ⟨-, kept, last, hscanning, hkept⟩ := hp
              exact ⟨hscanning.not_excess hkept, trivial⟩
          | unpinnedScan => exact hp.elim
          | unloadScan | done =>
              obtain rfl := Option.some.inj h
              cases hlock'

end Passes

/-! ## Routes kept -/

section Kept

variable {translate : ModelSpec → Option ModelSpec → Bool → List String → List Translation}
  {w w' : Workers} {e : WorkersEvent} {op : Evicting} {key key₀ : Key} {id caller : Nat}
  {pivot : Option String} {first : ModelSpec} {second : Option ModelSpec} {budget_mb measured : Nat}

/-- The new route, and what it may cost next to the others. -/
theorem Workers.costAll_loaded (hr : Routed w) (hfree : w.entries.lookup key₀ = none)
    (hlock : w.lock = some (.loading caller key₀ pivot first second budget_mb))
    (h : w.loaded (.ok measured) = some w') (last : Nat) (hfits : w.Fits measured last) :
    w'.costAll (w'.since last) ≤ budget_mb := by
  have hadded := Workers.added hr.sound hfree hlock h
  obtain ⟨entry, hfresh, hcost⟩ := hadded.fresh
  unfold Workers.Fits at hfits
  rw [hlock] at hfits
  have hsubset : w'.since last ⊆ key₀ :: w.since last := by
    intro key hkey
    obtain ⟨hmem, hawake⟩ := Workers.mem_since.mp hkey
    rw [hadded.keys] at hmem
    refine List.mem_cons.mpr ((List.mem_cons.mp hmem).imp_right fun hmem => ?_)
    refine Workers.mem_since.mpr ⟨hmem, ?_⟩
    by_contra hrest
    rw [Bool.not_eq_false] at hrest
    obtain ⟨id, e, hid, hheld, he, hpinned, hstamping, hlast⟩ := Workers.resting_iff.mp hrest
    have hne : key ≠ key₀ := by
      rintro rfl
      cases hfree.symm.trans hid
    have hlt := (List.getElem?_eq_some_iff.mp he).1
    simp only [Workers.loaded, hlock] at h
    obtain rfl := Option.some.inj h
    rw [← Bool.not_eq_true, Workers.resting_iff] at hawake
    refine hawake ⟨id, e, ?_, ?_, ?_, hpinned, hstamping, hlast⟩
    · show (w.entries.insert key₀ w.heap.length).lookup key = some id
      rw [AList.lookup_insert_ne hne, hid]
    · rw [← hheld]
      unfold Workers.held
      rw [List.any_cons, decide_eq_false (by simpa using hlt.ne'), Bool.false_or]
    · show (w.heap ++ [_])[id]? = some e
      rw [List.getElem?_append_left hlt, he]
  have hcosts : w'.costAll (w'.since last)
      ≤ w'.costAll (key₀ :: w.since last) := Workers.costAll_le (w'.nodup_since last) hsubset
    fun _ _ => rfl
  refine hcosts.trans (le_trans (le_of_eq ?_) hfits)
  show w'.costOf (fun _ => true) key₀ + w'.costAll (w.since last) = _
  rw [Workers.costOf_eq hfresh.entry, if_pos rfl, hcost, Nat.add_comm]
  refine congrArg (· + _) (congrArg List.sum (List.map_congr_left fun key hkey => ?_))
  have hne : key ≠ key₀ := by
    rintro rfl
    have hsome := AList.lookup_isSome.mpr (AList.mem_keys.mpr (Workers.mem_since.mp hkey).1)
    rw [hfree] at hsome
    cases hsome
  unfold Workers.costOf
  rw [hadded.others key hne]

/-- The load ends, and the eviction over its budget begins. -/
theorem Workers.kept_loaded (hr : Routed w) (hfree : w.entries.lookup key₀ = none)
    (hlock : w.lock = some (.loading caller key₀ pivot first second budget_mb))
    (h : w.loaded (.ok measured) = some w') (hregistered : w'.entries.lookup key = some id)
    (hfits : w.Fits measured (w'.last_used id)) : w'.Kept key id where
  registered := hregistered
  passes := by
    intro op hlock'
    have hadded := Workers.added hr.sound hfree hlock h
    cases hadded.lock.symm.trans hlock'
    exact ⟨List.not_mem_nil, Workers.costAll_loaded hr hfree hlock h _ hfits⟩

/-- Another eviction begins. -/
theorem Workers.kept_evict {stage : Stage} (h : w.evict stage = some w')
    (hregistered : w.entries.lookup key = some id) (hleaves : w.Leaves id stage) : w'.Kept key id := by
  unfold Workers.evict at h
  split at h
  · cases h
  · rename_i hinitial
    obtain rfl := Option.some.inj h
    refine ⟨hregistered, fun op hlock' => ?_⟩
    cases hlock'
    refine ⟨List.not_mem_nil, ?_⟩
    cases stage with
    | budget => exact hleaves
    | expiredScan => exact ⟨hleaves.2, hleaves.1, nofun⟩
    | unpinnedScan => exact hleaves
    | unloadScan => exact hleaves
    | budgetScan | expired | warmScan | done => simp [Stage.initial] at hinitial

/-- A route in the registry stays there, unless an eviction removes it. -/
theorem Workers.lookup_of_step (h : w.step translate e = some w') (hfree : LoadingFree w)
    (hlookup : w.entries.lookup key = some id)
    (hvictim : e = .advance → w.victim ≠ some key) : w'.entries.lookup key = some id := by
  cases Workers.effect_of_step h hfree with
  | quiet hentries | hold _ hentries | touch _ hentries => rw [hentries, hlookup]
  | @insert _ _ caller entry hfree haccepts hentries =>
      have hne : key ≠ entry.key := by
        rintro rfl
        cases hfree.symm.trans hlookup
      rw [hentries, AList.lookup_insert_ne hne, hlookup]
  | @remove _ key' hkey' hentries =>
      have hne : key ≠ key' := by
        rintro rfl
        exact hvictim rfl hkey'
      rw [hentries, w.lookup_remove_ne hne, hlookup]
  | drop => rw [Workers.entries_dropped, hlookup]

/-- An eviction in progress was in progress, or the step starts it. -/
theorem Workers.evicting_of_step (h : w.step translate e = some w') {op' : Evicting}
    (hlock' : w'.lock = some (.evicting op')) :
    w.lock = some (.evicting op')
      ∨ (∃ op, w.lock = some (.evicting op) ∧ op'.ret = op.ret ∧ (e = .advance ∨ ∃ key, e = .scan key))
      ∨ (op'.ret = none ∧ ∃ stage, e = .evict stage) ∨ ∃ measured, e = .loaded (.ok measured) := by
  cases e with
  | ensure caller source target allow_pivot budget_mb plan specs =>
      obtain ⟨⟨w'', r⟩, hr, rfl⟩ := Option.map_eq_some_iff.mp h
      rcases (Workers.ensure_loaded_cases hr).2 with
        ⟨id, -, -, rfl⟩ | ⟨error, -, rfl⟩ | ⟨pivot, first, second, -, -, -, -, rfl⟩
      · exact Or.inl hlock'
      · exact Or.inl hlock'
      · cases hlock'
  | loaded result =>
      cases result with
      | error error =>
          simp only [Workers.step, Workers.loaded] at h
          split at h <;> cases h
          cases hlock'
      | ok measured => exact Or.inr (Or.inr (Or.inr ⟨measured, rfl⟩))
  | abort caller =>
      simp only [Workers.step, Workers.abort] at h
      split at h
      · split at h <;> cases h
        cases hlock'
      · cases h
  | submit caller id segments html priority cancelled =>
      simp only [Workers.step] at h
      split at h <;> cases h
      exact Or.inl hlock'
  | stamp id =>
      obtain ⟨entry, -, h⟩ := Option.bind_eq_some_iff.mp h
      split at h <;> cases h
      exact Or.inl hlock'
  | dropArc caller id =>
      simp only [Workers.step, Workers.dropArc] at h
      split at h
      · split at h <;> cases h
        rw [Workers.lock_dropped] at hlock'
        exact Or.inl hlock'
      · cases h
  | evict stage =>
      simp only [Workers.step, Workers.evict] at h
      split at h <;> cases h
      cases hlock'
      exact Or.inr (Or.inr (Or.inl ⟨rfl, stage, rfl⟩))
  | scan key =>
      refine Or.inr (Or.inl ?_)
      simp only [Workers.step, Workers.scan] at h
      split at h
      · rename_i op hlock
        refine ⟨op, hlock, ?_, Or.inr ⟨key, rfl⟩⟩
        split at h
        · split at h
          · cases h
          · cases h
            cases hlock'
            cases op.stage <;> dsimp only <;> first | rfl | (split <;> rfl)
        · cases h
      · cases h
  | advance =>
      refine Or.inr (Or.inl ?_)
      simp only [Workers.step, Workers.advance] at h
      split at h
      · rename_i op hlock
        refine ⟨op, hlock, ?_, Or.inl rfl⟩
        split at h <;> first
          | (cases h; done)
          | (cases h; cases hlock'; done)
          | (cases h; cases hlock'; rfl)
          | (split at h <;> cases h <;> first | (cases hlock'; done) | (cases hlock'; rfl))
      · cases h
  | scheduler id event =>
      obtain ⟨entry, s, -, -, -, rfl⟩ := Workers.schedule_cases h
      exact Or.inl hlock'
  | cancel flag | tick =>
      obtain rfl := Option.some.inj h
      exact Or.inl hlock'

/-- **The step lemma**: a route that is kept stays so, if each eviction that begins leaves
it alone and no time passes while one reads. -/
theorem Workers.kept_step (hk : w.Kept key id) (h : w.step translate e = some w') (hc : w.Counted)
    (hr : Routed w) (hfits : ∀ measured, e = .loaded (.ok measured) → w.Fits measured (w.last_used id))
    (hleaves : ∀ stage, e = .evict stage → w.Leaves id stage)
    (htick : e = .tick → w.scanning = false) : w'.Kept key id := by
  obtain ⟨entry, hentry, -⟩ := hr.keys key id hk.registered
  have hid := (List.getElem?_eq_some_iff.mp hentry).1
  have hregistered : w'.entries.lookup key = some id := by
    refine Workers.lookup_of_step h hr.free hk.registered fun _ hvictim => ?_
    unfold Workers.victim at hvictim
    split at hvictim
    · rename_i op hlock
      exact (hk.passes op hlock).1 (List.mem_of_mem_head? hvictim)
    · cases hvictim
  refine ⟨hregistered, fun op' hlock' => ?_⟩
  rcases Workers.evicting_of_step h hlock' with
    hlock | ⟨op, hlock, -, he⟩ | ⟨-, stage, rfl⟩ | ⟨measured, rfl⟩
  · -- the eviction goes on as it was
    rcases Workers.evicting_only h hlock with he | ⟨key', rfl⟩ | rfl
    · refine (hk.passes op' hlock).step h he hlock hc hr hid fun hcollects => ?_
      refine (Workers.now_of_step h).resolve_right fun heq => ?_
      have hscanning := htick heq
      unfold Workers.scanning at hscanning
      rw [hlock] at hscanning
      cases hcollects.symm.trans hscanning
    · exact (hk.passes op' hlock).scan h hlock hc hk.registered hlock'
    · exact (hk.passes op' hlock).advance h hlock hc hr hid hlock'
  · rcases he with rfl | ⟨key', rfl⟩
    · exact (hk.passes op hlock).advance h hlock hc hr hid hlock'
    · exact (hk.passes op hlock).scan h hlock hc hk.registered hlock'
  · exact (Workers.kept_evict h hk.registered (hleaves stage rfl)).passes op' hlock'
  · have hloaded := h
    simp only [Workers.step, Workers.loaded] at hloaded
    split at hloaded
    · rename_i caller key₀ pivot first second budget_mb hlock
      have hstamp : w'.last_used id = w.last_used id := Workers.last_used_of_step h hid rfl
      exact (Workers.kept_loaded hr (hr.free _ _ _ _ _ _ hlock) hlock h hregistered
        (hstamp ▸ hfits measured rfl)).passes op' hlock'
    · cases hloaded

end Kept

end Dragomand
