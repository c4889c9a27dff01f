import Dragomand.LastUse
import Dragomand.SweepEviction

/-!
# What an eviction goes by

While an eviction has the lock, the registry only loses routes, and a route
that it has read is not used since, or was used later than it was read. So
what a snapshot says of the last use of its route stays right until the route
is removed (`Judged`), and the evictions respect the uses in every run in
which none comes at a time when the stamps mislead it (`last_use_respected`).
-/

namespace Dragomand

namespace Uses

/-! ## What is read -/

/-- Every loaded route is read, or to be read once. -/
structure Scans (s : Uses) (op : Evicting) : Prop where
  victims : op.victims = []
  nodup : op.todo.Nodup
  once : ∀ read ∈ op.seen, read.key ∉ op.todo
  all : ∀ key id, s.workers.entries.lookup key = some id →
    key ∈ op.todo ∨ ∃ read ∈ op.seen, read.key = key

/-- A route that was read as idle for the window, and was not used since, was
not used for the window. -/
def IdleFor (s : Uses) (window : Nat) (seen : List Snapshot) : Prop :=
  ∀ read ∈ seen, ∀ id, s.workers.entries.lookup read.key = some id → s.unused id = true →
    read.pinned = false → window ≤ read.idle → s.used id + window ≤ s.workers.now

/-- All routes were read at one time. Of two that were not used since, the one
that was read as idle for longer was used earlier. -/
structure ReadAt (s : Uses) (seen : List Snapshot) (time : Nat) : Prop where
  past : time ≤ s.workers.now
  unused : ∀ read ∈ seen, ∀ id, s.workers.entries.lookup read.key = some id →
    s.unused id = true → read.pinned = false ∧ s.used id ≤ time
  order : ∀ read ∈ seen, ∀ read' ∈ seen, ∀ id id', s.workers.entries.lookup read.key = some id →
    s.workers.entries.lookup read'.key = some id' → s.unused id = true → s.unused id' = true →
    read'.idle ≤ read.idle → s.used id ≤ s.used id'
  used : ∀ read ∈ seen, ∀ id, s.workers.entries.lookup read.key = some id →
    s.unused id = false → time ≤ s.used id

/-- What is read of the routes, but for those used since, is still so. -/
def StampsRead (s : Uses) (seen : List Snapshot) : Prop :=
  ∀ read ∈ seen, ∀ id, s.workers.entries.lookup read.key = some id → s.unused id = true →
    read.idle = s.workers.now - s.workers.last_used id
      ∧ s.workers.last_used id ≤ s.workers.now

/-- The first route, if it was not used since it was read, was last used no
later than the second. -/
def Older (s : Uses) (key key' : Key) : Prop :=
  ∀ id id', s.workers.entries.lookup key = some id → s.workers.entries.lookup key' = some id' →
    s.unused id = true → s.used id ≤ s.used id'

/-- The victims are older than what comes after them, and than what stays. -/
structure Oldest (s : Uses) (victims : List Key) : Prop where
  chain : victims.Pairwise s.Older
  rest : ∀ key ∈ victims, ∀ key', key' ∉ victims → s.Older key key'

/-- What an eviction has read and decided is right, stage by stage. -/
structure Judged (s : Uses) (op : Evicting) : Prop where
  expiredScan : ∀ keep_warm window, op.stage = .expiredScan keep_warm window →
    s.window = window ∧ s.Scans op ∧ s.IdleFor window op.seen
  compares : op.stage.compares = true → s.Scans op ∧ ∃ time, s.ReadAt op.seen time
    ∧ (op.seen ≠ [] → op.todo ≠ [] → time = s.workers.now ∧ s.StampsRead op.seen)
  expires : op.stage.expires = true → ∀ key ∈ op.victims, ∀ id,
    s.workers.entries.lookup key = some id → s.unused id = true →
      s.used id + s.window ≤ s.workers.now
  oldest : op.stage.oldest = true → s.Oldest op.victims

/-- The route is in use, or its record stays as it is. -/
def Steady (s s' : Uses) (id : Nat) : Prop :=
  (s'.used id = s.used id ∧ s'.unused id = s.unused id)
    ∨ (s'.used id = s'.workers.now ∧ s'.unused id = false)

/-- The registry loses routes only, and none is read. -/
structure Drift (s s' : Uses) : Prop where
  lookup : ∀ key id, s'.workers.entries.lookup key = some id →
    s.workers.entries.lookup key = some id
  now : s.workers.now ≤ s'.workers.now
  window : s'.window = s.window
  route : ∀ id, s.Steady s' id

section Drift

variable {s s' : Uses} {op : Evicting} {seen : List Snapshot} {key key' : Key}
  {victims : List Key} {time : Nat}

theorem Drift.scans (hd : s.Drift s') (h : s.Scans op) : s'.Scans op where
  victims := h.victims
  nodup := h.nodup
  once := h.once
  all key id hlookup := h.all key id (hd.lookup key id hlookup)

theorem IdleFor.steady {window : Nat} (h : s.IdleFor window seen)
    (hnow : s.workers.now ≤ s'.workers.now)
    (hroute : ∀ read ∈ seen, ∀ id, s'.workers.entries.lookup read.key = some id →
      s.workers.entries.lookup read.key = some id ∧ s.Steady s' id) : s'.IdleFor window seen := by
  intro read hread id hlookup' hunused hpinned hidle
  obtain ⟨hlookup, ⟨hused, hunused'⟩ | ⟨-, hunused'⟩⟩ := hroute read hread id hlookup'
  · rw [hused]
    exact (h read hread id hlookup (hunused'.symm.trans hunused) hpinned hidle).trans hnow
  · cases hunused.symm.trans hunused'

theorem ReadAt.steady (h : s.ReadAt seen time) (hnow : s.workers.now ≤ s'.workers.now)
    (hroute : ∀ read ∈ seen, ∀ id, s'.workers.entries.lookup read.key = some id →
      s.workers.entries.lookup read.key = some id ∧ s.Steady s' id) : s'.ReadAt seen time where
  past := h.past.trans hnow
  unused read hread id hlookup' hunused := by
    obtain ⟨hlookup, ⟨hused, hunused'⟩ | ⟨-, hunused'⟩⟩ := hroute read hread id hlookup'
    · rw [hused]
      exact h.unused read hread id hlookup (hunused'.symm.trans hunused)
    · cases hunused.symm.trans hunused'
  order read hread read' hread' id id' hlookup hlookup' hunused hunused' hidle := by
    obtain ⟨hbefore, ⟨hused, hsame⟩ | ⟨-, hnot⟩⟩ := hroute read hread id hlookup
    · obtain ⟨hbefore', ⟨hused', hsame'⟩ | ⟨-, hnot'⟩⟩ := hroute read' hread' id' hlookup'
      · rw [hused, hused']
        exact h.order read hread read' hread' id id' hbefore hbefore' (hsame.symm.trans hunused)
          (hsame'.symm.trans hunused') hidle
      · cases hunused'.symm.trans hnot'
    · cases hunused.symm.trans hnot
  used read hread id hlookup' hunused := by
    obtain ⟨hlookup, ⟨hused, hunused'⟩ | ⟨hused, -⟩⟩ := hroute read hread id hlookup'
    · rw [hused]
      exact h.used read hread id hlookup (hunused'.symm.trans hunused)
    · rw [hused]
      exact h.past.trans hnow

theorem Drift.older (hd : s.Drift s') (hpast : ∀ id, s.used id ≤ s.workers.now)
    (h : s.Older key key') : s'.Older key key' := by
  intro id id' hlookup hlookup' hunused
  rcases hd.route id with ⟨hused, hunused'⟩ | ⟨-, hunused'⟩
  · rw [hused]
    rcases hd.route id' with ⟨hused', -⟩ | ⟨hused', -⟩
    · rw [hused']
      exact h id id' (hd.lookup _ _ hlookup) (hd.lookup _ _ hlookup')
        (hunused'.symm.trans hunused)
    · rw [hused']
      exact (hpast id).trans hd.now
  · cases hunused.symm.trans hunused'

theorem Drift.oldest (hd : s.Drift s') (hpast : ∀ id, s.used id ≤ s.workers.now)
    (h : s.Oldest victims) : s'.Oldest victims where
  chain := h.chain.imp fun hold => hd.older hpast hold
  rest key hkey key' hkey' := hd.older hpast (h.rest key hkey key' hkey')

/-- The time and the stamps of the routes that are not used. -/
def SameStamps (s s' : Uses) : Prop :=
  s'.workers.now = s.workers.now ∧ ∀ key id, s'.workers.entries.lookup key = some id →
    s'.unused id = true → s'.workers.last_used id = s.workers.last_used id

/-- What is judged stays right, if no time passes and no stamp comes while
routes are compared. -/
theorem Drift.judged (hd : s.Drift s') (hpast : ∀ id, s.used id ≤ s.workers.now)
    (hsame : op.stage.compares = true → op.seen ≠ [] → op.todo ≠ [] → s.SameStamps s')
    (h : s.Judged op) : s'.Judged op where
  expiredScan keep_warm window hstage := by
    obtain ⟨hwindow, hscans, hidle⟩ := h.expiredScan keep_warm window hstage
    exact ⟨hd.window.trans hwindow, hd.scans hscans, hidle.steady hd.now fun _ _ id hlookup =>
      ⟨hd.lookup _ id hlookup, hd.route id⟩⟩
  compares hstage := by
    obtain ⟨hscans, time, hread, htime⟩ := h.compares hstage
    have hread' := hread.steady hd.now fun _ _ id hlookup =>
      ⟨hd.lookup _ id hlookup, hd.route id⟩
    refine ⟨hd.scans hscans, time, hread', fun hseen htodo => ?_⟩
    obtain ⟨hnow, hstamps⟩ := hsame hstage hseen htodo
    obtain ⟨htime, hstampsRead⟩ := htime hseen htodo
    refine ⟨htime.trans hnow.symm, fun read hmem id hlookup hunused => ?_⟩
    rw [hnow, hstamps read.key id hlookup hunused]
    refine hstampsRead read hmem id (hd.lookup _ id hlookup) ?_
    rcases hd.route id with ⟨-, hunused'⟩ | ⟨-, hunused'⟩
    · exact hunused'.symm.trans hunused
    · cases hunused.symm.trans hunused'
  expires hstage key hkey id hlookup hunused := by
    rcases hd.route id with ⟨hused, hunused'⟩ | ⟨-, hunused'⟩
    · rw [hused, hd.window]
      exact (h.expires hstage key hkey id (hd.lookup _ _ hlookup)
        (hunused'.symm.trans hunused)).trans hd.now
    · cases hunused.symm.trans hunused'
  oldest hstage := hd.oldest hpast (h.oldest hstage)

end Drift

/-! ## What is decided -/

section Decided

variable {s : Uses} {seen : List Snapshot} {time : Nat}

/-- The route that was idle longer is older. -/
theorem ReadAt.older (h : s.ReadAt seen time) {read read' : Snapshot} (hread : read ∈ seen)
    (hread' : read' ∈ seen) (hidle : read'.pinned = false → read'.idle ≤ read.idle) :
    s.Older read.key read'.key := by
  intro id id' hlookup hlookup' hunused
  cases hunused' : s.unused id' with
  | true =>
      obtain ⟨hpinned', -⟩ := h.unused read' hread' id' hlookup' hunused'
      exact h.order read hread read' hread' id id' hlookup hlookup' hunused hunused' (hidle hpinned')
  | false =>
      -- the other route was used after it was read
      obtain ⟨-, hused⟩ := h.unused read hread id hlookup hunused
      exact hused.trans (h.used read' hread' id' hlookup' hunused')

theorem oldest_longestIdle (h : s.ReadAt seen time)
    (hall : ∀ key id, s.workers.entries.lookup key = some id → ∃ read ∈ seen, read.key = key)
    {key : Key} (hlongest : longestIdle seen = some key) : s.Oldest [key] where
  chain := List.pairwise_singleton _ _
  rest key₁ hkey key' _ := by
    obtain rfl := List.mem_singleton.mp hkey
    obtain ⟨read, hread, rfl, -, hmax⟩ := longestIdle_eq_some hlongest
    intro id id' hlookup hlookup' hunused
    obtain ⟨read', hread', rfl⟩ := hall key' id' hlookup'
    exact h.older hread hread' (hmax read' hread') id id' hlookup hlookup' hunused

theorem oldest_excessKeys (h : s.ReadAt seen time)
    (hall : ∀ key id, s.workers.entries.lookup key = some id → ∃ read ∈ seen, read.key = key)
    (keep_warm : Nat) : s.Oldest (excessKeys keep_warm seen) := by
  rw [excessKeys_eq]
  generalize (unpinnedByIdle seen).length - keep_warm = n
  have hsorted := @sorted_unpinnedByIdle seen
  rw [← List.take_append_drop n (unpinnedByIdle seen), List.pairwise_append] at hsorted
  obtain ⟨htake, -, hcross⟩ := hsorted
  have hseen : ∀ read ∈ (unpinnedByIdle seen).take n, read ∈ seen := fun read hread =>
    (mem_unpinnedByIdle.mp (List.mem_of_mem_take hread)).1
  refine ⟨?_, fun key hkey key' hkey' => ?_⟩
  · rw [List.pairwise_map]
    refine htake.imp_of_mem fun {read read'} hread hread' hidle => ?_
    exact h.older (hseen read hread) (hseen read' hread') fun _ => hidle
  · obtain ⟨read, hread, rfl⟩ := List.mem_map.mp hkey
    intro id id' hlookup hlookup' hunused
    obtain ⟨read', hread', rfl⟩ := hall key' id' hlookup'
    refine h.older (hseen read hread) hread' (fun hpinned => ?_) id id' hlookup hlookup' hunused
    -- what is unpinned and stays comes later in the order
    have hmem := mem_unpinnedByIdle.mpr ⟨hread', hpinned⟩
    rw [← List.take_append_drop n (unpinnedByIdle seen)] at hmem
    rcases List.mem_append.mp hmem with htaken | hleft
    · exact absurd (List.mem_map_of_mem htaken) hkey'
    · exact hcross read hread read' hleft

theorem expires_expiredKeys {window : Nat} (h : s.IdleFor window seen) {key : Key}
    (hkey : key ∈ expiredKeys window seen) {id : Nat}
    (hlookup : s.workers.entries.lookup key = some id) (hunused : s.unused id = true) :
    s.used id + window ≤ s.workers.now := by
  obtain ⟨read, hread, rfl⟩ := List.mem_map.mp hkey
  obtain ⟨hread, hcond⟩ := List.mem_filter.mp hread
  simp only [Bool.and_eq_true, Bool.not_eq_true', decide_eq_true_eq] at hcond
  exact h read hread id hlookup hunused hcond.1 hcond.2

end Decided

/-! ## Steps -/

section Steps

variable {translate : ModelSpec → Option ModelSpec → Bool → List String → List Translation}
  {s s' : Uses} {e : WorkersEvent} {op op' : Evicting} {key : Key}

theorem busy_eq_is_pinned {entry : PairEntry} (ha : Accounted entry.scheduler) :
    entry.busy = entry.is_pinned := by
  unfold PairEntry.busy PairEntry.is_pinned
  rw [ha.active]
  cases entry.scheduler.unfinished <;> simp

theorem window_step (h : s.step translate e = some s')
    (hlock : s.workers.lock = some (.evicting op)) : s'.window = s.window := by
  obtain ⟨w, hw, rfl⟩ := Option.map_eq_some_iff.mp h
  cases e with
  | evict stage =>
      simp only [Workers.step, Workers.evict, hlock] at hw
      cases hw
  | _ => rfl

/-- Nobody changes what an eviction goes by, but for reading a route. -/
theorem drift_of_step (h : s.step translate e = some s') (hs : s.Tracked)
    (hlock : s.workers.lock = some (.evicting op)) (he : ∀ id, s.reads e id = false) :
    s.Drift s' where
  lookup key id hlookup' := by
    have hw := workers_step h
    rcases (Workers.effect_of_step hw hs.routed.free).lookup hlookup' with
      hlookup | ⟨entry, hheap, -⟩
    · exact hlookup
    · have hlength : s'.workers.heap.length = s.workers.heap.length := by
        refine Workers.length_heap_of_step hw ?_
        rintro measured rfl
        simp only [Workers.step, Workers.loaded, hlock] at hw
        cases hw
      rw [hheap, List.length_append] at hlength
      cases Nat.add_eq_left.mp hlength
  now := Workers.now_le (workers_step h)
  window := window_step h hlock
  route id := by
    rcases record_step h id with ⟨-, hused, hunused⟩ | ⟨-, hused, hunused⟩
    · exact Or.inr ⟨hused, hunused⟩
    · rw [he id, Bool.false_or] at hunused
      exact Or.inl ⟨hused, hunused⟩

/-- What is read of a route, and what the step makes of its record. -/
theorem read_right (h : s.step translate (.scan key) = some s') (hs : s.Tracked)
    {entry : PairEntry} (hentry : s.workers.entry? key = some entry) {id : Nat}
    (hlookup : s.workers.entries.lookup key = some id) :
    s.workers.idle_for entry = s.workers.now - s.workers.last_used id
      ∧ (s'.unused id = true → entry.is_pinned = false ∧ s.workers.busy id = false
        ∧ s'.used id = s.used id)
      ∧ (s'.unused id = false → s.workers.now ≤ s'.used id) := by
  have hheap : s.workers.heap[id]? = some entry := by
    rwa [Workers.entry?, hlookup] at hentry
  have hbusy : s.workers.busy id = entry.is_pinned := by
    unfold Workers.busy
    rw [hheap]
    exact busy_eq_is_pinned (hs.accounted id entry hheap)
  have hreads : s.reads (.scan key) id = true := decide_eq_true hlookup
  have hnow := (Workers.now_of_step (workers_step h)).resolve_right WorkersEvent.noConfusion
  refine ⟨?_, ?_⟩
  · unfold Workers.idle_for Workers.last_used
    rw [hheap]
    rfl
  rcases record_step h id with ⟨-, hused, hunused⟩ | ⟨hnot, hused, hunused⟩
  · refine ⟨fun htrue => ?_, fun _ => ?_⟩
    · cases hunused.symm.trans htrue
    · rw [hused, hnow]
  · have hidle := (uses_eq_false hnot).1
    refine ⟨fun _ => ⟨hbusy.symm.trans hidle, hidle, hused⟩, fun hfalse => ?_⟩
    rw [hreads, Bool.true_or] at hunused
    cases hunused.symm.trans hfalse

/-- Nobody stamps a route while routes are compared, but for a job that is not
finished. -/
theorem sameStamps_of_step (h : s.step translate e = some s') (hs : s.Tracked)
    (hlock : s.workers.lock = some (.evicting op)) (htick : e ≠ .tick)
    (hstamp : ∀ id, e = .stamp id → s.workers.busy id = true) : s.SameStamps s' := by
  have hw := workers_step h
  refine ⟨(Workers.now_of_step hw).resolve_right htick, fun key id hlookup hunused => ?_⟩
  have hbefore : s.workers.entries.lookup key = some id := by
    rcases (Workers.effect_of_step hw hs.routed.free).lookup hlookup with
      hbefore | ⟨entry, hheap, -⟩
    · exact hbefore
    · have hlength : s'.workers.heap.length = s.workers.heap.length := by
        refine Workers.length_heap_of_step hw ?_
        rintro measured rfl
        simp only [Workers.step, Workers.loaded, hlock] at hw
        cases hw
      rw [hheap, List.length_append] at hlength
      cases Nat.add_eq_left.mp hlength
  obtain ⟨entry, hentry, -⟩ := hs.routed.keys key id hbefore
  refine Workers.last_used_of_step hw (List.getElem?_eq_some_iff.mp hentry).1 ?_
  by_contra hstamps
  cases e with
  | stamp id' =>
      obtain rfl : id' = id := by simpa [WorkersEvent.stamps] using hstamps
      rcases record_step h id' with ⟨-, -, hunused'⟩ | ⟨hnot, -⟩
      · cases hunused.symm.trans hunused'
      · cases (hstamp id' rfl).symm.trans (uses_eq_false hnot).1
  | _ => exact hstamps rfl

theorem readAt_nil {time : Nat} (h : time ≤ s.workers.now) : s.ReadAt [] time where
  past := h
  unused read hread := by cases hread
  order read hread := by cases hread
  used read hread := by cases hread

theorem scans_start (s : Uses) (stage : Stage) (ret : Option Nat) :
    s.Scans ⟨stage, s.workers.entries.keys, [], [], ret⟩ where
  victims := rfl
  nodup := s.workers.entries.nodupKeys
  once read hread := by cases hread
  all key id hlookup := Or.inl
    (AList.mem_keys.mp (AList.lookup_isSome.mp (by rw [hlookup]; rfl)))

theorem oldest_nil : s.Oldest [] where
  chain := .nil
  rest key h := by cases h

theorem Scans.scan (h : s.Scans op) (read : Snapshot) (hread : read.key = key)
    (hentries : s'.workers.entries = s.workers.entries) :
    s'.Scans { op with todo := op.todo.erase key, seen := op.seen ++ [read] } where
  victims := h.victims
  nodup := h.nodup.erase key
  once read' hread' hmem := by
    rcases List.mem_append.mp hread' with hold | hnew
    · exact h.once read' hold (List.mem_of_mem_erase hmem)
    · rw [List.mem_singleton.mp hnew, hread] at hmem
      exact h.nodup.not_mem_erase hmem
  all key' id hlookup := by
    rw [hentries] at hlookup
    by_cases hsame : key' = key
    · exact Or.inr ⟨read, by simp, hread.trans hsame.symm⟩
    · rcases h.all key' id hlookup with htodo | ⟨read', hread', hkey'⟩
      · exact Or.inl ((List.mem_erase_of_ne hsame).mpr htodo)
      · exact Or.inr ⟨read', List.mem_append_left _ hread', hkey'⟩

/-- The stages that read without collecting decide at once. -/
theorem judged_retain (h : s.step translate (.scan key) = some s')
    (hlock : s.workers.lock = some (.evicting op)) (hstage : op.stage.collects = false)
    (hlock' : s'.workers.lock = some (.evicting op')) : s'.Judged op' := by
  have hw := workers_step h
  simp only [Workers.step, Workers.scan, hlock] at hw
  split at hw
  · rename_i hread
    split at hw
    · cases hw
    · rw [← Option.some.inj hw] at hlock'
      have hop := Lock.evicting.inj (Option.some.inj hlock')
      obtain ⟨stage, todo, seen, victims, ret⟩ := op
      obtain rfl : victims = [] := hread.2
      cases stage with
      | budgetScan | expiredScan | warmScan => cases hstage
      | budget | expired | done =>
          subst hop
          exact {
            expiredScan := fun _ _ h => by cases h
            compares := fun h => by cases h
            expires := fun _ key hkey => by cases hkey
            oldest := fun _ => oldest_nil }
      | unpinnedScan | unloadScan =>
          dsimp only at hop
          split at hop <;> subst hop <;> exact {
            expiredScan := fun _ _ h => by cases h
            compares := fun h => by cases h
            expires := fun h => by cases h
            oldest := fun h => by cases h }
  · cases hw

/-- The routes read before stay as they are. -/
theorem steady_scan (h : s.step translate (.scan key) = some s') (hs : s.Tracked)
    (hscans : s.Scans op) (hkey : key ∈ op.todo) {read : Snapshot} (hread : read ∈ op.seen)
    {id : Nat} (hlookup : s.workers.entries.lookup read.key = some id) : s.Steady s' id := by
  have hnot : s.reads (.scan key) id = false := by
    refine decide_eq_false fun hlookup' => ?_
    obtain ⟨e₁, he₁, hkey₁⟩ := hs.routed.keys read.key id hlookup
    obtain ⟨e₂, he₂, hkey₂⟩ := hs.routed.keys key id hlookup'
    obtain rfl := Option.some.inj (he₁.symm.trans he₂)
    exact hscans.once read hread (hkey₁.symm.trans hkey₂ ▸ hkey)
  rcases record_step h id with ⟨-, hused, hunused⟩ | ⟨-, hused, hunused⟩
  · exact Or.inr ⟨hused, hunused⟩
  · rw [hnot, Bool.false_or] at hunused
    exact Or.inl ⟨hused, hunused⟩

theorem Stage.collects_only {stage : Stage} (h : stage.collects = true) :
    stage.expires = false ∧ stage.oldest = false := by
  cases stage with
  | budgetScan | expiredScan | warmScan => exact ⟨rfl, rfl⟩
  | budget | expired | unpinnedScan | unloadScan | done => cases h

/-- One more route is read next to those that were. -/
theorem readAt_scan (h : s.step translate (.scan key) = some s') (hs : s.Tracked)
    (horder : s.InOrder) {entry : PairEntry} (hentry : s.workers.entry? key = some entry)
    (hsame : s'.workers.entries = s.workers.entries ∧ s.SameStamps s') {seen : List Snapshot}
    (hread : s'.ReadAt seen s.workers.now) (hstamps : s'.StampsRead seen)
    (hbusy : ∀ read ∈ seen, ∀ id, s'.workers.entries.lookup read.key = some id →
      s'.unused id = true → s.workers.busy id = false ∧ s'.used id = s.used id) :
    s'.ReadAt (seen ++ [⟨key, entry.is_pinned, s.workers.idle_for entry⟩]) s.workers.now
      ∧ s'.StampsRead (seen ++ [⟨key, entry.is_pinned, s.workers.idle_for entry⟩]) := by
  obtain ⟨hentries, hnow, hlast⟩ := hsame
  have hnew := fun (id : Nat) (hlookup : s'.workers.entries.lookup key = some id) =>
    read_right h hs hentry (hentries ▸ hlookup)
  have hstamps' : s'.StampsRead (seen ++ [⟨key, entry.is_pinned, s.workers.idle_for entry⟩]) := by
    intro read hmem id hlookup hunused
    rcases List.mem_append.mp hmem with hmem | hlast'
    · exact hstamps read hmem id hlookup hunused
    · obtain rfl := List.mem_singleton.mp hlast'
      rw [hnow, hlast key id hlookup hunused]
      exact ⟨(hnew id hlookup).1, hs.stamps id⟩
  have hidle : ∀ read ∈ seen ++ [⟨key, entry.is_pinned, s.workers.idle_for entry⟩], ∀ id,
      s'.workers.entries.lookup read.key = some id → s'.unused id = true →
      s.workers.busy id = false ∧ s'.used id = s.used id := by
    intro read hmem id hlookup hunused
    rcases List.mem_append.mp hmem with hmem | hlast'
    · exact hbusy read hmem id hlookup hunused
    · obtain rfl := List.mem_singleton.mp hlast'
      exact ((hnew id hlookup).2.1 hunused).2
  refine ⟨⟨hnow.ge, fun read hmem id hlookup hunused => ?_,
    fun read hmem read' hmem' id id' hlookup hlookup' hunused hunused' hle => ?_,
    fun read hmem id hlookup hunused => ?_⟩, hstamps'⟩
  · rcases List.mem_append.mp hmem with hmem | hlast'
    · exact hread.unused read hmem id hlookup hunused
    · obtain rfl := List.mem_singleton.mp hlast'
      obtain ⟨hpinned, -, hused⟩ := (hnew id hlookup).2.1 hunused
      exact ⟨hpinned, hused ▸ hs.past id⟩
  · -- the stamps are in the order of what was read, and so are the uses
    obtain ⟨hread₁, hpast₁⟩ := hstamps' read hmem id hlookup hunused
    obtain ⟨hread₂, hpast₂⟩ := hstamps' read' hmem' id' hlookup' hunused'
    have hstamp := hlast read.key id hlookup hunused
    have hstamp' := hlast read'.key id' hlookup' hunused'
    obtain ⟨hfree, hused⟩ := hidle read hmem id hlookup hunused
    obtain ⟨hfree', hused'⟩ := hidle read' hmem' id' hlookup' hunused'
    rw [hused, hused']
    rw [hentries] at hlookup hlookup'
    refine horder ⟨read.key, id⟩ (AList.mem_lookup_iff.mp hlookup) ⟨read'.key, id'⟩
      (AList.mem_lookup_iff.mp hlookup') hfree hfree' ?_
    dsimp only
    omega
  · rcases List.mem_append.mp hmem with hmem | hlast'
    · exact hread.used read hmem id hlookup hunused
    · obtain rfl := List.mem_singleton.mp hlast'
      exact (hnew id hlookup).2.2 hunused

theorem ReadsTimely.inOrder {stage : Stage} (h : s.ReadsTimely key stage)
    (hcompares : stage.compares = true) : s.InOrder := by
  cases stage with
  | budgetScan | warmScan => exact h
  | budget | expiredScan | expired | unpinnedScan | unloadScan | done => cases hcompares

theorem stage_eq {w : Workers} (hlock : w.lock = some (.evicting op)) :
    w.stage = some op.stage := by
  unfold Workers.stage
  rw [hlock]

theorem judged_scan (h : s.step translate (.scan key) = some s') (hok : s.Timely (.scan key))
    (hs : s.Tracked) (hlock : s.workers.lock = some (.evicting op)) (hj : s.Judged op)
    (hlock' : s'.workers.lock = some (.evicting op')) : s'.Judged op' := by
  cases hstage : op.stage.collects with
  | false => exact judged_retain h hlock hstage hlock'
  | true =>
    have hw := workers_step h
    obtain ⟨htodo, hvictims, entry, hentry⟩ := Workers.scan_enabled hw hlock
    have hw' := Option.some.inj
      (hw.symm.trans (Workers.scan_eq_some hlock hstage htodo hvictims hentry))
    have hentries : s'.workers.entries = s.workers.entries := by rw [hw']
    have hnow : s'.workers.now = s.workers.now := by rw [hw']
    have hstamps : s.SameStamps s' := sameStamps_of_step h hs hlock WorkersEvent.noConfusion
      fun _ => WorkersEvent.noConfusion
    have htimely : s.ReadsTimely key op.stage :=
      hok op.stage (by rw [stage_eq hlock]; exact List.mem_singleton_self _)
    rw [hw'] at hlock'
    obtain rfl := (Lock.evicting.inj (Option.some.inj hlock')).symm
    have hold : s.Scans op → ∀ read ∈ op.seen, ∀ id,
        s'.workers.entries.lookup read.key = some id →
        s.workers.entries.lookup read.key = some id ∧ s.Steady s' id := by
      intro hscans read hread id hlookup
      rw [hentries] at hlookup
      exact ⟨hlookup, steady_scan h hs hscans htodo hread hlookup⟩
    exact {
      expiredScan := fun keep_warm window hexpired => by
        obtain ⟨hwindow, hscans, hidle⟩ := hj.expiredScan keep_warm window hexpired
        refine ⟨(window_step h hlock).trans hwindow, hscans.scan _ rfl hentries, ?_⟩
        intro read hread id hlookup hunused hpinned hlong
        rcases List.mem_append.mp hread with hread | hlast
        · exact hidle.steady hnow.ge (hold hscans) read hread id hlookup hunused hpinned hlong
        · obtain rfl := List.mem_singleton.mp hlast
          rw [hentries] at hlookup
          obtain ⟨hread, hunused', -⟩ := read_right h hs hentry hlookup
          obtain ⟨-, hfree, hused⟩ := hunused' hunused
          have hstamp := hs.stamps id
          have hexpired' : op.stage = .expiredScan keep_warm window := hexpired
          rw [hexpired'] at htimely
          rw [hused, hnow]
          refine htimely id (by rw [hlookup]; exact List.mem_singleton_self _) hfree ?_
          dsimp only at hlong
          omega
      compares := fun hcompares => by
        obtain ⟨hscans, time, hread, htime⟩ := hj.compares hcompares
        have horder := htimely.inOrder hcompares
        have hbefore : s'.ReadAt op.seen s.workers.now ∧ s'.StampsRead op.seen := by
          by_cases hseen : op.seen = []
          · rw [hseen]
            exact ⟨readAt_nil hnow.ge, fun read hread => by cases hread⟩
          · obtain ⟨htime, hread'⟩ := htime hseen (List.ne_nil_of_mem htodo)
            rw [← htime]
            refine ⟨hread.steady hnow.ge (hold hscans), fun read hmem id hlookup hunused => ?_⟩
            rw [hnow, hstamps.2 read.key id hlookup hunused]
            obtain ⟨hlookup', ⟨-, hunused'⟩ | ⟨-, hunused'⟩⟩ := hold hscans read hmem id hlookup
            · exact hread' read hmem id hlookup' (hunused'.symm.trans hunused)
            · cases hunused.symm.trans hunused'
        have hscan := readAt_scan h hs horder hentry ⟨hentries, hstamps⟩ hbefore.1 hbefore.2
          fun read hmem id hlookup hunused => by
            rcases record_step h id with ⟨-, -, hunused'⟩ | ⟨hnot, hused, -⟩
            · cases hunused.symm.trans hunused'
            · exact ⟨(uses_eq_false hnot).1, hused⟩
        exact ⟨hscans.scan _ rfl hentries, s.workers.now, hscan.1, fun _ _ =>
          ⟨hnow.symm, hscan.2⟩⟩
      expires := fun hexpires => by
        cases hexpires.symm.trans (Stage.collects_only hstage).1
      oldest := fun holdest => by
        cases holdest.symm.trans (Stage.collects_only hstage).2 }

/-- What is judged when an eviction begins. -/
theorem judged_start (stage : Stage) (ret : Option Nat) (hstage : stage.expires = false)
    (hwindow : ∀ keep_warm window, stage = .expiredScan keep_warm window → s.window = window) :
    s.Judged ⟨stage, if stage.oldest then [] else s.workers.entries.keys, [], [], ret⟩ where
  expiredScan keep_warm window h := by
    have h : stage = .expiredScan keep_warm window := h
    subst h
    exact ⟨hwindow _ _ rfl, scans_start s _ ret, fun read hread => by cases hread⟩
  compares h := by
    cases stage with
    | budgetScan | warmScan =>
        exact ⟨scans_start s _ ret, s.workers.now, readAt_nil le_rfl, fun hseen => absurd rfl hseen⟩
    | budget | expiredScan | expired | unpinnedScan | unloadScan | done => cases h
  expires h := by cases hstage.symm.trans h
  oldest _ := oldest_nil

/-- The victim that goes was not to stay. -/
theorem judged_removed {stage : Stage} {todo rest : List Key} {seen : List Snapshot}
    {ret : Option Nat} (hj : s.Judged ⟨stage, todo, seen, key :: rest, ret⟩)
    (hgone : s.workers.entries.lookup key = none) : s.Judged ⟨stage, todo, seen, rest, ret⟩ where
  expiredScan keep_warm window h := by
    obtain ⟨-, hscans, -⟩ := hj.expiredScan keep_warm window h
    cases hscans.victims
  compares h := by
    obtain ⟨hscans, -⟩ := hj.compares h
    cases hscans.victims
  expires h key' hkey' := hj.expires h key' (List.mem_cons_of_mem _ hkey')
  oldest h := by
    obtain ⟨hchain, hrest⟩ := hj.oldest h
    refine ⟨(List.pairwise_cons.mp hchain).2, fun key₁ hkey₁ key₂ hkey₂ => ?_⟩
    by_cases hhead : key₂ = key
    · intro id id' _ hlookup
      rw [hhead, hgone] at hlookup
      cases hlookup
    · refine hrest key₁ (List.mem_cons_of_mem _ hkey₁) key₂ fun hmem => ?_
      exact hkey₂ ((List.mem_cons.mp hmem).resolve_left hhead)

/-- The victims of the comparison that has read everything. -/
theorem judged_oldest {stage : Stage} {victims : List Key} {ret : Option Nat} {seen : List Snapshot}
    (hstage : stage.oldest = true) (holdest : s.Oldest victims) :
    s.Judged ⟨stage, [], seen, victims, ret⟩ := by
  cases stage with
  | budget | done => exact {
      expiredScan := fun _ _ h => by cases h
      compares := fun h => by cases h
      expires := fun h => by cases h
      oldest := fun _ => holdest }
  | budgetScan | expiredScan | expired | warmScan | unpinnedScan | unloadScan => cases hstage

theorem Scans.read {stage : Stage} {seen : List Snapshot} {victims : List Key} {ret : Option Nat}
    (h : s.Scans ⟨stage, [], seen, victims, ret⟩) (key : Key) (id : Nat)
    (hlookup : s.workers.entries.lookup key = some id) : ∃ read ∈ seen, read.key = key :=
  (h.all key id hlookup).resolve_left List.not_mem_nil

/-- The next stage of an eviction without victims. -/
theorem judged_next {w w' : Workers} {stage : Stage} {todo : List Key} {seen : List Snapshot}
    {ret : Option Nat} (hj : s.Judged ⟨stage, todo, seen, [], ret⟩)
    (hkeys : w.entries.keys = s.workers.entries.keys)
    (h : w.advance = some w') (hlock : w.lock = some (.evicting ⟨stage, todo, seen, [], ret⟩))
    (hlock' : w'.lock = some (.evicting op')) : s.Judged op' := by
  unfold Workers.advance at h
  rw [hlock] at h
  dsimp only at h
  cases todo with
  | cons key todo => cases h
  | nil =>
  cases stage with
  | budget budget_mb =>
      dsimp only at h
      split at h <;> cases h
      · cases hlock'
      · cases hlock'
        rw [hkeys]
        exact judged_start (.budgetScan budget_mb) ret rfl fun _ _ h => by cases h
  | budgetScan budget_mb =>
      dsimp only at h
      split at h <;> cases h
      · cases hlock'
      · rename_i key hlongest
        cases hlock'
        obtain ⟨hscans, time, hread, -⟩ := hj.compares rfl
        exact judged_oldest rfl (oldest_longestIdle hread hscans.read hlongest)
  | expiredScan keep_warm window =>
      cases h
      cases hlock'
      obtain ⟨hwindow, -, hidle⟩ := hj.expiredScan keep_warm window rfl
      exact {
        expiredScan := fun _ _ h => by cases h
        compares := fun h => by cases h
        expires := fun _ key hkey id hlookup hunused => by
          rw [hwindow]
          exact expires_expiredKeys hidle hkey hlookup hunused
        oldest := fun h => by cases h }
  | expired keep_warm =>
      cases h
      cases hlock'
      rw [hkeys]
      exact judged_start (.warmScan keep_warm) ret rfl fun _ _ h => by cases h
  | warmScan keep_warm =>
      cases h
      cases hlock'
      obtain ⟨hscans, time, hread, -⟩ := hj.compares rfl
      exact judged_oldest rfl (oldest_excessKeys hread hscans.read keep_warm)
  | unpinnedScan | unloadScan | done =>
      cases h
      cases hlock'

theorem judged_advance (h : s.step translate .advance = some s') (hs : s.Tracked)
    (hlock : s.workers.lock = some (.evicting op)) (hj : s.Judged op)
    (hlock' : s'.workers.lock = some (.evicting op')) : s'.Judged op' := by
  have hw := workers_step h
  have hj' : s'.Judged op :=
    (drift_of_step h hs hlock fun _ => rfl).judged hs.past (fun _ _ _ =>
      sameStamps_of_step h hs hlock WorkersEvent.noConfusion fun _ => WorkersEvent.noConfusion) hj
  obtain ⟨stage, todo, seen, victims, ret⟩ := op
  cases victims with
  | cons key rest =>
      simp only [Workers.step, Workers.advance, hlock] at hw
      have hw' := Option.some.inj hw
      rw [← hw'] at hlock'
      cases hlock'
      refine judged_removed hj' ?_
      rw [← hw']
      exact Workers.lookup_remove _ _
  | nil =>
      refine judged_next hj' ?_ hw hlock hlock'
      rcases Workers.advance_cases hw with ⟨key, op, hvictim, -, -⟩ | ⟨-, op, hw', -⟩
      · simp only [Workers.victim, hlock] at hvictim
        cases hvictim
      · rw [hw']

theorem judged_evict {stage : Stage} (h : s.step translate (.evict stage) = some s')
    (hlock' : s'.workers.lock = some (.evicting op')) : s'.Judged op' := by
  obtain ⟨w, hw, rfl⟩ := Option.map_eq_some_iff.mp h
  simp only [Workers.step, Workers.evict] at hw
  split at hw
  · cases hw
  · rename_i hinitial
    have hinitial : stage.initial = true := by
      by_contra hnot
      exact hinitial (by simp [hnot])
    cases hw
    cases hlock'
    cases stage with
    | budget | unpinnedScan | unloadScan =>
        exact judged_start _ none rfl fun _ _ h => by cases h
    | expiredScan =>
        exact judged_start _ none rfl fun _ _ h => by
          cases h
          rfl
    | budgetScan | expired | warmScan | done => cases hinitial

theorem judged_step (h : s.step translate e = some s') (hok : s.Timely e)
    (hs : s.Tracked) (hj : ∀ op, s.workers.lock = some (.evicting op) → s.Judged op)
    (hlock' : s'.workers.lock = some (.evicting op')) : s'.Judged op' := by
  have hw := workers_step h
  -- those without the lock leave an eviction what it goes by
  have hunlocked : e.unlocked = true → (∀ id, s.reads e id = false) →
      (s.workers.comparing = true → e ≠ .tick ∧ ∀ id, e = .stamp id → s.workers.busy id = true) →
      s'.Judged op' := by
    intro he hreads hcomparing
    have hlock := (Workers.unlocked_step hw he).2.symm.trans hlock'
    refine (drift_of_step h hs hlock hreads).judged hs.past ?_ (hj op' hlock)
    intro hcompares hseen htodo
    obtain ⟨htick, hstamp⟩ := hcomparing (by
      simp [Workers.comparing, hlock, hcompares, hseen, htodo])
    exact sameStamps_of_step h hs hlock htick hstamp
  cases e with
  | submit | dropArc | scheduler | cancel =>
      exact hunlocked rfl (fun _ => rfl) fun _ =>
        ⟨WorkersEvent.noConfusion, fun _ => WorkersEvent.noConfusion⟩
  | stamp id =>
      exact hunlocked rfl (fun _ => rfl) fun hcomparing =>
        ⟨WorkersEvent.noConfusion, fun id' heq => by cases heq; exact hok hcomparing⟩
  | tick =>
      refine hunlocked rfl (fun _ => rfl) fun hcomparing => ?_
      cases hcomparing.symm.trans (show s.workers.comparing = false from hok)
  | ensure caller source target allow_pivot budget_mb plan specs =>
      obtain ⟨⟨w, r⟩, hr, heq⟩ := Option.map_eq_some_iff.mp hw
      obtain ⟨hfree, hcases⟩ := Workers.ensure_loaded_cases hr
      rw [← show w = s'.workers from heq] at hlock'
      rcases hcases with
        ⟨id, -, -, rfl⟩ | ⟨error, -, rfl⟩ | ⟨pivot, first, second, -, -, -, -, rfl⟩
      · cases hfree.symm.trans hlock'
      · cases hfree.symm.trans hlock'
      · cases hlock'
  | loaded result =>
      cases result <;> simp only [Workers.step, Workers.loaded] at hw <;> split at hw
      · rw [← Option.some.inj hw] at hlock'
        cases hlock'
      · cases hw
      · rw [← Option.some.inj hw] at hlock'
        cases hlock'
        exact judged_start (.budget _) _ rfl fun _ _ h => by cases h
      · cases hw
  | abort caller =>
      simp only [Workers.step, Workers.abort] at hw
      split at hw
      · split at hw
        · rw [← Option.some.inj hw] at hlock'
          cases hlock'
        · cases hw
      · cases hw
  | evict stage => exact judged_evict h hlock'
  | scan key =>
      have hlock : ∃ op, s.workers.lock = some (.evicting op) := by
        simp only [Workers.step, Workers.scan] at hw
        split at hw
        · exact ⟨_, ‹_›⟩
        · cases hw
      obtain ⟨op, hlock⟩ := hlock
      exact judged_scan h hok hs hlock (hj op hlock) hlock'
  | advance =>
      have hlock : ∃ op, s.workers.lock = some (.evicting op) := by
        simp only [Workers.step, Workers.advance] at hw
        split at hw
        · exact ⟨_, ‹_›⟩
        · cases hw
      obtain ⟨op, hlock⟩ := hlock
      exact judged_advance h hs hlock (hj op hlock) hlock'

end Steps

/-! ## Runs -/

section Runs

variable {translate : ModelSpec → Option ModelSpec → Bool → List String → List Translation}
  {s : Uses}

theorem judged_of_reach (h : Machine.Reach (step translate) Timely init s) :
    s.Tracked ∧ ∀ op, s.workers.lock = some (.evicting op) → s.Judged op := by
  refine Machine.Reach.invariant (I := fun s => s.Tracked
    ∧ ∀ op, s.workers.lock = some (.evicting op) → s.Judged op) h ⟨tracked_init, ?_⟩ ?_
  · intro op hlock
    cases hlock
  · intro s e s' _ hok hstep hs
    exact ⟨tracked_step hstep hs.1, fun op hlock => judged_step hstep hok hs.1 hs.2 hlock⟩

theorem unwanted_eq_some {w : Workers} {id : Nat} (h : w.unwanted = some id) :
    ∃ op key rest, w.lock = some (.evicting op) ∧ w.stage = some op.stage
      ∧ op.victims = key :: rest ∧ w.entries.lookup key = some id := by
  unfold Workers.unwanted at h
  split at h
  · obtain ⟨key, hvictim, hlookup⟩ := Option.bind_eq_some_iff.mp h
    unfold Workers.victim at hvictim
    split at hvictim
    · rename_i op hlock
      obtain ⟨rest, hrest⟩ := List.head?_eq_some_iff.mp hvictim
      exact ⟨op, key, rest, hlock, by unfold Workers.stage; rw [hlock], hrest, hlookup⟩
    · cases hvictim
  · cases h

end Runs

/-! ## Two sweeps -/

/-- A client loads bg-en and submits a job, and the job is finished after
`time`. -/
def finishAfter (time : Nat) : List WorkersEvent :=
  loadBgEn 0 ++ [.submit 0 0 ["a"] false .interactive 0, .stamp 0, .scheduler 0 .proceed,
    .scheduler 0 .proceed, .scheduler 0 .proceed] ++ List.replicate time .tick
    ++ [.scheduler 0 (.engine none), .scheduler 0 .proceed]

/-- A sweep with a window of two ticks is about to remove the route. -/
def sweepTwo : List WorkersEvent := [.evict (.expiredScan 1 2), .scan ("bg", "en"), .advance]

end Uses

end Dragomand
