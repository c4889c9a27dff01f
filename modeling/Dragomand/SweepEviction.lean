import Dragomand.BudgetEviction

/-!
# The sweep

`sweep` removes the unpinned routes that were idle for the window or longer,
and then, of the unpinned ones that are left, the longest idle beyond the
keep-warm capacity.
-/

namespace Dragomand

open Machine (Inevitable)

/-! ## The victims of the two passes -/

section Victims

variable {w : Workers} {seen : List Snapshot} {key : Key}

theorem Workers.Reads.nodup (h : w.Reads [] seen) : (seen.map Snapshot.key).Nodup := by
  have hperm := h.keys
  rw [List.append_nil] at hperm
  exact hperm.nodup_iff.mpr w.entries.nodupKeys

theorem Workers.Reads.mem_iff (h : w.Reads [] seen) {s : Snapshot} :
    s ∈ seen ↔ ∃ e, w.entry? s.key = some e ∧ s = ⟨s.key, e.is_pinned, w.idle_for e⟩ := by
  refine ⟨h.accurate s, fun ⟨e, he, hs⟩ => ?_⟩
  rw [hs]
  exact h.entry he

/-- The first pass takes the unpinned routes that are idle for the window. -/
theorem mem_expiredKeys (h : w.Reads [] seen) {window : Nat} : key ∈ expiredKeys window seen
    ↔ ∃ e, w.entry? key = some e ∧ e.is_pinned = false ∧ window ≤ w.idle_for e := by
  unfold expiredKeys
  rw [List.mem_map]
  constructor
  · rintro ⟨s, hs, rfl⟩
    obtain ⟨hs, hcond⟩ := List.mem_filter.mp hs
    obtain ⟨e, he, heq⟩ := h.accurate s hs
    rw [heq] at hcond
    simp only [Bool.and_eq_true, Bool.not_eq_true', decide_eq_true_eq] at hcond
    exact ⟨e, he, hcond⟩
  · rintro ⟨e, he, hpinned, hidle⟩
    exact ⟨_, List.mem_filter.mpr ⟨h.entry he, by simp [hpinned, hidle]⟩, rfl⟩

/-- The unpinned routes, longest idle first. -/
def unpinnedByIdle (seen : List Snapshot) : List Snapshot :=
  (seen.filter fun s => !s.pinned).mergeSort fun a b => b.idle ≤ a.idle

theorem excessKeys_eq (keep_warm : Nat) : excessKeys keep_warm seen
    = ((unpinnedByIdle seen).take ((unpinnedByIdle seen).length - keep_warm)).map Snapshot.key := by
  have hlength : (unpinnedByIdle seen).length = (seen.filter fun s => !s.pinned).length :=
    List.length_mergeSort ..
  unfold excessKeys
  dsimp only
  split
  · rw [hlength]
    rfl
  · rename_i hle
    rw [hlength, Nat.sub_eq_zero_of_le (Nat.le_of_not_lt hle)]
    rfl

theorem mem_unpinnedByIdle {s : Snapshot} : s ∈ unpinnedByIdle seen ↔ s ∈ seen ∧ s.pinned = false := by
  unfold unpinnedByIdle
  rw [List.mem_mergeSort, List.mem_filter]
  simp

theorem sorted_unpinnedByIdle : (unpinnedByIdle seen).Pairwise fun a b => b.idle ≤ a.idle := by
  have hsorted : (unpinnedByIdle seen).Pairwise fun a b => decide (b.idle ≤ a.idle) = true :=
    List.pairwise_mergeSort (fun a b c hab hbc => by simp only [decide_eq_true_eq] at hab hbc ⊢; omega)
      (fun a b => by simp only [Bool.or_eq_true, decide_eq_true_eq]; omega) _
  exact hsorted.imp fun h => of_decide_eq_true h

theorem nodup_unpinnedByIdle (h : w.Reads [] seen) :
    ((unpinnedByIdle seen).map Snapshot.key).Nodup :=
  (((List.mergeSort_perm ..).map _).nodup_iff).mpr (h.nodup.sublist (List.filter_sublist.map _))

end Victims

/-! ## What a sweep leaves -/

/-- The loaded routes that are not pinned. -/
def Workers.unpinned (w : Workers) : List Key :=
  w.entries.keys.filter fun key => (w.entry? key).any fun e => !e.is_pinned

/-- Those of them that were idle for less than the window. -/
def Workers.warm (w : Workers) (window : Nat) : List Key :=
  w.entries.keys.filter fun key => (w.entry? key).any fun e => !e.is_pinned && w.idle_for e < window

/-- The routes that the two passes removed, and what they left. -/
structure Workers.Swept (w : Workers) (keep_warm window : Nat) (expired excess : List Key)
    (w' : Workers) : Prop where
  result : w' = { w.removeAll (expired ++ excess) with lock := none }
  gone : ∀ key ∈ expired ++ excess,
    w'.entry? key = none ∧ ∃ e, w.entry? key = some e ∧ e.is_pinned = false
  kept : ∀ key, key ∉ expired ++ excess → w'.entry? key = w.entry? key
  /-- no unpinned route is left that was idle for the window, -/
  fresh : ∀ key e, w'.entry? key = some e → e.is_pinned = false → w.idle_for e < window
  /-- nor more than the capacity; -/
  capacity : w'.unpinned.length ≤ keep_warm
  /-- what went before its time was idle at least as long as what is left, -/
  longest : ∀ key ∈ expired ++ excess, ∀ e, w.entry? key = some e → w.idle_for e < window →
    ∀ key' e', w'.entry? key' = some e' → e'.is_pinned = false → w.idle_for e' ≤ w.idle_for e
  /-- and nothing did when all would fit. -/
  spared : (w.warm window).length ≤ keep_warm →
    ∀ key e, w.entry? key = some e → w.idle_for e < window → w'.entry? key = some e

section Sweep

variable {translate : ModelSpec → Option ModelSpec → Bool → List String → List Translation}
  {w w₁ : Workers} {keep_warm window : Nat}

theorem Workers.mem_unpinned {key : Key} :
    key ∈ w.unpinned ↔ ∃ e, w.entry? key = some e ∧ e.is_pinned = false := by
  unfold Workers.unpinned
  rw [List.mem_filter, Option.any_eq_true]
  constructor
  · rintro ⟨-, e, he, hpinned⟩
    exact ⟨e, he, by simpa using hpinned⟩
  · rintro ⟨e, he, hpinned⟩
    exact ⟨Workers.mem_keys_of_entry he, e, he, by simpa using hpinned⟩

theorem Workers.mem_warm {key : Key} : key ∈ w.warm window
    ↔ ∃ e, w.entry? key = some e ∧ e.is_pinned = false ∧ w.idle_for e < window := by
  unfold Workers.warm
  rw [List.mem_filter, Option.any_eq_true]
  constructor
  · rintro ⟨-, e, he, hcond⟩
    exact ⟨e, he, by simpa using hcond⟩
  · rintro ⟨e, he, hcond⟩
    exact ⟨Workers.mem_keys_of_entry he, e, he, by simpa using hcond⟩

/-- What the second pass reads: the routes that the first one has left. -/
theorem mem_unpinned_left {expired : List Key} (hexpired : ∀ key, key ∈ expired
      ↔ ∃ e, w.entry? key = some e ∧ e.is_pinned = false ∧ window ≤ w.idle_for e)
    {seen : List Snapshot} (hreads : (w.removeAll expired).Reads [] seen) {s : Snapshot} :
    s ∈ unpinnedByIdle seen ↔ ∃ e, w.entry? s.key = some e ∧ e.is_pinned = false
      ∧ w.idle_for e < window ∧ s = ⟨s.key, false, w.idle_for e⟩ := by
  have hidle : ∀ e, (w.removeAll expired).idle_for e = w.idle_for e := fun e => by
    rw [Workers.idle_for, Workers.now_removeAll]
    rfl
  rw [mem_unpinnedByIdle, hreads.mem_iff, Workers.entry?_removeAll]
  simp only [hidle]
  constructor
  · rintro ⟨⟨e, he, hs⟩, hpinned⟩
    split at he
    · cases he
    · rename_i hnot
      rw [hs] at hpinned
      have hpinned : e.is_pinned = false := hpinned
      rw [hpinned] at hs
      refine ⟨e, he, hpinned, Nat.lt_of_not_le fun hle => hnot ?_, hs⟩
      exact (hexpired _).mpr ⟨e, he, hpinned, hle⟩
  · rintro ⟨e, he, hpinned, hlt, hs⟩
    have hnot : s.key ∉ expired := fun hmem => by
      obtain ⟨e', he', -, hle⟩ := (hexpired _).mp hmem
      obtain rfl := Option.some.inj (he.symm.trans he')
      exact Nat.not_le_of_lt hlt hle
    rw [if_neg hnot]
    exact ⟨⟨e, he, by rw [hpinned]; exact hs⟩, by rw [hs]⟩

theorem swept_of_passes {expired : List Key} (hexpired : ∀ key, key ∈ expired
      ↔ ∃ e, w.entry? key = some e ∧ e.is_pinned = false ∧ window ≤ w.idle_for e)
    {seen : List Snapshot} (hreads : (w.removeAll expired).Reads [] seen) :
    w.Swept keep_warm window expired (excessKeys keep_warm seen)
      { w.removeAll (expired ++ excessKeys keep_warm seen) with lock := none } := by
  have hleft := fun s => mem_unpinned_left hexpired hreads (s := s)
  let unpinned := unpinnedByIdle seen
  let excess := unpinned.length - keep_warm
  have hexcess : excessKeys keep_warm seen = (unpinned.take excess).map Snapshot.key :=
    excessKeys_eq keep_warm
  have hentry : ∀ key,
      Workers.entry? { w.removeAll (expired ++ excessKeys keep_warm seen) with lock := none } key
        = if key ∈ expired ++ excessKeys keep_warm seen then none else w.entry? key :=
    fun key => Workers.entry?_removeAll
  have hremain : ∀ key e,
      Workers.entry? { w.removeAll (expired ++ excessKeys keep_warm seen) with lock := none } key
        = some e → e.is_pinned = false →
      w.entry? key = some e ∧ w.idle_for e < window
        ∧ ⟨key, false, w.idle_for e⟩ ∈ unpinned.drop excess := by
    intro key e he hpinned
    rw [hentry] at he
    split at he
    · cases he
    · rename_i hnot
      rw [List.mem_append, not_or] at hnot
      have hlt : w.idle_for e < window := Nat.lt_of_not_le fun hle =>
        hnot.1 ((hexpired key).mpr ⟨e, he, hpinned, hle⟩)
      have hmem : ⟨key, false, w.idle_for e⟩ ∈ unpinned := (hleft _).mpr ⟨e, he, hpinned, hlt, rfl⟩
      rw [← List.take_append_drop excess unpinned] at hmem
      refine ⟨he, hlt, (List.mem_append.mp hmem).resolve_left fun htake => hnot.2 ?_⟩
      rw [hexcess]
      exact List.mem_map.mpr ⟨_, htake, rfl⟩
  refine ⟨rfl, fun key hkey => ?_, fun key hkey => ?_, fun key e he hpinned =>
    (hremain key e he hpinned).2.1, ?_, fun key hkey e he hlt key' e' he' hpinned => ?_,
    fun hwarm key e he hlt => ?_⟩
  · refine ⟨by rw [hentry, if_pos hkey], ?_⟩
    rcases List.mem_append.mp hkey with hkey | hkey
    · obtain ⟨e, he, hpinned, -⟩ := (hexpired key).mp hkey
      exact ⟨e, he, hpinned⟩
    · rw [hexcess] at hkey
      obtain ⟨s, hs, rfl⟩ := List.mem_map.mp hkey
      obtain ⟨e, he, hpinned, -⟩ := (hleft s).mp (List.mem_of_mem_take hs)
      exact ⟨e, he, hpinned⟩
  · rw [hentry, if_neg hkey]
  · -- what is left and unpinned is what the capacity leaves of the list
    have hnodup : ({ w.removeAll (expired ++ excessKeys keep_warm seen) with lock := none } :
        Workers).unpinned.Nodup := (AList.nodupKeys _).filter _
    have hsub : ({ w.removeAll (expired ++ excessKeys keep_warm seen) with lock := none } :
        Workers).unpinned ⊆ (unpinned.drop excess).map Snapshot.key := by
      intro key hkey
      obtain ⟨e, he, hpinned⟩ := Workers.mem_unpinned.mp hkey
      exact List.mem_map.mpr ⟨_, (hremain key e he hpinned).2.2, rfl⟩
    have hle := (List.subperm_of_subset hnodup hsub).length_le
    rw [List.length_map, List.length_drop] at hle
    omega
  · rcases List.mem_append.mp hkey with hkey | hkey
    · obtain ⟨e₁, he₁, -, hle⟩ := (hexpired key).mp hkey
      obtain rfl := Option.some.inj (he.symm.trans he₁)
      exact absurd hlt (Nat.not_lt_of_le hle)
    · rw [hexcess] at hkey
      obtain ⟨s, hs, rfl⟩ := List.mem_map.mp hkey
      obtain ⟨e₁, he₁, -, -, hse⟩ := (hleft s).mp (List.mem_of_mem_take hs)
      obtain rfl := Option.some.inj (he.symm.trans he₁)
      have hsorted : (unpinned.take excess ++ unpinned.drop excess).Pairwise
          fun a b => b.idle ≤ a.idle := by
        rw [List.take_append_drop]
        exact sorted_unpinnedByIdle
      have hidle := (List.pairwise_append.mp hsorted).2.2 s hs _ (hremain key' e' he' hpinned).2.2
      rw [hse] at hidle
      exact hidle
  · have hsub : unpinned.map Snapshot.key ⊆ w.warm window := by
      intro key hkey
      obtain ⟨s, hs, rfl⟩ := List.mem_map.mp hkey
      obtain ⟨e, he, hpinned, hlt, -⟩ := (hleft s).mp hs
      exact Workers.mem_warm.mpr ⟨e, he, hpinned, hlt⟩
    have hle := (List.subperm_of_subset (nodup_unpinnedByIdle hreads) hsub).length_le
    rw [List.length_map] at hle
    have hnone : excess = 0 := Nat.sub_eq_zero_of_le (hle.trans hwarm)
    have hnot : key ∉ expired ++ excessKeys keep_warm seen := by
      rw [hexcess, hnone, List.take_zero, List.map_nil, List.append_nil]
      intro hkey
      obtain ⟨e₁, he₁, -, hle⟩ := (hexpired key).mp hkey
      obtain rfl := Option.some.inj (he.symm.trans he₁)
      exact Nat.not_le_of_lt hlt hle
    rw [hentry, if_neg hnot, he]

/-- **After a sweep** no unpinned route is left that was idle for the window,
and no more of them than the capacity, the longest idle having gone first;
pinned ones stay. -/
theorem sweep_swept (hsound : w.Sound) (h : w.evict (.expiredScan keep_warm window) = some w₁) :
    Inevitable (Workers.step translate) evictionOnly
      (fun w' => ∃ expired excess, w.Swept keep_warm window expired excess w') w₁ := by
  unfold Workers.evict at h
  split at h
  · cases h
  · obtain rfl := Option.some.inj h
    refine scan_all hsound rfl rfl rfl ((Workers.Reads.start w).lock _) fun seen hreads => ?_
    have hreads : w.Reads [] seen := hreads.lock w.lock
    let expired := expiredKeys window seen
    let left := w.removeAll expired
    have hread : ({ w with lock := some (.evicting
        ⟨.expiredScan keep_warm window, [], seen, [], none⟩) }).advance
        = some { w with lock := some (.evicting ⟨.expired keep_warm, [], seen, expired, none⟩) } :=
      rfl
    refine inevitable_of_advance rfl (Or.inl rfl) hread (remove_all rfl rfl ?_)
    rw [Workers.removeAll_lock]
    have hremoved : ({ left with lock := some (.evicting
        ⟨.expired keep_warm, [], seen, [], none⟩) }).advance
        = some { left with lock := some (.evicting
          ⟨.warmScan keep_warm, left.entries.keys, [], [], none⟩) } := rfl
    refine inevitable_of_advance rfl (Or.inl rfl) hremoved ?_
    have hleft : left.Sound := hsound.removeAll
    refine scan_all hleft rfl rfl rfl ((Workers.Reads.start left).lock _) fun seen' hreads' => ?_
    have hreads' : left.Reads [] seen' := hreads'.lock left.lock
    let excess := excessKeys keep_warm seen'
    have hread' : ({ left with lock := some (.evicting
        ⟨.warmScan keep_warm, [], seen', [], none⟩) }).advance
        = some { left with lock := some (.evicting ⟨.done, [], seen', excess, none⟩) } := rfl
    refine inevitable_of_advance rfl (Or.inl rfl) hread' (remove_all rfl rfl ?_)
    rw [Workers.removeAll_lock]
    have hdone : ({ left.removeAll excess with lock := some (.evicting
        ⟨.done, [], seen', [], none⟩) }).advance
        = some { left.removeAll excess with lock := none } := rfl
    refine inevitable_of_advance rfl (Or.inl rfl) hdone (.here ⟨expired, excess, ?_⟩)
    have hboth : left.removeAll excess = w.removeAll (expired ++ excess) := List.foldl_append.symm
    rw [hboth]
    exact swept_of_passes (fun key => mem_expiredKeys hreads) hreads'

end Sweep

/-- A capacity for one of the two routes. -/
theorem sweep_swept_two :
    Inevitable (Workers.step fun _ _ _ _ => []) evictionOnly
      (fun w' => ∃ expired excess, (twoRoutes none).Swept 1 9 expired excess w')
      (twoRoutes (some (.evicting
        ⟨.expiredScan 1 9, (twoRoutes none).entries.keys, [], [], none⟩))) :=
  sweep_swept (twoRoutes_sound _) rfl

end Dragomand
