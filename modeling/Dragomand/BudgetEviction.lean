import Dragomand.EvictionRuns
import Mathlib.Data.List.Induction

/-!
# Eviction over the budget

`evict_over_budget` is a loop of rounds: while the routes cost more than the
budget, the unpinned one that was idle longest goes. `Budgeted` has one
constructor for a round and one for the end; every run of the eviction is
one of its derivations, and what the loop leaves is by induction on that.
-/

namespace Dragomand

open Machine (Inevitable)

/-! ## The longest idle -/

theorem foldl_longest (l : List Snapshot) :
    let longest := l.foldl (fun best s => match best with
      | some b => if b.idle ≤ s.idle then some s else some b
      | none => some s) none
    (longest = none → l = []) ∧ ∀ m, longest = some m → m ∈ l ∧ ∀ s ∈ l, s.idle ≤ m.idle := by
  induction l using List.reverseRecOn with
  | nil => exact ⟨fun _ => rfl, nofun⟩
  | append_singleton l s ih =>
      dsimp only at ih ⊢
      rw [List.foldl_append, List.foldl_cons, List.foldl_nil]
      generalize l.foldl (fun best s => match best with
        | some b => if b.idle ≤ s.idle then some s else some b
        | none => some s) none = longest at ih
      cases longest with
      | none =>
          obtain rfl := ih.1 rfl
          exact ⟨nofun, fun m hm => by cases hm; simp⟩
      | some b =>
          obtain ⟨hb, hmax⟩ := ih.2 b rfl
          by_cases hle : b.idle ≤ s.idle
          · simp only [if_pos hle]
            refine ⟨nofun, fun m hm => ?_⟩
            obtain rfl := Option.some.inj hm
            refine ⟨by simp, fun x hx => ?_⟩
            rcases List.mem_append.mp hx with hx | hx
            · exact (hmax x hx).trans hle
            · rw [List.mem_singleton.mp hx]
          · simp only [if_neg hle]
            refine ⟨nofun, fun m hm => ?_⟩
            obtain rfl := Option.some.inj hm
            refine ⟨List.mem_append_left _ hb, fun x hx => ?_⟩
            rcases List.mem_append.mp hx with hx | hx
            · exact hmax x hx
            · rw [List.mem_singleton.mp hx]
              exact (Nat.lt_of_not_le hle).le

theorem pinned_of_longestIdle {seen : List Snapshot} (h : longestIdle seen = none) :
    ∀ s ∈ seen, s.pinned = true := by
  intro s hs
  have hnil := (foldl_longest (seen.filter fun s => !s.pinned)).1 (Option.map_eq_none_iff.mp h)
  by_contra hpinned
  have hmem : s ∈ seen.filter fun s => !s.pinned := List.mem_filter.mpr ⟨hs, by simpa using hpinned⟩
  rw [hnil] at hmem
  cases hmem

theorem longestIdle_eq_some {seen : List Snapshot} {key : Key} (h : longestIdle seen = some key) :
    ∃ s ∈ seen, s.key = key ∧ s.pinned = false
      ∧ ∀ s' ∈ seen, s'.pinned = false → s'.idle ≤ s.idle := by
  obtain ⟨s, hs, rfl⟩ := Option.map_eq_some_iff.mp h
  obtain ⟨hmem, hmax⟩ := (foldl_longest (seen.filter fun s => !s.pinned)).2 s hs
  obtain ⟨hseen, hpinned⟩ := List.mem_filter.mp hmem
  exact ⟨s, hseen, rfl, by simpa using hpinned, fun s' hs' hp =>
    hmax s' (List.mem_filter.mpr ⟨hs', by simp [hp]⟩)⟩

/-! ## Rounds -/

def Workers.AllPinned (w : Workers) : Prop :=
  ∀ key e, w.entry? key = some e → e.is_pinned = true

/-- The costs exceed the budget, and the route is the unpinned one that was
idle longest. -/
structure Workers.Victim (w : Workers) (budget_mb : Nat) (key : Key) (e : PairEntry) : Prop where
  exceeds : budget_mb < w.total
  entry : w.entry? key = some e
  unpinned : e.is_pinned = false
  longest : ∀ key' e', w.entry? key' = some e' → e'.is_pinned = false →
    w.idle_for e' ≤ w.idle_for e

/-- The rounds of the loop: the routes that go, one after the other, and the
registry at the end. -/
inductive Workers.Budgeted (budget_mb : Nat) : Workers → List Key → Workers → Prop
  | stop {w : Workers} (h : w.total ≤ budget_mb ∨ w.AllPinned) :
      Budgeted budget_mb w [] { w with lock := none }
  | evict {w w' : Workers} {key : Key} {e : PairEntry} {rest : List Key} {l : Option Lock}
      (hv : w.Victim budget_mb key e)
      (h : Budgeted budget_mb { w.remove key with lock := l } rest w') :
      Budgeted budget_mb w (key :: rest) w'

section Rounds

variable {translate : ModelSpec → Option ModelSpec → Bool → List String → List Translation}
  {w w' : Workers} {budget_mb : Nat}

theorem Workers.Reads.entry {seen : List Snapshot} (h : w.Reads [] seen) {key : Key} {e : PairEntry}
    (he : w.entry? key = some e) : ⟨key, e.is_pinned, w.idle_for e⟩ ∈ seen := by
  have hmem := h.keys.symm.subset (Workers.mem_keys_of_entry he)
  rw [List.append_nil] at hmem
  obtain ⟨s, hs, rfl⟩ := List.mem_map.mp hmem
  obtain ⟨e', he', hs'⟩ := h.accurate s hs
  obtain rfl := Option.some.inj (he.symm.trans he')
  rwa [← hs']

/-- Every run of the loop ends, after rounds. -/
theorem budgeted_inevitable (hsound : w.Sound) {seen : List Snapshot} {ret : Option Nat}
    (hlock : w.lock = some (.evicting ⟨.budget budget_mb, [], seen, [], ret⟩)) :
    Inevitable (Workers.step translate) evictionOnly
      (fun w' => ∃ removed, w.Budgeted budget_mb removed w') w := by
  generalize hn : w.entries.keys.length = n
  induction n using Nat.strong_induction_on generalizing w seen with
  | h n ih =>
      by_cases hfits : w.total ≤ budget_mb
      · have hadvance : w.advance = some { w with lock := none } := by
          unfold Workers.advance
          rw [hlock]
          exact if_pos hfits
        exact inevitable_of_advance hlock (Or.inl rfl) hadvance (.here ⟨[], .stop (Or.inl hfits)⟩)
      · have hadvance : w.advance = some { w with lock := some (.evicting
            ⟨.budgetScan budget_mb, w.entries.keys, [], [], ret⟩) } := by
          unfold Workers.advance
          rw [hlock]
          exact if_neg hfits
        refine inevitable_of_advance hlock (Or.inl rfl) hadvance ?_
        refine scan_all hsound rfl rfl rfl ((Workers.Reads.start w).lock _) fun seen hreads => ?_
        have hreads : w.Reads [] seen := hreads.lock w.lock
        cases hlongest : longestIdle seen with
        | none =>
            have hadvance : ({ w with lock := some (.evicting
                ⟨.budgetScan budget_mb, [], seen, [], ret⟩) }).advance
                  = some { w with lock := none } := by
              unfold Workers.advance
              simp only [hlongest]
            refine inevitable_of_advance rfl (Or.inl rfl) hadvance (.here ⟨[], .stop (Or.inr ?_)⟩)
            exact fun key e he => pinned_of_longestIdle hlongest _ (hreads.entry he)
        | some key =>
            obtain ⟨s, hs, rfl, hpinned, hmax⟩ := longestIdle_eq_some hlongest
            obtain ⟨e, he, hse⟩ := hreads.accurate s hs
            rw [hse] at hpinned hmax
            have hv : w.Victim budget_mb s.key e := ⟨Nat.lt_of_not_le hfits, he, hpinned,
              fun key' e' he' hp => hmax _ (hreads.entry he') hp⟩
            have hadvance : ({ w with lock := some (.evicting
                ⟨.budgetScan budget_mb, [], seen, [], ret⟩) }).advance
                = some { w with lock := some (.evicting
                  ⟨.budget budget_mb, [], seen, [s.key], ret⟩) } := by
              unfold Workers.advance
              simp only [hlongest]
            refine inevitable_of_advance rfl (Or.inl rfl) hadvance (remove_all rfl rfl ?_)
            rw [Workers.removeAll_lock]
            have hless : (w.remove s.key).entries.keys.length < n :=
              hn ▸ Workers.length_remove (Workers.mem_keys_of_entry he)
            refine (ih _ hless (w := { w.remove s.key with lock := some (.evicting
              ⟨.budget budget_mb, [], seen, [], ret⟩) }) hsound.remove rfl rfl).imp_reach ?_
            exact fun w' _ ⟨removed, h⟩ => ⟨s.key :: removed, .evict hv h⟩

/-! ## What the loop leaves -/

/-- The routes that the loop removed, in this order, and what it left. -/
structure Workers.EvictedLru (w : Workers) (budget_mb : Nat) (removed : List Key) (w' : Workers) :
    Prop where
  result : w' = { w.removeAll removed with lock := none }
  fits : w'.total ≤ budget_mb ∨ w'.AllPinned
  gone : ∀ key ∈ removed, w'.entry? key = none ∧ ∃ e, w.entry? key = some e ∧ e.is_pinned = false
  kept : ∀ key, key ∉ removed → w'.entry? key = w.entry? key
  /-- each was idle at least as long as every unpinned one that is left, -/
  longest : ∀ key ∈ removed, ∀ e, w.entry? key = some e → ∀ key' e', w'.entry? key' = some e' →
    e'.is_pinned = false → w.idle_for e' ≤ w.idle_for e
  /-- and before it went, the rest exceeded the budget. -/
  needed : ∀ before key after, removed = before ++ key :: after →
    budget_mb < (w.removeAll before).total

theorem Workers.Budgeted.evictedLru {removed : List Key} (h : w.Budgeted budget_mb removed w') :
    w.EvictedLru budget_mb removed w' := by
  induction h with
  | stop h =>
      refine ⟨rfl, h, nofun, fun key _ => rfl, nofun, fun before key after heq => ?_⟩
      cases before <;> cases heq
  | @evict w w' key e rest l hv _ ih =>
      have hleft : ∀ {key' e'}, w'.entry? key' = some e' →
          key' ∉ rest ∧ key' ≠ key ∧ w.entry? key' = some e' := by
        intro key' e' he'
        have hrest : key' ∉ rest := by
          intro hrest
          rw [(ih.gone key' hrest).1] at he'
          cases he'
        rw [ih.kept key' hrest] at he'
        exact ⟨hrest, Workers.entry?_remove_eq_some.mp he'⟩
      refine ⟨?_, ih.fits, fun key' hkey' => ?_, fun key' hkey' => ?_, fun key' hkey' e₁ he₁ => ?_,
        fun before key' after heq => ?_⟩
      · rw [ih.result, Workers.removeAll_lock]
        rfl
      · rcases List.mem_cons.mp hkey' with rfl | hrest
        · exact ⟨Option.eq_none_iff_forall_ne_some.mpr fun e' he' => (hleft he').2.1 rfl, e, hv.entry,
            hv.unpinned⟩
        · obtain ⟨hnone, e', he', hpinned⟩ := ih.gone key' hrest
          exact ⟨hnone, e', (Workers.entry?_remove_eq_some.mp he').2, hpinned⟩
      · obtain ⟨hne, hrest⟩ := not_or.mp (mt List.mem_cons.mpr hkey')
        rw [ih.kept key' hrest]
        show Workers.entry? (w.remove key) key' = _
        rw [Workers.entry?_remove, if_neg hne]
      · intro key'' e₂ he₂ hpinned
        rcases List.mem_cons.mp hkey' with rfl | hrest
        · obtain rfl := Option.some.inj (hv.entry.symm.trans he₁)
          exact hv.longest key'' e₂ (hleft he₂).2.2 hpinned
        · obtain ⟨-, e', he', -⟩ := ih.gone key' hrest
          obtain ⟨hne, he'⟩ := Workers.entry?_remove_eq_some.mp he'
          have hidle := ih.longest key' hrest e₁ (Workers.entry?_remove_eq_some.mpr ⟨hne, he₁⟩) key''
            e₂ he₂ hpinned
          unfold Workers.idle_for at hidle ⊢
          dsimp only at hidle
          rwa [Workers.now_remove] at hidle
      · cases before with
        | nil => exact hv.exceeds
        | cons key₀ before =>
            obtain ⟨rfl, hrest⟩ := List.cons.inj heq
            have hneeded := ih.needed before key' after hrest
            rw [Workers.removeAll_lock] at hneeded
            exact hneeded

/-- **Eviction over the budget is minimal and least recently used first.**
With pins and the clock fixed, every run ends; what it has removed, one route
after the other, is as `EvictedLru` says, and nothing if all fit. -/
theorem evict_over_budget_lru (hsound : w.Sound) {ret : Option Nat}
    (hlock : w.lock = some (.evicting ⟨.budget budget_mb, [], [], [], ret⟩)) :
    Inevitable (Workers.step translate) evictionOnly
      (fun w' => ∃ removed, w.EvictedLru budget_mb removed w'
        ∧ (w.total ≤ budget_mb → removed = [])) w := by
  refine (budgeted_inevitable hsound hlock).imp_reach fun w' _ ⟨removed, h⟩ =>
    ⟨removed, h.evictedLru, fun hfits => ?_⟩
  cases removed with
  | nil => rfl
  | cons key rest =>
      have hneeded := h.evictedLru.needed [] key rest rfl
      exact absurd hfits (Nat.not_le_of_lt hneeded)

end Rounds

/-! ## Two routes and a budget for one -/

/-- A route that was last used at a time. -/
def idleEntry (source target : String) (cost_mb last_used : Nat) : PairEntry :=
  ⟨source, target, none, cost_mb, last_used, 0, ⟨[], none, none, none⟩, none, .init⟩

/-- The registry with two routes, at time 10. -/
def twoRoutes (lock : Option Lock) : Workers where
  entries := (AList.insert ("bg", "en") 0 ∅).insert ("de", "en") 1
  heap := [idleEntry "bg" "en" 64 2, idleEntry "de" "en" 64 7]
  holders := []
  lock := lock
  now := 10
  flags := fun _ => false

theorem twoRoutes_sound (lock : Option Lock) : (twoRoutes lock).Sound := by
  intro key id hlookup
  have hid : id < 2 := by
    by_cases hde : key = ("de", "en")
    · rw [hde, twoRoutes, AList.lookup_insert] at hlookup
      cases hlookup
      decide
    · rw [twoRoutes, AList.lookup_insert_ne hde] at hlookup
      by_cases hbg : key = ("bg", "en")
      · rw [hbg, AList.lookup_insert] at hlookup
        cases hlookup
        decide
      · rw [AList.lookup_insert_ne hbg] at hlookup
        cases hlookup
  exact ⟨_, List.getElem?_eq_getElem hid⟩

/-- A budget of 100 for two routes of 64. -/
theorem evict_over_budget_lru_two :
    let w := twoRoutes (some (.evicting ⟨.budget 100, [], [], [], none⟩))
    Inevitable (Workers.step fun _ _ _ _ => []) evictionOnly
      (fun w' => ∃ removed, w.EvictedLru 100 removed w' ∧ (w.total ≤ 100 → removed = [])) w :=
  evict_over_budget_lru (twoRoutes_sound _) rfl

end Dragomand
