import Mathlib.Algebra.Order.BigOperators.Group.List
import Dragomand.BudgetEviction

/-!
# A load and its own eviction

`ensure_loaded` registers the new route and evicts over the budget before it
returns, and the new route, which runs no job yet, is a candidate. It is the
last to go: it goes exactly where the routes that run jobs or were used at
that moment exceed the budget together with it (`load_spared_iff`).
-/

namespace Dragomand

open Machine (Reach Inevitable)

/-! ## What routes cost -/

/-- The cost of a route, if it is one of those in question. -/
def Workers.costOf (w : Workers) (p : PairEntry → Bool) (key : Key) : Nat :=
  ((w.entry? key).filter p).elim 0 PairEntry.cost_mb

/-- What the routes in question cost together. -/
def Workers.costs (w : Workers) (p : PairEntry → Bool) : Nat :=
  (w.entries.keys.map (w.costOf p)).sum

/-- The route runs jobs, or was used at this moment. -/
def Workers.inUse (w : Workers) (e : PairEntry) : Bool := e.is_pinned || w.idle_for e = 0

section Cost

variable {w : Workers} {key : Key} {e : PairEntry} {p q : PairEntry → Bool}

theorem Workers.costOf_eq (h : w.entry? key = some e) :
    w.costOf p key = if p e then e.cost_mb else 0 := by
  unfold Workers.costOf
  rw [h]
  cases hp : p e <;> simp [Option.filter, hp]

theorem Workers.total_eq_costs (w : Workers) : w.total = w.costs fun _ => true := by
  unfold Workers.total Workers.costs
  show _ = ((w.entries.entries.map Sigma.fst).map _).sum
  rw [List.map_map]
  refine congrArg List.sum (List.map_congr_left fun entry hentry => ?_)
  have hlookup : w.entries.lookup entry.1 = some entry.2 := AList.mem_lookup_iff.mpr hentry
  show _ = w.costOf _ entry.1
  unfold Workers.costOf Workers.entry?
  rw [hlookup, Option.bind_some]
  cases w.heap[entry.2]? <;> rfl

theorem Workers.costs_congr (h : ∀ key e, w.entry? key = some e → p e = q e) :
    w.costs p = w.costs q := by
  refine congrArg List.sum (List.map_congr_left fun key _ => ?_)
  cases hentry : w.entry? key with
  | none => simp [Workers.costOf, hentry]
  | some e => rw [Workers.costOf_eq hentry, Workers.costOf_eq hentry, h key e hentry]

/-- A route takes its own cost with it. -/
theorem Workers.costs_remove (h : w.entry? key = some e) :
    (if p e then e.cost_mb else 0) + (w.remove key).costs p = w.costs p := by
  have hmem := Workers.mem_keys_of_entry h
  obtain ⟨id, hid, -⟩ := Option.bind_eq_some_iff.mp h
  have hentries : (w.remove key).entries = w.entries.erase key := by
    unfold Workers.remove
    rw [hid]
    exact Workers.entries_dropped _ _
  have hrest : ∀ key' ∈ (w.entries.erase key).keys, (w.remove key).costOf p key' = w.costOf p key' := by
    intro key' hkey'
    have hne := (AList.mem_erase.mp (AList.mem_keys.mpr hkey')).1
    unfold Workers.costOf
    rw [Workers.entry?_remove, if_neg hne]
  unfold Workers.costs
  rw [hentries, List.map_congr_left hrest, AList.keys_erase, ← Workers.costOf_eq h]
  exact List.sum_map_erase _ hmem

theorem Workers.inUse_remove {l : Option Lock} :
    ({ w.remove key with lock := l }).inUse = w.inUse := by
  funext e
  unfold Workers.inUse Workers.idle_for
  rw [Workers.now_remove]

theorem Workers.costs_lock (w : Workers) (l : Option Lock) (p : PairEntry → Bool) :
    ({ w with lock := l }).costs p = w.costs p := rfl

/-- What a budget for the routes in use and a candidate leave, is all of it. -/
theorem Workers.total_of_longest (hidle : w.idle_for e = 0)
    (hlongest : ∀ key' e', w.entry? key' = some e' → e'.is_pinned = false →
      w.idle_for e' ≤ w.idle_for e) : w.total = w.costs w.inUse := by
  rw [Workers.total_eq_costs]
  refine Workers.costs_congr fun key' e' he' => ?_
  unfold Workers.inUse
  cases hpinned : e'.is_pinned with
  | true => rfl
  | false =>
      have hzero := Nat.le_zero.mp (hidle ▸ hlongest key' e' he' hpinned)
      simp [hzero]

end Cost

/-! ## The last candidate -/

/-- The route is a candidate, used at this moment. -/
structure Workers.Fresh (w : Workers) (key : Key) (e : PairEntry) : Prop where
  entry : w.entry? key = some e
  unpinned : e.is_pinned = false
  idle : w.idle_for e = 0

section Last

variable {translate : ModelSpec → Option ModelSpec → Bool → List String → List Translation}
  {w w' : Workers} {budget_mb : Nat} {key key' : Key} {e : PairEntry}

theorem Workers.Fresh.remove (h : w.Fresh key e) (hne : key ≠ key') {l : Option Lock} :
    ({ w.remove key' with lock := l }).Fresh key e where
  entry := Workers.entry?_remove_eq_some.mpr ⟨hne, h.entry⟩
  unpinned := h.unpinned
  idle := by
    show (w.remove key').now - e.last_used = 0
    rw [Workers.now_remove]
    exact h.idle

/-- Where the budget is enough for the routes in use, a fresh route stays. -/
theorem Workers.Budgeted.spares {removed : List Key} (h : w.Budgeted budget_mb removed w')
    (hfresh : w.Fresh key e) (hfits : w.costs w.inUse ≤ budget_mb) : key ∉ removed := by
  induction h with
  | stop h => exact List.not_mem_nil
  | @evict w w' key₀ e₀ rest l hv _ ih =>
      have hne : key ≠ key₀ := by
        rintro rfl
        obtain rfl := Option.some.inj (hfresh.entry.symm.trans hv.entry)
        have htotal := Workers.total_of_longest hfresh.idle hv.longest
        exact absurd (htotal ▸ hv.exceeds) (Nat.not_lt_of_le hfits)
      rw [List.mem_cons, not_or]
      refine ⟨hne, ih (hfresh.remove hne) ?_⟩
      rw [Workers.inUse_remove, Workers.costs_lock]
      exact (Nat.le_of_add_left_le (Workers.costs_remove hv.entry).le).trans hfits

theorem Workers.lookup_remove_ne (w : Workers) (hne : key ≠ key') :
    (w.remove key').entries.lookup key = w.entries.lookup key := by
  unfold Workers.remove
  split
  · rfl
  · rw [Workers.entries_dropped, AList.lookup_erase_ne hne]

theorem Workers.Budgeted.lookup {removed : List Key} (h : w.Budgeted budget_mb removed w')
    (hkey : key ∉ removed) : w'.entries.lookup key = w.entries.lookup key := by
  induction h with
  | stop h => rfl
  | @evict w w' key₀ e₀ rest l hv _ ih =>
      obtain ⟨hne, hrest⟩ := not_or.mp (mt List.mem_cons.mpr hkey)
      exact (ih hrest).trans (w.lookup_remove_ne hne)

theorem Workers.Budgeted.lookup_eq_none {removed : List Key} (h : w.Budgeted budget_mb removed w')
    (hgone : w.entries.lookup key = none) : w'.entries.lookup key = none := by
  induction h with
  | stop h => exact hgone
  | @evict w w' key₀ e₀ rest l hv _ ih =>
      refine ih ?_
      show (w.remove key₀).entries.lookup key = none
      by_cases hkey : key = key₀
      · rw [hkey, Workers.lookup_remove]
      · rw [w.lookup_remove_ne hkey, hgone]

theorem Workers.Budgeted.lock {removed : List Key} (h : w.Budgeted budget_mb removed w') :
    w'.lock = none := by
  induction h with
  | stop h => rfl
  | evict _ _ ih => exact ih

end Last

/-! ## A run that takes the candidate -/

/-- What the eviction reads of a route. -/
def Workers.snapshot (w : Workers) (key : Key) : Option Snapshot :=
  (w.entry? key).map fun e => ⟨key, e.is_pinned, w.idle_for e⟩

theorem Workers.snapshot_eq {w : Workers} {key : Key} {e : PairEntry} (h : w.entry? key = some e) :
    w.snapshot key = some ⟨key, e.is_pinned, w.idle_for e⟩ := by
  unfold Workers.snapshot
  rw [h, Option.map_some]

theorem longestIdle_concat {seen : List Snapshot} {s : Snapshot} (hs : s.pinned = false)
    (hmax : ∀ s' ∈ seen, s'.pinned = false → s'.idle ≤ s.idle) :
    longestIdle (seen ++ [s]) = some s.key := by
  have hspec := (foldl_longest (seen.filter fun s => !s.pinned)).2
  unfold longestIdle
  rw [List.filter_append, List.foldl_append, List.filter_cons_of_pos (by simp [hs]), List.filter_nil,
    List.foldl_cons, List.foldl_nil]
  split
  · rename_i b hlongest
    obtain ⟨hmem, hpinned⟩ := List.mem_filter.mp (hspec b hlongest).1
    rw [if_pos (hmax b hmem (by simpa using hpinned)), Option.map_some]
  · rfl

section Order

variable {translate : ModelSpec → Option ModelSpec → Bool → List String → List Translation}
  {w : Workers} {op : Evicting} {budget_mb : Nat} {key : Key} {e : PairEntry}

theorem reach_advance {w' : Workers} (h : w.advance = some w') :
    Reach (Workers.step translate) evictionOnly w w' :=
  Reach.one (e := .advance) trivial h

/-- The map may have the entries in any order. -/
theorem reach_scan {order : List Key} (hlock : w.lock = some (.evicting op))
    (hstage : op.stage.collects = true) (hvictims : op.victims = []) (horder : op.todo.Perm order)
    (hentry : ∀ key ∈ order, ∃ e, w.entry? key = some e) :
    Reach (Workers.step translate) evictionOnly w { w with lock := some (.evicting
      { op with todo := [], seen := op.seen ++ order.filterMap w.snapshot }) } := by
  induction order generalizing w op with
  | nil =>
      have hself : w = { w with lock := some (.evicting
          { op with todo := [], seen := op.seen ++ [].filterMap w.snapshot }) } := by
        rw [List.filterMap_nil, List.append_nil, ← horder.eq_nil, ← hlock]
      rw [← hself]
      exact .init
  | cons key order ih =>
      obtain ⟨e, he⟩ := hentry key List.mem_cons_self
      have hkey : key ∈ op.todo := horder.symm.subset List.mem_cons_self
      have hs := Workers.scan_eq_some hlock hstage hkey hvictims he
      have hrest : (op.todo.erase key).Perm order := by
        have herase := horder.erase key
        rwa [List.erase_cons_head] at herase
      have hreach := ih (w := { w with lock := some (.evicting { op with
        todo := op.todo.erase key, seen := op.seen ++ [⟨key, e.is_pinned, w.idle_for e⟩] }) }) rfl
        hstage hvictims hrest fun key' hkey' => hentry key' (List.mem_cons_of_mem _ hkey')
      have hseen : op.seen ++ (key :: order).filterMap w.snapshot
          = op.seen ++ [⟨key, e.is_pinned, w.idle_for e⟩] ++ order.filterMap w.snapshot := by
        rw [List.filterMap_cons_some (Workers.snapshot_eq he), List.append_cons]
      rw [hseen]
      exact (Reach.one (e := .scan key) trivial hs).trans hreach

variable (translate) in
/-- A round in which the route is read last. -/
theorem reach_evict (hsound : w.Sound) {seen : List Snapshot} {ret : Option Nat}
    (hlock : w.lock = some (.evicting ⟨.budget budget_mb, [], seen, [], ret⟩))
    (hv : w.Victim budget_mb key e) :
    ∃ seen', Reach (Workers.step translate) evictionOnly w { w.remove key with
      lock := some (.evicting ⟨.budget budget_mb, [], seen', [], ret⟩) } := by
  have hmem := Workers.mem_keys_of_entry hv.entry
  have hscan : w.advance = some { w with lock := some (.evicting
      ⟨.budgetScan budget_mb, w.entries.keys, [], [], ret⟩) } := by
    unfold Workers.advance
    rw [hlock]
    exact if_neg (Nat.not_le_of_lt hv.exceeds)
  have horder : w.entries.keys.Perm ((w.entries.erase key).keys ++ [key]) := by
    refine .trans ?_ (List.perm_append_singleton key _).symm
    rw [AList.keys_erase]
    exact @List.perm_cons_erase Key instBEqOfDecidableEq _ _ _ hmem
  obtain ⟨read, hread⟩ : ∃ read, (w.entries.erase key).keys.filterMap w.snapshot = read := ⟨_, rfl⟩
  obtain ⟨s, hs⟩ : ∃ s : Snapshot, s = ⟨key, e.is_pinned, w.idle_for e⟩ := ⟨_, rfl⟩
  have hseen : ((w.entries.erase key).keys ++ [key]).filterMap w.snapshot = read ++ [s] := by
    rw [List.filterMap_append, List.filterMap_cons_some (Workers.snapshot_eq hv.entry),
      List.filterMap_nil, hread, hs]
  have hreach : Reach (Workers.step translate) evictionOnly
      { w with lock := some (.evicting ⟨.budgetScan budget_mb, w.entries.keys, [], [], ret⟩) }
      { w with lock := some (.evicting ⟨.budgetScan budget_mb, [], read ++ [s], [], ret⟩) } := by
    rw [← hseen]
    exact reach_scan (w := { w with lock := some (.evicting
      ⟨.budgetScan budget_mb, w.entries.keys, [], [], ret⟩) }) rfl rfl rfl horder
      fun key' hkey' => hsound.entry (horder.symm.subset hkey')
  have hlongest : longestIdle (read ++ [s]) = some key := by
    rw [longestIdle_concat (hs ▸ hv.unpinned), hs]
    intro s' hs' hpinned
    rw [← hread] at hs'
    obtain ⟨key', -, hs'⟩ := List.mem_filterMap.mp hs'
    obtain ⟨e', he', rfl⟩ := Option.map_eq_some_iff.mp hs'
    rw [hs]
    exact hv.longest key' e' he' hpinned
  have hchosen : ({ w with lock := some (.evicting
      ⟨.budgetScan budget_mb, [], read ++ [s], [], ret⟩) }).advance
        = some { w with lock := some (.evicting
        ⟨.budget budget_mb, [], read ++ [s], [key], ret⟩) } := by
    unfold Workers.advance
    dsimp only
    rw [hlongest]
  have hremoved : ({ w with lock := some (.evicting
      ⟨.budget budget_mb, [], read ++ [s], [key], ret⟩) }).advance
        = some { w.remove key with lock := some (.evicting
        ⟨.budget budget_mb, [], read ++ [s], [], ret⟩) } := by
    unfold Workers.advance
    dsimp only
    rw [Workers.remove_lock]
  exact ⟨read ++ [s], (reach_advance hscan).trans
    (hreach.trans ((reach_advance hchosen).trans (reach_advance hremoved)))⟩

theorem Workers.costs_le_total (w : Workers) (p : PairEntry → Bool) : w.costs p ≤ w.total := by
  rw [Workers.total_eq_costs]
  refine List.sum_le_sum fun key _ => ?_
  cases hentry : w.entry? key with
  | none => simp [Workers.costOf, hentry]
  | some e =>
      rw [Workers.costOf_eq hentry, Workers.costOf_eq hentry, if_pos rfl]
      split
      · exact le_rfl
      · exact Nat.zero_le _

/-- Over the budget, a candidate makes some route the victim. -/
theorem exists_victim (hexceeds : budget_mb < w.total) (he : w.entry? key = some e)
    (hpinned : e.is_pinned = false) : ∃ key' e', w.Victim budget_mb key' e' := by
  have hseen : ∀ {key e}, w.entry? key = some e →
      (⟨key, e.is_pinned, w.idle_for e⟩ : Snapshot) ∈ w.entries.keys.filterMap w.snapshot :=
    fun he => List.mem_filterMap.mpr ⟨_, Workers.mem_keys_of_entry he, Workers.snapshot_eq he⟩
  cases hlongest : longestIdle (w.entries.keys.filterMap w.snapshot) with
  | none => cases hpinned.symm.trans (pinned_of_longestIdle hlongest _ (hseen he))
  | some key' =>
      obtain ⟨s, hs, -, hunpinned, hmax⟩ := longestIdle_eq_some hlongest
      obtain ⟨key₁, -, hs⟩ := List.mem_filterMap.mp hs
      obtain ⟨e₁, he₁, rfl⟩ := Option.map_eq_some_iff.mp hs
      exact ⟨key₁, e₁, hexceeds, he₁, hunpinned, fun key₂ e₂ he₂ hp => hmax _ (hseen he₂) hp⟩

variable (translate) in
/-- Where the routes in use exceed the budget, some order of the map has the
fresh route go. -/
theorem exists_run_without (hsound : w.Sound) {seen : List Snapshot} {ret : Option Nat}
    (hlock : w.lock = some (.evicting ⟨.budget budget_mb, [], seen, [], ret⟩))
    (hfresh : w.Fresh key e) (hexceeds : budget_mb < w.costs w.inUse) :
    ∃ w', Reach (Workers.step translate) evictionOnly w w' ∧ w'.lock = none
      ∧ w'.entries.lookup key = none := by
  generalize hn : w.entries.keys.length = n
  induction n using Nat.strong_induction_on generalizing w seen with
  | h n ih =>
      have htotal : budget_mb < w.total := hexceeds.trans_le (w.costs_le_total _)
      by_cases hidle : ∃ key' e', w.entry? key' = some e' ∧ e'.is_pinned = false ∧ 0 < w.idle_for e'
      · -- another route goes first
        obtain ⟨key', e', he', hpinned', hpos⟩ := hidle
        obtain ⟨key₁, e₁, hv⟩ := exists_victim htotal he' hpinned'
        have hidle₁ : 0 < w.idle_for e₁ := hpos.trans_le (hv.longest key' e' he' hpinned')
        have hne : key ≠ key₁ := by
          rintro rfl
          obtain rfl := Option.some.inj (hfresh.entry.symm.trans hv.entry)
          exact absurd hfresh.idle hidle₁.ne'
        have huse : w.inUse e₁ = false := by
          unfold Workers.inUse
          rw [hv.unpinned, Bool.false_or, decide_eq_false_iff_not]
          exact hidle₁.ne'
        obtain ⟨seen', hreach⟩ := reach_evict translate hsound hlock hv
        have hless : (w.remove key₁).entries.keys.length < n :=
          hn ▸ Workers.length_remove (Workers.mem_keys_of_entry hv.entry)
        have hcosts : budget_mb < (w.remove key₁).costs w.inUse := by
          have hsplit := Workers.costs_remove (p := w.inUse) hv.entry
          rw [huse, if_neg Bool.false_ne_true, Nat.zero_add] at hsplit
          exact hsplit ▸ hexceeds
        obtain ⟨w', hreach', hend⟩ := ih _ hless (w := { w.remove key₁ with lock := some (.evicting
          ⟨.budget budget_mb, [], seen', [], ret⟩) }) hsound.remove rfl (hfresh.remove hne)
          (by rw [Workers.inUse_remove]; exact hcosts) rfl
        exact ⟨w', hreach.trans hreach', hend⟩
      · -- all candidates are fresh: let this one be the last
        have hv : w.Victim budget_mb key e := by
          refine ⟨htotal, hfresh.entry, hfresh.unpinned, fun key' e' he' hpinned' => ?_⟩
          by_contra hlt
          exact hidle ⟨key', e', he', hpinned', Nat.zero_lt_of_lt (Nat.lt_of_not_le hlt)⟩
        obtain ⟨seen', hreach⟩ := reach_evict translate hsound hlock hv
        have hends : Inevitable (Workers.step translate) evictionOnly _ { w.remove key with
            lock := some (.evicting ⟨.budget budget_mb, [], seen', [], ret⟩) } :=
          budgeted_inevitable hsound.remove rfl
        obtain ⟨w', hreach', removed, hbudgeted⟩ := hends.exists_reach
        exact ⟨w', hreach.trans hreach', hbudgeted.lock,
          hbudgeted.lookup_eq_none (Workers.lookup_remove _ _)⟩

end Order

/-! ## The load -/

theorem evictionOnly_stuck
    {translate : ModelSpec → Option ModelSpec → Bool → List String → List Translation}
    {w : Workers} (h : w.lock = none) : Machine.Stuck (Workers.step translate) evictionOnly w := by
  intro e w' hok hs
  cases e with
  | scan key =>
      simp only [Workers.step, Workers.scan, h] at hs
      cases hs
  | advance =>
      simp only [Workers.step, Workers.advance, h] at hs
      cases hs
  | _ => exact hok

/-- The load of a route has added it, and nothing else, to the registry. -/
structure Workers.Added (w : Workers) (caller : Nat) (key : Key) (budget_mb cost_mb : Nat)
    (w₁ : Workers) : Prop where
  lock : w₁.lock = some (.evicting ⟨.budget budget_mb, [], [], [], some caller⟩)
  now : w₁.now = w.now
  keys : w₁.entries.keys = key :: w.entries.keys
  lookup : w₁.entries.lookup key = some w.heap.length
  fresh : ∃ e, w₁.Fresh key e ∧ e.cost_mb = cost_mb
  others : ∀ key', key' ≠ key → w₁.entry? key' = w.entry? key'
  sound : w₁.Sound

/-- The route is registered, and the next `ensure_loaded` for its pair returns
it. -/
structure Workers.Serves (w : Workers) (key : Key) (id : Nat) : Prop where
  registered : w.entries.lookup key = some id
  hit : ∀ caller allow_pivot budget_mb plan specs,
    (w.ensure_loaded caller key.1 key.2 allow_pivot budget_mb plan specs).map Prod.snd
      = some (.hit id)

theorem Workers.serves_iff {w : Workers} {key : Key} {id : Nat} (hlock : w.lock = none) :
    w.Serves key id ↔ w.entries.lookup key = some id := by
  refine ⟨fun h => h.registered, fun hlookup =>
    ⟨hlookup, fun caller allow_pivot budget_mb plan specs => ?_⟩⟩
  unfold Workers.ensure_loaded
  rw [hlock, hlookup]
  rfl

section Load

variable {translate : ModelSpec → Option ModelSpec → Bool → List String → List Translation}
  {w w₁ : Workers} {caller : Nat} {key : Key} {pivot : Option String} {first : ModelSpec}
  {second : Option ModelSpec} {budget_mb measured cost_mb : Nat}

theorem Workers.added (hsound : w.Sound) (hfree : w.entries.lookup key = none)
    (hlock : w.lock = some (.loading caller key pivot first second budget_mb))
    (hloaded : w.loaded (.ok measured) = some w₁) :
    w.Added caller key budget_mb
      (max measured ((1 + if second.isSome then 1 else 0) * ESTIMATED_MODEL_MB)) w₁ := by
  unfold Workers.loaded at hloaded
  rw [hlock] at hloaded
  obtain rfl := Option.some.inj hloaded
  have hfresh : key ∉ w.entries := AList.lookup_eq_none.mp hfree
  have hothers : ∀ key', key' ≠ key → ∀ id, w.entries.lookup key' = some id →
      ∀ e, (w.heap ++ [e])[id]? = w.heap[id]? := by
    intro key' hne id hid e
    obtain ⟨e', he'⟩ := hsound key' id hid
    exact List.getElem?_append_left (List.getElem?_eq_some_iff.mp he').1
  refine ⟨rfl, rfl, ?_, AList.lookup_insert _, ⟨⟨key.1, key.2, pivot, _, w.now, 0, first, second,
    .init⟩, ⟨?_, rfl, Nat.sub_self _⟩, rfl⟩, ?_, ?_⟩
  · show (w.entries.insert key w.heap.length).keys = _
    rw [AList.keys_insert,
      @List.erase_of_not_mem Key instBEqOfDecidableEq _ _ _ (mt AList.mem_keys.mpr hfresh)]
  · unfold Workers.entry?
    rw [AList.lookup_insert, Option.bind_some, List.getElem?_concat_length]
  · intro key' hne
    unfold Workers.entry?
    rw [AList.lookup_insert_ne hne]
    exact Option.bind_congr fun id hid => hothers key' hne id hid _
  · intro key' id hid
    by_cases hne : key' = key
    · rw [hne, AList.lookup_insert] at hid
      cases hid
      exact ⟨_, List.getElem?_concat_length ..⟩
    · rw [AList.lookup_insert_ne hne] at hid
      obtain ⟨e', he'⟩ := hsound key' id hid
      exact ⟨e', (hothers key' hne id hid _).trans he'⟩

theorem Workers.Added.costs (h : w.Added caller key budget_mb cost_mb w₁)
    (hfree : w.entries.lookup key = none) : w₁.costs w₁.inUse = w.costs w.inUse + cost_mb := by
  obtain ⟨e, hfresh, hcost⟩ := h.fresh
  have huse : w₁.inUse = w.inUse := by
    funext e
    unfold Workers.inUse Workers.idle_for
    rw [h.now]
  have hnew : w₁.inUse e = true := by
    unfold Workers.inUse
    rw [hfresh.idle, hfresh.unpinned]
    rfl
  have hold : ∀ key' ∈ w.entries.keys, w₁.costOf w.inUse key' = w.costOf w.inUse key' := by
    intro key' hkey'
    have hne : key' ≠ key := by
      rintro rfl
      exact absurd (AList.mem_keys.mpr hkey') (AList.lookup_eq_none.mp hfree)
    unfold Workers.costOf
    rw [h.others key' hne]
  unfold Workers.costs
  rw [h.keys, List.map_cons, List.sum_cons, Workers.costOf_eq hfresh.entry, if_pos hnew, hcost, huse,
    List.map_congr_left hold, Nat.add_comm]

/-- With pins and the clock fixed, the load keeps its own route if and only
if the budget is enough for it and for the routes in use. -/
theorem load_spared_iff (h : w.Added caller key budget_mb cost_mb w₁)
    (hfree : w.entries.lookup key = none) :
    (∀ w', Reach (Workers.step translate) evictionOnly w₁ w' → w'.lock = none →
        w'.Serves key w.heap.length)
      ↔ w.costs w.inUse + cost_mb ≤ budget_mb := by
  obtain ⟨e, hfresh, -⟩ := h.fresh
  rw [← h.costs hfree]
  constructor
  · intro hkept
    by_contra hlt
    obtain ⟨w', hreach, hlock, hgone⟩ :=
      exists_run_without translate h.sound h.lock hfresh (Nat.lt_of_not_le hlt)
    cases hgone.symm.trans (hkept w' hreach hlock).registered
  · intro hfits w' hreach hlock
    have hends : Inevitable (Workers.step translate) evictionOnly _ w₁ :=
      budgeted_inevitable h.sound h.lock
    obtain ⟨removed, hbudgeted⟩ := hends.of_stuck
      (fun _ ⟨_, h⟩ => evictionOnly_stuck h.lock) hreach (evictionOnly_stuck hlock)
    rw [Workers.serves_iff hlock, hbudgeted.lookup (hbudgeted.spares hfresh hfits), h.lookup]

end Load

end Dragomand
