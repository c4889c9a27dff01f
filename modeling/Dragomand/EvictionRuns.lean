import Dragomand.Machine
import Dragomand.WorkersRoutes

/-!
# What an eviction does

An eviction that acts alone, so that pins and the clock stand still, reads
entries and removes victims. `scan_all` and `remove_all` take its two loops
in one step each: what is left to show is what comes of the entries read, in
whatever order the map has them, and of the registry without the victims.
-/

namespace Dragomand

open Machine (Inevitable)

/-! ## The registry without some of its routes -/

/-- The entry of a loaded route. -/
def Workers.entry? (w : Workers) (key : Key) : Option PairEntry :=
  (w.entries.lookup key).bind fun id => w.heap[id]?

/-- Every `Arc` of the registry points to an entry. -/
def Workers.Sound (w : Workers) : Prop :=
  ∀ key id, w.entries.lookup key = some id → ∃ e, w.heap[id]? = some e

def Workers.idle_for (w : Workers) (e : PairEntry) : Nat := w.now - e.last_used

def Workers.removeAll (w : Workers) (keys : List Key) : Workers := keys.foldl Workers.remove w

theorem Routed.sound {w : Workers} (h : Routed w) : w.Sound := fun key id hlookup => by
  obtain ⟨e, he, -⟩ := h.keys key id hlookup
  exact ⟨e, he⟩

section Remove

variable {w : Workers} {key key' : Key} {keys : List Key}

theorem Workers.Sound.entry (h : w.Sound) (hkey : key ∈ w.entries.keys) :
    ∃ e, w.entry? key = some e := by
  obtain ⟨id, hid⟩ := Option.isSome_iff_exists.mp (AList.lookup_isSome.mpr (AList.mem_keys.mpr hkey))
  obtain ⟨e, he⟩ := h key id hid
  exact ⟨e, by rw [Workers.entry?, hid, Option.bind_some, he]⟩

theorem Workers.mem_keys_of_entry {e : PairEntry} (h : w.entry? key = some e) :
    key ∈ w.entries.keys := by
  obtain ⟨id, hid, -⟩ := Option.bind_eq_some_iff.mp h
  exact AList.mem_keys.mp (AList.lookup_isSome.mp (by rw [hid]; rfl))

theorem Workers.remove_lock (l : Option Lock) :
    ({ w with lock := l }).remove key = { w.remove key with lock := l } := by
  unfold Workers.remove
  dsimp only
  cases w.entries.lookup key with
  | none => rfl
  | some id =>
      unfold Workers.dropped Workers.registered Workers.held
      dsimp only
      split <;> rfl

theorem Workers.mem_keys_remove : key' ∈ (w.remove key).entries.keys
    → key' ≠ key ∧ key' ∈ w.entries.keys := by
  intro hmem
  unfold Workers.remove at hmem
  cases hlookup : w.entries.lookup key with
  | none =>
      rw [hlookup] at hmem
      refine ⟨?_, hmem⟩
      rintro rfl
      have hsome := AList.lookup_isSome.mpr (AList.mem_keys.mpr hmem)
      rw [hlookup] at hsome
      cases hsome
  | some id =>
      rw [hlookup] at hmem
      dsimp only at hmem
      rw [Workers.entries_dropped] at hmem
      exact AList.mem_erase.mp hmem

theorem Workers.length_remove (h : key ∈ w.entries.keys) :
    (w.remove key).entries.keys.length < w.entries.keys.length := by
  obtain ⟨id, hid⟩ := Option.isSome_iff_exists.mp (AList.lookup_isSome.mpr (AList.mem_keys.mpr h))
  unfold Workers.remove
  rw [hid]
  dsimp only
  rw [Workers.entries_dropped, AList.keys_erase]
  exact lt_of_eq_of_lt (@List.length_erase_of_mem Key instBEqOfDecidableEq _ key _ h)
    (Nat.sub_lt (List.length_pos_of_mem h) Nat.one_pos)

theorem Workers.heap_dropped_eq {id id' : Nat} (h : id = id' → w.registered id = true) :
    (w.dropped id).heap[id']? = w.heap[id']? := by
  unfold Workers.dropped
  by_cases hreg : (w.registered id || w.held id) = true
  · rw [if_pos hreg]
  · rw [if_neg hreg]
    have hne : id ≠ id' := fun heq => hreg (by rw [h heq, Bool.true_or])
    exact List.getElem?_modify_ne _ _ hne

/-- Removing a route takes nothing else away. -/
theorem Workers.entry?_remove :
    Workers.entry? (w.remove key) key' = if key' = key then none else w.entry? key' := by
  by_cases hkey : key' = key
  · rw [if_pos hkey, hkey, Workers.entry?, Workers.lookup_remove]
    rfl
  · rw [if_neg hkey]
    unfold Workers.remove
    cases hlookup : w.entries.lookup key with
    | none => rfl
    | some id =>
        unfold Workers.entry?
        rw [Workers.entries_dropped, AList.lookup_erase_ne hkey]
        cases hlookup' : w.entries.lookup key' with
        | none => rfl
        | some id' =>
            -- the entry dropped is not one that is still registered
            refine Workers.heap_dropped_eq fun heq => Workers.registered_iff.mpr ⟨key', ?_⟩
            show (w.entries.erase key).lookup key' = some id
            rw [AList.lookup_erase_ne hkey, hlookup', heq]

theorem Workers.entry?_remove_eq_some {l : Option Lock} {e : PairEntry} :
    Workers.entry? { w.remove key with lock := l } key' = some e
      ↔ key' ≠ key ∧ w.entry? key' = some e := by
  show Workers.entry? (w.remove key) key' = some e ↔ _
  rw [Workers.entry?_remove]
  by_cases hkey : key' = key
  · simp [hkey]
  · simp [hkey]

theorem Workers.Sound.remove (h : w.Sound) : (w.remove key).Sound := by
  intro key' id' hlookup
  obtain ⟨hne, hmem⟩ := Workers.mem_keys_remove
    (AList.mem_keys.mp (AList.lookup_isSome.mp (by rw [hlookup]; rfl)))
  obtain ⟨e, he⟩ := h.entry hmem
  have hentry : Workers.entry? (w.remove key) key' = some e := by
    rw [Workers.entry?_remove, if_neg hne, he]
  rw [Workers.entry?, hlookup, Option.bind_some] at hentry
  exact ⟨e, hentry⟩

theorem Workers.removeAll_lock (l : Option Lock) :
    ({ w with lock := l }).removeAll keys = { w.removeAll keys with lock := l } := by
  induction keys generalizing w with
  | nil => rfl
  | cons key keys ih =>
      show ((({ w with lock := l }).remove key)).removeAll keys = _
      rw [Workers.remove_lock, ih]
      rfl

theorem Workers.entry?_removeAll :
    Workers.entry? (w.removeAll keys) key' = if key' ∈ keys then none else w.entry? key' := by
  induction keys generalizing w with
  | nil => simp [Workers.removeAll]
  | cons key keys ih =>
      show Workers.entry? ((w.remove key).removeAll keys) key' = _
      rw [ih, Workers.entry?_remove]
      by_cases hkey : key' = key <;> by_cases hkeys : key' ∈ keys <;> simp [hkey, hkeys]

theorem Workers.Sound.removeAll (h : w.Sound) : (w.removeAll keys).Sound := by
  induction keys generalizing w with
  | nil => exact h
  | cons key keys ih => exact ih h.remove

theorem Workers.now_removeAll : (w.removeAll keys).now = w.now := by
  induction keys generalizing w with
  | nil => rfl
  | cons key keys ih => exact ih.trans (Workers.now_remove w key)

end Remove

/-! ## The two loops -/

/-- Only the eviction acts: nothing is submitted or answered meanwhile, and no
time passes. -/
def evictionOnly : Workers → WorkersEvent → Prop
  | _, .scan _ | _, .advance => True
  | _, _ => False

/-- What an eviction has read is so, and with what it has not read yet it is
all of the registry. -/
structure Workers.Reads (w : Workers) (todo : List Key) (seen : List Snapshot) : Prop where
  keys : (seen.map Snapshot.key ++ todo).Perm w.entries.keys
  accurate : ∀ s ∈ seen, ∃ e, w.entry? s.key = some e ∧ s = ⟨s.key, e.is_pinned, w.idle_for e⟩

theorem Workers.Reads.start (w : Workers) : w.Reads w.entries.keys [] := ⟨List.Perm.refl _, nofun⟩

theorem Workers.Reads.lock {w : Workers} {todo : List Key} {seen : List Snapshot}
    (h : w.Reads todo seen) (l : Option Lock) : ({ w with lock := l }).Reads todo seen :=
  ⟨h.keys, h.accurate⟩

/-- The stages that collect what they read. -/
def Stage.collects : Stage → Bool
  | .budgetScan _ | .expiredScan _ _ | .warmScan _ => true
  | _ => false

section Loops

variable {translate : ModelSpec → Option ModelSpec → Bool → List String → List Translation}
  {w : Workers} {op : Evicting} {P : Workers → Prop}

theorem Workers.scan_eq_some {key : Key} {e : PairEntry} (hlock : w.lock = some (.evicting op))
    (hstage : op.stage.collects = true) (hkey : key ∈ op.todo) (hvictims : op.victims = [])
    (he : w.entry? key = some e) : w.scan key = some { w with lock := some (.evicting
      { op with
        todo := op.todo.erase key
        seen := op.seen ++ [⟨key, e.is_pinned, w.idle_for e⟩] }) } := by
  obtain ⟨id, hid, he⟩ := Option.bind_eq_some_iff.mp he
  unfold Workers.scan
  rw [hlock]
  dsimp only
  rw [if_pos ⟨hkey, hvictims⟩, hid, Option.bind_some, he]
  obtain ⟨stage, todo, seen, victims, ret⟩ := op
  cases stage <;> first | (cases hstage; done) | rfl

theorem Workers.scan_enabled {w' : Workers} {key : Key} (h : w.scan key = some w')
    (hlock : w.lock = some (.evicting op)) :
    key ∈ op.todo ∧ op.victims = [] ∧ ∃ entry, w.entry? key = some entry := by
  unfold Workers.scan at h
  rw [hlock] at h
  dsimp only at h
  split at h
  · rename_i hread
    split at h
    · cases h
    · exact ⟨hread.1, hread.2, _, ‹_›⟩
  · cases h

/-- Entries are read only while there are some to read. -/
theorem Workers.scan_eq_none {key : Key} (hlock : w.lock = some (.evicting op))
    (h : key ∈ op.todo → op.victims ≠ []) : w.scan key = none := by
  unfold Workers.scan
  rw [hlock]
  exact if_neg fun hboth => h hboth.1 hboth.2

/-- When nothing is to be read, the eviction goes on by itself. -/
theorem inevitable_of_advance {w' : Workers} (hlock : w.lock = some (.evicting op))
    (hread : op.todo = [] ∨ op.victims ≠ []) (hadvance : w.advance = some w')
    (h : Inevitable (Workers.step translate) evictionOnly P w') :
    Inevitable (Workers.step translate) evictionOnly P w := by
  refine .next ⟨.advance, w', trivial, hadvance⟩ fun e s' hok hs => ?_
  cases e with
  | advance =>
      obtain rfl := Option.some.inj (hadvance.symm.trans hs)
      exact h
  | scan key =>
      have hnone := @Workers.scan_eq_none _ _ key hlock fun hkey => by
        rcases hread with htodo | hvictims
        · rw [htodo] at hkey
          cases hkey
        · exact hvictims
      cases hnone.symm.trans hs
  | _ => exact hok.elim

/-- The scan comes to an end, with all entries read. -/
theorem scan_all (hsound : w.Sound) (hlock : w.lock = some (.evicting op))
    (hstage : op.stage.collects = true) (hvictims : op.victims = [])
    (hreads : w.Reads op.todo op.seen) (h : ∀ seen, w.Reads [] seen →
      Inevitable (Workers.step translate) evictionOnly P
        { w with lock := some (.evicting { op with todo := [], seen := seen }) }) :
    Inevitable (Workers.step translate) evictionOnly P w := by
  generalize hn : op.todo.length = n
  induction n generalizing w op with
  | zero =>
      have htodo := List.length_eq_zero_iff.mp hn
      have hself : w = { w with lock := some (.evicting { op with todo := [], seen := op.seen }) } := by
        rw [← htodo, ← hlock]
      rw [hself]
      exact h op.seen (htodo ▸ hreads)
  | succ n ih =>
      have hentry : ∀ key ∈ op.todo, ∃ e, w.entry? key = some e := fun key hkey =>
        hsound.entry (hreads.keys.subset (List.mem_append_right _ hkey))
      have hstep : ∀ key s', key ∈ op.todo → w.scan key = some s' →
          Inevitable (Workers.step translate) evictionOnly P s' := by
        intro key s' hkey hs
        obtain ⟨e, he⟩ := hentry key hkey
        rw [Workers.scan_eq_some hlock hstage hkey hvictims he] at hs
        obtain rfl := Option.some.inj hs
        have hlength : (op.todo.erase key).length = n := by
          rw [List.length_erase_of_mem hkey, hn]
          rfl
        have hreads' : w.Reads (op.todo.erase key)
            (op.seen ++ [⟨key, e.is_pinned, w.idle_for e⟩]) := by
          refine ⟨?_, fun s hs => ?_⟩
          · rw [List.map_append, List.append_assoc]
            exact ((List.perm_cons_erase hkey).symm.append_left _).trans hreads.keys
          · rcases List.mem_append.mp hs with hs | hs
            · exact hreads.accurate s hs
            · rw [List.mem_singleton.mp hs]
              exact ⟨e, he, rfl⟩
        exact ih hsound rfl hstage hvictims (hreads'.lock _)
          (fun seen hseen => h seen (hseen.lock w.lock)) hlength
      have hne : op.todo ≠ [] := List.ne_nil_of_length_eq_add_one hn
      obtain ⟨key, hkey⟩ := List.exists_mem_of_ne_nil _ hne
      obtain ⟨e, he⟩ := hentry key hkey
      refine .next ⟨.scan key, _, trivial, Workers.scan_eq_some hlock hstage hkey hvictims he⟩
        fun e s' hok hs => ?_
      cases e with
      | scan key' =>
          by_cases hkey' : key' ∈ op.todo
          · exact hstep key' s' hkey' hs
          · cases (Workers.scan_eq_none hlock fun hmem => absurd hmem hkey').symm.trans hs
      | advance =>
          -- the stage is over only when all is read
          have hnone : w.advance = none := by
            unfold Workers.advance
            rw [hlock]
            dsimp only
            rw [hvictims]
            cases htodo : op.todo with
            | nil => exact absurd htodo hne
            | cons key' rest => rfl
          cases hnone.symm.trans hs
      | _ => exact hok.elim

/-- The victims are removed, one after the other. -/
theorem remove_all (hlock : w.lock = some (.evicting op)) (htodo : op.todo = [])
    (h : Inevitable (Workers.step translate) evictionOnly P { w.removeAll op.victims with
      lock := some (.evicting { op with victims := [] }) }) :
    Inevitable (Workers.step translate) evictionOnly P w := by
  obtain ⟨stage, todo, seen, victims, ret⟩ := op
  cases htodo
  induction victims generalizing w with
  | nil =>
      have hself : w = { w with lock := some (.evicting ⟨stage, [], seen, [], ret⟩) } := by
        rw [← hlock]
      rw [hself]
      exact h
  | cons key rest ih =>
      have hadvance : w.advance = some { w.remove key with
          lock := some (.evicting ⟨stage, [], seen, rest, ret⟩) } := by
        unfold Workers.advance
        rw [hlock]
      refine inevitable_of_advance hlock (Or.inl rfl) hadvance (ih rfl ?_)
      rw [Workers.removeAll_lock]
      exact h

end Loops

end Dragomand
