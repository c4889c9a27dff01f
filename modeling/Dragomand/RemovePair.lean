import Dragomand.Daemon
import Dragomand.InstalledCopy
import Dragomand.LoadedFrom

/-!
# Removing a pair

`RemovePair` unloads the routes of a pair and deletes its copies in the user
store, next to everything else the daemon does. The routes are unloaded
under the lock of the registry, the copies deleted under the lock of the
store, and between the two `ensure_loaded` may load the pair again. The
store can change at any time, also by programs that take no lock.

`unload_pair` knows a pair as two tags and the store as one name, so another
split of the name is another pair for one of them only.
-/

namespace Dragomand

open InstallCall (plant oldManifest oldHost)
open FileTree (IoError Node plainName)

def StoreError.to_string (host : ModelHost) : StoreError → String
  | .io path source => "I/O error at " ++ path ++ ": " ++ host.display source
  | .verify message => message
  | .notInstalled model => "model not installed: " ++ model

/-- `remove_dir` of a path; failures are ignored. -/
def prune (t : FileTree Bytes) (path : PathBuf) : FileTree Bytes :=
  match t.walk [] path with
  | .error _ => t
  | .ok dir => if t.isDir dir then (t.remove dir).toOption.getD t else t

structure RemovePair where
  host : Host
  models : ModelHost
  stores : Stores
  source : String
  target : String

/-! ## States -/

inductive Removal.Pc where
  | called
  /-- `unload_pair` waits for the lock of the registry -/
  | unloading
  | retaining
  /-- `create_dir_all` of the user store -/
  | creatingUser
  /-- `File::create` of the lock file -/
  | opening
  | locking
  | scanning
  /-- `remove_dir_all` of the first of the models -/
  | removing (models : List InstalledModel)
  /-- `remove_dir` of the pair directory of a model; `rest` is to be removed -/
  | pruning (model : InstalledModel) (rest : List InstalledModel)
  | returned (result : Except Error Unit)
deriving DecidableEq, Repr

/-- The routes are unloaded, the store is not scanned yet. -/
def Removal.Pc.beforeScan : Removal.Pc → Bool
  | .creatingUser | .opening | .locking | .scanning => true
  | _ => false

/-- The routes are unloaded, the call has not returned. -/
def Removal.Pc.unloaded : Removal.Pc → Bool
  | .removing _ | .pruning _ _ => true
  | pc => pc.beforeScan

/-- The models that are not removed yet. -/
def Removal.Pc.toRemove : Removal.Pc → List InstalledModel
  | .removing models => models
  | .pruning _ rest => rest
  | _ => []

/-- `held` has the directories with a copy of the pair at any time from
`unload_pair` to the scan, `deleted` those that the call has deleted. -/
structure Removal where
  loads : Loads
  tree : FileTree Bytes
  pc : Removal.Pc
  held : PathBuf → Bool
  deleted : List PathBuf

def Removal.init (tree : FileTree Bytes) : Removal := ⟨.init, tree, .called, fun _ => false, []⟩

/-- When the call has returned `Ok`, no registered route was loaded, as a
direct model or as a leg, from a directory that the call deleted. -/
def Removal.NoneDeleted (s : Removal) : Prop :=
  s.pc = .returned (.ok ()) → ∀ key id entry,
    s.loads.workers.entries.lookup key = some id → s.loads.workers.heap[id]? = some entry →
    LoadedFrom (s.loads.sources id) entry.key entry.pivot entry.first entry.second
      ∧ ∀ m ∈ s.loads.sources id, m.directory ∉ s.deleted

inductive RemovalEvent where
  /-- of the registry: the other calls, and the entries of `unload_pair` -/
  | workers (e : WorkersEvent)
  /-- anybody else changes the store -/
  | store (tree : FileTree Bytes)
  | proceed
  | fail (source : IoError)
  | unlink (path : List String)

/-! ## Steps -/

namespace RemovePair

variable (call : RemovePair)

def pair : String := call.source ++ "-" ++ call.target

def lock_path : PathBuf := PathBuf.join call.stores.user ".lock"

/-- What the call is to remove. -/
def removed (t : FileTree Bytes) : List InstalledModel :=
  (call.stores.scan call.models t).1.filter fun m => m.pair = call.pair && m.origin = .user

/-- A directory of the user store with a manifest of the pair. -/
def holds (t : FileTree Bytes) (dir : PathBuf) : Bool :=
  call.stores.user.isPrefixOf dir && dir.all plainName
    && (Manifest.load call.models t dir).toOption.any fun m =>
      m.source ++ "-" ++ m.target = call.pair

/-- `unload_pair` keeps the route. -/
def keeps (e : PairEntry) : Bool := !e.touches call.source call.target

/-- What a failed system call makes of the removal; the pair directory may
stay. -/
def failure (source : IoError) : Removal.Pc → Option Removal.Pc
  | .creatingUser => some (.returned (.error (.engineFailure
      ((StoreError.io call.stores.user.display source).to_string call.models))))
  | .opening | .locking => some (.returned (.error (.engineFailure
      ((StoreError.io call.lock_path.display source).to_string call.models))))
  | .removing (m :: _) => some (.returned (.error (.engineFailure
      ((StoreError.io m.directory.display source).to_string call.models))))
  | .pruning _ rest => some (.removing rest)
  | _ => none

def proceed (s : Removal) : Option Removal :=
  match s.pc with
  | .called =>
      match check_langs call.host call.source call.target with
      | .error e => some { s with pc := .returned (.error e) }
      | .ok _ => some { s with pc := .unloading }
  | .unloading =>
      (s.loads.step call.host.translate (.evict (.unloadScan call.source call.target))).map
        fun loads => { s with loads := loads, pc := .retaining, held := call.holds s.tree }
  | .creatingUser =>
      match s.tree.missing [] call.stores.user with
      | .error _ => none
      | .ok none => some { s with pc := .opening }
      | .ok (some p) => (s.tree.mkdir p).toOption.map fun t => { s with tree := t }
  | .opening =>
      (InstallCall.put s.tree call.lock_path []).map fun t => { s with tree := t, pc := .locking }
  | .locking => some { s with pc := .scanning }
  | .scanning =>
      match call.removed s.tree with
      | [] => some { s with pc := .returned (.error (.notInstalled call.pair)) }
      | models => some { s with pc := .removing models }
  | .removing [] => some { s with pc := .returned (.ok ()) }
  | .removing (m :: _) =>
      if m.origin = .user then none
      else some { s with pc := .returned (.error (.engineFailure ((StoreError.verify
        (m.directory.display ++ " is in a read-only system store")).to_string call.models))) }
  | .pruning m rest =>
      some { s with tree := prune s.tree m.directory.dropLast, pc := .removing rest }
  | .retaining | .returned _ => none

/-- `remove_dir_all` removes one entry at a time. -/
def unlink (s : Removal) (p : List String) : Option Removal :=
  match s.pc with
  | .removing (m :: rest) =>
      match s.tree.walk [] m.directory with
      | .error _ => none
      | .ok dir =>
          if m.origin = .user && s.tree.isDir dir && decide (dir <:+ p) then
            (s.tree.remove p).toOption.map fun t =>
              if p = dir then
                { s with tree := t, pc := .pruning m rest, deleted := m.directory :: s.deleted }
              else { s with tree := t }
          else none
  | _ => none

/-- `unload_pair` is over when the registry is free again. -/
def after (pc : Removal.Pc) (loads : Loads) : Removal.Pc :=
  match pc, loads.workers.lock with
  | .retaining, none => .creatingUser
  | pc, _ => pc

def step (s : Removal) (e : RemovalEvent) : Option Removal :=
  match s.pc, e with
  | .returned _, _ => none
  | pc, .workers e => (s.loads.step call.host.translate e).map fun loads =>
      { s with loads := loads, pc := after pc loads }
  | pc, .store t => some { s with
      tree := t
      held := if pc = .retaining || pc.beforeScan then fun dir => s.held dir || call.holds t dir
        else s.held }
  | pc, .fail source => (call.failure source pc).map fun pc => { s with pc := pc }
  | _, .proceed => call.proceed s
  | _, .unlink p => unlink s p

/-- The removal and the loads keep apart: `unload_pair` keeps no route that
uses a directory of the pair, no load after it uses one, and no directory in
use becomes one. -/
def Apart (s : Removal) : RemovalEvent → Prop
  | .proceed => s.pc = .unloading →
      ∀ m ∈ s.loads.registered call.keeps, call.holds s.tree m.directory = false
  | .store t =>
      (s.pc = .retaining →
        ∀ m ∈ s.loads.registered call.keeps, call.holds t m.directory = false)
      ∧ (s.pc.beforeScan = true → ∀ m ∈ s.loads.used, call.holds t m.directory = false)
  | .workers e =>
      s.pc.unloaded = true → ∀ m ∈ s.loads.workers.loads e, s.held m.directory = false
  | _ => True

instance (s : Removal) (e : RemovalEvent) : Decidable (call.Apart s e) := by
  cases e <;> unfold Apart <;> infer_instance

/-! ## What one step can do -/

inductive Transition (s : Removal) : RemovalEvent → Removal → Prop
  | workers {e : WorkersEvent} {loads : Loads} (hpc : ∀ result, s.pc ≠ .returned result)
      (hl : s.loads.step call.host.translate e = some loads) :
      Transition s (.workers e) { s with loads := loads, pc := after s.pc loads }
  | store {t : FileTree Bytes} : Transition s (.store t) { s with
      tree := t
      held := if s.pc = .retaining || s.pc.beforeScan
        then fun dir => s.held dir || call.holds t dir else s.held }
  | checked (hpc : s.pc = .called) : Transition s .proceed { s with pc := .unloading }
  | unload {loads : Loads} (hpc : s.pc = .unloading)
      (hl : s.loads.step call.host.translate
        (.evict (.unloadScan call.source call.target)) = some loads) :
      Transition s .proceed
        { s with loads := loads, pc := .retaining, held := call.holds s.tree }
  | makeUser {p : List String} {t : FileTree Bytes} (hpc : s.pc = .creatingUser)
      (ht : s.tree.mkdir p = .ok t) : Transition s .proceed { s with tree := t }
  | userMade (hpc : s.pc = .creatingUser) : Transition s .proceed { s with pc := .opening }
  | lockFile {p : List String} {t : FileTree Bytes} (hpc : s.pc = .opening)
      (hwalk : s.tree.walk [] call.lock_path = .ok p) (ht : s.tree.put [] p = .ok t) :
      Transition s .proceed { s with tree := t, pc := .locking }
  | locked (hpc : s.pc = .locking) : Transition s .proceed { s with pc := .scanning }
  | scanned (hpc : s.pc = .scanning) :
      Transition s .proceed { s with pc := .removing (call.removed s.tree) }
  | unlinked {m : InstalledModel} {rest : List InstalledModel} {p : List String}
      {t : FileTree Bytes} (hpc : s.pc = .removing (m :: rest)) :
      Transition s (.unlink p) { s with tree := t }
  | removed {m : InstalledModel} {rest : List InstalledModel} {p : List String}
      {t : FileTree Bytes} (hpc : s.pc = .removing (m :: rest)) : Transition s (.unlink p)
        { s with tree := t, pc := .pruning m rest, deleted := m.directory :: s.deleted }
  | pruned {e : RemovalEvent} {m : InstalledModel} {rest : List InstalledModel}
      {t : FileTree Bytes} (hpc : s.pc = .pruning m rest) :
      Transition s e { s with tree := t, pc := .removing rest }
  | finished (hpc : s.pc = .removing []) :
      Transition s .proceed { s with pc := .returned (.ok ()) }
  | failed {e : RemovalEvent} {error : Error} :
      Transition s e { s with pc := .returned (.error error) }

variable {call} {s s' : Removal} {e : RemovalEvent}

theorem proceed_cases (h : call.proceed s = some s') : call.Transition s .proceed s' := by
  unfold proceed at h
  split at h
  · rename_i hpc
    split at h <;> cases h
    · exact .failed
    · exact .checked hpc
  · rename_i hpc
    obtain ⟨loads, hl, rfl⟩ := Option.map_eq_some_iff.mp h
    exact .unload hpc hl
  · rename_i hpc
    split at h
    · cases h
    · cases h
      exact .userMade hpc
    · obtain ⟨t, ht, rfl⟩ := Option.map_eq_some_iff.mp h
      exact .makeUser hpc (InstallCall.toOption_eq_some ht)
  · rename_i hpc
    obtain ⟨t, ht, rfl⟩ := Option.map_eq_some_iff.mp h
    obtain ⟨p, hwalk, ht⟩ := InstallCall.put_eq_some ht
    exact .lockFile hpc hwalk ht
  · rename_i hpc
    cases h
    exact .locked hpc
  · rename_i hpc
    split at h
    · cases h
      exact .failed
    · rename_i models hmodels
      cases h
      exact .scanned hpc
  · rename_i hpc
    cases h
    exact .finished hpc
  · split at h <;> cases h
    exact .failed
  · rename_i hpc
    cases h
    exact .pruned hpc
  · cases h
  · cases h

theorem unlink_cases {p : List String} (h : unlink s p = some s') :
    call.Transition s (.unlink p) s' := by
  unfold unlink at h
  split at h
  · rename_i m rest hpc
    split at h
    · cases h
    · split at h
      · obtain ⟨t, -, rfl⟩ := Option.map_eq_some_iff.mp h
        split
        · exact .removed hpc
        · exact .unlinked hpc
      · cases h
  · cases h

theorem step_cases (h : call.step s e = some s') : call.Transition s e s' := by
  unfold step at h
  split at h
  · cases h
  · rename_i hpc
    obtain ⟨loads, hl, rfl⟩ := Option.map_eq_some_iff.mp h
    exact .workers hpc hl
  · cases h
    exact .store
  · obtain ⟨pc, hpc, rfl⟩ := Option.map_eq_some_iff.mp h
    unfold failure at hpc
    split at hpc <;> cases hpc
    · exact .failed
    · exact .failed
    · exact .failed
    · exact .failed
    · rename_i hpc
      exact .pruned hpc
  · exact proceed_cases h
  · exact unlink_cases h

/-! ## Directories of the pair -/

section Holds

variable {t t' : FileTree Bytes} {dir : PathBuf}

theorem holds_iff : call.holds t dir = true ↔ call.stores.user <+: dir
    ∧ (∀ name ∈ dir, plainName name = true) ∧ ∃ bytes m,
      t.node (MANIFEST_FILE :: dir.reverse) = some (.file bytes)
        ∧ call.models.from_slice bytes = .ok m ∧ m.schema = SCHEMA_VERSION
        ∧ m.source ++ "-" ++ m.target = call.pair := by
  unfold holds
  rw [Bool.and_eq_true, Bool.and_eq_true, List.isPrefixOf_iff_prefix, List.all_eq_true, and_assoc]
  refine and_congr_right fun _ => and_congr_right fun hplain => ?_
  have hmanifest : plainName MANIFEST_FILE = true := by decide
  have hread : ∀ bytes, t.read (dir.join MANIFEST_FILE) = .ok bytes
      ↔ t.node (MANIFEST_FILE :: dir.reverse) = some (.file bytes) := by
    intro bytes
    rw [join_plain hmanifest, FileTree.read_plain_iff, List.reverse_append]
    · rfl
    · exact FileTree.plain_snoc hplain hmanifest
  rw [Option.any_eq_true]
  constructor
  · rintro ⟨m, hload, hpair⟩
    obtain ⟨bytes, hbytes, hjson, hschema⟩ :=
      Manifest.load_eq_ok.mp (InstallCall.toOption_eq_some hload)
    exact ⟨bytes, m, (hread bytes).mp hbytes, hjson, hschema, of_decide_eq_true hpair⟩
  · rintro ⟨bytes, m, hnode, hjson, hschema, hpair⟩
    have hload := Manifest.load_eq_ok.mpr ⟨bytes, (hread bytes).mpr hnode, hjson, hschema⟩
    exact ⟨m, by rw [hload]; rfl, decide_eq_true hpair⟩

/-- `lock_user` makes no directory of the pair. -/
theorem holds_of_update {p : List String} {node : Node Bytes}
    (hnode : t'.node = Function.update t.node p (some node))
    (hp : ∀ bytes, node = .file bytes → p.head? ≠ some MANIFEST_FILE)
    (h : call.holds t' dir = true) : call.holds t dir = true := by
  obtain ⟨huser, hplain, bytes, m, hfile, hrest⟩ := holds_iff.mp h
  refine holds_iff.mpr ⟨huser, hplain, bytes, m, ?_, hrest⟩
  rw [hnode] at hfile
  by_cases heq : MANIFEST_FILE :: dir.reverse = p
  · rw [heq, Function.update_self] at hfile
    refine absurd ?_ (hp bytes (Option.some.inj hfile))
    rw [← heq]
    rfl
  · rwa [Function.update_of_ne heq] at hfile

/-- What the call removes is in such directories. -/
theorem holds_of_removed {m : InstalledModel} (h : m ∈ call.removed t) :
    call.holds t m.directory = true := by
  obtain ⟨hscan, hm⟩ := List.mem_filter.mp h
  obtain ⟨hpair, horigin⟩ := Bool.and_eq_true_iff.mp hm
  obtain ⟨hscanned, hdir⟩ := Stores.mem_scan.mp hscan
  obtain ⟨-, -, hload, -⟩ := scan_model_dir_eq_ok.mp hdir
  unfold holds
  rw [Bool.and_eq_true, Bool.and_eq_true, List.isPrefixOf_iff_prefix, List.all_eq_true, hload]
  refine ⟨⟨?_, hscanned.plain⟩, hpair⟩
  obtain ⟨root, provider, pair, version, hroot, heq, -⟩ := hscanned.place
  rw [of_decide_eq_true horigin] at hroot
  rcases List.mem_cons.mp hroot with huser | hsystem
  · rw [heq, (Prod.mk.inj huser).2]
    exact List.prefix_append ..
  · obtain ⟨_, -, hsystem⟩ := List.mem_map.mp hsystem
    cases hsystem

end Holds

/-! ## Unloading -/

/-- `unload_pair` has the lock, and the routes that it does not keep are
among those that it will still look at or is about to remove. -/
def Unloading (call : RemovePair) (w : Workers) : Prop :=
  ∃ todo victims, w.lock
      = some (.evicting ⟨.unloadScan call.source call.target, todo, [], victims, none⟩)
    ∧ ∀ key id entry, w.entries.lookup key = some id → w.heap[id]? = some entry →
      call.keeps entry = false → key ∈ todo ∨ key ∈ victims

/-- Only routes that `unload_pair` keeps are registered. -/
def Unloaded (call : RemovePair) (w : Workers) : Prop :=
  w.lock = none ∧ ∀ key id entry, w.entries.lookup key = some id → w.heap[id]? = some entry →
    call.keeps entry = true

section Unloading

variable {translate : ModelSpec → Option ModelSpec → Bool → List String → List Translation}
  {w w' : Workers} {e : WorkersEvent}

theorem keeps_congr {entry entry' : PairEntry} (hkey : entry'.key = entry.key)
    (hpivot : entry'.pivot = entry.pivot) : call.keeps entry' = call.keeps entry := by
  obtain ⟨hsource, htarget⟩ := Prod.mk.inj hkey
  unfold keeps PairEntry.touches
  rw [hsource, htarget, hpivot]

/-- `unload_pair` matches every route with the pair as a leg. -/
theorem keeps_of_leg {entry : PairEntry}
    (h : (call.source, call.target) ∈ legs entry.key entry.pivot) : call.keeps entry = false := by
  unfold keeps PairEntry.touches
  unfold legs PairEntry.key at h
  cases hpivot : entry.pivot with
  | none =>
      rw [hpivot] at h
      obtain ⟨hsource, htarget⟩ := Prod.mk.inj (List.mem_singleton.mp h)
      simp [hsource, htarget]
  | some pivot =>
      rw [hpivot] at h
      rcases List.mem_cons.mp h with hfirst | hsecond
      · simp [(Prod.mk.inj hfirst).1]
      · simp [(Prod.mk.inj (List.mem_singleton.mp hsecond)).2]

theorem unloading_start (h : w.step translate (.evict (.unloadScan call.source call.target))
    = some w') : w.lock = none ∧ call.Unloading w' := by
  simp only [Workers.step, Workers.evict] at h
  split at h
  · cases h
  rename_i hfree
  cases h
  refine ⟨by simpa [Stage.initial] using hfree, ?_⟩
  refine ⟨_, _, rfl, fun key id entry hlookup _ _ => Or.inl ?_⟩
  exact AList.mem_keys.mp (AList.lookup_isSome.mp (by rw [hlookup]; rfl))

/-- While `unload_pair` runs, nobody else gets the lock. -/
theorem unloading_step (h : w.step translate e = some w') (hf : LoadingFree w)
    (hu : call.Unloading w) : call.Unloading w' ∨ call.Unloaded w' := by
  obtain ⟨todo, victims, hlock, hleft⟩ := hu
  -- a route of the registry was there before
  have hbefore : ∀ {key id entry'}, w'.entries.lookup key = some id →
      w'.heap[id]? = some entry' → call.keeps entry' = false →
      w.entries.lookup key = some id ∧ (key ∈ todo ∨ key ∈ victims) := by
    intro key id entry' hlookup' hentry' hkeeps
    rcases Workers.heap_cases h hentry' with
      ⟨entry, hentry, hev⟩ | ⟨-, _, _, _, _, _, _, _, hloading, -⟩
    · obtain ⟨hkey, hpivot, -⟩ := hev.route
      rw [keeps_congr hkey hpivot] at hkeeps
      rcases (Workers.effect_of_step h hf).lookup hlookup' with hlookup | ⟨_, -, rfl, -⟩
      · exact ⟨hlookup, hleft key id entry hlookup hentry hkeeps⟩
      · exact absurd (List.getElem?_eq_some_iff.mp hentry).1 (lt_irrefl _)
    · cases hlock.symm.trans hloading
  -- the lock stays as it is
  have hsame : w'.lock = w.lock → call.Unloading w' := fun hlock' =>
    ⟨todo, victims, hlock'.trans hlock, fun _ _ _ hlookup' hentry' hkeeps =>
      (hbefore hlookup' hentry' hkeeps).2⟩
  cases e with
  | ensure caller source target allow_pivot budget_mb plan specs =>
      obtain ⟨⟨w'', r⟩, hr, rfl⟩ := Option.map_eq_some_iff.mp h
      cases hlock.symm.trans (Workers.ensure_loaded_cases hr).1
  | loaded result =>
      cases result <;> simp only [Workers.step, Workers.loaded, hlock] at h <;> cases h
  | abort caller =>
      simp only [Workers.step, Workers.abort, hlock] at h
      cases h
  | evict stage =>
      simp only [Workers.step, Workers.evict, hlock] at h
      cases h
  | submit | stamp | dropArc | scheduler | cancel | tick =>
      exact Or.inl (hsame (Workers.unlocked_step h rfl).2)
  | scan key =>
      have h' := h
      simp only [Workers.step, Workers.scan, hlock] at h'
      split at h'
      · rename_i hread
        split at h'
        · cases h'
        · rename_i entry hentry
          obtain ⟨id, hlookup, hfound⟩ := Option.bind_eq_some_iff.mp hentry
          cases h'
          refine Or.inl ?_
          split
          · refine ⟨_, _, rfl, fun key' id' entry' hlookup' hentry' hkeeps => ?_⟩
            by_cases hkey : key' = key
            · exact Or.inr (List.mem_singleton.mpr hkey)
            · rcases (hbefore hlookup' hentry' hkeeps).2 with htodo | hvictim
              · exact Or.inl ((List.mem_erase_of_ne hkey).mpr htodo)
              · rw [hread.2] at hvictim
                cases hvictim
          · rename_i htouches
            refine ⟨_, _, rfl, fun key' id' entry' hlookup' hentry' hkeeps => ?_⟩
            by_cases hkey : key' = key
            · subst hkey
              obtain rfl := Option.some.inj (hlookup.symm.trans hlookup')
              obtain rfl := Option.some.inj (hfound.symm.trans hentry')
              simp [keeps, htouches] at hkeeps
            · rcases (hbefore hlookup' hentry' hkeeps).2 with htodo | hvictim
              · exact Or.inl ((List.mem_erase_of_ne hkey).mpr htodo)
              · exact Or.inr hvictim
      · cases h'
  | advance =>
      have h' := h
      simp only [Workers.step, Workers.advance, hlock] at h'
      cases victims with
      | cons key rest =>
          cases h'
          refine Or.inl ⟨todo, rest, rfl, fun key' id' entry' hlookup' hentry' hkeeps => ?_⟩
          rcases (hbefore hlookup' hentry' hkeeps).2 with htodo | hvictim
          · exact Or.inl htodo
          · refine Or.inr ((List.mem_cons.mp hvictim).resolve_left ?_)
            rintro rfl
            cases (Workers.lookup_remove w key').symm.trans hlookup'
      | nil =>
          cases todo with
          | cons key todo => cases h'
          | nil =>
              cases h'
              refine Or.inr ⟨rfl, fun key id entry hlookup' hentry' => ?_⟩
              by_contra hkeeps
              rcases (hbefore hlookup' hentry' (Bool.not_eq_true _ ▸ hkeeps)).2 with hin | hin
              · cases hin
              · cases hin

end Unloading

/-! ## The invariant -/

/-- From `unload_pair` on, what is held is not in use, and nothing else is
deleted. -/
structure Safe (call : RemovePair) (s : Removal) : Prop where
  routed : Routed s.loads.workers
  right : s.loads.Right
  fresh : s.pc = .called ∨ s.pc = .unloading → s.deleted = []
  retaining : s.pc = .retaining → call.Unloading s.loads.workers
    ∧ ∀ m ∈ s.loads.registered call.keeps, s.held m.directory = false
  held : s.pc = .retaining ∨ s.pc.beforeScan = true →
    ∀ dir, call.holds s.tree dir = true → s.held dir = true
  used : s.pc.unloaded = true ∨ s.pc = .returned (.ok ()) →
    ∀ m ∈ s.loads.used, s.held m.directory = false
  toRemove : ∀ m ∈ s.pc.toRemove, s.held m.directory = true
  deleted : ∀ dir ∈ s.deleted, s.held dir = true

theorem safe_init (tree : FileTree Bytes) : call.Safe (Removal.init tree) where
  routed := routed_init
  right := Loads.right_init
  fresh _ := rfl
  retaining := nofun
  held := by rintro (h | h) <;> cases h
  used := by rintro (h | h) <;> cases h
  toRemove := nofun
  deleted := nofun

theorem after_of_ne {pc : Removal.Pc} {loads : Loads} (h : pc ≠ .retaining) :
    after pc loads = pc := by
  unfold after
  split
  · exact absurd rfl h
  · rfl

theorem safe_workers {e : WorkersEvent} {loads : Loads} (hpc : ∀ result, s.pc ≠ .returned result)
    (hl : s.loads.step call.host.translate e = some loads) (hok : call.Apart s (.workers e))
    (hs : call.Safe s) : call.Safe { s with loads := loads, pc := after s.pc loads } := by
  have hstep := Loads.workers_step hl
  have hrouted := routed_step hstep hs.routed
  have hright := Loads.right_step hl hs.right
  by_cases hretaining : s.pc = .retaining
  · obtain ⟨hunloading, hclear⟩ := hs.retaining hretaining
    have hkept : ∀ m ∈ loads.registered call.keeps, s.held m.directory = false := by
      intro m hm
      rcases Loads.registered_of_step hl hs.routed.free (fun _ _ => keeps_congr) hm with
        hold | ⟨-, _, _, _, _, _, _, hloading⟩
      · exact hclear m hold
      · obtain ⟨_, _, hlock, -⟩ := hunloading
        cases hlock.symm.trans hloading
    have hdeleted := hs.deleted
    rcases unloading_step hstep hs.routed.free hunloading with hunloading' | ⟨hlock', hall⟩
    · have hafter : after s.pc loads = .retaining := by
        obtain ⟨_, _, hlock', -⟩ := hunloading'
        simp only [after, hretaining, hlock']
      rw [hafter]
      exact {
        routed := hrouted
        right := hright
        fresh := by rintro (h | h) <;> cases h
        retaining := fun _ => ⟨hunloading', hkept⟩
        held := fun _ => hs.held (Or.inl hretaining)
        used := by rintro (h | h) <;> cases h
        toRemove := nofun
        deleted := hdeleted }
    · have hafter : after s.pc loads = .creatingUser := by
        simp only [after, hretaining, hlock']
      rw [hafter]
      exact {
        routed := hrouted
        right := hright
        fresh := by rintro (h | h) <;> cases h
        retaining := nofun
        held := fun _ => hs.held (Or.inl hretaining)
        used := by
          intro _ m hm
          rcases Loads.mem_used.mp hm with ⟨-, _, _, _, _, _, _, hloading⟩ | hregistered
          · cases hlock'.symm.trans hloading
          · obtain ⟨key, id, entry, hlookup, hentry, -, hm⟩ := Loads.mem_registered.mp hregistered
            exact hkept m (Loads.mem_registered.mpr
              ⟨key, id, entry, hlookup, hentry, hall key id entry hlookup hentry, hm⟩)
        toRemove := nofun
        deleted := hdeleted }
  · rw [after_of_ne hretaining]
    exact {
      routed := hrouted
      right := hright
      fresh := hs.fresh
      retaining := fun h => absurd h hretaining
      held := hs.held
      used := by
        intro h m hm
        have hunloaded : s.pc.unloaded = true := h.resolve_right (hpc _)
        rcases Loads.used_of_step hl hs.routed.free hm with hused | hloads
        · exact hs.used h m hused
        · exact hok hunloaded m hloads
      toRemove := hs.toRemove
      deleted := hs.deleted }

theorem safe_store {t : FileTree Bytes} (hok : call.Apart s (.store t)) (hs : call.Safe s) :
    call.Safe { s with
      tree := t
      held := if s.pc = .retaining || s.pc.beforeScan
        then fun dir => s.held dir || call.holds t dir else s.held } := by
  by_cases hlooks : s.pc = .retaining ∨ s.pc.beforeScan = true
  · have hif : (if s.pc = .retaining || s.pc.beforeScan then fun dir => s.held dir || call.holds t dir
        else s.held) = fun dir => s.held dir || call.holds t dir := by
      rw [if_pos]
      simpa using hlooks
    rw [hif]
    exact {
      routed := hs.routed
      right := hs.right
      fresh := hs.fresh
      retaining := fun h => by
        refine ⟨(hs.retaining h).1, fun m hm => ?_⟩
        show (_ || _) = false
        rw [(hs.retaining h).2 m hm, hok.1 h m hm]
        rfl
      held := fun _ dir hdir => by
        show (_ || _) = true
        rw [hdir, Bool.or_true]
      used := fun h m hm => by
        have hbefore : s.pc.beforeScan = true := by
          refine hlooks.resolve_left fun hretaining => ?_
          rw [hretaining] at h
          rcases h with h | h <;> cases h
        show (_ || _) = false
        rw [hs.used h m hm, hok.2 hbefore m hm]
        rfl
      toRemove := fun m hm => by
        show (_ || _) = true
        rw [hs.toRemove m hm, Bool.true_or]
      deleted := fun dir hdir => by
        show (_ || _) = true
        rw [hs.deleted dir hdir, Bool.true_or] }
  · have hif : (if s.pc = .retaining || s.pc.beforeScan then fun dir => s.held dir || call.holds t dir
        else s.held) = s.held := by
      rw [if_neg]
      simpa using hlooks
    rw [hif]
    exact { hs with
      held := fun h => absurd h hlooks }

theorem safe_unload {loads : Loads} (hpc : s.pc = .unloading)
    (hl : s.loads.step call.host.translate (.evict (.unloadScan call.source call.target))
      = some loads) (hok : call.Apart s .proceed) (hs : call.Safe s) :
    call.Safe { s with loads := loads, pc := .retaining, held := call.holds s.tree } where
  routed := routed_step (Loads.workers_step hl) hs.routed
  right := Loads.right_step hl hs.right
  fresh := by rintro (h | h) <;> cases h
  retaining _ := by
    obtain ⟨hfree, hunloading⟩ := unloading_start (Loads.workers_step hl)
    refine ⟨hunloading, fun m hm => ?_⟩
    rcases Loads.registered_of_step hl hs.routed.free (fun _ _ => keeps_congr) hm with
      hold | ⟨-, _, _, _, _, _, _, hloading⟩
    · exact hok hpc m hold
    · cases hfree.symm.trans hloading
  held _ _ hdir := hdir
  used := by rintro (h | h) <;> cases h
  toRemove := nofun
  deleted := by
    rw [hs.fresh (Or.inr hpc)]
    exact nofun

theorem safe_step (ht : call.Transition s e s') (hok : call.Apart s e) (hs : call.Safe s) :
    call.Safe s' := by
  cases ht with
  | workers hpc hl => exact safe_workers hpc hl hok hs
  | store => exact safe_store hok hs
  | unload hpc hl => exact safe_unload hpc hl hok hs
  | checked hpc =>
      exact { hs with
        fresh := fun _ => hs.fresh (Or.inl hpc)
        retaining := nofun
        held := by rintro (h | h) <;> cases h
        used := by rintro (h | h) <;> cases h
        toRemove := nofun }
  | makeUser hpc ht =>
      obtain ⟨-, -, hnode⟩ := FileTree.mkdir_eq_ok ht
      exact { hs with
        held := fun h dir hdir => hs.held h dir (holds_of_update hnode nofun hdir) }
  | userMade hpc =>
      exact { hs with
        fresh := by rintro (h | h) <;> cases h
        retaining := nofun
        held := fun _ => hs.held (Or.inr (by rw [hpc]; rfl))
        used := fun _ => hs.used (Or.inl (by rw [hpc]; rfl))
        toRemove := nofun }
  | @lockFile p t hpc hwalk ht =>
      obtain ⟨-, -, hnode⟩ := FileTree.put_eq_ok ht
      have hmanifest : ∀ bytes, (Node.file [] : Node Bytes) = .file bytes →
          p.head? ≠ some MANIFEST_FILE := fun _ _ => by
        rw [walk_join (call.stores.plain _ (List.mem_cons_self ..)) (by decide) hwalk]
        show some ".lock" ≠ some MANIFEST_FILE
        decide
      exact { hs with
        fresh := by rintro (h | h) <;> cases h
        retaining := nofun
        held := fun _ dir hdir => hs.held (Or.inr (by rw [hpc]; rfl)) dir
          (holds_of_update hnode hmanifest hdir)
        used := fun _ => hs.used (Or.inl (by rw [hpc]; rfl))
        toRemove := nofun }
  | locked hpc =>
      exact { hs with
        fresh := by rintro (h | h) <;> cases h
        retaining := nofun
        held := fun _ => hs.held (Or.inr (by rw [hpc]; rfl))
        used := fun _ => hs.used (Or.inl (by rw [hpc]; rfl))
        toRemove := nofun }
  | scanned hpc =>
      exact { hs with
        fresh := by rintro (h | h) <;> cases h
        retaining := nofun
        held := by rintro (h | h) <;> cases h
        used := fun _ => hs.used (Or.inl (by rw [hpc]; rfl))
        toRemove := fun m hm => hs.held (Or.inr (by rw [hpc]; rfl)) _ (holds_of_removed hm) }
  | unlinked hpc =>
      exact { hs with
        held := by rw [hpc]; rintro (h | h) <;> cases h }
  | removed hpc =>
      have hremove := hs.toRemove
      rw [hpc] at hremove
      exact { hs with
        fresh := by rintro (h | h) <;> cases h
        retaining := nofun
        held := by rintro (h | h) <;> cases h
        used := fun _ => hs.used (Or.inl (by rw [hpc]; rfl))
        toRemove := fun m hm => hremove m (List.mem_cons_of_mem _ hm)
        deleted := by
          intro dir hdir
          rcases List.mem_cons.mp hdir with rfl | hdir
          · exact hremove _ (List.mem_cons_self ..)
          · exact hs.deleted dir hdir }
  | pruned hpc =>
      have hremove := hs.toRemove
      rw [hpc] at hremove
      exact { hs with
        fresh := by rintro (h | h) <;> cases h
        retaining := nofun
        held := by rintro (h | h) <;> cases h
        used := fun _ => hs.used (Or.inl (by rw [hpc]; rfl))
        toRemove := hremove }
  | finished hpc =>
      exact { hs with
        fresh := by rintro (h | h) <;> cases h
        retaining := nofun
        held := by rintro (h | h) <;> cases h
        used := fun _ => hs.used (Or.inl (by rw [hpc]; rfl))
        toRemove := nofun }
  | failed =>
      exact { hs with
        fresh := by rintro (h | h) <;> cases h
        retaining := nofun
        held := by rintro (h | h) <;> cases h
        used := by rintro (h | h) <;> cases h
        toRemove := nofun }

section Runs

variable {tree : FileTree Bytes}

theorem safe_of_reach (h : Machine.Reach call.step call.Apart (Removal.init tree) s) :
    call.Safe s :=
  @Machine.Reach.invariant _ _ _ _ _ _ (fun s => call.Safe s) h
    (safe_init tree) fun _ _ _ _ hok hstep hs => safe_step (step_cases hstep) hok hs

/-- `unload_pair` keeps no route of the pair when the name of no leg splits
into another pair, and directories keep their pairs. -/
theorem apart_of_split (h : Machine.Reach call.step call.Apart (Removal.init tree) s)
    (hsplit : ∀ key id entry, s.loads.workers.entries.lookup key = some id →
      s.loads.workers.heap[id]? = some entry → ∀ leg ∈ legs entry.key entry.pivot,
      leg.1 ++ "-" ++ leg.2 = call.pair → leg = (call.source, call.target))
    (hplace : ∀ m ∈ s.loads.registered fun _ => true,
      call.holds s.tree m.directory = true → m.pair = call.pair) : call.Apart s .proceed := by
  intro _ m hm
  obtain ⟨key, id, entry, hlookup, hentry, hkeeps, hm⟩ := Loads.mem_registered.mp hm
  by_contra hholds
  have hpair := hplace m (Loads.mem_registered.mpr ⟨key, id, entry, hlookup, hentry, rfl, hm⟩)
    (Bool.not_eq_false _ ▸ hholds)
  have hname := List.mem_map_of_mem (f := InstalledModel.pair) hm
  rw [((safe_of_reach h).right.routes id entry hentry).pairs] at hname
  obtain ⟨leg, hleg, heq⟩ := List.mem_map.mp hname
  have hself := hsplit key id entry hlookup hentry leg hleg (heq.trans hpair)
  rw [keeps_of_leg (hself ▸ hleg)] at hkeeps
  cases hkeeps

/-- **RemovePair leaves no loaded route on deleted files**, in every run in
which the loads and the removal keep apart. -/
theorem remove_pair_apart (h : Machine.Reach call.step call.Apart (Removal.init tree) s) :
    s.NoneDeleted := by
  have hs := safe_of_reach h
  intro hpc key id entry hlookup hentry
  refine ⟨hs.right.routes id entry hentry, fun m hm hdeleted => ?_⟩
  have hfree := hs.used (Or.inr hpc) m (Loads.mem_used.mpr (Or.inr
    (Loads.mem_registered.mpr ⟨key, id, entry, hlookup, hentry, rfl, hm⟩)))
  rw [hs.deleted _ hdeleted] at hfree
  cases hfree

end Runs

/-! ## Three removals -/

/-- A model with one file. -/
def fileManifest (source target : String) : Manifest :=
  oldManifest source target "3.0" [⟨"model.bin", "model", 1, ""⟩]

/-- The user store with the model under the name of its pair. -/
def fileTree (source target : String) : FileTree Bytes :=
  plant (copyNodes "u" (source ++ "-" ++ target) (fileManifest source target)
    ++ [("model.bin" :: (copyDir "u" (source ++ "-" ++ target) "3.0").reverse, some [0])])

/-- The removal of a pair from the store with the model of another one, or
of the same. -/
def callOn (model pair : Key) : RemovePair where
  host := echoHost
  models := oldHost (fileManifest model.1 model.2)
  stores := copyStores
  source := pair.1
  target := pair.2

/-- A client loads the pair of the model. -/
def loadPair (model : Key) : List RemovalEvent :=
  let disk := copyStores.disk (oldHost (fileManifest model.1 model.2)) (fileTree model.1 model.2)
  [.workers (.ensure 0 model.1 model.2 true 512 disk disk), .workers (.loaded (.ok 0)),
    .workers .advance]

/-- From `lock_user` to the end. -/
def deletePair (model : Key) : List RemovalEvent :=
  let dir := (copyDir "u" (model.1 ++ "-" ++ model.2) "3.0").reverse
  List.replicate 4 .proceed
    ++ [.unlink (MANIFEST_FILE :: dir), .unlink ("model.bin" :: dir), .unlink dir, .proceed,
      .proceed]

/-- The call has returned, and deleted the model of the only route ever
loaded; the route is registered or not. -/
def deletedModel (registered : Bool) (s : Removal) : Bool :=
  s.pc = .returned (.ok ()) && (s.loads.workers.heap.length = 1)
    && s.loads.workers.registered 0 = registered
    && !(s.loads.sources 0).isEmpty && (s.loads.sources 0).all fun m => m.directory ∈ s.deleted

theorem remove_pair_after_load :
    ∃ s, Machine.Reach (callOn ("bg", "en") ("bg", "en")).step
        (callOn ("bg", "en") ("bg", "en")).Apart (Removal.init (fileTree "bg" "en")) s
      ∧ deletedModel false s = true ∧ s.NoneDeleted := by
  obtain ⟨s, hreach, hs⟩ := Machine.exists_reach_of_run (callOn ("bg", "en") ("bg", "en")).step
    (callOn ("bg", "en") ("bg", "en")).Apart (Removal.init (fileTree "bg" "en"))
    (loadPair ("bg", "en") ++ [.proceed, .proceed, .workers (.scan ("bg", "en")),
      .workers .advance, .workers .advance] ++ deletePair ("bg", "en"))
    (deletedModel false) (by decide +kernel)
  exact ⟨s, hreach, hs, remove_pair_apart hreach⟩

theorem not_noneDeleted (h : deletedModel true s = true) : ¬ s.NoneDeleted := by
  simp only [deletedModel, Bool.and_eq_true, decide_eq_true_eq, List.all_eq_true,
    Bool.not_eq_true'] at h
  obtain ⟨⟨⟨⟨hpc, hlength⟩, hregistered⟩, hsome⟩, hdeleted⟩ := h
  intro hnone
  obtain ⟨key, hlookup⟩ := Workers.registered_iff.mp hregistered
  have hentry := List.getElem?_eq_getElem (l := s.loads.workers.heap) (i := 0)
    (by rw [hlength]; exact Nat.one_pos)
  obtain ⟨-, hclear⟩ := hnone hpc key 0 _ hlookup hentry
  obtain ⟨m, hm⟩ := List.exists_mem_of_ne_nil _ (List.isEmpty_eq_false_iff.mp hsome)
  exact hclear m hm (hdeleted m hm)

/-- A client loads the pair after `unload_pair`; and a client has loaded
another pair of the same name. -/
theorem remove_pair_not_apart :
    (∃ s, Machine.Reach (callOn ("bg", "en") ("bg", "en")).step Machine.anyStep
        (Removal.init (fileTree "bg" "en")) s ∧ deletedModel true s = true ∧ ¬ s.NoneDeleted)
      ∧ ∃ s, Machine.Reach (callOn ("bg-x", "en") ("bg", "x-en")).step Machine.anyStep
        (Removal.init (fileTree "bg-x" "en")) s ∧ deletedModel true s = true
        ∧ ¬ s.NoneDeleted := by
  constructor
  · obtain ⟨s, hreach, hs⟩ := Machine.exists_reach_of_run
      (callOn ("bg", "en") ("bg", "en")).step Machine.anyStep (Removal.init (fileTree "bg" "en"))
      ([.proceed, .proceed, .workers .advance] ++ loadPair ("bg", "en")
        ++ deletePair ("bg", "en"))
      (deletedModel true) (by decide +kernel)
    exact ⟨s, hreach, hs, not_noneDeleted hs⟩
  · obtain ⟨s, hreach, hs⟩ := Machine.exists_reach_of_run
      (callOn ("bg-x", "en") ("bg", "x-en")).step Machine.anyStep
      (Removal.init (fileTree "bg-x" "en"))
      (loadPair ("bg-x", "en") ++ [.proceed, .proceed, .workers (.scan ("bg-x", "en")),
        .workers .advance] ++ deletePair ("bg-x", "en"))
      (deletedModel true) (by decide +kernel)
    exact ⟨s, hreach, hs, not_noneDeleted hs⟩

end RemovePair

end Dragomand
