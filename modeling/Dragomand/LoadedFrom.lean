import Dragomand.FileTree
import Dragomand.WorkersRoutes

/-!
# What a route was loaded from

`PairWorkers` keeps no record of the installed models behind a route: it
has the files for the engine, and not the directories they came from.
`Loads` runs the registry next to that record. `reading` has the models
that the load in progress was planned with, `sources` those of every route
that was ever built; `LoadedFrom` says that the files of the route are
theirs, and that they are models of the pairs of its legs.
-/

namespace Dragomand

/-- The models of a route, as `resolve` finds them; one for each leg. -/
def route_models (disk : Disk) (source target : String) : Option String → List InstalledModel
  | none => (disk.resolve source target).toList
  | some pivot => (disk.resolve source pivot).toList ++ (disk.resolve pivot target).toList

/-- The models that a call of `ensure_loaded` goes on to load. -/
def Workers.loads (w : Workers) : WorkersEvent → List InstalledModel
  | .ensure _ source target allow_pivot _ plan specs =>
      if (w.entries.lookup (source, target)).isSome then []
      else
        match plan_route plan source target allow_pivot with
        | .error _ => []
        | .ok pivot =>
            match route_specs specs source target pivot with
            | .error _ => []
            | .ok _ => route_models specs source target pivot
  | _ => []

/-- The registry, with the models of the load in progress and of every
route. -/
structure Loads where
  workers : Workers
  reading : List InstalledModel
  sources : Nat → List InstalledModel

def Loads.init : Loads := ⟨.init, [], fun _ => []⟩

/-- The models of the registered routes with `keep`. -/
def Loads.registered (s : Loads) (keep : PairEntry → Bool) : List InstalledModel :=
  s.workers.entries.entries.flatMap fun entry =>
    if s.workers.heap[entry.2]?.any keep then s.sources entry.2 else []

/-- The models in use: those of the registered routes, and those of the
load in progress. -/
def Loads.used (s : Loads) : List InstalledModel :=
  (match s.workers.lock with
    | some (.loading _ _ _ _ _ _) => s.reading
    | _ => [])
  ++ s.registered fun _ => true

section Step

variable (translate : ModelSpec → Option ModelSpec → Bool → List String → List Translation)

def Loads.step (s : Loads) (e : WorkersEvent) : Option Loads :=
  (s.workers.step translate e).map fun w =>
    { workers := w
      reading := match e with
        | .ensure _ _ _ _ _ _ _ => s.workers.loads e
        | _ => s.reading
      sources := match e with
        | .loaded (.ok _) => Function.update s.sources s.workers.heap.length s.reading
        | _ => s.sources }

end Step

/-! ## The files are those of the models -/

/-- The pairs that a route translates between. -/
def legs (key : Key) : Option String → List Key
  | none => [key]
  | some pivot => [(key.1, pivot), (pivot, key.2)]

/-- Leg by leg, the files for the engine are those of a model of its pair. -/
structure LoadedFrom (models : List InstalledModel) (key : Key) (pivot : Option String)
    (first : ModelSpec) (second : Option ModelSpec) : Prop where
  specs : models.map model_spec = (first :: second.toList).map .ok
  pairs : models.map InstalledModel.pair = (legs key pivot).map fun leg => leg.1 ++ "-" ++ leg.2

theorem loadedFrom_of_specs {disk : Disk} {source target : String} {pivot : Option String}
    {first : ModelSpec} {second : Option ModelSpec}
    (h : route_specs disk source target pivot = .ok (first, second)) :
    LoadedFrom (route_models disk source target pivot) (source, target) pivot first second := by
  cases pivot with
  | none =>
      simp only [route_specs] at h
      split at h
      · cases h
      · rename_i m hm
        obtain ⟨spec, hspec, heq⟩ := FileTree.map_eq_ok.mp h
        cases heq
        exact ⟨by simp [route_models, hm, hspec], by simp [route_models, legs, hm, disk.pair _ _ _ hm]⟩
  | some pivot =>
      simp only [route_specs] at h
      split at h
      · cases h
      · cases h
      · rename_i m₁ m₂ hm₁ hm₂
        obtain ⟨spec₁, hspec₁, h⟩ := FileTree.bind_eq_ok.mp h
        obtain ⟨spec₂, hspec₂, heq⟩ := FileTree.map_eq_ok.mp h
        cases heq
        exact ⟨by simp [route_models, hm₁, hm₂, hspec₁, hspec₂],
          by simp [route_models, legs, hm₁, hm₂, disk.pair _ _ _ hm₁, disk.pair _ _ _ hm₂]⟩

section Loads

variable {translate : ModelSpec → Option ModelSpec → Bool → List String → List Translation}
  {s s' : Loads} {e : WorkersEvent}

theorem Loads.workers_step (h : s.step translate e = some s') :
    s.workers.step translate e = some s'.workers := by
  obtain ⟨w, hw, rfl⟩ := Option.map_eq_some_iff.mp h
  exact hw

/-- A load in progress reads what it read before, or what the step makes it
read. -/
theorem Loads.reading_of_step (h : s.step translate e = some s') {caller : Nat} {key : Key}
    {pivot : Option String} {first : ModelSpec} {second : Option ModelSpec} {budget_mb : Nat}
    (hlock' : s'.workers.lock = some (.loading caller key pivot first second budget_mb)) :
    (s.workers.lock = some (.loading caller key pivot first second budget_mb)
        ∧ s'.reading = s.reading)
      ∨ (s'.reading = s.workers.loads e ∧ LoadedFrom s'.reading key pivot first second) := by
  have hstep := Loads.workers_step h
  obtain ⟨w, hw, rfl⟩ := Option.map_eq_some_iff.mp h
  cases e with
  | ensure caller' source target allow_pivot budget_mb' plan specs =>
      obtain ⟨⟨w', r⟩, hr, hw'⟩ := Option.map_eq_some_iff.mp hw
      dsimp only at hw'
      subst hw'
      obtain ⟨hfree, hcases⟩ := Workers.ensure_loaded_cases hr
      rcases hcases with ⟨_, -, -, rfl⟩ | ⟨_, -, rfl⟩ |
        ⟨pivot', first', second', hlookup, -, hplan, hspecs, rfl⟩
      · cases hfree.symm.trans hlock'
      · cases hfree.symm.trans hlock'
      · cases hlock'
        refine Or.inr ⟨rfl, ?_⟩
        dsimp only [Workers.loads]
        rw [hlookup, hplan]
        dsimp only [Option.isSome]
        rw [if_neg (by simp), hspecs]
        exact loadedFrom_of_specs hspecs
  | loaded result | abort caller | submit caller id segments html priority cancelled | stamp id
  | dropArc caller id | evict stage | scan key | advance | scheduler id event | cancel flag
  | tick =>
      refine Or.inl ⟨?_, rfl⟩
      rcases (Workers.loading_of_step hstep hlock').2 with hlock | ⟨_, _, _, he, -⟩
      · exact hlock
      · cases he

/-- A route keeps its models; a new one has those of the load that held the
lock. -/
theorem Loads.sources_of_step (h : s.step translate e = some s') {id : Nat} {entry' : PairEntry}
    (hentry' : s'.workers.heap[id]? = some entry') :
    (∃ entry, s.workers.heap[id]? = some entry
        ∧ entry.Evolves translate s.workers.flags e id entry' ∧ s'.sources id = s.sources id)
      ∨ (id = s.workers.heap.length ∧ s'.sources id = s.reading
        ∧ ∃ caller budget_mb, s.workers.lock = some (.loading caller entry'.key entry'.pivot
          entry'.first entry'.second budget_mb)) := by
  have hstep := Loads.workers_step h
  obtain ⟨w, hw, rfl⟩ := Option.map_eq_some_iff.mp h
  rcases Workers.heap_cases hstep hentry' with
    ⟨entry, hentry, hev⟩ | ⟨rfl, caller, key, pivot, first, second, budget_mb, _, hlock, rfl⟩
  · refine Or.inl ⟨entry, hentry, hev, ?_⟩
    have hne := Nat.ne_of_lt (List.getElem?_eq_some_iff.mp hentry).1
    dsimp only
    split
    · exact Function.update_of_ne hne _ _
    · rfl
  · refine Or.inr ⟨rfl, ?_, caller, budget_mb, hlock⟩
    -- only `loaded` adds a route
    have hlonger : (s.workers.heap.length : Nat) < w.heap.length :=
      (List.getElem?_eq_some_iff.mp hentry').1
    dsimp only
    split
    · exact Function.update_self ..
    · rename_i hloaded
      exact absurd (Workers.length_heap_of_step hw hloaded) (Nat.ne_of_gt hlonger)

/-- The record is right. -/
structure Loads.Right (s : Loads) : Prop where
  loading : ∀ caller key pivot first second budget_mb,
    s.workers.lock = some (.loading caller key pivot first second budget_mb) →
    LoadedFrom s.reading key pivot first second
  routes : ∀ (id : Nat) (entry : PairEntry), s.workers.heap[id]? = some entry →
    LoadedFrom (s.sources id) entry.key entry.pivot entry.first entry.second

theorem Loads.right_step (h : s.step translate e = some s') (hr : s.Right) : s'.Right where
  loading := by
    intro caller key pivot first second budget_mb hlock'
    rcases Loads.reading_of_step h hlock' with ⟨hlock, hreading⟩ | ⟨-, hfrom⟩
    · rw [hreading]
      exact hr.loading _ _ _ _ _ _ hlock
    · exact hfrom
  routes := by
    intro id entry' hentry'
    rcases Loads.sources_of_step h hentry' with
      ⟨entry, hentry, hev, hsources⟩ | ⟨-, hsources, _, _, hlock⟩
    · obtain ⟨hkey, hpivot, hfirst, hsecond⟩ := hev.route
      rw [hsources, hkey, hpivot, hfirst, hsecond]
      exact hr.routes id entry hentry
    · rw [hsources]
      exact hr.loading _ _ _ _ _ _ hlock

theorem Loads.right_init : Loads.init.Right where
  loading := by simp [Loads.init, Workers.init]
  routes := by simp [Loads.init, Workers.init]

theorem Loads.mem_registered {keep : PairEntry → Bool} {m : InstalledModel} :
    m ∈ s.registered keep ↔ ∃ key id entry, s.workers.entries.lookup key = some id
      ∧ s.workers.heap[id]? = some entry ∧ keep entry = true ∧ m ∈ s.sources id := by
  unfold Loads.registered
  rw [List.mem_flatMap]
  constructor
  · rintro ⟨⟨key, id⟩, hmem, hm⟩
    dsimp only at hm
    split at hm
    · rename_i hkeep
      obtain ⟨entry, hentry, hkeep⟩ := (Option.any_eq_true _ _).mp hkeep
      exact ⟨key, id, entry, AList.mem_lookup_iff.mpr hmem, hentry, hkeep, hm⟩
    · cases hm
  · rintro ⟨key, id, entry, hlookup, hentry, hkeep, hm⟩
    refine ⟨⟨key, id⟩, AList.mem_lookup_iff.mp hlookup, ?_⟩
    dsimp only
    rw [if_pos ((Option.any_eq_true _ _).mpr ⟨entry, hentry, hkeep⟩)]
    exact hm

/-- A registered route was registered before, or was being loaded. -/
theorem Loads.registered_of_step (h : s.step translate e = some s') (hf : LoadingFree s.workers)
    {keep : PairEntry → Bool}
    (hkeep : ∀ entry entry' : PairEntry, entry'.key = entry.key → entry'.pivot = entry.pivot →
      keep entry' = keep entry) {m : InstalledModel} (hm : m ∈ s'.registered keep) :
    m ∈ s.registered keep
      ∨ m ∈ s.reading ∧ ∃ caller key pivot first second budget_mb,
        s.workers.lock = some (.loading caller key pivot first second budget_mb) := by
  have hstep := Loads.workers_step h
  obtain ⟨key, id, entry', hlookup', hentry', hkept, hm⟩ := Loads.mem_registered.mp hm
  rcases Loads.sources_of_step h hentry' with
    ⟨entry, hentry, hev, hsources⟩ | ⟨-, hsources, caller, budget_mb, hlock⟩
  · obtain ⟨hkey, hpivot, -⟩ := hev.route
    rw [hsources] at hm
    rw [hkeep entry entry' hkey hpivot] at hkept
    rcases (Workers.effect_of_step hstep hf).lookup hlookup' with hlookup | ⟨_, -, rfl, -⟩
    · exact Or.inl (Loads.mem_registered.mpr ⟨key, id, entry, hlookup, hentry, hkept, hm⟩)
    · exact absurd (List.getElem?_eq_some_iff.mp hentry).1 (lt_irrefl _)
  · rw [hsources] at hm
    exact Or.inr ⟨hm, caller, _, _, _, _, budget_mb, hlock⟩

theorem Loads.mem_used {m : InstalledModel} : m ∈ s.used
    ↔ (m ∈ s.reading ∧ ∃ caller key pivot first second budget_mb,
        s.workers.lock = some (.loading caller key pivot first second budget_mb))
      ∨ m ∈ s.registered fun _ => true := by
  unfold Loads.used
  rw [List.mem_append]
  refine or_congr_left ?_
  split
  · rename_i hlock
    exact ⟨fun hm => ⟨hm, _, _, _, _, _, _, hlock⟩, fun hm => hm.1⟩
  · rename_i hlock
    exact ⟨nofun, fun ⟨_, _, _, _, _, _, _, hloading⟩ => absurd hloading (hlock _ _ _ _ _ _)⟩

/-- A model comes into use only by a load. -/
theorem Loads.used_of_step (h : s.step translate e = some s') (hf : LoadingFree s.workers)
    {m : InstalledModel} (hm : m ∈ s'.used) : m ∈ s.used ∨ m ∈ s.workers.loads e := by
  rcases Loads.mem_used.mp hm with ⟨hreading, _, _, _, _, _, _, hlock'⟩ | hregistered
  · rcases Loads.reading_of_step h hlock' with ⟨hlock, hsame⟩ | ⟨hloads, -⟩
    · rw [hsame] at hreading
      exact Or.inl (Loads.mem_used.mpr (Or.inl ⟨hreading, _, _, _, _, _, _, hlock⟩))
    · rw [hloads] at hreading
      exact Or.inr hreading
  · rcases Loads.registered_of_step h hf (fun _ _ _ _ => rfl) hregistered with hold | hread
    · exact Or.inl (Loads.mem_used.mpr (Or.inr hold))
    · exact Or.inl (Loads.mem_used.mpr (Or.inl hread))

end Loads

end Dragomand
