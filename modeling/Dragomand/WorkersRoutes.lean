import Dragomand.WorkersEvict

/-!
# What a step does to one route

`PairEntry.Evolves` lists what a step of the registry can do to one
loaded route: its pair, its pivot and its models never change, and its
scheduler moves by its own steps, by a submit, or by `Drop`. Routes are
only ever added (`heap_cases`), each with the models of the load that
held the lock.

On the scheduler's side, `toHandOver` has the jobs of which the engine
may still get segments.
-/

namespace Dragomand

section Evolves

variable (translate : ModelSpec → Option ModelSpec → Bool → List String → List Translation)

inductive PairEntry.Evolves (flags : Nat → Bool) (e : WorkersEvent) (id : Nat)
    (entry : PairEntry) : PairEntry → Prop
  | same : Evolves flags e id entry entry
  | stamped {last_used stamping : Nat} (hstamping : entry.stamping ≠ 0) :
      Evolves flags e id entry { entry with last_used := last_used, stamping := stamping }
  | closed : Evolves flags e id entry { entry with scheduler := entry.scheduler.close }
  | submitted {caller cancelled : Nat} {segments : List String} {html : Bool}
      {priority : Priority} {s : Scheduler}
      (he : e = .submit caller id segments html priority cancelled)
      (hs : entry.scheduler.submit segments html priority cancelled = some s) :
      Evolves flags e id entry { entry with scheduler := s, stamping := entry.stamping + 1 }
  | scheduled {event : SchedulerEvent} {s : Scheduler}
      (hsubmit : ∀ segments html priority cancelled,
        event ≠ .submit segments html priority cancelled)
      (hs : entry.scheduler.step (translate entry.first entry.second) flags event = some s) :
      Evolves flags e id entry { entry with scheduler := s }

variable {translate}
  {w w' : Workers} {e : WorkersEvent} {id : Nat} {entry' : PairEntry}

theorem Workers.heap_dropped {w₀ : Workers} {id' : Nat} (hheap : w₀.heap = w.heap)
    (h : (w₀.dropped id').heap[id]? = some entry') :
    ∃ entry, w.heap[id]? = some entry ∧ entry.Evolves translate w.flags e id entry' := by
  rw [← hheap]
  unfold Workers.dropped at h
  split at h
  · exact ⟨entry', h, .same⟩
  · rcases getElem?_modify_cases h with ⟨rfl, entry, hentry, rfl⟩ | ⟨-, hentry⟩
    · exact ⟨entry, hentry, .closed⟩
    · exact ⟨entry', hentry, .same⟩

/-- A route after a step was one before it, or is the one just loaded. -/
theorem Workers.heap_cases (h : w.step translate e = some w')
    (hentry' : w'.heap[id]? = some entry') :
    (∃ entry, w.heap[id]? = some entry ∧ entry.Evolves translate w.flags e id entry')
      ∨ (id = w.heap.length ∧ ∃ caller key pivot first second budget_mb cost_mb,
          w.lock = some (.loading caller key pivot first second budget_mb)
          ∧ entry' = ⟨key.1, key.2, pivot, cost_mb, w.now, 0, first, second, .init⟩) := by
  have hsame : w'.heap = w.heap →
      ∃ entry, w.heap[id]? = some entry ∧ entry.Evolves translate w.flags e id entry' := by
    intro hheap
    rw [hheap] at hentry'
    exact ⟨entry', hentry', .same⟩
  cases e with
  | ensure caller source target allow_pivot budget_mb plan specs =>
      obtain ⟨⟨w'', r⟩, hr, rfl⟩ := Option.map_eq_some_iff.mp h
      rcases (Workers.ensure_loaded_cases hr).2 with
        ⟨_, -, -, rfl⟩ | ⟨error, -, rfl⟩ | ⟨pivot, first, second, -, -, -, -, rfl⟩
      · exact Or.inl (hsame rfl)
      · exact Or.inl (hsame rfl)
      · exact Or.inl (hsame rfl)
  | loaded result =>
      cases result with
      | error error =>
          simp only [Workers.step, Workers.loaded] at h
          split at h <;> cases h
          exact Or.inl (hsame rfl)
      | ok measured =>
          simp only [Workers.step, Workers.loaded] at h
          split at h
          · rename_i caller key pivot first second budget_mb hlock
            cases h
            by_cases hlt : id < w.heap.length
            · rw [List.getElem?_append_left hlt] at hentry'
              exact Or.inl ⟨entry', hentry', .same⟩
            · obtain rfl : id = w.heap.length := by
                have := (List.getElem?_eq_some_iff.mp hentry').1
                rw [List.length_append, List.length_singleton] at this
                omega
              rw [List.getElem?_concat_length] at hentry'
              obtain rfl := Option.some.inj hentry'
              exact Or.inr ⟨rfl, caller, key, pivot, first, second, budget_mb, _, hlock, rfl⟩
          · cases h
  | abort caller =>
      simp only [Workers.step, Workers.abort] at h
      split at h
      · split at h <;> cases h
        exact Or.inl (hsame rfl)
      · cases h
  | submit caller id' segments html priority cancelled =>
      simp only [Workers.step] at h
      split at h <;> cases h
      rcases getElem?_modify_cases hentry' with ⟨rfl, entry, hentry, rfl⟩ | ⟨-, hentry⟩
      · refine Or.inl ⟨entry, hentry, ?_⟩
        cases hs : entry.scheduler.submit segments html priority cancelled with
        | none => exact .same
        | some s => exact .submitted rfl hs
      · exact Or.inl ⟨entry', hentry, .same⟩
  | stamp id' =>
      obtain ⟨entry₀, hentry₀, h⟩ := Option.bind_eq_some_iff.mp h
      split at h <;> cases h
      rename_i hstamping
      rcases getElem?_modify_cases hentry' with ⟨rfl, entry, hentry, rfl⟩ | ⟨-, hentry⟩
      · obtain rfl := Option.some.inj (hentry₀.symm.trans hentry)
        exact Or.inl ⟨entry₀, hentry, .stamped hstamping⟩
      · exact Or.inl ⟨entry', hentry, .same⟩
  | dropArc caller id' =>
      simp only [Workers.step, Workers.dropArc] at h
      split at h
      · split at h <;> cases h
        refine Or.inl (Workers.heap_dropped ?_ hentry')
        rfl
      · cases h
  | evict stage =>
      simp only [Workers.step, Workers.evict] at h
      split at h <;> cases h
      exact Or.inl (hsame rfl)
  | scan key =>
      obtain ⟨op, rfl⟩ := Workers.scan_cases h
      exact Or.inl (hsame rfl)
  | advance =>
      rcases Workers.advance_cases h with ⟨key, op, -, rfl, -⟩ | ⟨-, op, rfl, -⟩
      · unfold Workers.remove at hentry'
        split at hentry'
        · exact Or.inl ⟨entry', hentry', .same⟩
        · refine Or.inl (Workers.heap_dropped ?_ hentry')
          rfl
      · exact Or.inl (hsame rfl)
  | scheduler id' event =>
      simp only [Workers.step, Workers.schedule] at h
      split at h
      · cases h
      · cases h
      · rename_i hsubmit _
        obtain ⟨entry, hentry, hmap⟩ := Option.bind_eq_some_iff.mp h
        obtain ⟨s, hs, rfl⟩ := Option.map_eq_some_iff.mp hmap
        rcases getElem?_modify_cases hentry' with ⟨rfl, entry₀, hentry₀, rfl⟩ | ⟨-, hentry₀⟩
        · obtain rfl := Option.some.inj (hentry.symm.trans hentry₀)
          exact Or.inl ⟨entry, hentry, .scheduled hsubmit hs⟩
        · exact Or.inl ⟨entry', hentry₀, .same⟩
  | cancel flag | tick =>
      obtain rfl := Option.some.inj h
      exact Or.inl (hsame rfl)

@[simp] theorem Workers.length_heap_dropped (w : Workers) (id : Nat) :
    (w.dropped id).heap.length = w.heap.length := by
  unfold Workers.dropped
  split
  · rfl
  · exact List.length_modify ..

/-- Only a load adds a route. -/
theorem Workers.length_heap_of_step (h : w.step translate e = some w')
    (he : ∀ measured, e ≠ .loaded (.ok measured)) : w'.heap.length = w.heap.length := by
  cases e with
  | ensure caller source target allow_pivot budget_mb plan specs =>
      obtain ⟨⟨w'', r⟩, hr, rfl⟩ := Option.map_eq_some_iff.mp h
      rcases (Workers.ensure_loaded_cases hr).2 with
        ⟨_, -, -, rfl⟩ | ⟨error, -, rfl⟩ | ⟨pivot, first, second, -, -, -, -, rfl⟩ <;> rfl
  | loaded result =>
      cases result with
      | error error =>
          simp only [Workers.step, Workers.loaded] at h
          split at h <;> cases h
          rfl
      | ok measured => exact absurd rfl (he measured)
  | abort caller =>
      simp only [Workers.step, Workers.abort] at h
      split at h
      · split at h <;> cases h
        rfl
      · cases h
  | submit caller id' segments html priority cancelled =>
      simp only [Workers.step] at h
      split at h <;> cases h
      simp [Workers.submit, Workers.modify]
  | stamp id' =>
      obtain ⟨entry, -, h⟩ := Option.bind_eq_some_iff.mp h
      split at h <;> cases h
      simp [Workers.modify]
  | dropArc caller id' =>
      simp only [Workers.step, Workers.dropArc] at h
      split at h
      · split at h <;> cases h
        simp
      · cases h
  | evict stage =>
      simp only [Workers.step, Workers.evict] at h
      split at h <;> cases h
      rfl
  | scan key =>
      obtain ⟨op, rfl⟩ := Workers.scan_cases h
      rfl
  | advance =>
      rcases Workers.advance_cases h with ⟨key, op, -, rfl, -⟩ | ⟨-, op, rfl, -⟩
      · unfold Workers.remove
        split <;> simp
      · rfl
  | scheduler id' event =>
      obtain ⟨entry, s, -, -, -, rfl⟩ := Workers.schedule_cases h
      simp [Workers.modify]
  | cancel flag | tick =>
      obtain rfl := Option.some.inj h
      rfl

theorem Workers.length_heap_le (h : w.step translate e = some w') :
    w.heap.length ≤ w'.heap.length := by
  by_cases he : ∀ measured, e ≠ .loaded (.ok measured)
  · exact (Workers.length_heap_of_step h he).ge
  · push Not at he
    obtain ⟨measured, rfl⟩ := he
    simp only [Workers.step, Workers.loaded] at h
    split at h <;> cases h
    simp

theorem Workers.heap_persists (h : w.step translate e = some w') {entry : PairEntry}
    (hentry : w.heap[id]? = some entry) :
    ∃ entry', w'.heap[id]? = some entry' ∧ entry.Evolves translate w.flags e id entry' := by
  have hlt := (List.getElem?_eq_some_iff.mp hentry).1
  have hentry' := List.getElem?_eq_getElem (Nat.lt_of_lt_of_le hlt (Workers.length_heap_le h))
  refine ⟨_, hentry', ?_⟩
  rcases Workers.heap_cases h hentry' with ⟨entry₀, hentry₀, hev⟩ | ⟨hlen, -⟩
  · obtain rfl := Option.some.inj (hentry.symm.trans hentry₀)
    exact hev
  · exact absurd hlen (Nat.ne_of_lt hlt)

/-- The pair, the pivot and the models of a route are for life. -/
theorem PairEntry.Evolves.route {flags : Nat → Bool} {entry entry' : PairEntry}
    (h : entry.Evolves translate flags e id entry') :
    entry'.key = entry.key ∧ entry'.pivot = entry.pivot ∧ entry'.first = entry.first
      ∧ entry'.second = entry.second := by
  cases h <;> exact ⟨rfl, rfl, rfl, rfl⟩

end Evolves

/-! ## What a route translates with -/

/-- A route without a pivot has one model, of the pair it is for. -/
def RoutedBy (key : Key) (pivot : Option String) (first : ModelSpec)
    (second : Option ModelSpec) : Prop :=
  pivot = none → second = none
    ∧ ∃ m : InstalledModel, m.pair = key.1 ++ "-" ++ key.2 ∧ model_spec m = .ok first

structure Routed (w : Workers) : Prop where
  free : LoadingFree w
  keys : ∀ key id, w.entries.lookup key = some id →
    ∃ entry, w.heap[id]? = some entry ∧ entry.key = key
  loading : ∀ caller key pivot first second budget_mb,
    w.lock = some (.loading caller key pivot first second budget_mb) →
    RoutedBy key pivot first second
  entries : ∀ (id : Nat) (entry : PairEntry), w.heap[id]? = some entry →
    RoutedBy entry.key entry.pivot entry.first entry.second

theorem plan_route_direct {disk : Disk} {source target : String} {pivot : Option String}
    (h : plan_route disk source target false = .ok pivot) : pivot = none := by
  unfold plan_route at h
  split at h
  · cases h
    rfl
  · simp at h

theorem route_specs_routed {disk : Disk} {source target : String} {pivot : Option String}
    {first : ModelSpec} {second : Option ModelSpec}
    (h : route_specs disk source target pivot = .ok (first, second)) :
    RoutedBy (source, target) pivot first second := by
  rintro rfl
  simp only [route_specs] at h
  split at h
  · cases h
  · rename_i m hm
    cases hspec : model_spec m with
    | error e =>
        rw [hspec] at h
        cases h
    | ok spec =>
        rw [hspec] at h
        cases h
        exact ⟨rfl, m, disk.pair _ _ _ hm, hspec⟩

section Routed

variable {translate : ModelSpec → Option ModelSpec → Bool → List String → List Translation}
  {w w' : Workers} {e : WorkersEvent}

theorem Workers.lookup_remove (w : Workers) (key : Key) :
    (w.remove key).entries.lookup key = none := by
  unfold Workers.remove
  split
  · assumption
  · rw [Workers.entries_dropped, AList.lookup_erase]

theorem Workers.now_dropped (w : Workers) (id : Nat) : (w.dropped id).now = w.now := by
  unfold dropped
  split <;> rfl

theorem Workers.now_remove (w : Workers) (key : Key) : (w.remove key).now = w.now := by
  unfold remove
  split
  · rfl
  · rw [now_dropped]

/-- The registry gains nothing but the route just loaded. -/
theorem Workers.Effect.lookup {key : Key} {id : Nat} (h : w.Effect e w')
    (hlookup : w'.entries.lookup key = some id) :
    w.entries.lookup key = some id
      ∨ ∃ entry, w'.heap = w.heap ++ [entry] ∧ id = w.heap.length ∧ entry.key = key := by
  cases h with
  | quiet hentries | hold _ hentries | touch _ hentries =>
      rw [hentries] at hlookup
      exact Or.inl hlookup
  | @insert _ _ caller entry hfree haccepts hentries hheap hholders =>
      rw [hentries] at hlookup
      by_cases hkey : key = entry.key
      · subst hkey
        rw [AList.lookup_insert] at hlookup
        exact Or.inr ⟨entry, hheap, (Option.some.inj hlookup).symm, rfl⟩
      · rw [AList.lookup_insert_ne hkey] at hlookup
        exact Or.inl hlookup
  | @remove _ key' hvictim hentries hheap hholders =>
      rw [hentries] at hlookup
      unfold Workers.remove at hlookup
      split at hlookup
      · exact Or.inl hlookup
      · rw [Workers.entries_dropped] at hlookup
        by_cases hkey : key = key'
        · subst hkey
          rw [AList.lookup_erase] at hlookup
          cases hlookup
        · rw [AList.lookup_erase_ne hkey] at hlookup
          exact Or.inl hlookup
  | drop =>
      rw [Workers.entries_dropped] at hlookup
      exact Or.inl hlookup

theorem routed_step (h : w.step translate e = some w') (hr : Routed w) : Routed w' where
  free := loadingFree_step h hr.free
  keys := by
    intro key id hlookup
    rcases (Workers.effect_of_step h hr.free).lookup hlookup with
      hold | ⟨entry, hheap, rfl, hkey⟩
    · obtain ⟨entry, hentry, hkey⟩ := hr.keys key id hold
      obtain ⟨entry', hentry', hev⟩ := Workers.heap_persists h hentry
      exact ⟨entry', hentry', hev.route.1.trans hkey⟩
    · exact ⟨entry, by simp [hheap], hkey⟩
  loading := by
    intro caller key pivot first second budget_mb hlock'
    rcases (Workers.loading_of_step h hlock').2 with hlock | ⟨_, _, _, -, -, -, hspecs⟩
    · exact hr.loading _ _ _ _ _ _ hlock
    · exact route_specs_routed hspecs
  entries := by
    intro id entry' hentry'
    rcases Workers.heap_cases h hentry' with
      ⟨entry, hentry, hev⟩ | ⟨-, _, _, _, _, _, _, _, hlock, rfl⟩
    · obtain ⟨hkey, hpivot, hfirst, hsecond⟩ := hev.route
      rw [hkey, hpivot, hfirst, hsecond]
      exact hr.entries id entry hentry
    · exact hr.loading _ _ _ _ _ _ hlock

theorem routed_init : Routed Workers.init where
  free := by simp [LoadingFree, Workers.init]
  keys := by simp [Workers.init]
  loading := by simp [Workers.init]
  entries := by simp [Workers.init]

end Routed

/-! ## Segments still to be handed over -/

def Pc.toHandOver : Pc → List QueuedJob
  | .taken job | .calling job | .requeueing job => [job]
  | .translating job _ => if job.remaining.isEmpty then [] else [job]
  | _ => []

/-- The jobs of which the engine may still get segments. -/
def Scheduler.toHandOver (s : Scheduler) : List QueuedJob :=
  s.pc.toHandOver ++ (s.queue.inner.interactive ++ s.queue.inner.batch)

/-- The flags of these jobs. -/
def Scheduler.owners (s : Scheduler) : List Nat := s.toHandOver.map (·.cancelled)

/-- The segments handed to the engine for jobs with the flag, the latest
first. -/
def Scheduler.handed (s : Scheduler) (flag : Nat) : List (List String) :=
  s.log.filterMap fun
    | .called job chunk => if job.cancelled = flag then some chunk else none
    | _ => none

/-- What route `k` has handed to the engine for the request, call by call. -/
def Workers.handed (w : Workers) (id k : Nat) : List (List String) :=
  (w.heap[k]?.map fun entry => entry.scheduler.handed id).getD []

@[simp] theorem QueuedJob.drained_cancelled (job : QueuedJob) :
    job.drained.cancelled = job.cancelled := by
  unfold QueuedJob.drained; split <;> rfl

section Owners

variable {translate : Bool → List String → List Translation} {flags : Nat → Bool}
  {s s' : Scheduler}

theorem Scheduler.mem_owners {flag : Nat} :
    flag ∈ s.owners ↔ ∃ job ∈ s.toHandOver, job.cancelled = flag :=
  List.mem_map

theorem Scheduler.owners_submit {segments : List String} {html : Bool} {priority : Priority}
    {cancelled : Nat} (h : s.submit segments html priority cancelled = some s') :
    s'.owners.Perm (cancelled :: s.owners) := by
  unfold Scheduler.submit at h
  dsimp only at h
  split at h
  · cases h
  · cases h
    refine ((QueueInner.pushBack_perm _ _).append_left _ |>.map _).trans ?_
    exact List.perm_middle.map QueuedJob.cancelled

theorem Scheduler.handed_submit {segments : List String} {html : Bool} {priority : Priority}
    {cancelled : Nat} (h : s.submit segments html priority cancelled = some s') (flag : Nat) :
    s'.handed flag = s.handed flag := by
  unfold Scheduler.submit at h
  dsimp only at h
  split at h <;> cases h
  rfl

/-- Only a submit brings a job. -/
theorem Scheduler.step_accepted {e : SchedulerEvent} (h : s.step translate flags e = some s')
    (he : ∀ segments html priority cancelled, e ≠ .submit segments html priority cancelled) :
    s'.accepted = s.accepted := by
  cases e with
  | submit segments html priority cancelled => exact absurd rfl (he _ _ _ _)
  | close =>
      obtain rfl := Option.some.inj h
      rfl
  | notifyOne =>
      simp only [Scheduler.step, Scheduler.notifyOne] at h
      split at h
      · cases h
      · split at h <;> cases h <;> rfl
  | proceed =>
      simp only [Scheduler.step, runScheduler] at h
      split at h <;> first | (split at h <;> cases h <;> rfl) | (cases h; rfl) | cases h
  | engine error =>
      simp only [Scheduler.step, Scheduler.engine] at h
      split at h <;> cases h <;> rfl

/-- The task gives no job another owner, and takes none from outside. -/
theorem Scheduler.Transition.owners_subset (h : s.Transition translate flags s')
    (hacc : s'.accepted = s.accepted) : s'.owners ⊆ s.owners := by
  have hmono : (s'.toHandOver ⊆ s.toHandOver) → s'.owners ⊆ s.owners :=
    fun hsub => List.map_subset _ hsub
  cases h with
  | accept =>
      have := congrArg List.length hacc
      simp [Scheduler.accepted] at this
  | refuse | close | permit => exact hmono (List.Subset.refl _)
  | wake _ hpc | leave hpc | await hpc | consume hpc | park hpc | resume hpc | skip hpc
  | check hpc | finish hpc | stop hpc | completed hpc | failed hpc | leftover hpc =>
      refine hmono ?_
      simp [toHandOver, hpc, Pc.toHandOver]
  | @answer reply result leftovers hpc =>
      refine hmono ?_
      cases leftovers <;> simp [toHandOver, hpc, Pc.toHandOver]
  | @take job inner hpc hpop =>
      refine hmono ?_
      simp only [toHandOver, hpc, Pc.toHandOver, QueueInner.popFront_append hpop]
      exact List.Subset.refl _
  | @requeue job hpc =>
      refine hmono ?_
      intro job' hmem
      simp only [toHandOver, hpc, Pc.toHandOver, List.nil_append, List.mem_append,
        List.mem_cons, List.not_mem_nil, or_false] at hmem ⊢
      tauto
  | @drain hpc =>
      refine hmono ?_
      simp [toHandOver, Pc.toHandOver]
  | @call job hpc =>
      intro flag hmem
      obtain ⟨job', hmem', rfl⟩ := mem_owners.mp hmem
      rcases List.mem_append.mp hmem' with hjob | hq
      · have : job' = job.drained := by
          simp only [Pc.toHandOver] at hjob
          split at hjob
          · cases hjob
          · exact List.mem_singleton.mp hjob
        rw [this, QueuedJob.drained_cancelled]
        exact mem_owners.mpr ⟨job, by simp [toHandOver, hpc, Pc.toHandOver], rfl⟩
      · exact mem_owners.mpr ⟨job', List.mem_append_right _ hq, rfl⟩
  | @progressed job chunk hpc hrest =>
      intro flag hmem
      obtain ⟨job', hmem', rfl⟩ := mem_owners.mp hmem
      rcases List.mem_append.mp hmem' with hjob | hq
      · obtain rfl := List.mem_singleton.mp hjob
        exact mem_owners.mpr ⟨job, by simp [toHandOver, hpc, Pc.toHandOver, hrest], rfl⟩
      · exact mem_owners.mpr ⟨job', List.mem_append_right _ hq, rfl⟩

/-- The engine is handed segments of jobs that have some left. -/
theorem Scheduler.Transition.handed_eq (h : s.Transition translate flags s') {flag : Nat}
    (hflag : flag ∉ s.owners) : s'.handed flag = s.handed flag := by
  cases h with
  | @call job hpc =>
      have hne : job.cancelled ≠ flag := by
        rintro rfl
        exact hflag (mem_owners.mpr ⟨job, by simp [toHandOver, hpc, Pc.toHandOver], rfl⟩)
      simp [handed, hne]
  | accept | refuse | close | wake | permit | take | leave | await | consume | park | resume
  | skip | check | requeue | finish | answer | drain | leftover | stop | completed
  | progressed | failed => rfl

/-- The scheduler has or had a job with the flag for the engine. -/
def Scheduler.Serves (s : Scheduler) (flag : Nat) : Prop :=
  flag ∈ s.owners ∨ s.handed flag ≠ []

theorem Scheduler.Transition.serves (h : s.Transition translate flags s')
    (hacc : s'.accepted = s.accepted) {flag : Nat} (hs : s'.Serves flag) : s.Serves flag := by
  rcases hs with howner | hhanded
  · exact Or.inl (h.owners_subset hacc howner)
  · by_cases hflag : flag ∈ s.owners
    · exact Or.inl hflag
    · rw [h.handed_eq hflag] at hhanded
      exact Or.inr hhanded

theorem Scheduler.serves_submit {segments : List String} {html : Bool} {priority : Priority}
    {cancelled : Nat} (h : s.submit segments html priority cancelled = some s') {flag : Nat}
    (hs : s'.Serves flag) : flag = cancelled ∨ s.Serves flag := by
  rcases hs with howner | hhanded
  · rcases List.mem_cons.mp ((owners_submit h).mem_iff.mp howner) with rfl | howner
    · exact Or.inl rfl
    · exact Or.inr (Or.inl howner)
  · rw [handed_submit h] at hhanded
    exact Or.inr (Or.inr hhanded)

end Owners

/-- A route serves the jobs it served before the step, and the one that the
step submits to it. -/
theorem PairEntry.Evolves.serves
    {translate : ModelSpec → Option ModelSpec → Bool → List String → List Translation}
    {flags : Nat → Bool} {e : WorkersEvent} {id flag : Nat} {entry entry' : PairEntry}
    (h : entry.Evolves translate flags e id entry') (hs : entry'.scheduler.Serves flag) :
    entry.scheduler.Serves flag
      ∨ ∃ caller segments html priority, e = .submit caller id segments html priority flag := by
  cases h with
  | same | stamped | closed => exact Or.inl hs
  | submitted he hs' =>
      rcases Scheduler.serves_submit hs' hs with rfl | hold
      · exact Or.inr ⟨_, _, _, _, he⟩
      · exact Or.inl hold
  | scheduled hsubmit hs' =>
      exact Or.inl ((Scheduler.step_cases hs').serves (Scheduler.step_accepted hs' hsubmit) hs)

end Dragomand
