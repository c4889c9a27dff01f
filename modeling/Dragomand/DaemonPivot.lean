import Dragomand.Daemon
import Dragomand.WorkersRoutes

/-!
# Requests that forbid the pivot

`ensure_loaded` passes `allow_pivot` to `plan_route` when it loads a
route, and does not look at it when the registry has the pair: a request
that forbids the pivot gets a two-leg route that another request loaded
before the direct model was installed. Where no lookup of such a request
hits a two-leg route (`DirectHits`), everything it uses is direct: the
futures ask for their own pair and submit to what they were given
(`Work.Honest`, a contract of the programs alone), and a route keeps its
models for life.
-/

namespace Dragomand

/-! ## What the futures ask for -/

/-- The pair of a request that forbids the pivot. -/
def Method.direct : Method → Option Key
  | .translate route _ _ | .translate_fd route =>
      if route.allow_pivot then none else some (route.source, route.target)
  | .prepare_pair source target allow_pivot => if allow_pivot then none else some (source, target)
  | _ => none

/-- With the entries `used` so far, the operation asks for the pair without
the pivot, or submits to one of the entries. -/
def Asks (key : Key) (used : List Nat) : Op → Prop
  | .ensure_loaded source target allow_pivot _ => (source, target) = key ∧ allow_pivot = false
  | .submit entry _ _ _ => entry ∈ used
  | _ => True

/-- The contract of a future for the pair. -/
def Honours {α : Type} (key : Key) (used : List Nat) (prog : Async α) : Prop :=
  prog.Meets (Asks key) Op.use (fun _ _ => True) used

def Work.Honest (work : Work) : Prop :=
  ∀ key, work.method.direct = some key → Honours key work.used work.prog

section Contracts

variable {α β : Type} {key : Key} {used : List Nat}

/-- The rest of a program runs with the entries used by then. -/
theorem Honours.bind {prog : Async α} {f : α → Async β} (h : Honours key used prog)
    (hf : ∀ a used, Honours key used (f a)) : Honours key used (prog >>= f) := by
  refine Prog.meets_bind.mpr (h.mono fun used result _ => ?_)
  cases result with
  | ok a => exact hf a used
  | error e => trivial

theorem honours_ask {op : Op} (h : Asks key used op) : Honours key used (ask op) :=
  ⟨h, fun _ => trivial⟩

theorem honours_pure {a : α} : Honours key used (pure a : Async α) := trivial

theorem honours_throw {error : Error} : Honours key used (Prog.throw error : Async α) := trivial

theorem honours_ofResult {result : Except Error α} : Honours key used (ofResult result) := trivial

/-- `ensure_loaded` returns an entry that may be used from then on. -/
theorem honours_ensure_loaded {source target : String} {f : Nat → Async α}
    (hkey : (source, target) = key)
    (hf : ∀ entry used, entry ∈ used → Honours key used (f entry)) :
    Honours key used (ensure_loaded source target false >>= f) := by
  refine Prog.meets_bind.mpr ⟨trivial, fun config => ⟨⟨hkey, rfl⟩, fun answer => ?_⟩⟩
  cases answer with
  | ok entry => exact hf entry _ (List.mem_cons_self ..)
  | error error => trivial

/-- The operations that use no entry. -/
def Op.isFree : Op → Bool
  | .ensure_loaded _ _ _ _ | .submit _ _ _ _ => false
  | _ => true

theorem honours_free {op : Op} (hop : op.isFree = true) {f : op.Answer → Async α}
    (hf : ∀ answer used, Honours key used (f answer)) :
    Honours key used (ask op >>= f) := by
  refine Honours.bind (honours_ask ?_) hf
  cases op <;> trivial

theorem honours_run_translation {route : service.Route}
    (hkey : (route.source, route.target) = key) (hdirect : route.allow_pivot = false)
    (segments : List String) (attempts : Nat) :
    Honours key used (run_translation route segments attempts) := by
  induction attempts generalizing used with
  | zero => exact honours_throw
  | succ attempts ih =>
      unfold run_translation
      rw [hdirect]
      refine honours_ensure_loaded hkey fun entry used hused => ?_
      refine Honours.bind (honours_ask hused) fun receiver used => ?_
      cases receiver with
      | none => exact honours_free rfl fun _ _ => ih
      | some receiver =>
          refine honours_free rfl fun outcome used => ?_
          match outcome with
          | some (.ok translations) =>
              exact honours_free rfl fun _ _ => honours_free rfl fun _ _ => honours_pure
          | some (.error .cancelled) => exact honours_free rfl fun _ _ => honours_throw
          | some (.error (.engine message)) => exact honours_free rfl fun _ _ => honours_throw
          | none => exact honours_free rfl fun _ _ => honours_throw

theorem honours_translateLines {route : service.Route}
    (hkey : (route.source, route.target) = key) (hdirect : route.allow_pivot = false)
    (wanted : List Nat) (steps done : Nat) (lines : List String) (pivot : Option String) :
    Honours key used (translateLines route wanted steps done lines pivot) := by
  induction steps generalizing used done lines pivot with
  | zero => exact honours_pure
  | succ steps ih =>
      unfold translateLines
      split
      · refine Honours.bind (honours_run_translation hkey hdirect _ _) fun translated used => ?_
        dsimp only
        split
        · exact honours_throw
        · exact honours_free rfl fun _ _ => ih _ _ _
      · exact honours_pure

theorem honours_installLegs (legs : List Key) : Honours key used (installLegs legs) := by
  induction legs generalizing used with
  | nil => exact honours_pure
  | cons leg legs ih =>
      refine honours_free rfl fun stores used => ?_
      split
      · exact Honours.bind (honours_free rfl fun _ _ => honours_ofResult) fun _ _ => ih
      · exact ih

theorem honours_translate {route : service.Route} (hkey : (route.source, route.target) = key)
    (hdirect : route.allow_pivot = false) (segments : List String) (want_sentences : Bool) :
    Honours key used (translate route segments want_sentences) :=
  honours_free rfl fun _ _ =>
    Honours.bind (honours_run_translation hkey hdirect segments 2) fun _ _ => honours_pure

theorem honours_translate_fd {host : Host} {route : service.Route}
    (hkey : (route.source, route.target) = key) (hdirect : route.allow_pivot = false) :
    Honours key used (translate_fd host route) := by
  refine honours_free rfl fun _ _ => ?_
  refine Honours.bind (honours_free rfl fun _ _ => honours_ofResult) fun text used => ?_
  refine Honours.bind (honours_translateLines hkey hdirect _ _ _ _ _) fun translated used => ?_
  exact Honours.bind (honours_free rfl fun _ _ => honours_ofResult) fun _ _ => honours_pure

theorem honours_require_network : Honours key used require_network := by
  refine honours_free rfl fun config used => ?_
  split
  · exact honours_pure
  · exact honours_throw

theorem honours_prepare_pair {source target : String} (hkey : (source, target) = key) :
    Honours key used (prepare_pair source target false) := by
  refine honours_free rfl fun _ _ => Honours.bind ?_ fun _ used => ?_
  · -- what is missing is installed
    refine honours_free rfl fun stores used => ?_
    split
    · exact honours_pure
    · exact Honours.bind honours_require_network fun _ _ =>
        honours_free rfl fun _ _ => honours_installLegs _
  · refine honours_free rfl fun _ _ => honours_ensure_loaded hkey fun entry used _ => ?_
    exact honours_free rfl fun _ _ => honours_free rfl fun _ _ => honours_free rfl fun _ _ =>
      honours_pure

/-- What a handler spawns is honest. -/
theorem honest_of_future {host : Host} {work : Work}
    (h : work.method.future host = some work.prog) : work.Honest := by
  intro key hkey
  cases hmethod : work.method with
  | translate route segments want_sentences =>
      rw [hmethod] at h hkey
      simp only [Method.direct] at hkey
      split at hkey <;> cases hkey
      rename_i hdirect
      rw [← Option.some.inj h]
      exact honours_translate rfl (Bool.eq_false_iff.mpr hdirect) _ _
  | translate_fd route =>
      rw [hmethod] at h hkey
      simp only [Method.direct] at hkey
      split at hkey <;> cases hkey
      rename_i hdirect
      rw [← Option.some.inj h]
      exact honours_translate_fd rfl (Bool.eq_false_iff.mpr hdirect)
  | prepare_pair source target allow_pivot =>
      rw [hmethod] at h hkey
      simp only [Method.direct] at hkey
      split at hkey <;> cases hkey
      rename_i hdirect
      obtain rfl := Bool.eq_false_iff.mpr hdirect
      rw [← Option.some.inj h]
      exact honours_prepare_pair rfl
  | install_pair | check_for_updates | quick | version | cancel =>
      rw [hmethod] at hkey
      cases hkey

end Contracts

/-! ## What the requests use -/

/-- The steps of which a lookup for a request that forbids the pivot, if
any, finds no two-leg route in the registry. -/
def DirectHits (d : Daemon) (e : DaemonEvent) : Prop :=
  ∀ l ∈ (d.lookup e).toList, l.2.2 = false →
    ∀ entry ∈ ((d.workers.entries.lookup l.2.1).bind fun id => d.workers.heap[id]?).toList,
      entry.pivot = none

instance (d : Daemon) (e : DaemonEvent) : Decidable (DirectHits d e) := by
  unfold DirectHits; infer_instance

/-- The route translates with one model, of the pair. -/
structure PairEntry.Direct (entry : PairEntry) (key : Key) : Prop where
  pair : entry.key = key
  pivot : entry.pivot = none
  second : entry.second = none
  model : ∃ m : InstalledModel, m.pair = key.1 ++ "-" ++ key.2 ∧ model_spec m = .ok entry.first

structure PivotInv (d : Daemon) : Prop where
  routed : Routed d.workers
  honest : ∀ (id : Nat) (work : Work), d.works[id]? = some work → work.Honest
  /-- a load for such a request is of a direct model, -/
  loading : ∀ caller key pivot first second budget_mb,
    d.workers.lock = some (.loading caller key pivot first second budget_mb) →
    ∃ work, d.works[caller]? = some work
      ∧ ∀ key', work.method.direct = some key' → key = key' ∧ pivot = none
  /-- so are the routes it has used, -/
  used : ∀ (id : Nat) (work : Work) (key : Key), d.works[id]? = some work →
    work.method.direct = some key → ∀ k ∈ work.used,
    ∃ entry, d.workers.heap[k]? = some entry ∧ entry.key = key ∧ entry.pivot = none
  /-- and no others have its jobs. -/
  served : ∀ (k : Nat) (entry : PairEntry) (flag : Nat), d.workers.heap[k]? = some entry →
    entry.scheduler.Serves flag →
    ∃ work, d.works[flag]? = some work ∧ ∀ key, work.method.direct = some key → k ∈ work.used

section Step

variable {host : Host} {d d' : Daemon} {e : DaemonEvent}

theorem honest_step (h : d.Transition host e d') (hi : PivotInv d) {id : Nat} {work' : Work}
    (hwork' : d'.works[id]? = some work') : work'.Honest := by
  rcases h.works hwork' with ⟨work, hwork, hgoes⟩ | ⟨-, -, hfuture⟩
  · have hold := hi.honest id work hwork
    cases hgoes with
    | same => exact hold
    | answered hprog =>
        intro key hkey
        have := hold key hkey
        rw [hprog] at this
        exact Prog.Meets.next this _
    | hit hprog | loaded hprog =>
        intro key hkey
        have := hold key hkey
        rw [hprog] at this
        exact Prog.Meets.next this (.ok _)
  · exact honest_of_future hfuture

/-- The routes of before the step are still there. -/
theorem Daemon.Transition.heap (h : d.Transition host e d') {k : Nat} {entry : PairEntry}
    (hentry : d.workers.heap[k]? = some entry) :
    ∃ entry', d'.workers.heap[k]? = some entry' ∧ entry'.key = entry.key
      ∧ entry'.pivot = entry.pivot := by
  rcases h.workers with hw | ⟨event, hw, -⟩
  · exact ⟨entry, by rw [hw, hentry], rfl, rfl⟩
  · obtain ⟨entry', hentry', hev⟩ := Workers.heap_persists hw hentry
    exact ⟨entry', hentry', hev.route.1, hev.route.2.1⟩

theorem routed_of_step (h : d.Transition host e d') (hr : Routed d.workers) :
    Routed d'.workers := by
  rcases h.workers with hw | ⟨event, hw, -⟩
  · rwa [hw]
  · exact routed_step hw hr

/-- What a request that forbids the pivot asks of the registry. -/
theorem Work.Honest.asks {work : Work} (hw : work.Honest) {key key' : Key}
    {allow_pivot : Bool} {budget_mb : Nat} {next : Except Error Nat → Async Results}
    (hprog : work.prog = .op (.ensure_loaded key.1 key.2 allow_pivot budget_mb) next)
    (hdirect : work.method.direct = some key') : key = key' ∧ allow_pivot = false := by
  have := hw key' hdirect
  rw [hprog] at this
  exact this.1

theorem loading_step (h : d.Transition host e d') (hi : PivotInv d) {caller : Nat} {key : Key}
    {pivot : Option String} {first : ModelSpec} {second : Option ModelSpec} {budget_mb : Nat}
    (hlock' : d'.workers.lock = some (.loading caller key pivot first second budget_mb)) :
    ∃ work, d'.works[caller]? = some work
      ∧ ∀ key', work.method.direct = some key' → key = key' ∧ pivot = none := by
  have hold : d.workers.lock = some (.loading caller key pivot first second budget_mb) →
      ∃ work, d'.works[caller]? = some work
        ∧ ∀ key', work.method.direct = some key' → key = key' ∧ pivot = none := by
    intro hlock
    obtain ⟨work, hwork, hdirect⟩ := hi.loading _ _ _ _ _ _ hlock
    obtain ⟨work', hwork', hgoes⟩ := h.works_self hwork
    exact ⟨work', hwork', hgoes.method ▸ hdirect⟩
  rcases h.workers with hw | ⟨event, hw, hdrives⟩
  · exact hold (hw ▸ hlock')
  · rcases (Workers.loading_of_step hw hlock').2 with
      hlock | ⟨allow_pivot, plan, specs, rfl, -, hplan, -⟩
    · exact hold hlock
    · -- the load that this step starts
      obtain ⟨work, budget_mb, next, hwork, hprog⟩ := Daemon.lookup_eq_some hdrives.lookup.symm
      obtain ⟨work', hwork', hgoes⟩ := h.works_self hwork
      refine ⟨work', hwork', fun key' hkey' => ?_⟩
      obtain ⟨hkey, rfl⟩ := (hi.honest caller work hwork).asks hprog (hgoes.method ▸ hkey')
      exact ⟨hkey, plan_route_direct hplan⟩

/-- The route just loaded for call `id`. -/
theorem Workers.loaded_of_loadsFor {w w' : Workers} {id measured : Nat}
    (hlock : w.loadsFor id = true) (h : w.loaded (.ok measured) = some w') :
    ∃ key pivot first second budget_mb entry,
      w.lock = some (.loading id key pivot first second budget_mb)
        ∧ w'.heap[w.heap.length]? = some entry ∧ entry.key = key ∧ entry.pivot = pivot := by
  unfold Workers.loadsFor at hlock
  unfold Workers.loaded at h
  split at hlock
  · rename_i caller key pivot first second budget_mb hw
    rw [hw] at h
    cases h
    obtain rfl := of_decide_eq_true hlock
    exact ⟨key, pivot, first, second, budget_mb, _, hw, List.getElem?_concat_length .., rfl, rfl⟩
  · cases hlock

theorem used_step (h : d.Transition host e d') (hok : DirectHits d e) (hi : PivotInv d)
    {id : Nat} {work' : Work} {key : Key} (hwork' : d'.works[id]? = some work')
    (hdirect : work'.method.direct = some key) {k : Nat} (hk : k ∈ work'.used) :
    ∃ entry, d'.workers.heap[k]? = some entry ∧ entry.key = key ∧ entry.pivot = none := by
  have hheap : (∃ entry, d.workers.heap[k]? = some entry ∧ entry.key = key
      ∧ entry.pivot = none) →
      ∃ entry, d'.workers.heap[k]? = some entry ∧ entry.key = key ∧ entry.pivot = none := by
    rintro ⟨entry, hentry, hkey, hpivot⟩
    obtain ⟨entry', hentry', hkey', hpivot'⟩ := h.heap hentry
    exact ⟨entry', hentry', hkey'.trans hkey, hpivot'.trans hpivot⟩
  rcases h.works hwork' with ⟨work, hwork, hgoes⟩ | ⟨-, hused, -⟩
  · have hdirect₀ : work.method.direct = some key := hgoes.method ▸ hdirect
    have hold := hi.used id work key hwork hdirect₀
    cases hgoes with
    | same => exact hheap (hold k hk)
    | answered hprog hsame =>
        dsimp only at hk
        rw [hsame] at hk
        exact hheap (hold k hk)
    | @hit entry₀ key₀ allow_pivot budget_mb next hprog hevent hlookup =>
        rcases List.mem_cons.mp hk with rfl | hk
        · obtain ⟨hkey₀, rfl⟩ := (hi.honest id work hwork).asks hprog hdirect₀
          obtain ⟨entry, hentry, hkey⟩ := hi.routed.keys _ _ hlookup
          refine hheap ⟨entry, hentry, hkey.trans hkey₀, ?_⟩
          refine hok (id, key₀, false) (by simp [hevent]) rfl entry ?_
          simp [hlookup, hentry]
        · exact hheap (hold k hk)
    | loaded hprog hlock hloaded =>
        rcases List.mem_cons.mp hk with rfl | hk
        · obtain ⟨key₁, pivot, first, second, budget_mb, entry, hload, hentry, rfl, rfl⟩ :=
            Workers.loaded_of_loadsFor hlock hloaded
          obtain ⟨work₁, hwork₁, hdirect₁⟩ := hi.loading _ _ _ _ _ _ hload
          obtain rfl := Option.some.inj (hwork.symm.trans hwork₁)
          obtain ⟨hkey, hpivot⟩ := hdirect₁ key hdirect₀
          exact ⟨entry, hentry, hkey, hpivot⟩
        · exact hheap (hold k hk)
  · rw [hused] at hk
    cases hk

theorem jobs_step (h : d.Transition host e d') (hi : PivotInv d) {k flag : Nat}
    {entry' : PairEntry} (hentry' : d'.workers.heap[k]? = some entry')
    (hserves : entry'.scheduler.Serves flag) :
    ∃ work, d'.works[flag]? = some work
      ∧ ∀ key, work.method.direct = some key → k ∈ work.used := by
  have hold : (∃ work, d.works[flag]? = some work
      ∧ ∀ key, work.method.direct = some key → k ∈ work.used) →
      ∃ work, d'.works[flag]? = some work
        ∧ ∀ key, work.method.direct = some key → k ∈ work.used := by
    rintro ⟨work, hwork, hused⟩
    obtain ⟨work', hwork', hgoes⟩ := h.works_self hwork
    exact ⟨work', hwork', fun key hkey => hgoes.used_subset (hused key (hgoes.method ▸ hkey))⟩
  rcases h.workers with hw | ⟨event, hw, hdrives⟩
  · rw [hw] at hentry'
    exact hold (hi.served k entry' flag hentry' hserves)
  · rcases Workers.heap_cases hw hentry' with
      ⟨entry, hentry, hev⟩ | ⟨-, _, _, _, _, _, _, _, -, rfl⟩
    · rcases hev.serves hserves with hs | ⟨caller, segments, html, priority, rfl⟩
      · exact hold (hi.served k entry flag hentry hs)
      · -- the job submitted by this step
        obtain ⟨work, segments, html, priority, next, hwork, hprog⟩ :=
          Daemon.submitter_eq_some hdrives.submitter.symm
        refine hold ⟨work, hwork, fun key hkey => ?_⟩
        have hasks := hi.honest flag work hwork key hkey
        rw [hprog] at hasks
        exact hasks.1
    · simp [Scheduler.Serves, Scheduler.owners, Scheduler.toHandOver, Scheduler.handed,
        Scheduler.init, Pc.toHandOver] at hserves

theorem pivotInv_step (h : d.Transition host e d') (hok : DirectHits d e) (hi : PivotInv d) :
    PivotInv d' where
  routed := routed_of_step h hi.routed
  honest := fun _ _ hwork' => honest_step h hi hwork'
  loading := fun _ _ _ _ _ _ hlock' => loading_step h hi hlock'
  used := fun _ _ _ hwork' hdirect _ hk => used_step h hok hi hwork' hdirect hk
  served := fun _ _ _ hentry' hserves => jobs_step h hi hentry' hserves

end Step

/-! ## Whole runs -/

section Runs

variable {host : Host} {config : Config} {d : Daemon}

theorem pivotInv_of_reach
    (h : Machine.Reach (Daemon.step host) DirectHits (Daemon.init config host) d) : PivotInv d :=
  h.invariant
    ⟨routed_init, by simp [Daemon.init], by simp [Daemon.init, Workers.init],
      by simp [Daemon.init], by simp [Daemon.init, Workers.init]⟩
    fun _ _ _ _ hok hs hi => pivotInv_step (Daemon.step_cases hs).2 hok hi

/-- What holds of every request that forbids the pivot and succeeds. -/
structure PivotHonoured (d : Daemon) : Prop where
  /-- The routes that had segments of it at the engine are direct, -/
  translated : ∀ (id : Nat) (work : Work) (key : Key) (results : Results),
    d.works[id]? = some work → work.method.direct = some key →
    .returned id (.ok results) ∈ d.requests.log →
    ∀ (k : Nat) (entry : PairEntry), d.workers.heap[k]? = some entry →
    entry.scheduler.handed id ≠ [] → entry.Direct key
  /-- and so are those that `ensure_loaded` left loaded for it. -/
  prepared : ∀ (id : Nat) (work : Work) (key : Key) (results : Results),
    d.works[id]? = some work → work.method.direct = some key →
    .returned id (.ok results) ∈ d.requests.log →
    ∀ k ∈ work.used, ∃ entry, d.workers.heap[k]? = some entry ∧ entry.Direct key

theorem PivotInv.used_direct {d : Daemon} (hi : PivotInv d) {id k : Nat} {work : Work} {key : Key}
    (hwork : d.works[id]? = some work) (hdirect : work.method.direct = some key)
    (hk : k ∈ work.used) :
    ∃ entry, d.workers.heap[k]? = some entry ∧ entry.Direct key := by
  obtain ⟨entry, hentry, hkey, hpivot⟩ := hi.used id work key hwork hdirect k hk
  obtain ⟨hsecond, m, hpair, hspec⟩ := hi.routed.entries k entry hentry hpivot
  exact ⟨entry, hentry, hkey, hpivot, hsecond, m, hkey ▸ hpair, hspec⟩

/-- **`allow_pivot = false` is honoured** in every run in which no registry
lookup for a request that forbids the pivot finds a two-leg route. -/
theorem pivot_honoured
    (h : Machine.Reach (Daemon.step host) DirectHits (Daemon.init config host) d) :
    PivotHonoured d := by
  have hi := pivotInv_of_reach h
  constructor
  · intro id work key results hwork hdirect _ k entry hentry hhanded
    obtain ⟨work', hwork', hused⟩ := hi.served k entry id hentry (Or.inr hhanded)
    obtain rfl := Option.some.inj (hwork.symm.trans hwork')
    obtain ⟨entry', hentry', hd⟩ := hi.used_direct hwork hdirect (hused key hdirect)
    obtain rfl := Option.some.inj (hentry.symm.trans hentry')
    exact hd
  · intro id work key results hwork hdirect _ k hk
    exact hi.used_direct hwork hdirect hk

end Runs

/-! ## Two runs -/

/-- A model of version 3.0 for the pair, with one file. -/
def oneFile (source target : String) : InstalledModel where
  origin := .user
  directory := ["models", "p", source ++ "-" ++ target, "3.0"]
  version := ⟨"3.0", _, parseParts_3_0⟩
  manifest :=
    ⟨1, "p", source, target, "3.0", none, none, [], "", [⟨"model.bin", "model", 1, ""⟩]⟩

/-- A store with a model for each of the pairs. -/
def diskOf (pairs : List Key) : Disk where
  resolve source target :=
    if (source, target) ∈ pairs then some (oneFile source target) else none
  pair := by
    intro source target m h
    split at h <;> cases h
    rfl

/-- A client translates one segment from Bulgarian to German, as call `id`
with the token, on `handler`, up to the lookup of the route. -/
def requestBgDe (id handler : Nat) (token : String) (allow_pivot : Bool) (disk : Disk) :
    List DaemonEvent :=
  [.receive ":1.7" token (.translate ⟨"bg", "de", allow_pivot, false, .interactive⟩ ["a"] false),
    .touch handler, .handle handler, .requests (.register id), .requests (.at id none),
    .work id .proceed, .work id .proceed, .work id (.ensure disk)]

/-- The worker of call `id` loads. -/
def loadRoute (id : Nat) : List DaemonEvent := [.work id (.loaded (.ok 0)), .workers .advance]

/-- The call submits to route `k` and gets its translation. -/
def translateOn (id k : Nat) : List DaemonEvent :=
  [.work id .proceed] ++ List.replicate 3 (.workers (.scheduler k .proceed))
    ++ [.workers (.scheduler k (.engine none))]
    ++ List.replicate 2 (.workers (.scheduler k .proceed)) ++ List.replicate 4 (.work id .proceed)

/-- The direct model is installed, and no route is loaded. -/
theorem pivot_honoured_direct :
    ∃ d, Machine.Reach (Daemon.step echoHost) DirectHits (Daemon.init .default echoHost) d
      ∧ (d.requests.log.head? = some (.returned 0 (.ok [("translations", .strs ["a"])]))
        ∧ d.workers.handed 0 0 = [["a"]])
      ∧ PivotHonoured d := by
  obtain ⟨d, hreach, hd⟩ := Machine.exists_reach_of_run (Daemon.step echoHost) DirectHits
    (Daemon.init .default echoHost)
    (.store (diskOf [("bg", "de")]) :: requestBgDe 0 0 "t" false (diskOf [("bg", "de")])
      ++ loadRoute 0 ++ translateOn 0 0)
    (fun d : Daemon => decide (
      d.requests.log.head? = some (.returned 0 (.ok [("translations", .strs ["a"])]))
        ∧ d.workers.handed 0 0 = [["a"]]))
    (by decide)
  exact ⟨d, hreach, of_decide_eq_true hd, pivot_honoured hreach⟩

/-- A route through English is loaded for a first request; then the direct
model is installed. The second request, which forbids the pivot, passes the
check of its handler and is translated on the route through English. -/
theorem pivot_not_honoured :
    ∃ d, Machine.Reach (Daemon.step echoHost) Machine.anyStep (Daemon.init .default echoHost) d
      ∧ ((d.works[1]?.bind fun work => work.method.direct) = some ("bg", "de")
        ∧ .returned 1 (.ok [("translations", .strs ["a"]), ("pivot", .str "en")])
          ∈ d.requests.log
        ∧ (d.workers.heap[0]?.bind fun entry => entry.pivot) = some "en"
        ∧ d.workers.handed 1 0 = [["a"]])
      ∧ ¬ PivotHonoured d := by
  obtain ⟨d, hreach, hd⟩ := Machine.exists_reach_of_run (Daemon.step echoHost) Machine.anyStep
    (Daemon.init .default echoHost)
    (.store (diskOf [("bg", "en"), ("en", "de")])
      :: requestBgDe 0 0 "t" true (diskOf [("bg", "en"), ("en", "de")]) ++ loadRoute 0
      ++ translateOn 0 0
      ++ .store (diskOf [("bg", "en"), ("en", "de"), ("bg", "de")])
      :: requestBgDe 1 1 "u" false (diskOf [("bg", "en"), ("en", "de"), ("bg", "de")])
      ++ translateOn 1 0)
    (fun d : Daemon => decide (
      (d.works[1]?.bind fun work => work.method.direct) = some ("bg", "de")
        ∧ .returned 1 (.ok [("translations", .strs ["a"]), ("pivot", .str "en")])
          ∈ d.requests.log
        ∧ (d.workers.heap[0]?.bind fun entry => entry.pivot) = some "en"
        ∧ d.workers.handed 1 0 = [["a"]]))
    (by decide)
  have hrun := of_decide_eq_true hd
  refine ⟨d, hreach, hrun, fun h => ?_⟩
  obtain ⟨hdirect, hreturned, hpivot, hhanded⟩ := hrun
  obtain ⟨work, hwork, hdirect⟩ := Option.bind_eq_some_iff.mp hdirect
  obtain ⟨entry, hentry, hpivot⟩ := Option.bind_eq_some_iff.mp hpivot
  have hne : entry.scheduler.handed 1 ≠ [] := by
    rw [Workers.handed, hentry, Option.map_some, Option.getD_some] at hhanded
    simp [hhanded]
  have hd := h.translated 1 work _ _ hwork hdirect hreturned 0 entry hentry hne
  rw [hd.pivot] at hpivot
  cases hpivot

end Dragomand
