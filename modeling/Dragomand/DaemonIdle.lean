import Dragomand.Daemon
import Dragomand.RequestSlots
import Dragomand.WorkersRoutes

/-!
# The idle exit

`wait_until_idle` reads `active_count`, the registry and the activity
stamp one after the other, and main releases the name before it exits.
The count stands for the live requests as long as no slot of one is taken
out of the table by somebody else (`SlotsKept`); the registry stands for
the work at the engine as long as routes are removed idle and submitted
to while registered (`RoutesKept`); the stamp stands for the calls that
touched it. What happens between the three reads and the exit is in
`late` and `seen`. `IdleSafe` says all this of one step.
-/

namespace Dragomand

/-! ## Live requests have their slots -/

/-- Registered, and neither failed nor past `emit_response`. -/
def Phase.live (phase : Phase) : Bool := phase = .registered || phase.pending

def Requests.live (s : Requests) (id : Nat) : Bool := s.calls[id]?.any fun c => c.phase.live

/-- The slots of live requests are in the table. -/
def SlotsKept (s : Requests) : Prop :=
  ∀ (id : Nat) (c : Call), s.calls[id]? = some c → c.phase.live = true →
    (⟨c.path, id⟩ : Slot) ∈ s.manager.slots c.sender

/-- The steps that take no slot of a live request out of the table, but for
the one of their own call. -/
def KeepsSlots (s : Requests) : RequestEvent → Prop
  | .rollback id | .release id =>
      ∀ c ∈ (s.calls[id]?).toList, ∀ slot ∈ s.manager.slots c.sender,
        slot.path = c.path → slot.call = id ∨ s.live slot.call = false
  | .cancelClient sender => ∀ slot ∈ s.manager.slots sender, s.live slot.call = false
  | _ => True

instance (s : Requests) (e : RequestEvent) : Decidable (KeepsSlots s e) :=
  match e with
  | .enter _ _ | .register _ | .at _ _ | .rollback _ | .progress _ _ _ | .work _ _
  | .cancelWins _ | .panic _ | .decide _ | .emit _ _ | .remove _ | .release _ | .cancel _
  | .vanish _ | .cancelClient _ | .cancelNext => by delta KeepsSlots; infer_instance

theorem RequestManager.slots_eq_nil {m : RequestManager} (h : m.active_count = 0)
    (sender : String) : m.slots sender = [] := by
  unfold slots
  cases hm : m.clients.lookup sender with
  | none => rfl
  | some requests =>
      have hall := List.sum_eq_zero_iff_forall_eq_nat.mp h
      have hlen := hall requests.length
        (List.mem_map.mpr ⟨⟨sender, requests⟩, AList.mem_lookup_iff.mp hm, rfl⟩)
      exact List.length_eq_zero_iff.mp hlen

section Slots

variable {display : Error → String} {s s' : Requests} {e : RequestEvent}

theorem Requests.live_of_call {id : Nat} {c : Call} (hcall : s.calls[id]? = some c) :
    s.live id = c.phase.live := by
  simp [live, hcall]

/-- A change of phase that makes no call live. -/
theorem SlotsKept.setPhase (hs : SlotsKept s) {id : Nat} {c : Call} {phase : Phase}
    (hcall : s.calls[id]? = some c) (hphase : phase.live = true → c.phase.live = true)
    (hcalls : s'.calls = (s.setPhase id phase).calls)
    (hslots : ∀ id' c', s.calls[id']? = some c' → c'.phase.live = true →
      (id' = id → phase.live = true) → (⟨c'.path, id'⟩ : Slot) ∈ s.manager.slots c'.sender →
      (⟨c'.path, id'⟩ : Slot) ∈ s'.manager.slots c'.sender) : SlotsKept s' := by
  intro id' c' hcall' hlive
  rw [hcalls] at hcall'
  rcases Requests.calls_setPhase_eq_some hcall' with ⟨rfl, c₀, hc₀, rfl⟩ | ⟨hne, hold⟩
  · obtain rfl := Option.some.inj (hcall.symm.trans hc₀)
    exact hslots id' c hcall (hphase hlive) (fun _ => hlive) (hs id' c hcall (hphase hlive))
  · exact hslots id' c' hold hlive (fun hid => absurd hid hne) (hs id' c' hold hlive)

theorem SlotsKept.of_calls (hs : SlotsKept s)
    (hcalls : ∀ (id : Nat) (c' : Call), s'.calls[id]? = some c' → c'.phase.live = true →
      ∃ c, s.calls[id]? = some c ∧ c.phase.live = true ∧ c.path = c'.path
        ∧ c.sender = c'.sender)
    (hslots : s'.manager = s.manager) : SlotsKept s' := by
  intro id c' hcall' hlive
  obtain ⟨c, hcall, hlive₀, hpath, hsender⟩ := hcalls id c' hcall' hlive
  rw [hslots, ← hpath, ← hsender]
  exact hs id c hcall hlive₀

theorem SlotsKept.cancelHandle (hs : SlotsKept s) {id : Nat}
    (hcalls : s'.calls = (s.cancelHandle id).calls) (hslots : s'.manager = s.manager) :
    SlotsKept s' := by
  refine hs.of_calls (fun id' c' hcall' hlive => ?_) hslots
  rw [hcalls] at hcall'
  obtain ⟨c, hcall, rfl⟩ := Requests.calls_cancelHandle_eq_some hcall'
  exact ⟨c, hcall, hlive, rfl, rfl⟩

/-- A release that takes no live request's slot but the call's own. -/
theorem SlotsKept.release (hs : SlotsKept s) {id : Nat} {c : Call} {phase : Phase}
    (hcall : s.calls[id]? = some c) (hphase : phase.live = false)
    (hok : ∀ c ∈ (s.calls[id]?).toList, ∀ slot ∈ s.manager.slots c.sender,
      slot.path = c.path → slot.call = id ∨ s.live slot.call = false)
    (hcalls : s'.calls = (s.setPhase id phase).calls)
    (hslots : s'.manager = s.manager.release c.sender c.path) : SlotsKept s' := by
  have hown := hok c (by simp [hcall])
  refine hs.setPhase hcall (by simp [hphase]) hcalls fun id' c' hcall' hlive hid hmem => ?_
  rw [hphase] at hid
  rw [hslots]
  by_cases hsender : c'.sender = c.sender
  · rw [hsender] at hmem ⊢
    rw [RequestManager.slots_release_self]
    refine List.mem_filter.mpr ⟨hmem, decide_eq_true fun hpath => ?_⟩
    rcases hown _ hmem hpath with hself | hdead
    · exact absurd (hid hself) (by simp)
    · rw [Requests.live_of_call hcall', hlive] at hdead
      cases hdead
  · rwa [RequestManager.slots_release_of_ne _ hsender]

theorem slotsKept_step (h : s.Transition display e s') (hok : KeepsSlots s e)
    (hs : SlotsKept s) : SlotsKept s' := by
  cases h with
  | @enter sender token c hsender hflag hphase =>
      refine hs.of_calls (fun id c' hcall' hlive => ?_) rfl
      have hcalls : (s.calls ++ [c])[id]? = some c' := hcall'
      by_cases hlt : id < s.calls.length
      · rw [List.getElem?_append_left hlt] at hcalls
        exact ⟨c', hcalls, hlive, rfl, rfl⟩
      · rw [List.getElem?_append_right (Nat.le_of_not_lt hlt)] at hcalls
        obtain rfl := List.mem_singleton.mp (List.mem_of_getElem? hcalls)
        rcases hphase with hp | ⟨error, hp⟩ <;> simp [hp, Phase.live, Phase.pending] at hlive
  | refuse hcall hphase =>
      exact hs.setPhase hcall (by simp [Phase.live, Phase.pending]) rfl fun _ _ _ _ _ h => h
  | @register id c manager hcall hphase hreg =>
      obtain ⟨-, hself, hother⟩ := RequestManager.register_eq_ok hreg
      intro id' c' hcall' hlive
      rcases Requests.calls_setPhase_eq_some hcall' with ⟨rfl, c₀, hc₀, rfl⟩ | ⟨hne, hold⟩
      · obtain rfl := Option.some.inj (hcall.symm.trans hc₀)
        show _ ∈ manager.slots c.sender
        simp [hself]
      · show _ ∈ manager.slots c'.sender
        have hmem := hs id' c' hold hlive
        by_cases hsender : c'.sender = c.sender
        · rw [hsender] at hmem ⊢
          rw [hself]
          exact List.mem_append_left _ hmem
        · rwa [hother _ hsender]
  | rollback hcall hphase | release hcall hphase => exact hs.release hcall rfl hok rfl rfl
  | serverError hcall hphase | duplicate hcall hphase | accept hcall hphase
  | work hcall hphase | cancelWins hcall hphase | panic hcall hphase | decide hcall hphase
  | emit hcall hphase | unsent hcall hphase | emitLost hcall hphase | remove hcall hphase =>
      exact hs.setPhase hcall (by simp [hphase, Phase.live, Phase.pending]) rfl
        fun _ _ _ _ _ h => h
  | progress | progressLost | vanish => exact hs
  | cancel | cancelNext => exact hs.cancelHandle rfl rfl
  | @cancelClient sender hgone hidle =>
      intro id c hcall hlive
      have hmem := hs id c hcall hlive
      show _ ∈ (s.manager.removeClient sender).slots c.sender
      by_cases hsender : c.sender = sender
      · subst hsender
        have hcall₀ : s.calls[id]? = some c := hcall
        have hdead : s.live id = false := hok _ hmem
        rw [Requests.live_of_call hcall₀, hlive] at hdead
        cases hdead
      · rwa [RequestManager.slots_removeClient_of_ne _ hsender]

/-- An empty table says that no request is live. -/
theorem SlotsKept.none_live (hs : SlotsKept s) (hcount : s.manager.active_count = 0) (id : Nat) :
    s.live id = false := by
  cases hcall : s.calls[id]? with
  | none => simp [Requests.live, hcall]
  | some c =>
      rw [Requests.live_of_call hcall]
      refine Bool.eq_false_iff.mpr fun hlive => ?_
      have hmem := hs id c hcall hlive
      rw [RequestManager.slots_eq_nil hcount] at hmem
      cases hmem

theorem Requests.live_setPhase {id : Nat} {phase : Phase} (hphase : phase.live = false)
    (hnone : ∀ id, s.live id = false) (id' : Nat) : (s.setPhase id phase).live id' = false := by
  unfold live
  cases hcall' : (s.setPhase id phase).calls[id']? with
  | none => rfl
  | some c' =>
      rcases Requests.calls_setPhase_eq_some hcall' with ⟨rfl, c, -, rfl⟩ | ⟨-, hold⟩
      · exact hphase
      · rw [← hnone id', Requests.live_of_call hold]
        rfl

theorem Requests.live_cancelHandle (id id' : Nat) : (s.cancelHandle id).live id' = s.live id' := by
  unfold live
  by_cases h : id' = id
  · subst h
    cases hcall : s.calls[id']? <;> simp [cancelHandle, hcall]
  · rw [Requests.calls_cancelHandle_of_ne h]

/-- Where no request is live, only a registration makes one. -/
theorem Requests.none_live_step (h : s.Transition display e s')
    (hreg : s'.registers e = false) (hnone : ∀ id, s.live id = false) (id' : Nat) :
    s'.live id' = false := by
  have hdead : ∀ {id : Nat} {c : Call}, s.calls[id]? = some c → c.phase.live = true → False := by
    intro id c hcall hlive
    have := hnone id
    rw [Requests.live_of_call hcall, hlive] at this
    cases this
  cases h with
  | @enter sender token c hsender hflag hphase =>
      unfold live
      by_cases hlt : id' < s.calls.length
      · rw [List.getElem?_append_left hlt]
        exact hnone id'
      · cases hcall : (s.calls ++ [c])[id']? with
        | none => rfl
        | some c' =>
            rw [List.getElem?_append_right (Nat.le_of_not_lt hlt)] at hcall
            obtain rfl := List.mem_singleton.mp (List.mem_of_getElem? hcall)
            rcases hphase with hp | ⟨error, hp⟩ <;> simp [hp, Phase.live, Phase.pending]
  | @register id c manager hcall hphase hok =>
      simp [registers, Requests.setPhase, hcall] at hreg
  | refuse hcall hphase | rollback hcall hphase | remove hcall hphase | release hcall hphase =>
      exact Requests.live_setPhase rfl hnone id'
  | serverError hcall hphase | duplicate hcall hphase | accept hcall hphase
  | work hcall hphase | cancelWins hcall hphase | panic hcall hphase | decide hcall hphase
  | emit hcall hphase | unsent hcall hphase | emitLost hcall hphase
  | progress hcall hphase | progressLost hcall hphase =>
      exact (hdead hcall (by simp [hphase, Phase.live, Phase.pending])).elim
  | vanish | cancelClient => exact hnone id'
  | cancel | cancelNext => exact (Requests.live_cancelHandle _ id').trans (hnone id')

end Slots

/-! ## Routes out of the registry have no work -/

structure RoutesKept (w : Workers) : Prop where
  free : LoadingFree w
  accounted : ∀ (k : Nat) (entry : PairEntry), w.heap[k]? = some entry →
    Accounted entry.scheduler
  idle : ∀ (k : Nat) (entry : PairEntry), w.heap[k]? = some entry → w.registered k = false →
    entry.scheduler.unfinished = []

/-- The steps that remove no pinned route, and submit to registered ones. -/
def KeepsRoutes (w : Workers) : WorkersEvent → Prop
  | .advance =>
      ∀ entry ∈ ((w.victim.bind fun key => w.entries.lookup key).bind fun k => w.heap[k]?).toList,
        entry.is_pinned = false
  | .submit _ k _ _ _ _ => w.registered k = true
  | _ => True

instance (w : Workers) (e : WorkersEvent) : Decidable (KeepsRoutes w e) :=
  match e with
  | .ensure _ _ _ _ _ _ _ | .loaded _ | .abort _ | .submit _ _ _ _ _ _ | .stamp _ | .dropArc _ _
  | .evict _ | .scan _ | .advance | .scheduler _ _ | .cancel _ | .tick => by
      delta KeepsRoutes; infer_instance

/-- A route that is not pinned has no job. -/
theorem Accounted.idle {entry : PairEntry} (ha : Accounted entry.scheduler)
    (h : entry.is_pinned = false) : entry.scheduler.unfinished = [] := by
  have hactive : entry.scheduler.queue.active = 0 := by
    simpa [PairEntry.is_pinned] using h
  rw [ha.active] at hactive
  exact List.length_eq_zero_iff.mp hactive

section Routes

variable {translate : ModelSpec → Option ModelSpec → Bool → List String → List Translation}
  {w w' : Workers} {e : WorkersEvent}

theorem Scheduler.Transition.finished_length_le {translate : Bool → List String → List Translation}
    {flags : Nat → Bool} {s s' : Scheduler} (h : s.Transition translate flags s') :
    s.finished.length ≤ s'.finished.length := by
  cases h with
  | finish => exact Nat.le_succ _
  | accept | refuse | close | wake | permit | take | leave | await | consume | park | resume
  | skip | check | call | requeue | answer | drain | leftover | stop | completed | progressed
  | failed => exact le_rfl

theorem Scheduler.Transition.unfinished_length_le
    {translate : Bool → List String → List Translation} {flags : Nat → Bool} {s s' : Scheduler}
    (h : s.Transition translate flags s') (ha : Accounted s) (hacc : s'.accepted = s.accepted) :
    s'.unfinished.length ≤ s.unfinished.length := by
  have hbefore := ha.split.length_eq
  have hafter := (accounted_step h ha).split.length_eq
  have hfinished := h.finished_length_le
  rw [hacc] at hafter
  rw [List.length_append] at hbefore hafter
  omega

theorem PairEntry.Evolves.accounted {flags : Nat → Bool} {k : Nat} {entry entry' : PairEntry}
    (h : entry.Evolves translate flags e k entry') (ha : Accounted entry.scheduler) :
    Accounted entry'.scheduler := by
  cases h with
  | same | stamped => exact ha
  | closed => exact accounted_step (@Scheduler.Transition.close (fun _ _ => []) flags _) ha
  | @submitted caller cancelled segments html priority s he hs =>
      have hstep : entry.scheduler.step (fun _ _ => []) flags
          (.submit segments html priority cancelled) = some s := by
        simp [Scheduler.step, hs]
      exact accounted_step (Scheduler.step_cases hstep) ha
  | scheduled hsubmit hs => exact accounted_step (Scheduler.step_cases hs) ha

/-- Only a submit gives a route work. -/
theorem PairEntry.Evolves.unfinished {flags : Nat → Bool} {k : Nat} {entry entry' : PairEntry}
    (h : entry.Evolves translate flags e k entry') (ha : Accounted entry.scheduler)
    (hidle : entry.scheduler.unfinished = []) :
    entry'.scheduler.unfinished = []
      ∨ ∃ caller segments html priority cancelled,
          e = .submit caller k segments html priority cancelled := by
  cases h with
  | same | stamped | closed => exact Or.inl hidle
  | submitted he hs => exact Or.inr ⟨_, _, _, _, _, he⟩
  | scheduled hsubmit hs =>
      have hle := (Scheduler.step_cases hs).unfinished_length_le ha
        (Scheduler.step_accepted hs hsubmit)
      rw [hidle] at hle
      exact Or.inl (List.length_eq_zero_iff.mp (Nat.le_zero.mp hle))

/-- A route leaves the registry as the victim of an eviction. -/
theorem Workers.Effect.registered (h : w.Effect e w') {k : Nat} (hreg : w.registered k = true) :
    w'.registered k = true
      ∨ e = .advance ∧ ∃ key, w.victim = some key ∧ w.entries.lookup key = some k := by
  obtain ⟨key, hlookup⟩ := Workers.registered_iff.mp hreg
  have hkept : w'.entries.lookup key = some k → w'.registered k = true :=
    fun h => Workers.registered_iff.mpr ⟨key, h⟩
  cases h with
  | quiet hentries | hold _ hentries | touch _ hentries => exact Or.inl (hkept (hentries ▸ hlookup))
  | @insert _ _ caller entry hfree haccepts hentries hheap hholders =>
      have hne : key ≠ entry.key := by
        rintro rfl
        rw [hfree] at hlookup
        cases hlookup
      exact Or.inl (hkept (by rw [hentries, AList.lookup_insert_ne hne, hlookup]))
  | @remove _ key' hvictim hentries hheap hholders =>
      by_cases hkey : key = key'
      · subst hkey
        exact Or.inr ⟨rfl, key, hvictim, hlookup⟩
      · refine Or.inl (hkept ?_)
        rw [hentries]
        unfold Workers.remove
        split
        · exact hlookup
        · rw [Workers.entries_dropped, AList.lookup_erase_ne hkey, hlookup]
  | drop => exact Or.inl (hkept (by rw [Workers.entries_dropped, hlookup]))

theorem routesKept_step (h : w.step translate e = some w') (hok : KeepsRoutes w e)
    (hr : RoutesKept w) : RoutesKept w' where
  free := loadingFree_step h hr.free
  accounted := by
    intro k entry' hentry'
    rcases Workers.heap_cases h hentry' with ⟨entry, hentry, hev⟩ | ⟨-, _, _, _, _, _, _, _, -, rfl⟩
    · exact hev.accounted (hr.accounted k entry hentry)
    · exact (@routeInv_init fun _ text => ⟨text, []⟩).accounted
  idle := by
    intro k entry' hentry' hout
    rcases Workers.heap_cases h hentry' with ⟨entry, hentry, hev⟩ | ⟨-, _, _, _, _, _, _, _, -, rfl⟩
    · have ha := hr.accounted k entry hentry
      cases hreg : w.registered k with
      | false =>
          rcases hev.unfinished ha (hr.idle k entry hentry hreg) with hidle | ⟨_, _, _, _, _, rfl⟩
          · exact hidle
          · exact absurd (hreg.symm.trans hok) (by simp)
      | true =>
          -- the step removes the route, which is not pinned
          rcases (Workers.effect_of_step h hr.free).registered hreg with
            hin | ⟨rfl, key, hvictim, hlookup⟩
          · rw [hout] at hin
            cases hin
          · have hunpinned := hok entry (by simp [hvictim, hlookup, hentry])
            rcases hev.unfinished ha (ha.idle hunpinned) with hidle | ⟨_, _, _, _, _, hsub⟩
            · exact hidle
            · cases hsub
    · rfl

/-- Where no route has work, only a submit gives one some. -/
theorem Workers.none_unfinished_step (h : w.step translate e = some w')
    (ha : ∀ (k : Nat) (entry : PairEntry), w.heap[k]? = some entry → Accounted entry.scheduler)
    (hsubmit : ∀ caller k segments html priority cancelled,
      e ≠ .submit caller k segments html priority cancelled)
    (hnone : ∀ (k : Nat) (entry : PairEntry), w.heap[k]? = some entry →
      entry.scheduler.unfinished = []) {k : Nat} {entry' : PairEntry}
    (hentry' : w'.heap[k]? = some entry') : entry'.scheduler.unfinished = [] := by
  rcases Workers.heap_cases h hentry' with ⟨entry, hentry, hev⟩ | ⟨-, _, _, _, _, _, _, _, -, rfl⟩
  · rcases hev.unfinished (ha k entry hentry) (hnone k entry hentry) with
      hidle | ⟨_, _, _, _, _, hsub⟩
    · exact hidle
    · exact absurd hsub (hsubmit _ _ _ _ _ _)
  · rfl

end Routes

/-! ## Time -/

/-- Time passes by itself. -/
theorem Workers.now_of_step {translate : ModelSpec → Option ModelSpec → Bool → List String →
    List Translation} {w w' : Workers} {e : WorkersEvent} (h : w.step translate e = some w') :
    w'.now = w.now ∨ e = .tick := by
  cases e with
  | ensure caller source target allow_pivot budget_mb plan specs =>
      obtain ⟨⟨w'', r⟩, hr, rfl⟩ := Option.map_eq_some_iff.mp h
      rcases (Workers.ensure_loaded_cases hr).2 with ⟨id, -, -, rfl⟩ | ⟨error, -, rfl⟩ |
        ⟨pivot, first, second, -, -, -, -, rfl⟩
      · exact Or.inl rfl
      · exact Or.inl rfl
      · exact Or.inl rfl
  | loaded result =>
      cases result <;> simp only [Workers.step, Workers.loaded] at h <;> split at h <;> cases h
      · exact Or.inl rfl
      · exact Or.inl rfl
  | abort caller =>
      simp only [Workers.step, Workers.abort] at h
      split at h
      · split at h <;> cases h
        exact Or.inl rfl
      · cases h
  | submit caller id segments html priority cancelled =>
      simp only [Workers.step] at h
      split at h <;> cases h
      exact Or.inl rfl
  | stamp id =>
      obtain ⟨entry, -, h⟩ := Option.bind_eq_some_iff.mp h
      split at h <;> cases h
      exact Or.inl rfl
  | dropArc caller id =>
      simp only [Workers.step, Workers.dropArc] at h
      split at h
      · split at h <;> cases h
        exact Or.inl (Workers.now_dropped _ _)
      · cases h
  | evict stage =>
      simp only [Workers.step, Workers.evict] at h
      split at h <;> cases h
      exact Or.inl rfl
  | scan key =>
      obtain ⟨op, rfl⟩ := Workers.scan_cases h
      exact Or.inl rfl
  | advance =>
      rcases Workers.advance_cases h with ⟨key, op, -, rfl, -⟩ | ⟨-, op, rfl, -⟩
      · exact Or.inl (Workers.now_remove _ _)
      · exact Or.inl rfl
  | scheduler id event =>
      obtain ⟨entry, s, -, -, -, rfl⟩ := Workers.schedule_cases h
      exact Or.inl rfl
  | cancel flag =>
      obtain rfl := Option.some.inj h
      exact Or.inl rfl
  | tick => exact Or.inr rfl

theorem Workers.now_le {translate : ModelSpec → Option ModelSpec → Bool → List String →
    List Translation} {w w' : Workers} {e : WorkersEvent} (h : w.step translate e = some w') :
    w.now ≤ w'.now := by
  rcases Workers.now_of_step h with hnow | rfl
  · exact hnow.ge
  · obtain rfl := Option.some.inj h
    exact Nat.le_succ _

/-- Calls are received, and the stamp is set, by now; a call that touched the
stamp was received before. -/
structure Clock (d : Daemon) : Prop where
  last : d.last ≤ d.workers.now
  received : ∀ (i : Nat) (handler : Handler), d.handlers[i]? = some handler →
    handler.received ≤ d.workers.now
  touched : ∀ (i : Nat) (handler : Handler), d.handlers[i]? = some handler →
    handler.touched = true → handler.received ≤ d.last

section Clock

variable {host : Host} {d d' : Daemon} {e : DaemonEvent}

theorem Daemon.now_le (h : d.Transition host e d') : d.workers.now ≤ d'.workers.now := by
  rcases h.workers with hw | ⟨event, hw, -⟩
  · rw [hw]
  · exact Workers.now_le hw

theorem Daemon.last_touchAgain (method : Method) :
    (d.touchAgain host method).last = d.last
      ∨ (d.touchAgain host method).last = d.workers.now := by
  unfold touchAgain
  dsimp only
  split
  · split
    · exact Or.inr rfl
    · exact Or.inl rfl
  · exact Or.inl rfl

theorem Daemon.Transition.last (h : d.Transition host e d') :
    d'.last = d.last ∨ d'.last = d.workers.now := by
  cases h with
  | touch => exact Or.inr rfl
  | answer | spawn => exact Daemon.last_touchAgain _
  | receive | noObject | cancel | task | dropWork | routes | step | progress | «return» | hit
  | failed | loading | loadFailed | loaded | submit | drop | store | configure | sleep | counted
  | emptied | timed | exit => exact Or.inl rfl

/-- A call after the step was there before, and if the step touches for it,
then now; or it is received now. -/
theorem Daemon.Transition.handler (h : d.Transition host e d') {i : Nat} {handler' : Handler}
    (hhandler' : d'.handlers[i]? = some handler') :
    (∃ handler, d.handlers[i]? = some handler ∧ handler'.received = handler.received
        ∧ (handler'.touched = true → handler.touched = true ∨ d'.last = d.workers.now))
      ∨ (d.handlers[i]? = none ∧ handler'.received = d.workers.now
        ∧ handler'.touched = false) := by
  have hanswer : ∀ {handlers : List Handler} {k : Nat},
      (handlers.modify k fun handler => { handler with answered := true })[i]? = some handler' →
      ∃ handler, handlers[i]? = some handler ∧ handler'.received = handler.received
        ∧ (handler'.touched = true → handler.touched = true ∨ d'.last = d.workers.now) := by
    intro handlers k hk
    rcases getElem?_modify_cases hk with ⟨rfl, handler, hhandler, rfl⟩ | ⟨-, hhandler⟩
    · exact ⟨handler, hhandler, rfl, Or.inl⟩
    · exact ⟨handler', hhandler, rfl, Or.inl⟩
  cases h with
  | @receive sender token method =>
      have happend : (d.handlers
          ++ [(⟨sender, token, method, d.workers.now, false, false⟩ : Handler)])[i]?
            = some handler' := hhandler'
      by_cases hlt : i < d.handlers.length
      · rw [List.getElem?_append_left hlt] at happend
        exact Or.inl ⟨handler', happend, rfl, Or.inl⟩
      · rw [List.getElem?_append_right (Nat.le_of_not_lt hlt)] at happend
        obtain rfl := List.mem_singleton.mp (List.mem_of_getElem? happend)
        exact Or.inr ⟨List.getElem?_eq_none_iff.mpr (Nat.le_of_not_lt hlt), rfl, rfl⟩
  | touch =>
      rcases getElem?_modify_cases hhandler' with ⟨rfl, handler, hhandler, rfl⟩ | ⟨-, hhandler⟩
      · exact Or.inl ⟨handler, hhandler, rfl, fun _ => Or.inr rfl⟩
      · exact Or.inl ⟨handler', hhandler, rfl, Or.inl⟩
  | answer | spawn | noObject | cancel => exact Or.inl (hanswer hhandler')
  | task | dropWork | routes | step | progress | «return» | hit | failed | loading | loadFailed
  | loaded | submit | drop | store | configure | sleep | counted | emptied | timed | exit =>
      exact Or.inl ⟨handler', hhandler', rfl, Or.inl⟩

theorem clock_step (h : d.Transition host e d') (hc : Clock d) : Clock d' := by
  have hnow := Daemon.now_le h
  have hlast : d.last ≤ d'.last ∧ d'.last ≤ d.workers.now := by
    rcases h.last with hlast | hlast <;> rw [hlast]
    · exact ⟨le_rfl, hc.last⟩
    · exact ⟨hc.last, le_rfl⟩
  refine ⟨hlast.2.trans hnow, fun i handler' hhandler' => ?_, fun i handler' hhandler' ht => ?_⟩
  · rcases h.handler hhandler' with ⟨handler, hhandler, hreceived, -⟩ | ⟨-, hreceived, -⟩
    · rw [hreceived]
      exact (hc.received i handler hhandler).trans hnow
    · rw [hreceived]
      exact hnow
  · rcases h.handler hhandler' with ⟨handler, hhandler, hreceived, htouch⟩ | ⟨-, -, hnot⟩
    · rw [hreceived]
      rcases htouch ht with hold | hnew
      · exact (hc.touched i handler hhandler hold).trans hlast.1
      · rw [hnew]
        exact hc.received i handler hhandler
    · rw [ht] at hnot
      cases hnot

end Clock

/-! ## Leaving the main loop -/

/-- `active_count` was zero in this round. -/
def Main.pastCount : Main → Bool
  | .sleeping _ => false
  | _ => true

/-- The registry was empty in this round. -/
def Main.pastEmpty : Main → Bool
  | .sleeping _ | .counted _ => false
  | _ => true

/-- The steps that take no slot of a live request but the call's own, send
the signals they are to send, remove no pinned route and submit to
registered ones; and the exit, if no call registered since the count, and
the calls received within `idle_exit` had touched the stamp when it was
read. -/
def IdleSafe (d : Daemon) : DaemonEvent → Prop
  | .requests event => KeepsSlots d.requests event ∧ SignalsSent d.requests event
  | .workers event => KeepsRoutes d.workers event
  | .work id event =>
      ∀ submitter ∈ (d.submitter (.work id event)).toList,
        d.workers.registered submitter.2 = true
  | .exit =>
      match d.main with
      | .idle idle_exit => d.late = false
          ∧ ∀ i < d.handlers.length, ∀ handler ∈ (d.handlers[i]?).toList,
            d.workers.now < handler.received + idle_exit → i ∈ d.seen
      | _ => True
  | _ => True

instance (d : Daemon) (e : DaemonEvent) : Decidable (IdleSafe d e) := by
  cases e with
  | exit =>
      unfold IdleSafe
      dsimp only
      split <;> infer_instance
  | _ => unfold IdleSafe; infer_instance

section Step

variable {host : Host} {d d' : Daemon} {e : DaemonEvent}

theorem Daemon.Transition.requests_safe (h : d.Transition host e d') (hok : IdleSafe d e) :
    d'.requests = d.requests
      ∨ ∃ event, d.requests.step host.display event = some d'.requests
          ∧ KeepsSlots d.requests event ∧ SignalsSent d.requests event
          ∧ (d'.late = false → d'.requests.registers event = false) := by
  cases h with
  | receive | touch | answer | noObject | routes | step | hit | failed | loading | loadFailed
  | loaded | submit | drop | store | configure | sleep | counted | emptied | timed | exit =>
      exact Or.inl rfl
  | @spawn h handler prog hhandler hcheck hfuture =>
      exact Or.inr ⟨.enter handler.sender handler.token, rfl, trivial, trivial, fun _ => rfl⟩
  | cancel hhandler hmethod hr => exact Or.inr ⟨_, hr, trivial, trivial, fun _ => rfl⟩
  | task htask hr =>
      exact Or.inr ⟨_, hr, hok.1, hok.2, fun hlate => (Bool.or_eq_false_iff.mp hlate).2⟩
  | dropWork hevent hr hw =>
      refine Or.inr ⟨_, hr, hok.1, hok.2, fun _ => ?_⟩
      rcases hevent with rfl | rfl <;> rfl
  | progress hat hr | «return» hat hr =>
      exact Or.inr ⟨_, hr, trivial, trivial, fun _ => rfl⟩

theorem Daemon.Transition.workers_safe (h : d.Transition host e d') (hok : IdleSafe d e) :
    d'.workers = d.workers
      ∨ ∃ event, d.workers.step host.translate event = some d'.workers
          ∧ KeepsRoutes d.workers event ∧ d.Drives e event := by
  rcases h.workers with hw | ⟨event, hw, hdrives⟩
  · exact Or.inl hw
  · refine Or.inr ⟨event, hw, ?_, hdrives⟩
    cases event with
    | advance =>
        obtain rfl := hdrives.free rfl
        exact hok
    | submit caller k segments html priority cancelled =>
        have hsubmitter : d.submitter e = some (cancelled, k) := hdrives.submitter.symm
        cases e with
        | work id event => exact hok (cancelled, k) (by simp [hsubmitter])
        | _ => cases hsubmitter
    | _ => trivial

/-- The round of `wait_until_idle` goes on, and with it the time since the
count; or the count is read now. -/
theorem Daemon.Transition.pastCount (h : d.Transition host e d')
    (hpast : d'.main.pastCount = true) :
    (d.main.pastCount = true ∧ (d'.late = false → d.late = false))
      ∨ (d'.requests = d.requests ∧ d.requests.manager.active_count = 0) := by
  cases h with
  | receive | touch | answer | spawn | noObject | cancel | dropWork | routes | step | progress
  | «return» | hit | failed | loading | loadFailed | loaded | submit | drop | store | configure =>
      exact Or.inl ⟨hpast, id⟩
  | task => exact Or.inl ⟨hpast, fun hlate => (Bool.or_eq_false_iff.mp hlate).1⟩
  | sleep => cases hpast
  | counted hmain hcount => exact Or.inr ⟨rfl, hcount⟩
  | emptied hmain | timed hmain | exit hmain => exact Or.inl ⟨by rw [hmain]; rfl, id⟩

theorem Daemon.Transition.pastEmpty (h : d.Transition host e d')
    (hpast : d'.main.pastEmpty = true) :
    (d.main.pastEmpty = true ∧ (d'.late = false → d.late = false))
      ∨ (d'.workers = d.workers ∧ d.workers.entries.keys = []) := by
  cases h with
  | receive | touch | answer | spawn | noObject | cancel | dropWork | routes | step | progress
  | «return» | hit | failed | loading | loadFailed | loaded | submit | drop | store | configure =>
      exact Or.inl ⟨hpast, id⟩
  | task => exact Or.inl ⟨hpast, fun hlate => (Bool.or_eq_false_iff.mp hlate).1⟩
  | sleep | counted => cases hpast
  | emptied hmain hlock hempty => exact Or.inr ⟨rfl, hempty⟩
  | timed hmain | exit hmain => exact Or.inl ⟨by rw [hmain]; rfl, id⟩

theorem Daemon.Transition.timed_cases (h : d.Transition host e d') {idle_exit : Nat}
    (hmain' : d'.main = .idle idle_exit) :
    (d.main = .idle idle_exit ∧ d'.seen = d.seen)
      ∨ (d'.handlers = d.handlers ∧ d'.workers = d.workers
        ∧ idle_exit ≤ d.workers.now - d.last
        ∧ d'.seen = (List.range d.handlers.length).filter fun i =>
            d.handlers[i]?.any Handler.touched) := by
  cases h with
  | receive | touch | answer | spawn | noObject | cancel | task | dropWork | routes | step
  | progress | «return» | hit | failed | loading | loadFailed | loaded | submit | drop | store
  | configure => exact Or.inl ⟨hmain', rfl⟩
  | sleep | counted | emptied | exit => cases hmain'
  | timed hmain hidle =>
      cases hmain'
      exact Or.inr ⟨rfl, rfl, hidle, rfl⟩

theorem Daemon.Transition.exit_cases (h : d.Transition host e d') {idle_exit : Nat}
    (hrunning : d.main ≠ .exited idle_exit) (hmain' : d'.main = .exited idle_exit) :
    e = .exit ∧ d.main = .idle idle_exit ∧ d' = { d with main := .exited idle_exit } := by
  cases h with
  | receive | touch | answer | spawn | noObject | cancel | task | dropWork | routes | step
  | progress | «return» | hit | failed | loading | loadFailed | loaded | submit | drop | store
  | configure => exact absurd hmain' hrunning
  | sleep | counted | emptied | timed => cases hmain'
  | exit hmain =>
      cases hmain'
      exact ⟨rfl, hmain, rfl⟩

theorem Daemon.Transition.length_handlers_le (h : d.Transition host e d') :
    d.handlers.length ≤ d'.handlers.length := by
  cases h with
  | receive =>
      show _ ≤ (d.handlers ++ [_]).length
      rw [List.length_append]
      exact Nat.le_add_right ..
  | touch | answer | spawn | noObject | cancel => exact (List.length_modify ..).ge
  | task | dropWork | routes | step | progress | «return» | hit | failed | loading | loadFailed
  | loaded | submit | drop | store | configure | sleep | counted | emptied | timed | exit =>
      exact le_rfl

/-- What the three readings of a round say, as long as no call has
registered since the first. -/
structure IdleInv (d : Daemon) : Prop where
  clock : Clock d
  quiet : d.main.pastCount = true → d.late = false → ∀ id, d.requests.live id = false
  unused : d.main.pastEmpty = true → d.late = false →
    ∀ (k : Nat) (entry : PairEntry), d.workers.heap[k]? = some entry →
      entry.scheduler.unfinished = []
  timed : ∀ idle_exit, d.main = .idle idle_exit → ∀ i ∈ d.seen, i < d.handlers.length
    ∧ ∀ handler, d.handlers[i]? = some handler → handler.received + idle_exit ≤ d.workers.now

theorem Main.pastCount_of_pastEmpty {main : Main} (h : main.pastEmpty = true) :
    main.pastCount = true := by
  cases main <;> first | rfl | cases h

theorem Requests.live_of_selecting {s : Requests} {id : Nat} (h : s.selecting id = true) :
    s.live id = true := by
  obtain ⟨c, hcall, hphase⟩ := (Option.any_eq_true _ _).mp h
  rw [Requests.live_of_call hcall, of_decide_eq_true hphase]
  rfl

theorem idleInv_step (h : d.Transition host e d') (hok : IdleSafe d e)
    (hslots : SlotsKept d.requests) (hroutes : RoutesKept d.workers) (hi : IdleInv d) :
    IdleInv d' where
  clock := clock_step h hi.clock
  quiet hpast hlate := by
    rcases h.pastCount hpast with ⟨hbefore, hnot⟩ | ⟨hr, hcount⟩
    · have hnone := hi.quiet hbefore (hnot hlate)
      rcases h.requests_safe hok with hr | ⟨event, hr, -, -, hreg⟩
      · rwa [hr]
      · exact Requests.none_live_step (Requests.step_cases hr) (hreg hlate) hnone
    · rw [hr]
      exact hslots.none_live hcount
  unused hpast hlate k entry hentry := by
    rcases h.pastEmpty hpast with ⟨hbefore, hnot⟩ | ⟨hw, hempty⟩
    · have hnone := hi.unused hbefore (hnot hlate)
      rcases h.workers with hw | ⟨event, hw, hdrives⟩
      · exact hnone k entry (hw ▸ hentry)
      · refine Workers.none_unfinished_step hw hroutes.accounted ?_ hnone hentry
        -- a submit is a live request's
        rintro caller k' segments html priority cancelled rfl
        have hlive := Requests.live_of_selecting (hdrives.selecting cancelled k' rfl)
        rw [hi.quiet (Main.pastCount_of_pastEmpty hbefore) (hnot hlate)] at hlive
        cases hlive
    · rw [hw] at hentry
      refine hroutes.idle k entry hentry (Bool.eq_false_iff.mpr fun hreg => ?_)
      obtain ⟨key, hlookup⟩ := Workers.registered_iff.mp hreg
      have hmem : key ∈ d.workers.entries.keys :=
        AList.lookup_isSome.mp (by rw [hlookup]; rfl)
      rw [hempty] at hmem
      cases hmem
  timed idle_exit hmain' i hseen := by
    rcases h.timed_cases hmain' with ⟨hmain, hsame⟩ | ⟨hhandlers, hw, hidle, hnow⟩
    · rw [hsame] at hseen
      obtain ⟨hlt, hreceived⟩ := hi.timed idle_exit hmain i hseen
      refine ⟨hlt.trans_le h.length_handlers_le, fun handler' hhandler' => ?_⟩
      rcases h.handler hhandler' with ⟨handler, hhandler, hsame, -⟩ | ⟨hnone, -, -⟩
      · rw [hsame]
        exact (hreceived handler hhandler).trans (Daemon.now_le h)
      · exact absurd (List.getElem?_eq_none_iff.mp hnone) (Nat.not_le.mpr hlt)
    · -- the calls seen have touched, and the stamp is old enough
      rw [hnow] at hseen
      obtain ⟨hrange, htouched⟩ := List.mem_filter.mp hseen
      rw [hhandlers, hw]
      refine ⟨List.mem_range.mp hrange, fun handler hhandler => ?_⟩
      rw [hhandler, Option.any_some] at htouched
      have hlast := hi.clock.touched i handler hhandler htouched
      have hbound := hi.clock.last
      omega

end Step

/-! ## Whole runs -/

section Runs

variable {host : Host} {config : Config} {d : Daemon} {idle_exit : Nat}

theorem requests_of_reach
    (h : Machine.Reach (Daemon.step host) IdleSafe (Daemon.init config host) d) :
    Machine.Reach (Requests.step host.display) (fun s e => KeepsSlots s e ∧ SignalsSent s e)
      Requests.init d.requests := by
  refine @Machine.Reach.project _ _ _ _ _ _ _ _ _ _ Daemon.requests
    (fun d e d' _ hok hs => ?_) h
  rcases (Daemon.step_cases hs).2.requests_safe hok with hr | ⟨event, hr, hkeeps, hsent, -⟩
  · rw [hr]
    exact .init
  · exact .one ⟨hkeeps, hsent⟩ hr

theorem slotsKept_of_reach
    (h : Machine.Reach (Daemon.step host) IdleSafe (Daemon.init config host) d) :
    SlotsKept d.requests :=
  (requests_of_reach h).invariant (by simp [SlotsKept, Requests.init])
    fun _ _ _ _ hok hs hi => slotsKept_step (Requests.step_cases hs) hok.1 hi

theorem routesKept_of_reach
    (h : Machine.Reach (Daemon.step host) IdleSafe (Daemon.init config host) d) :
    RoutesKept d.workers := by
  refine @Machine.Reach.invariant _ _ _ _ _ _ (fun d => RoutesKept d.workers) h ?_ ?_
  · exact ⟨nofun, by simp [Daemon.init, Workers.init], by simp [Daemon.init, Workers.init]⟩
  · intro d e d' _ hok hs hi
    rcases (Daemon.step_cases hs).2.workers_safe hok with hw | ⟨event, hw, hkeeps, -⟩
    · rwa [hw]
    · exact routesKept_step hw hkeeps hi

theorem idleInv_init : IdleInv (Daemon.init config host) where
  clock := ⟨le_rfl, by simp [Daemon.init], by simp [Daemon.init]⟩
  quiet := nofun
  unused := nofun
  timed := nofun

theorem idleInv_of_reach
    (h : Machine.Reach (Daemon.step host) IdleSafe (Daemon.init config host) d) : IdleInv d :=
  h.invariant idleInv_init fun _ _ _ hpre hok hs hi =>
    idleInv_step (Daemon.step_cases hs).2 hok (slotsKept_of_reach hpre)
      (routesKept_of_reach hpre) hi

/-- The history of an accepted request that is not live has its Response. -/
theorem RequestsInv.responded {s : Requests} (hi : RequestsInv host.display s)
    (hsent : NothingUnsent s) {id : Nat} (haccepted : .accepted id ∈ s.log)
    (hlive : s.live id = false) :
    ∃ code results, .response id id code results ∈ s.log := by
  have hlt : id < s.calls.length := hi.known.log _ haccepted
  have hcall := List.getElem?_eq_getElem hlt
  have hstory := hi.told.story id _ hcall
  have hdone : ¬ s.Unanswered id := by
    rw [hi.told.unanswered_iff hcall]
    intro hpending
    rw [Requests.live_of_call hcall, Phase.live, hpending, Bool.or_true] at hlive
    cases hlive
  unfold Requests.Unanswered at hdone
  push Not at hdone
  obtain ⟨sig, hmem, hsig⟩ := hdone haccepted
  have hresponse : sig.isResponse = true := by
    refine Bool.not_eq_false _ ▸ fun hnot => ?_
    exact hsig hnot (hsent sig (List.mem_of_mem_filter hmem))
  have hown : sig.call = id := of_decide_eq_true (List.mem_filter.mp hmem).2
  cases sig with
  | response call object code results =>
      obtain rfl : call = id := hown
      obtain rfl := hstory.object_eq _ hmem object rfl
      exact ⟨code, results, List.mem_of_mem_filter hmem⟩
  | _ => cases hresponse

/-- What an idle exit leaves behind. -/
structure IdleExit (d : Daemon) (idle_exit : Nat) : Prop where
  /-- Every accepted request has had its Response, and no registered one
  waits to be accepted; -/
  answered : ∀ id, .accepted id ∈ d.requests.log →
    ∃ code results, .response id id code results ∈ d.requests.log
  settled : ∀ id, d.requests.live id = false
  /-- no job is queued or running; -/
  drained : ∀ (k : Nat) (entry : PairEntry), d.workers.heap[k]? = some entry →
    entry.scheduler.unfinished = []
  /-- and no call was received during the last `idle_exit`. -/
  quiet : ∀ (i : Nat) (handler : Handler), d.handlers[i]? = some handler →
    handler.received + idle_exit ≤ d.workers.now

/-- **No idle exit over live work**, in every run whose steps and whose exit
are as `IdleSafe` says. -/
theorem idle_exit_over_nothing
    (h : Machine.Reach (Daemon.step host) IdleSafe (Daemon.init config host) d)
    (hmain : d.main = .exited idle_exit) : IdleExit d idle_exit := by
  cases h with
  | init => cases hmain
  | @tail d e _ hpre hok hs =>
      obtain ⟨hrunning, ht⟩ := Daemon.step_cases hs
      obtain ⟨rfl, hidle, rfl⟩ := ht.exit_cases (hrunning idle_exit) hmain
      have hi := idleInv_of_reach hpre
      have hr := requests_of_reach hpre
      unfold IdleSafe at hok
      simp only [hidle] at hok
      obtain ⟨hlate, htouched⟩ := hok
      have hlive := hi.quiet (by rw [hidle]; rfl) hlate
      refine ⟨fun id haccepted => ?_, hlive, hi.unused (by rw [hidle]; rfl) hlate, ?_⟩
      · exact (requestsInv_of_reach hr).responded
          (no_unsent_of_reach (hr.mono fun _ _ hok => hok.2)) haccepted (hlive id)
      · intro i handler hhandler
        by_contra hrecent
        have hseen := htouched i (List.getElem?_eq_some_iff.mp hhandler).1 handler
          (by rw [show d.handlers[i]? = some handler from hhandler]; simp) (Nat.lt_of_not_le hrecent)
        exact hrecent ((hi.timed idle_exit hidle i hseen).2 handler hhandler)

end Runs

/-! ## Two runs -/

/-- A minute passes. -/
def minute : List DaemonEvent := List.replicate 60 (.workers .tick)

/-- The request sends its Response, and its task ends. -/
def respond : List DaemonEvent :=
  [.requests (.decide 0), .requests (.emit 0 true), .requests (.remove 0), .requests (.release 0)]

/-- One round of `wait_until_idle`, and the exit. -/
def leave : List DaemonEvent := [.count, .isEmpty, .idleFor, .exit]

set_option maxRecDepth 1000 in
/-- A client translates one segment from Bulgarian to English, the route is
unloaded, and a minute passes. -/
theorem idle_exit_over_nothing_minute :
    ∃ d, Machine.Reach (Daemon.step echoHost) IdleSafe (Daemon.init .default echoHost) d
      ∧ (d.main = .exited 60 ∧ d.handlers.length = 1 ∧ d.workers.heap.length = 1
        ∧ .accepted 0 ∈ d.requests.log)
      ∧ IdleExit d 60 := by
  obtain ⟨d, hreach, hd⟩ := Machine.exists_reach_of_run (Daemon.step echoHost) IdleSafe
    (Daemon.init .default echoHost)
    ([.store bgEnDisk,
      .receive ":1.7" "t" (.translate ⟨"bg", "en", true, false, .interactive⟩ ["a"] false),
      .touch 0, .handle 0, .requests (.register 0), .requests (.at 0 none),
      .work 0 .proceed, .work 0 .proceed, .work 0 (.ensure bgEnDisk), .work 0 (.loaded (.ok 0)),
      .workers .advance, .work 0 .proceed]
      ++ List.replicate 3 (.workers (.scheduler 0 .proceed))
      ++ [.workers (.scheduler 0 (.engine none))]
      ++ List.replicate 2 (.workers (.scheduler 0 .proceed)) ++ List.replicate 4 (.work 0 .proceed)
      ++ respond
      ++ [.workers (.evict .unpinnedScan), .workers (.scan ("bg", "en")), .workers .advance,
        .workers .advance]
      ++ minute ++ leave)
    (fun d : Daemon => decide (d.main = .exited 60 ∧ d.handlers.length = 1
      ∧ d.workers.heap.length = 1 ∧ Signal.accepted 0 ∈ d.requests.log))
    (by decide +kernel)
  have hrun := of_decide_eq_true hd
  exact ⟨d, hreach, hrun, idle_exit_over_nothing hreach hrun.1⟩

/-- A client calls `CheckForUpdates`, which does not touch the activity, a
minute after the start: the daemon leaves as soon as it has answered. -/
theorem idle_exit_over_recent_call :
    ∃ d, Machine.Reach (Daemon.step echoHost) Machine.anyStep (Daemon.init .default echoHost) d
      ∧ (d.main = .exited 60 ∧ d.workers.now = 60
        ∧ d.handlers.map Handler.received = [60])
      ∧ ¬ IdleExit d 60 := by
  obtain ⟨d, hreach, hd⟩ := Machine.exists_reach_of_run (Daemon.step echoHost) Machine.anyStep
    (Daemon.init .default echoHost)
    (minute ++ [.receive ":1.7" "t" .check_for_updates, .handle 0, .requests (.register 0),
      .requests (.at 0 none), .work 0 .proceed, .work 0 (.updates (.ok [])), .work 0 .proceed,
      .work 0 .proceed]
      ++ respond ++ leave)
    (fun d : Daemon => decide (d.main = .exited 60 ∧ d.workers.now = 60
      ∧ d.handlers.map Handler.received = [60]))
    (by decide +kernel)
  have hrun := of_decide_eq_true hd
  refine ⟨d, hreach, hrun, fun h => ?_⟩
  obtain ⟨-, hnow, hreceived⟩ := hrun
  have hfirst : (d.handlers.map Handler.received)[0]? = some 60 := by rw [hreceived]; rfl
  rw [List.getElem?_map] at hfirst
  obtain ⟨handler, hhandler, hr⟩ := Option.map_eq_some_iff.mp hfirst
  have hquiet := h.quiet 0 handler hhandler
  omega

end Dragomand
