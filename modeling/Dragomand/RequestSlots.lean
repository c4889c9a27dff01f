import Mathlib.Data.List.Perm.Basic
import Mathlib.Data.List.Nodup
import Dragomand.RequestResponse

/-!
# Request-slot accounting

What the slot table says about a client, and what is true of it. A slot
is named by the call that took it, so `SlotInv` can say that the table
holds exactly the slots of the calls that hold one. Every step keeps it
as long as a release takes out its own slot only (`OwnSlots`): `release`
deletes by path, and a token in use again puts two slots under one path.
-/

namespace Dragomand

/-! ## Counting requests -/

/-- The call holds a slot of the table. -/
def Phase.holdsSlot : Phase → Bool
  | .entered | .ended | .failed _ => false
  | _ => true

/-- Between `register` and the answer of `object_server().at`, or between
the emission of `Response` and the release. -/
def Phase.transient : Phase → Bool
  | .registered | .rejected | .emitted | .removed => true
  | _ => false

def Phase.isFailed : Phase → Bool
  | .failed _ => true
  | _ => false

/-- Accepted, and no `Response` sent to the bus yet. -/
def Requests.Unanswered (s : Requests) (id : Nat) : Prop :=
  .accepted id ∈ s.log ∧ ∀ sig ∈ s.history id, sig.isResponse = false ∧ sig.isUnsent = false

instance (s : Requests) (id : Nat) : Decidable (s.Unanswered id) := by
  unfold Requests.Unanswered; infer_instance

/-- The calls of `sender` among which `p` holds. -/
def Requests.callsOf (s : Requests) (sender : String) : List Nat :=
  (List.range s.calls.length).filter fun id =>
    s.calls[id]?.any fun c => c.sender = sender

def Requests.unanswered (s : Requests) (sender : String) : Nat :=
  (s.callsOf sender).countP fun id => s.Unanswered id

def Requests.transient (s : Requests) (sender : String) : Nat :=
  (s.callsOf sender).countP fun id => s.calls[id]?.any fun c => c.phase.transient

/-! ## The invariant -/

/-- Call `id` is one of `sender`'s and holds a slot. -/
def Requests.Holds (s : Requests) (sender : String) (id : Nat) : Prop :=
  ∃ c, s.calls[id]? = some c ∧ c.sender = sender ∧ c.phase.holdsSlot = true

/-- For a connected client the table holds the slots of its calls, each
once, under their paths. -/
structure SlotsOf (s : Requests) (sender : String) : Prop where
  nodup : ((s.manager.slots sender).map (·.call)).Nodup
  holds : ∀ id, id ∈ (s.manager.slots sender).map (·.call) ↔ s.Holds sender id
  paths : ∀ slot ∈ s.manager.slots sender, ∀ c, s.calls[slot.call]? = some c →
    c.path = slot.path
  capped : (s.manager.slots sender).length ≤ MAX_REQUESTS_PER_CLIENT

def SlotInv (s : Requests) : Prop :=
  ∀ sender, sender ∉ s.vanished → SlotsOf s sender

/-- The steps whose release, if any, finds no slot but the call's own
under its path, and which are not an error of the object server; both for
clients still connected. -/
def OwnSlots (s : Requests) : RequestEvent → Prop
  | .rollback id | .release id =>
      match s.calls[id]? with
      | none => True
      | some c => c.sender ∉ s.vanished →
          ∀ slot ∈ s.manager.slots c.sender, slot.path = c.path → slot.call = id
  | .at id (some _) =>
      match s.calls[id]? with
      | none => True
      | some c => c.sender ∈ s.vanished
  | _ => True

instance (s : Requests) (e : RequestEvent) : Decidable (OwnSlots s e) :=
  match e with
  | .rollback id | .release id | .at id (some _) => by
      delta OwnSlots
      dsimp only
      exact match s.calls[id]? with
        | none => isTrue trivial
        | some _ => by infer_instance
  | .enter _ _ | .register _ | .at _ none | .progress _ _ _ | .work _ _ | .cancelWins _ | .panic _
  | .decide _ | .emit _ _ | .remove _ | .cancel _ | .vanish _ | .cancelClient _
  | .cancelNext => isTrue trivial

section Step

variable {display : Error → String} {s s' : Requests} {sender : String}

theorem Requests.holds_setPhase {id id' : Nat} {c : Call} {phase : Phase}
    (hcall : s.calls[id]? = some c) (hcalls : s'.calls = (s.setPhase id phase).calls) :
    s'.Holds sender id' ↔ if id' = id then c.sender = sender ∧ phase.holdsSlot = true
      else s.Holds sender id' := by
  unfold Holds
  rw [hcalls]
  split
  · rename_i hid
    subst hid
    rw [calls_setPhase_self hcall]
    constructor
    · rintro ⟨c', hc', hsender, hslot⟩
      cases hc'
      exact ⟨hsender, hslot⟩
    · exact fun ⟨hsender, hslot⟩ => ⟨_, rfl, hsender, hslot⟩
  · rename_i hid
    rw [calls_setPhase_of_ne hid]

/-- Steps that touch neither the client's slots nor who holds one. -/
theorem SlotsOf.of_views (hi : SlotsOf s sender)
    (hslots : s'.manager.slots sender = s.manager.slots sender)
    (hholds : ∀ id, s'.Holds sender id ↔ s.Holds sender id)
    (hpaths : ∀ (id : Nat) (c' : Call), s'.calls[id]? = some c' → id < s.calls.length →
      ∃ c : Call, s.calls[id]? = some c ∧ c.path = c'.path) : SlotsOf s' sender where
  nodup := by rw [hslots]; exact hi.nodup
  holds := fun id => by rw [hslots, hi.holds, hholds]
  paths := fun slot hmem c' hc' => by
    rw [hslots] at hmem
    obtain ⟨c, hc, -, -⟩ := (hi.holds slot.call).mp (List.mem_map.mpr ⟨slot, hmem, rfl⟩)
    obtain ⟨c₀, hc₀, hpath⟩ :=
      hpaths slot.call c' hc' (List.getElem?_eq_some_iff.mp hc).1
    rw [← hpath]
    exact hi.paths slot hmem c₀ hc₀
  capped := by rw [hslots]; exact hi.capped

/-- A change of phase that keeps the slot, or keeps having none. -/
theorem SlotsOf.setPhase (hi : SlotsOf s sender) {id : Nat} {c : Call} {phase : Phase}
    (hcall : s.calls[id]? = some c) (hphase : phase.holdsSlot = c.phase.holdsSlot)
    (hcalls : s'.calls = (s.setPhase id phase).calls)
    (hslots : s'.manager.slots sender = s.manager.slots sender) : SlotsOf s' sender := by
  refine hi.of_views hslots (fun id' => ?_) (fun id' c' hc' _ => ?_)
  · rw [Requests.holds_setPhase hcall hcalls]
    split
    · rename_i hid
      subst hid
      rw [hphase]
      constructor
      · exact fun ⟨hsender, hslot⟩ => ⟨c, hcall, hsender, hslot⟩
      · rintro ⟨c', hc', hsender, hslot⟩
        obtain rfl := Option.some.inj (hcall.symm.trans hc')
        exact ⟨hsender, hslot⟩
    · rfl
  · rw [hcalls] at hc'
    rcases Requests.calls_setPhase_eq_some hc' with ⟨rfl, c₀, hc₀, rfl⟩ | ⟨-, hold⟩
    · exact ⟨c₀, hc₀, rfl⟩
    · exact ⟨c', hold, rfl⟩

/-- A change of phase of somebody else's call. -/
theorem SlotsOf.of_other (hi : SlotsOf s sender) {id : Nat} {c : Call} {phase : Phase}
    (hcall : s.calls[id]? = some c) (hsender : c.sender ≠ sender)
    (hcalls : s'.calls = (s.setPhase id phase).calls)
    (hslots : s'.manager.slots sender = s.manager.slots sender) : SlotsOf s' sender := by
  refine hi.of_views hslots (fun id' => ?_) (fun id' c' hc' _ => ?_)
  · rw [Requests.holds_setPhase hcall hcalls]
    split
    · rename_i hid
      subst hid
      constructor
      · exact fun h => absurd h.1 hsender
      · rintro ⟨c', hc', hsender', -⟩
        obtain rfl := Option.some.inj (hcall.symm.trans hc')
        exact absurd hsender' hsender
    · rfl
  · rw [hcalls] at hc'
    rcases Requests.calls_setPhase_eq_some hc' with ⟨rfl, c₀, hc₀, rfl⟩ | ⟨-, hold⟩
    · exact ⟨c₀, hc₀, rfl⟩
    · exact ⟨c', hold, rfl⟩

theorem SlotsOf.cancelHandle (hi : SlotsOf s sender) {id : Nat}
    (hcalls : s'.calls = (s.cancelHandle id).calls)
    (hslots : s'.manager.slots sender = s.manager.slots sender) : SlotsOf s' sender := by
  have hback : ∀ (id' : Nat) (c' : Call), s'.calls[id']? = some c' →
      ∃ c, s.calls[id']? = some c ∧ c'.sender = c.sender ∧ c'.phase = c.phase
        ∧ c.path = c'.path := by
    intro id' c' hc'
    rw [hcalls] at hc'
    obtain ⟨c, hc, rfl⟩ := Requests.calls_cancelHandle_eq_some hc'
    exact ⟨c, hc, rfl, rfl, rfl⟩
  refine hi.of_views hslots (fun id' => ⟨?_, ?_⟩) (fun id' c' hc' _ => ?_)
  · rintro ⟨c', hc', hsender, hslot⟩
    obtain ⟨c, hc, hsender', hphase, -⟩ := hback id' c' hc'
    exact ⟨c, hc, hsender'.symm.trans hsender, hphase ▸ hslot⟩
  · rintro ⟨c, hc, hsender, hslot⟩
    have hlt : id' < s'.calls.length := by
      rw [hcalls, Requests.length_cancelHandle]
      exact (List.getElem?_eq_some_iff.mp hc).1
    obtain ⟨c₀, hc₀, hsender', hphase, -⟩ := hback id' _ (List.getElem?_eq_getElem hlt)
    obtain rfl := Option.some.inj (hc.symm.trans hc₀)
    exact ⟨_, List.getElem?_eq_getElem hlt, hsender'.trans hsender, hphase ▸ hslot⟩
  · obtain ⟨c, hc, -, -, hpath⟩ := hback id' c' hc'
    exact ⟨c, hc, hpath⟩

/-- The release of the call's own slot, alone under its path. -/
theorem SlotsOf.release (hi : SlotsOf s sender) {id : Nat} {c : Call} {phase : Phase}
    (hcall : s.calls[id]? = some c) (hphase : phase.holdsSlot = false)
    (hown : c.sender = sender →
      ∀ slot ∈ s.manager.slots sender, slot.path = c.path → slot.call = id)
    (hcalls : s'.calls = (s.setPhase id phase).calls)
    (hmanager : s'.manager = s.manager.release c.sender c.path) : SlotsOf s' sender := by
  by_cases hsender : c.sender = sender
  · subst hsender
    have hslots : s'.manager.slots c.sender
        = (s.manager.slots c.sender).filter fun slot => slot.call ≠ id := by
      rw [hmanager, RequestManager.slots_release_self]
      refine List.filter_congr fun slot hmem => ?_
      have : slot.path = c.path ↔ slot.call = id := by
        refine ⟨hown rfl slot hmem, fun hid => ?_⟩
        exact (hi.paths slot hmem c (hid ▸ hcall)).symm
      simp [this]
    refine ⟨?_, fun id' => ?_, fun slot hmem c' hc' => ?_, ?_⟩
    · rw [hslots]
      exact hi.nodup.sublist (List.filter_sublist.map _)
    · rw [hslots, Requests.holds_setPhase hcall hcalls, hphase]
      have hmem : id' ∈ ((s.manager.slots c.sender).filter fun slot => slot.call ≠ id).map (·.call)
          ↔ id' ≠ id ∧ id' ∈ (s.manager.slots c.sender).map (·.call) := by
        simp only [List.mem_map, List.mem_filter, decide_eq_true_eq]
        constructor
        · rintro ⟨slot, ⟨hslot, hne⟩, rfl⟩
          exact ⟨hne, slot, hslot, rfl⟩
        · rintro ⟨hne, slot, hslot, rfl⟩
          exact ⟨slot, ⟨hslot, hne⟩, rfl⟩
      rw [hmem, hi.holds]
      split
      · rename_i hid
        simp [hid]
      · rename_i hid
        simp [hid]
    · rw [hslots] at hmem
      obtain ⟨hold, hne⟩ := List.mem_filter.mp hmem
      have hne' : slot.call ≠ id := of_decide_eq_true hne
      rw [hcalls, Requests.calls_setPhase_of_ne hne'] at hc'
      exact hi.paths slot hold c' hc'
    · rw [hslots]
      exact Nat.le_trans (List.length_filter_le _ _) hi.capped
  · refine hi.of_other hcall hsender hcalls ?_
    rw [hmanager, RequestManager.slots_release_of_ne _ (Ne.symm hsender)]

theorem SlotsOf.register (hi : SlotsOf s sender) {id : Nat} {c : Call}
    {manager : RequestManager} (hcall : s.calls[id]? = some c) (hphase : c.phase = .entered)
    (hok : s.manager.register c.sender ⟨c.path, id⟩ = .ok manager) :
    SlotsOf { s.setPhase id .registered with manager := manager } sender := by
  obtain ⟨hlen, hself, hother⟩ := RequestManager.register_eq_ok hok
  by_cases hsender : sender = c.sender
  · subst hsender
    have hfresh : id ∉ (s.manager.slots c.sender).map (·.call) := by
      intro hmem
      obtain ⟨c', hc', -, hslot⟩ := (hi.holds id).mp hmem
      obtain rfl := Option.some.inj (hcall.symm.trans hc')
      rw [hphase] at hslot
      cases hslot
    refine ⟨?_, fun id' => ?_, fun slot hmem c' hc' => ?_, ?_⟩
    · show (manager.slots c.sender).map (·.call) |>.Nodup
      rw [hself, List.map_append]
      refine List.nodup_append.mpr ⟨hi.nodup, List.nodup_singleton _, fun a ha b hb hab => ?_⟩
      obtain rfl := List.mem_singleton.mp hb
      exact hfresh (hab ▸ ha)
    · show id' ∈ (manager.slots c.sender).map (·.call) ↔ _
      have hcalls : ({ s.setPhase id .registered with manager := manager } : Requests).calls
          = (s.setPhase id .registered).calls := rfl
      rw [hself, Requests.holds_setPhase hcall hcalls, List.map_append, List.mem_append, hi.holds]
      split
      · rename_i hid
        simp [hid, Phase.holdsSlot]
      · rename_i hid
        simp [hid]
    · replace hmem : slot ∈ manager.slots c.sender := hmem
      rw [hself] at hmem
      rcases Requests.calls_setPhase_eq_some hc' with ⟨hid, c₀, hc₀, rfl⟩ | ⟨hne, hold⟩
      · obtain rfl := Option.some.inj (hcall.symm.trans hc₀)
        rcases List.mem_append.mp hmem with hold | hnew
        · exact absurd (List.mem_map.mpr ⟨slot, hold, hid⟩) hfresh
        · rw [List.mem_singleton.mp hnew]
      · rcases List.mem_append.mp hmem with hslot | hnew
        · exact hi.paths slot hslot c' hold
        · exact absurd (congrArg Slot.call (List.mem_singleton.mp hnew)) hne
    · show (manager.slots c.sender).length ≤ _
      rw [hself, List.length_append]
      exact hlen
  · exact hi.of_other hcall (Ne.symm hsender) rfl (hother sender hsender)

theorem OwnSlots.of_call {id : Nat} {c : Call} {e : RequestEvent}
    (he : e = .rollback id ∨ e = .release id) (hok : OwnSlots s e)
    (hcall : s.calls[id]? = some c) (hsender : c.sender ∉ s.vanished) :
    ∀ slot ∈ s.manager.slots c.sender, slot.path = c.path → slot.call = id := by
  rcases he with rfl | rfl <;> simp only [OwnSlots, hcall] at hok <;> exact hok hsender

theorem slotInv_step {e : RequestEvent} (h : s.Transition display e s') (hok : OwnSlots s e)
    (hi : SlotInv s) : SlotInv s' := by
  intro sender hgone
  cases h with
  | @enter sender' token c hsender hflag hphase =>
      have hnew : c.phase.holdsSlot = false := by
        rcases hphase with hp | ⟨e, hp⟩ <;> rw [hp] <;> rfl
      refine (hi sender hgone).of_views rfl (fun id => ⟨?_, ?_⟩) (fun id c' hc' hlt => ?_)
      · rintro ⟨c', hc', hsender, hslot⟩
        by_cases hlt : id < s.calls.length
        · exact ⟨c', (List.getElem?_append_left hlt).symm.trans hc', hsender, hslot⟩
        · replace hc' : (s.calls ++ [c])[id]? = some c' := hc'
          rw [List.getElem?_append_right (Nat.le_of_not_lt hlt)] at hc'
          obtain rfl := List.mem_singleton.mp (List.mem_of_getElem? hc')
          rw [hnew] at hslot
          cases hslot
      · rintro ⟨c', hc', hsender, hslot⟩
        have hlt := (List.getElem?_eq_some_iff.mp hc').1
        exact ⟨c', (List.getElem?_append_left hlt).trans hc', hsender, hslot⟩
      · exact ⟨c', (List.getElem?_append_left hlt).symm.trans hc', rfl⟩
  | register hcall hphase hreg => exact (hi sender hgone).register hcall hphase hreg
  | @serverError id c message hcall hphase =>
      -- an error of the object server is excluded for connected clients
      simp only [OwnSlots, hcall] at hok
      exact (hi sender hgone).of_other hcall (fun heq => hgone (heq ▸ hok)) rfl rfl
  | @rollback id c e hcall hphase =>
      refine (hi sender hgone).release hcall rfl (fun hsender => ?_) rfl rfl
      subst hsender
      exact hok.of_call (Or.inl rfl) hcall hgone
  | @release id c hcall hphase =>
      refine (hi sender hgone).release hcall rfl (fun hsender => ?_) rfl rfl
      subst hsender
      exact hok.of_call (Or.inr rfl) hcall hgone
  | refuse hcall hphase | duplicate hcall hphase | accept hcall hphase | work hcall hphase
  | cancelWins hcall hphase | panic hcall hphase | decide hcall hphase | emit hcall hphase
  | unsent hcall hphase | emitLost hcall hphase | remove hcall hphase =>
      exact (hi sender hgone).setPhase hcall (by rw [hphase]; rfl) rfl rfl
  | progress | progressLost =>
      exact (hi sender hgone).of_views rfl (fun _ => Iff.rfl) (fun _ c' hc' _ => ⟨c', hc', rfl⟩)
  | cancel | cancelNext => exact (hi sender hgone).cancelHandle rfl rfl
  | vanish =>
      exact (hi sender fun hmem => hgone (List.mem_cons_of_mem _ hmem)).of_views rfl
        (fun _ => Iff.rfl) (fun _ c' hc' _ => ⟨c', hc', rfl⟩)
  | cancelClient hvanished =>
      have hne : sender ≠ _ := fun heq => hgone (heq ▸ hvanished)
      exact (hi sender hgone).of_views (RequestManager.slots_removeClient_of_ne _ hne)
        (fun _ => Iff.rfl) (fun _ c' hc' _ => ⟨c', hc', rfl⟩)

end Step

/-! ## Whole runs -/

/-- The call was accepted and its task is not past `emit_response`. -/
def Phase.pending : Phase → Bool
  | .selecting | .outcome _ | .responding _ _ | .panicked => true
  | _ => false

theorem Phase.holdsSlot_and_not_transient (phase : Phase) :
    (phase.holdsSlot && !phase.transient) = phase.pending := by
  cases phase <;> rfl

theorem Phase.transient_holdsSlot {phase : Phase} (h : phase.transient = true) :
    phase.holdsSlot = true := by
  cases phase <;> first | rfl | cases h

section Story

variable {display : Error → String} {id : Nat} {phase : Phase} {flag : Bool} {l : List Signal}

theorem Story.accepted_iff (h : Story display id phase flag l) :
    .accepted id ∈ l ↔ (phase.pending || phase.answered) = true := by
  induction h with
  | entered | invalid => exact iff_of_false List.not_mem_nil Bool.false_ne_true
  | accepted => exact iff_of_true List.mem_cons_self rfl
  | refused _ ih | registered _ ih | serverError _ ih | duplicate _ ih | rolledBack _ ih
  | cancelWon _ ih | panicked _ ih | ended _ ih => exact ih
  | progress _ ih | returned _ ih | decided _ _ ih | responded _ ih | unsent _ ih | removed _ ih
  | cancelled _ ih =>
      rw [List.mem_cons]
      exact (or_iff_right nofun).trans ih

theorem Story.unanswered_iff (h : Story display id phase flag l) :
    (∀ sig ∈ l, sig.isResponse = false ∧ sig.isUnsent = false) ↔ phase.answered = false := by
  have hcount := h.count_responses
  have hnone : (∀ sig ∈ l, sig.isResponse = false ∧ sig.isUnsent = false)
      ↔ l.countP Signal.isResponse + l.countP Signal.isUnsent = 0 := by
    simp only [Nat.add_eq_zero_iff, List.countP_eq_zero, Bool.not_eq_true]
    exact ⟨fun h => ⟨fun sig hsig => (h sig hsig).1, fun sig hsig => (h sig hsig).2⟩,
      fun h sig hsig => ⟨h.1 sig hsig, h.2 sig hsig⟩⟩
  rw [hnone, hcount]
  cases phase.answered <;> simp

theorem Story.pending_iff (h : Story display id phase flag l) :
    phase.pending = true ↔ .accepted id ∈ l
      ∧ ∀ sig ∈ l, sig.isResponse = false ∧ sig.isUnsent = false := by
  rw [h.accepted_iff, h.unanswered_iff]
  cases phase <;> simp [Phase.pending, Phase.answered]

end Story

section Runs

variable {display : Error → String} {s s' : Requests}

theorem Told.unanswered_iff (ht : Told display s) {id : Nat} {c : Call}
    (hcall : s.calls[id]? = some c) : s.Unanswered id ↔ c.phase.pending = true := by
  rw [(ht.story id c hcall).pending_iff, Requests.Unanswered]
  simp [Requests.history, Signal.call]

/-- What the slot table says about the clients still connected. -/
structure SlotsAccounted (s : Requests) : Prop where
  /-- as many entries as unanswered requests, but for the transient ones, -/
  count : ∀ sender, sender ∉ s.vanished →
    (s.manager.slots sender).length = s.unanswered sender + s.transient sender
  /-- and no client has more unanswered requests than the cap allows. -/
  capped : ∀ sender, sender ∉ s.vanished → s.unanswered sender ≤ MAX_REQUESTS_PER_CLIENT

/-- A call that fails leaves the other slots of its client as they were. -/
def FailureLeavesOthers (s s' : Requests) : Prop :=
  ∀ id c c', s.calls[id]? = some c → s'.calls[id]? = some c' → c.phase.isFailed = false →
    c'.phase.isFailed = true → c.sender ∉ s.vanished →
    (s'.manager.slots c.sender).filter (·.call ≠ id)
      = (s.manager.slots c.sender).filter (·.call ≠ id)

theorem Requests.mem_callsOf {sender : String} {id : Nat} :
    id ∈ s.callsOf sender ↔ ∃ c, s.calls[id]? = some c ∧ c.sender = sender := by
  simp only [Requests.callsOf, List.mem_filter, List.mem_range, Option.any_eq_true,
    decide_eq_true_eq]
  constructor
  · exact fun h => h.2
  · rintro ⟨c, hc, hsender⟩
    exact ⟨(List.getElem?_eq_some_iff.mp hc).1, c, hc, hsender⟩

theorem Requests.nodup_callsOf (s : Requests) (sender : String) : (s.callsOf sender).Nodup :=
  List.nodup_range.filter _

theorem SlotsOf.length_eq (ht : Told display s) {sender : String} (hi : SlotsOf s sender) :
    (s.manager.slots sender).length = s.unanswered sender + s.transient sender := by
  have hperm : ((s.manager.slots sender).map (·.call)).Perm
      ((s.callsOf sender).filter fun id => s.calls[id]?.any fun c => c.phase.holdsSlot) := by
    refine (List.perm_ext_iff_of_nodup hi.nodup
      ((s.nodup_callsOf sender).filter _)).mpr fun id => ?_
    rw [hi.holds, List.mem_filter, Requests.mem_callsOf, Option.any_eq_true]
    constructor
    · rintro ⟨c, hc, hsender, hslot⟩
      exact ⟨⟨c, hc, hsender⟩, c, hc, hslot⟩
    · rintro ⟨⟨c, hc, hsender⟩, c', hc', hslot⟩
      obtain rfl := Option.some.inj (hc.symm.trans hc')
      exact ⟨c, hc, hsender, hslot⟩
  have hlen := hperm.length_eq
  rw [List.length_map, List.length_eq_countP_add_countP
    (fun id : Nat => s.calls[id]?.any fun c => c.phase.transient), List.countP_filter,
    List.countP_filter] at hlen
  rw [hlen, Nat.add_comm]
  congr 1
  · refine List.countP_congr fun id hid => ?_
    obtain ⟨c, hc, -⟩ := Requests.mem_callsOf.mp hid
    have := c.phase.holdsSlot_and_not_transient
    simp only [hc, Option.any_some, decide_eq_true_eq, ht.unanswered_iff hc, ← this]
    simp [Bool.and_comm]
  · refine List.countP_congr fun id hid => ?_
    obtain ⟨c, hc, -⟩ := Requests.mem_callsOf.mp hid
    simp only [hc, Option.any_some, Bool.and_eq_true]
    exact ⟨fun h => h.1, fun h => ⟨h, Phase.transient_holdsSlot h⟩⟩

theorem slotInv_of_reach (h : Machine.Reach (Requests.step display) OwnSlots Requests.init s) :
    SlotInv s := by
  refine h.invariant (fun sender _ => ?_) fun _ _ _ _ hok hs hi =>
    slotInv_step (Requests.step_cases hs) hok hi
  constructor <;> simp [Requests.init, RequestManager.slots, Requests.Holds]

/-- Only the rollback of a refused token and the errors of `register` and
of the object server let a call fail. -/
theorem failureLeavesOthers {e : RequestEvent} (h : s.Transition display e s')
    (hok : OwnSlots s e) : FailureLeavesOthers s s' := by
  intro id c c' hc hc' hnot hfail hgone
  have hmoved : ∀ {id' : Nat} {c₀ : Call} {phase : Phase}, s.calls[id']? = some c₀ →
      (s.setPhase id' phase).calls[id]? = some c' → id' = id ∧ c'.phase = phase := by
    intro id' c₀ phase hc₀ h'
    rcases Requests.calls_setPhase_eq_some h' with ⟨rfl, -, -, rfl⟩ | ⟨-, hold⟩
    · exact ⟨rfl, rfl⟩
    · obtain rfl := Option.some.inj (hc.symm.trans hold)
      rw [hnot] at hfail
      cases hfail
  cases h with
  | enter | refuse | serverError | duplicate | emitLost => rfl
  | @rollback id' c₀ e hcall hphase =>
      obtain ⟨rfl, -⟩ := hmoved hcall hc'
      obtain rfl := Option.some.inj (hcall.symm.trans hc)
      have hown := hok.of_call (Or.inl rfl) hcall hgone
      show ((s.manager.release c₀.sender c₀.path).slots c₀.sender).filter _ = _
      rw [RequestManager.slots_release_self, List.filter_filter]
      refine List.filter_congr fun slot hmem => ?_
      by_cases hpath : slot.path = c₀.path
      · simp [hown slot hmem hpath]
      · simp [hpath]
  | register hcall hphase | release hcall hphase =>
      obtain ⟨rfl, hp⟩ := hmoved hcall hc'
      rw [hp] at hfail
      cases hfail
  | accept hcall | work hcall | cancelWins hcall | panic hcall | decide hcall | emit hcall
  | unsent hcall | remove hcall => rfl
  | progress | progressLost | cancel | vanish | cancelNext => rfl
  | @cancelClient sender hvanished =>
      have hne : c.sender ≠ sender := fun heq => hgone (heq ▸ hvanished)
      show ((s.manager.removeClient sender).slots c.sender).filter _ = _
      rw [RequestManager.slots_removeClient_of_ne _ hne]

/-- **Request-slot accounting**: in every run in which each release for a
connected client takes out the releasing call's own slot only, and the
object server reports no error to one. -/
theorem request_slots_accounted
    (h : Machine.Reach (Requests.step display) OwnSlots Requests.init s) :
    SlotsAccounted s ∧ ∀ e s', OwnSlots s e → s.step display e = some s' →
      FailureLeavesOthers s s' := by
  have hi := slotInv_of_reach h
  have ht := (requestsInv_of_reach h).told
  refine ⟨⟨fun sender hgone => (hi sender hgone).length_eq ht, fun sender hgone => ?_⟩,
    fun e s' hok hs => failureLeavesOthers (Requests.step_cases hs) hok⟩
  have := (hi sender hgone).length_eq ht
  have := (hi sender hgone).capped
  omega

end Runs

/-- A request served to its end, and a token used again after it. -/
theorem request_slots_accounted_reuse :
    ∃ s, Machine.Reach (Requests.step fun _ => "") OwnSlots Requests.init s
      ∧ (s.unanswered ":1.7" = 1 ∧ (s.manager.slots ":1.7").length = 1)
      ∧ SlotsAccounted s ∧ ∀ e s', OwnSlots s e → s.step (fun _ => "") e = some s' →
        FailureLeavesOthers s s' := by
  obtain ⟨s, hreach, hs⟩ := Machine.exists_reach_of_run (Requests.step fun _ => "") OwnSlots
    Requests.init
    [.enter ":1.7" "t", .register 0, .at 0 none, .work 0 (.ok []), .decide 0, .emit 0 true,
      .remove 0, .release 0, .enter ":1.7" "t", .register 1, .at 1 none]
    (fun s : Requests => decide (s.unanswered ":1.7" = 1
      ∧ (s.manager.slots ":1.7").length = 1)) (by decide +kernel)
  exact ⟨s, hreach, of_decide_eq_true hs, request_slots_accounted hreach⟩

/-- The client sends a token it has in flight: the rollback of the second
call takes the slot of the first with it, and eight more requests pass
the cap. -/
theorem request_slots_not_accounted :
    ∃ s, Machine.Reach (Requests.step fun _ => "") Machine.anyStep Requests.init s
      ∧ (":1.7" ∉ s.vanished ∧ (s.manager.slots ":1.7").length = 8
        ∧ s.transient ":1.7" = 0 ∧ s.unanswered ":1.7" = 9)
      ∧ ¬ SlotsAccounted s := by
  obtain ⟨s, hreach, hs⟩ := Machine.exists_reach_of_run (Requests.step fun _ => "")
    Machine.anyStep Requests.init
    ([.enter ":1.7" "t", .register 0, .at 0 none,
      .enter ":1.7" "t", .register 1, .at 1 none, .rollback 1]
      ++ ["a", "b", "c", "d", "e", "f", "g", "h"].zipIdx.flatMap fun (token, n) =>
        [.enter ":1.7" token, .register (n + 2), .at (n + 2) none])
    (fun s : Requests => decide (":1.7" ∉ s.vanished ∧ (s.manager.slots ":1.7").length = 8
      ∧ s.transient ":1.7" = 0 ∧ s.unanswered ":1.7" = 9)) (by decide +kernel)
  have hrun := of_decide_eq_true hs
  refine ⟨s, hreach, hrun, fun h => ?_⟩
  have := h.count ":1.7" hrun.1
  omega

end Dragomand
