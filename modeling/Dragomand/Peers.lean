import Dragomand.RequestSlots

/-!
# Whose step it is

The steps of `Requests` with the client each of them belongs to: its own
calls, the tasks of its requests, and its end. A call is named by its place
among the calls of its client, so that the name means the same whatever
other clients do. Anyone may call `Cancel` on any path; `OwnRequests` are
the steps where a path leads a client to its own requests only, and such a
step leaves everything of another client's alone (`Frame`).
-/

namespace Dragomand

/-! ## Clients' actions -/

/-- What happens to a call of `spawn_request` and to its task. -/
inductive TaskEvent where
  | register
  | at (error : Option String)
  | rollback
  | progress (fraction : Nat × Nat) (stage : String)
  | work (result : Except Error Results)
  | cancelWins
  | panic
  | decide
  | emit (sent : Bool)
  | remove
  | release

def TaskEvent.on (id : Nat) : TaskEvent → RequestEvent
  | .register => .register id
  | .at error => .at id error
  | .rollback => .rollback id
  | .progress fraction stage => .progress id fraction stage
  | .work result => .work id result
  | .cancelWins => .cancelWins id
  | .panic => .panic id
  | .decide => .decide id
  | .emit sent => .emit id sent
  | .remove => .remove id
  | .release => .release id

/-- `task n` is about the client's `n`-th call. -/
inductive ClientAction where
  | enter (token : String)
  | task (n : Nat) (event : TaskEvent)
  /-- `Request1.Cancel` on the object at the path, if there is one -/
  | cancel (path : String)
  | vanish
  | cancelClient
  | cancelNext

structure ClientEvent where
  client : String
  action : ClientAction

/-- The client that made the call. -/
def Requests.owner (s : Requests) (id : Nat) : Option String := s.calls[id]?.map Call.sender

/-- `own` is a history variable: the calls whose own client called
`Cancel`. -/
structure Peers where
  requests : Requests
  own : List Nat

def Peers.init : Peers := ⟨.init, []⟩

/-- What a client's action is to the requests. -/
def Requests.event (s : Requests) (e : ClientEvent) : Option RequestEvent :=
  match e.action with
  | .enter token => some (.enter e.client token)
  | .task n event => (s.callsOf e.client)[n]?.map event.on
  | .cancel path => some (.cancel path)
  | .vanish => some (.vanish e.client)
  | .cancelClient => some (.cancelClient e.client)
  | .cancelNext => s.cancelling.head?.bind fun id =>
      if s.owner id = some e.client then some .cancelNext else none

/-- The call whose client cancels it. -/
def Requests.cancelsOwn (s : Requests) (e : ClientEvent) : List Nat :=
  match e.action with
  | .cancel path =>
      (s.objects.lookup path).toList.filter fun id => s.owner id = some e.client
  | _ => []

section Step

variable (display : Error → String)

def Peers.step (p : Peers) (e : ClientEvent) : Option Peers :=
  match (p.requests.event e).bind (p.requests.step display) with
  | some r => some ⟨r, p.requests.cancelsOwn e ++ p.own⟩
  | none =>
      match e.action with
      -- no object at the path
      | .cancel _ => some p
      | _ => none

end Step

/-- The steps in which the object a client finds under a path is one of its
own requests: the path it calls `Cancel` on, and the path of a request it
makes. -/
def OwnRequests (p : Peers) (e : ClientEvent) : Prop :=
  match e.action with
  | .cancel path =>
      ∀ id ∈ (p.requests.objects.lookup path).toList, p.requests.owner id = some e.client
  | .task n (.at none) =>
      ∀ call ∈ ((p.requests.callsOf e.client)[n]?).toList,
        ∀ c ∈ (p.requests.calls[call]?).toList,
          ∀ id ∈ (p.requests.objects.lookup c.path).toList, p.requests.owner id = some e.client
  | _ => True

/-- The client whose request or end a step is about. -/
def Requests.actor (s : Requests) : RequestEvent → Option String
  | .enter sender _ | .vanish sender | .cancelClient sender => some sender
  | .cancel path => (s.objects.lookup path).bind s.owner
  | .cancelNext => s.cancelling.head?.bind s.owner
  | .register id | .at id _ | .rollback id | .progress id _ _ | .work id _ | .cancelWins id
  | .panic id | .decide id | .emit id _ | .remove id | .release id => s.owner id

section Steps

variable {display : Error → String} {s s' : Requests} {p p' : Peers} {e : ClientEvent}

@[simp] theorem Requests.owner_of_call {id : Nat} {c : Call} (hcall : s.calls[id]? = some c) :
    s.owner id = some c.sender := by
  simp [owner, hcall]

theorem Requests.owner_eq_some {id : Nat} {client : String} (h : s.owner id = some client) :
    ∃ c, s.calls[id]? = some c ∧ c.sender = client :=
  Option.map_eq_some_iff.mp h

/-- A step of the clients is one of the requests, or nothing was there to
cancel. -/
theorem Peers.step_cases (h : p.step display e = some p') :
    (∃ event, p.requests.event e = some event ∧ p.requests.step display event = some p'.requests
        ∧ p'.own = p.requests.cancelsOwn e ++ p.own)
      ∨ p' = p ∧ ∃ path, e.action = .cancel path ∧ p.requests.objects.lookup path = none := by
  unfold Peers.step at h
  split at h
  · rename_i r hr
    cases h
    obtain ⟨event, hevent, hr⟩ := Option.bind_eq_some_iff.mp hr
    exact Or.inl ⟨event, hevent, hr, rfl⟩
  · rename_i hnone
    split at h
    · rename_i path haction
      cases h
      refine Or.inr ⟨rfl, path, haction, ?_⟩
      simp only [Requests.event, haction, Option.bind_some] at hnone
      exact Option.map_eq_none_iff.mp hnone
    · cases h

theorem Requests.actor_on {id : Nat} (event : TaskEvent) : s.actor (event.on id) = s.owner id := by
  cases event <;> rfl

/-- The step is about the client that takes it. -/
theorem OwnRequests.actor {event : RequestEvent} (hok : OwnRequests p e)
    (hevent : p.requests.event e = some event)
    (hstep : p.requests.step display event = some s') :
    p.requests.actor event = some e.client := by
  unfold Requests.event at hevent
  split at hevent
  · cases hevent
    rfl
  · obtain ⟨id, hid, rfl⟩ := Option.map_eq_some_iff.mp hevent
    obtain ⟨c, hcall, hsender⟩ := Requests.mem_callsOf.mp (List.mem_of_getElem? hid)
    rw [Requests.actor_on, Requests.owner_of_call hcall, hsender]
  · rename_i path haction
    cases hevent
    obtain ⟨id, hobj, -⟩ := Option.map_eq_some_iff.mp hstep
    simp only [OwnRequests, haction] at hok
    simp only [Requests.actor, hobj, Option.bind_some]
    exact hok id (by simp [hobj])
  · cases hevent
    rfl
  · cases hevent
    rfl
  · obtain ⟨id, hid, hevent⟩ := Option.bind_eq_some_iff.mp hevent
    split at hevent
    · rename_i howner
      cases hevent
      simp only [Requests.actor, hid, Option.bind_some, howner]
    · cases hevent

/-! ## Slots and handles have their owners -/

/-- The slots of a client are those of its calls, and the handles to be
cancelled those of vanished clients. -/
structure Owned (s : Requests) : Prop where
  slots : ∀ sender, ∀ slot ∈ s.manager.slots sender, s.owner slot.call = some sender
  cancelling : ∀ id ∈ s.cancelling, ∃ sender, s.owner id = some sender ∧ sender ∈ s.vanished

theorem Requests.owner_modify {id : Nat} {f : Call → Call} (hf : ∀ c, (f c).sender = c.sender)
    (hcalls : s'.calls = s.calls.modify id f) (id' : Nat) : s'.owner id' = s.owner id' := by
  rw [owner, owner, hcalls, List.getElem?_modify]
  cases s.calls[id']? with
  | none => rfl
  | some c => simp only [Option.map_some]; split <;> simp [hf]

theorem Requests.owner_setPhase {id : Nat} {phase : Phase}
    (hcalls : s'.calls = (s.setPhase id phase).calls) (id' : Nat) :
    s'.owner id' = s.owner id' :=
  owner_modify (f := fun c => { c with phase := phase }) (fun _ => rfl) hcalls id'

theorem Requests.owner_cancelHandle {id : Nat} (hcalls : s'.calls = (s.cancelHandle id).calls)
    (id' : Nat) : s'.owner id' = s.owner id' :=
  owner_modify (f := fun c => { c with cancelled := true }) (fun _ => rfl) hcalls id'

/-- A step changes no owner. -/
theorem Requests.owner_step {event : RequestEvent} (h : s.Transition display event s') {id : Nat}
    {client : String} (howner : s.owner id = some client) : s'.owner id = some client := by
  cases h with
  | enter =>
      obtain ⟨c, hcall, hsender⟩ := owner_eq_some howner
      have hlt := (List.getElem?_eq_some_iff.mp hcall).1
      rw [owner, List.getElem?_append_left hlt]
      exact howner
  | refuse | register | serverError | duplicate | accept | rollback | work | cancelWins | panic
  | decide | emit | unsent | emitLost | remove | release =>
      exact (owner_setPhase rfl id).trans howner
  | progress | progressLost | vanish | cancelClient => exact howner
  | cancel | cancelNext => exact (owner_cancelHandle rfl id).trans howner

theorem Owned.of_views (ho : Owned s)
    (howner : ∀ id client, s.owner id = some client → s'.owner id = some client)
    (hslots : ∀ sender, s'.manager.slots sender ⊆ s.manager.slots sender)
    (hcancelling : s'.cancelling ⊆ s.cancelling) (hvanished : s.vanished ⊆ s'.vanished) :
    Owned s' where
  slots := fun sender slot hmem =>
    howner _ _ (ho.slots sender slot (hslots sender hmem))
  cancelling := fun id hmem => by
    obtain ⟨sender, hsender, hgone⟩ := ho.cancelling id (hcancelling hmem)
    exact ⟨sender, howner _ _ hsender, hvanished hgone⟩

theorem owned_step {event : RequestEvent} (h : s.Transition display event s') (ho : Owned s) :
    Owned s' := by
  have hsame : ∀ sender, s.manager.slots sender ⊆ s.manager.slots sender :=
    fun _ => List.Subset.refl _
  have howner := fun id client => @Requests.owner_step display s s' _ h id client
  cases h with
  | enter | refuse | serverError | duplicate | accept | progress | progressLost | work | cancelWins
  | panic | decide | emit | unsent | emitLost | remove | cancel =>
      exact ho.of_views howner hsame (List.Subset.refl _) (List.Subset.refl _)
  | rollback | release =>
      exact ho.of_views howner (fun _ => RequestManager.slots_release_subset _ _ _ _)
        (List.Subset.refl _) (List.Subset.refl _)
  | vanish => exact ho.of_views howner hsame (List.Subset.refl _) (List.subset_cons_self _ _)
  | cancelNext hnext =>
      exact ho.of_views howner hsame (hnext ▸ List.subset_cons_self _ _) (List.Subset.refl _)
  | @register id c manager hcall hphase hok =>
      obtain ⟨-, hself, hother⟩ := RequestManager.register_eq_ok hok
      refine ⟨fun sender slot hmem => howner _ _ ?_, fun id' hmem => ?_⟩
      · replace hmem : slot ∈ manager.slots sender := hmem
        by_cases hsender : sender = c.sender
        · rw [hsender, hself] at hmem
          rcases List.mem_append.mp hmem with hold | hnew
          · exact hsender ▸ ho.slots _ slot hold
          · rw [List.mem_singleton.mp hnew, hsender]
            exact Requests.owner_of_call hcall
        · exact ho.slots sender slot (hother sender hsender ▸ hmem)
      · obtain ⟨sender, hsender, hgone⟩ := ho.cancelling id' hmem
        exact ⟨sender, howner _ _ hsender, hgone⟩
  | @cancelClient sender hgone hidle =>
      refine ⟨fun sender' slot hmem => ?_, fun id hmem => ?_⟩
      · exact ho.slots sender' slot (RequestManager.slots_removeClient_subset _ _ _ hmem)
      · obtain ⟨slot, hslot, rfl⟩ := List.mem_map.mp hmem
        exact ⟨sender, ho.slots sender slot hslot, hgone⟩

/-! ## What a step leaves to other clients -/

/-- The client's calls with their flags and phases, the objects of its
requests and its slots are as before. -/
structure Untouched (client : String) (s s' : Requests) : Prop where
  calls : ∀ (id : Nat) (c : Call), c.sender = client →
    (s'.calls[id]? = some c ↔ s.calls[id]? = some c)
  objects : ∀ (path : String) (id : Nat), s.owner id = some client →
    (s'.objects.lookup path = some id ↔ s.objects.lookup path = some id)
  slots : s'.manager.slots client = s.manager.slots client

/-- The client's handles that are about to be cancelled. -/
def Requests.cancellingOf (s : Requests) (client : String) : List Nat :=
  s.cancelling.filter fun id => s.owner id = some client

/-- All that is the client's is as before. -/
structure Frame (client : String) (s s' : Requests) : Prop extends Untouched client s s' where
  cancelling : s'.cancellingOf client = s.cancellingOf client
  vanished : client ∈ s'.vanished ↔ client ∈ s.vanished
  history : ∀ id, s.owner id = some client → s'.history id = s.history id

variable {client : String}

theorem Requests.history_cons {sig : Signal} {id : Nat} (hlog : s'.log = sig :: s.log)
    (hne : sig.call ≠ id) : s'.history id = s.history id := by
  rw [history, hlog, List.filter_cons_of_neg (by simpa using hne)]
  rfl

/-- A step of somebody else's call. -/
theorem Frame.of_call {id : Nat} {c : Call} {f : Call → Call} (hcall : s.calls[id]? = some c)
    (hsender : c.sender ≠ client) (hf : ∀ c, (f c).sender = c.sender)
    (hcalls : s'.calls = s.calls.modify id f)
    (hobjects : ∀ path id', id' ≠ id →
      (s'.objects.lookup path = some id' ↔ s.objects.lookup path = some id'))
    (hslots : s'.manager.slots client = s.manager.slots client)
    (hcancelling : s'.cancellingOf client = s.cancellingOf client)
    (hvanished : s'.vanished = s.vanished)
    (hlog : s'.log = s.log ∨ ∃ sig, sig.call = id ∧ s'.log = sig :: s.log) :
    Frame client s s' := by
  have hne : ∀ id', s.owner id' = some client → id' ≠ id := by
    rintro id' howner rfl
    rw [Requests.owner_of_call hcall] at howner
    exact hsender (Option.some.inj howner)
  refine ⟨⟨fun id' c' hclient => ?_, fun path id' howner => hobjects path id' (hne id' howner),
    hslots⟩, hcancelling, by rw [hvanished], fun id' howner => ?_⟩
  · rw [hcalls, List.getElem?_modify]
    by_cases hid : id = id'
    · subst hid
      -- neither the call nor what becomes of it is the client's
      simp only [hcall, Option.map_eq_map, Option.map_some, if_true, Option.some.injEq]
      constructor
      · rintro rfl
        exact absurd ((hf c).symm.trans hclient) hsender
      · rintro rfl
        exact absurd hclient hsender
    · simp [hid]
  · rcases hlog with hlog | ⟨sig, hsig, hlog⟩
    · rw [Requests.history, hlog]
      rfl
    · exact Requests.history_cons hlog (hsig ▸ (hne id' howner).symm)

theorem Frame.refl (client : String) (s : Requests) : Frame client s s :=
  ⟨⟨fun _ _ _ => Iff.rfl, fun _ _ _ => Iff.rfl, rfl⟩, rfl, Iff.rfl, fun _ _ => rfl⟩

/-- A change of phase of somebody else's call. -/
theorem Frame.setPhase {id : Nat} {c : Call} {phase : Phase} (hcall : s.calls[id]? = some c)
    (hsender : c.sender ≠ client) (hcalls : s'.calls = (s.setPhase id phase).calls)
    (hobjects : ∀ path id', id' ≠ id →
      (s'.objects.lookup path = some id' ↔ s.objects.lookup path = some id'))
    (hslots : s'.manager.slots client = s.manager.slots client)
    (hcancelling : s'.cancelling = s.cancelling) (hvanished : s'.vanished = s.vanished)
    (hlog : s'.log = s.log ∨ ∃ sig, sig.call = id ∧ s'.log = sig :: s.log) :
    Frame client s s' := by
  refine Frame.of_call (f := fun c => { c with phase := phase }) hcall hsender (fun _ => rfl) hcalls
    hobjects hslots ?_ hvanished hlog
  rw [Requests.cancellingOf, hcancelling]
  exact List.filter_congr fun id' _ => by rw [Requests.owner_setPhase hcalls]

/-- The flag of somebody else's call. -/
theorem Frame.cancelHandle {id : Nat} {c : Call} {rest : List Nat} (hcall : s.calls[id]? = some c)
    (hsender : c.sender ≠ client) (hrest : s.cancelling = rest ∨ s.cancelling = id :: rest) :
    Frame client s { s.cancelHandle id with cancelling := rest } := by
  refine Frame.of_call (f := fun c => { c with cancelled := true }) hcall hsender (fun _ => rfl) rfl
    (fun _ _ _ => Iff.rfl) rfl ?_ rfl (Or.inr ⟨_, rfl, rfl⟩)
  have hfilter : Requests.cancellingOf { s.cancelHandle id with cancelling := rest } client
      = rest.filter fun id => s.owner id = some client :=
    List.filter_congr fun id' _ =>
      congrArg (fun owner => decide (owner = some client)) (Requests.owner_cancelHandle rfl id')
  rw [hfilter, Requests.cancellingOf]
  rcases hrest with hrest | hrest
  · rw [hrest]
  · rw [hrest, List.filter_cons_of_neg (by simp [Requests.owner_of_call hcall, hsender])]

/-- A step about another client touches nothing of this one's. -/
theorem frame_step {event : RequestEvent} (h : s.Transition display event s')
    (hi : RequestsInv display s) (ho : Owned s) {other : String}
    (hactor : s.actor event = some other) (hother : other ≠ client) : Frame client s s' := by
  have hsender : ∀ {id : Nat} {c : Call}, s.calls[id]? = some c → s.owner id = some other →
      c.sender ≠ client := by
    intro id c hcall howner heq
    rw [Requests.owner_of_call hcall] at howner
    exact hother ((Option.some.inj howner).symm.trans heq)
  have hsame : ∀ (id : Nat) (path : String) (id' : Nat), id' ≠ id →
      (s.objects.lookup path = some id' ↔ s.objects.lookup path = some id') :=
    fun _ _ _ _ => Iff.rfl
  cases h with
  | @enter sender token c hsender₀ hflag hphase =>
      obtain rfl := Option.some.inj hactor
      have howner : ∀ id < s.calls.length,
          Requests.owner { s with calls := s.calls ++ [c] } id = s.owner id := by
        intro id hlt
        rw [Requests.owner, List.getElem?_append_left hlt]
        rfl
      refine ⟨⟨fun id c' hclient => ?_, fun _ _ _ => Iff.rfl, rfl⟩, ?_, Iff.rfl, fun _ _ => rfl⟩
      · by_cases hlt : id < s.calls.length
        · rw [List.getElem?_append_left hlt]
        · rw [List.getElem?_append_right (Nat.le_of_not_lt hlt),
            List.getElem?_eq_none (Nat.le_of_not_lt hlt)]
          refine ⟨fun hnew => ?_, nofun⟩
          obtain rfl := List.mem_singleton.mp (List.mem_of_getElem? hnew)
          exact absurd (hsender₀.symm.trans hclient) hother
      · exact List.filter_congr fun id hmem => by rw [howner id (hi.known.cancelling id hmem)]
  | refuse hcall | serverError hcall | duplicate hcall | cancelWins hcall | panic hcall
  | emitLost hcall =>
      exact Frame.setPhase hcall (hsender hcall hactor) rfl (hsame _) rfl rfl rfl (Or.inl rfl)
  | work hcall | decide hcall | emit hcall | unsent hcall =>
      exact Frame.setPhase hcall (hsender hcall hactor) rfl (hsame _) rfl rfl rfl
        (Or.inr ⟨_, rfl, rfl⟩)
  | register hcall hphase hok =>
      obtain ⟨-, -, hslots⟩ := RequestManager.register_eq_ok hok
      exact Frame.setPhase hcall (hsender hcall hactor) rfl (hsame _)
        (hslots client (hsender hcall hactor).symm) rfl rfl (Or.inl rfl)
  | rollback hcall | release hcall =>
      exact Frame.setPhase hcall (hsender hcall hactor) rfl (hsame _)
        (RequestManager.slots_release_of_ne _ (hsender hcall hactor).symm) rfl rfl (Or.inl rfl)
  | @accept id c hcall hphase hobj =>
      refine Frame.setPhase hcall (hsender hcall hactor) rfl (fun path id' hne => ?_) rfl rfl rfl
        (Or.inr ⟨_, rfl, rfl⟩)
      by_cases hpath : path = c.path
      · subst hpath
        rw [hobj]
        simp [AList.lookup_insert, Ne.symm hne]
      · exact iff_of_eq (congrArg (· = some id') (AList.lookup_insert_ne hpath))
  | @remove id c hcall hphase =>
      refine Frame.setPhase hcall (hsender hcall hactor) rfl (fun path id' hne => ?_) rfl rfl rfl
        (Or.inr ⟨_, rfl, rfl⟩)
      by_cases hpath : path = c.path
      · subst hpath
        rw [hi.served.own id c hcall (by rw [hphase]; rfl)]
        simp [AList.lookup_erase, Ne.symm hne]
      · exact iff_of_eq (congrArg (· = some id') (AList.lookup_erase_ne hpath))
  | @progress id object c fraction stage hcall hphase hobj =>
      refine Frame.of_call (f := fun c => c) hcall (hsender hcall hactor) (fun _ => rfl) ?_
        (hsame _) rfl rfl
        rfl (Or.inr ⟨_, rfl, rfl⟩)
      exact (List.modify_id _ _).symm
  | progressLost => exact Frame.refl client s
  | @cancel path id hobj =>
      obtain ⟨c, hcall, -, -⟩ := hi.served.served path id hobj
      have howner : s.owner id = some other := by
        simpa only [Requests.actor, hobj, Option.bind_some] using hactor
      exact Frame.cancelHandle hcall (hsender hcall howner) (Or.inl rfl)
  | @vanish sender =>
      obtain rfl := Option.some.inj hactor
      refine ⟨⟨fun _ _ _ => Iff.rfl, fun _ _ _ => Iff.rfl, rfl⟩, rfl, ?_, fun _ _ => rfl⟩
      simp [Ne.symm hother]
  | @cancelClient sender hgone hidle =>
      obtain rfl := Option.some.inj hactor
      refine ⟨⟨fun _ _ _ => Iff.rfl, fun _ _ _ => Iff.rfl, ?_⟩, ?_, Iff.rfl, fun _ _ => rfl⟩
      · exact RequestManager.slots_removeClient_of_ne _ (Ne.symm hother)
      · have hnil : s.cancellingOf client = [] := by simp [Requests.cancellingOf, hidle]
        rw [hnil]
        refine List.filter_eq_nil_iff.mpr fun id hmem => ?_
        obtain ⟨slot, hslot, rfl⟩ := List.mem_map.mp hmem
        have howner : s.owner slot.call = some sender := ho.slots sender slot hslot
        show ¬ decide (s.owner slot.call = some client) = true
        simp [howner, hother]
  | @cancelNext id rest hnext =>
      have howner : s.owner id = some other := by
        simpa only [Requests.actor, hnext, List.head?_cons, Option.bind_some] using hactor
      obtain ⟨c, hcall, -⟩ := Requests.owner_eq_some howner
      exact Frame.cancelHandle hcall (hsender hcall howner) (Or.inr hnext)

end Steps

end Dragomand
