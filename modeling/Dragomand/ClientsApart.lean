import Dragomand.DaemonCancel
import Dragomand.PeerRuns
import Dragomand.Unwinding

/-!
# Clients and each other's requests

Two runs in which a client does the same, whatever the others do, are the
same to it: `Sim` is an unwinding relation as long as every path leads a
client to its own requests only. Nothing in `RequestObject::cancel` sees to
that: it cancels for whoever calls it.
-/

namespace Dragomand

/-- Clients cannot affect each other's requests, in runs whose steps meet
`ok`. -/
structure ClientsApart (display : Error → String) (ok : Peers → ClientEvent → Prop) : Prop where
  /-- Runs in which a client does the same are the same to it. -/
  same : ∀ (client : String) (es es' : List ClientEvent) (p p' : Peers),
    Machine.Trace (Peers.step display) ok Peers.init es p →
    Machine.Trace (Peers.step display) ok Peers.init es' p' →
    es.filter (fun e => e.client = client) = es'.filter (fun e => e.client = client) →
    SameFor client p.requests p'.requests
  /-- A request ends with code `CANCELLED` only if its client called
  `Cancel` on it or left the bus. -/
  cancelled : ∀ (p : Peers), Machine.Reach (Peers.step display) ok Peers.init p →
    ∀ (id : Nat) (c : Call) (object : Nat) (results : Results),
      p.requests.calls[id]? = some c →
      .response id object response_code.CANCELLED results ∈ p.requests.log →
      id ∈ p.own ∨ c.sender ∈ p.requests.vanished
  /-- What a client does sets no flag of another's request, removes no
  object of it and takes no slot. -/
  untouched : ∀ (p p' : Peers) (e : ClientEvent),
    Machine.Reach (Peers.step display) ok Peers.init p → ok p e → p.step display e = some p' →
    ∀ client, client ≠ e.client → Untouched client p.requests p'.requests

/-! ## Invariants of a run -/

/-- Flags are set by the request's own client or at its end. -/
structure PeersInv (display : Error → String) (p : Peers) : Prop where
  requests : RequestsInv display p.requests
  owned : Owned p.requests
  flags : ∀ (id : Nat) (c : Call), p.requests.calls[id]? = some c → c.cancelled = true →
    id ∈ p.own ∨ c.sender ∈ p.requests.vanished

section Invariants

variable {display : Error → String} {p p' : Peers} {e : ClientEvent}

theorem Requests.vanished_subset {s s' : Requests} {event : RequestEvent}
    (h : s.Transition display event s') : s.vanished ⊆ s'.vanished := by
  cases h with
  | vanish => exact List.subset_cons_self _ _
  | _ => exact List.Subset.refl _

theorem Requests.event_eq_cancel {s : Requests} {path : String}
    (h : s.event e = some (.cancel path)) : e.action = .cancel path := by
  unfold event at h
  split at h
  · cases h
  · rename_i event _
    obtain ⟨id, -, h⟩ := Option.map_eq_some_iff.mp h
    exact absurd h (by cases event <;> exact nofun)
  · rename_i haction
    cases h
    exact haction
  · cases h
  · cases h
  · obtain ⟨id, -, h⟩ := Option.bind_eq_some_iff.mp h
    split at h <;> cases h

theorem peersInv_step (h : p.step display e = some p') (hok : OwnRequests p e)
    (hi : PeersInv display p) : PeersInv display p' := by
  rcases Peers.step_cases h with ⟨event, hevent, hr, hown⟩ | ⟨rfl, -⟩
  · have ht := Requests.step_cases hr
    refine ⟨requestsInv_step ht hi.requests, owned_step ht hi.owned, fun id c' hcall' hflag => ?_⟩
    have hset : p'.requests.flag id = true := by simp [Requests.flag, hcall', hflag]
    have howner' : ∀ {sender}, p.requests.owner id = some sender → sender = c'.sender := by
      intro sender howner
      have := Requests.owner_step ht howner
      rw [Requests.owner_of_call hcall'] at this
      exact (Option.some.inj this).symm
    rcases Requests.flag_of_step ht hset with hold | hnow
    · obtain ⟨c, hcall, hc⟩ := (Option.any_eq_true _ _).mp hold
      rcases hi.flags id c hcall hc with hmem | hgone
      · exact Or.inl (hown ▸ List.mem_append_right _ hmem)
      · rw [← howner' (Requests.owner_of_call hcall)]
        exact Or.inr (Requests.vanished_subset ht hgone)
    · cases event with
      | cancel path =>
          -- the client's own request
          have haction := Requests.event_eq_cancel hevent
          simp only [OwnRequests, haction] at hok
          have hobj : p.requests.objects.lookup path = some id := hnow
          left
          rw [hown]
          refine List.mem_append_left _ ?_
          simp only [Requests.cancelsOwn, haction, hobj, Option.toList_some]
          exact List.mem_filter.mpr
            ⟨List.mem_singleton_self _, decide_eq_true (hok id (by simp [hobj]))⟩
      | cancelNext =>
          -- taken out of the table when its client left
          have hnext : id ∈ p.requests.cancelling := List.mem_of_mem_head? hnow
          obtain ⟨sender, howner, hgone⟩ := hi.owned.cancelling id hnext
          rw [← howner' howner]
          exact Or.inr (Requests.vanished_subset ht hgone)
      | _ => cases hnow
  · exact hi

theorem peersInv_init : PeersInv display Peers.init where
  requests := requestsInv_init
  owned := ⟨by simp [Peers.init, Requests.init, RequestManager.slots], by
    simp [Peers.init, Requests.init]⟩
  flags := by simp [Peers.init, Requests.init]

theorem peersInv_of_reach (h : Machine.Reach (Peers.step display) OwnRequests Peers.init p) :
    PeersInv display p :=
  h.invariant peersInv_init fun _ _ _ _ hok hs hi => peersInv_step hs hok hi

/-- The code `CANCELLED` says that the flag is set. -/
theorem Story.flag_of_cancelled {id : Nat} {phase : Phase} {flag : Bool} {l : List Signal}
    (h : Story display id phase flag l) :
    (∀ results, phase = .responding response_code.CANCELLED results → flag = true)
      ∧ ∀ object results, .response id object response_code.CANCELLED results ∈ l →
        flag = true := by
  induction h with
  | @decided flag l outcome code results hresponse hst ih =>
      refine ⟨fun results' hphase => ?_, by simpa using ih.2⟩
      cases flag with
      | true => rfl
      | false => cases outcome <;> cases hresponse <;> cases hphase
  | @responded flag l code results hst ih =>
      refine ⟨nofun, fun object results' hmem => ?_⟩
      rcases List.mem_cons.mp hmem with heq | hold
      · cases heq
        exact ih.1 results rfl
      · exact ih.2 object results' hold
  | entered | invalid | cancelWon | cancelled => simp
  | refused _ ih | registered _ ih | serverError _ ih | duplicate _ ih | rolledBack _ ih
  | panicked _ ih | ended _ ih => exact ⟨nofun, ih.2⟩
  | accepted _ ih | progress _ ih | returned _ ih | unsent _ ih | removed _ ih =>
      exact ⟨nofun, by simpa using ih.2⟩

end Invariants

/-! ## Whole runs -/

section Runs

variable {display : Error → String} {client : String} {pairs : List (Nat × Nat)}
  {p q p' q' : Peers} {e : ClientEvent}

/-- Other clients' steps touch nothing of the client's. -/
theorem Peers.frame (hi : PeersInv display p) (hok : OwnRequests p e)
    (hs : p.step display e = some p') (hne : e.client ≠ client) :
    Frame client p.requests p'.requests := by
  rcases Peers.step_cases hs with ⟨event, hevent, hr, -⟩ | ⟨rfl, -⟩
  · exact frame_step (Requests.step_cases hr) hi.requests hi.owned (hok.actor hevent hr) hne
  · exact Frame.refl client _

theorem Peers.step_event (hs : p.step display e = some p')
    (hne : ∀ path, e.action ≠ .cancel path) :
    ∃ event, p.requests.event e = some event
      ∧ p.requests.step display event = some p'.requests := by
  rcases Peers.step_cases hs with ⟨event, hevent, hr, -⟩ | ⟨-, path, haction, -⟩
  · exact ⟨event, hevent, hr⟩
  · exact absurd haction (hne path)

/-- A `Cancel` on the client's own request, in both runs, or on nothing. -/
theorem Sim.cancel (h : Sim client pairs p.requests q.requests) (hp : PeersInv display p)
    (hq : PeersInv display q) {path : String} (hok : OwnRequests p ⟨client, .cancel path⟩)
    (hok' : OwnRequests q ⟨client, .cancel path⟩)
    (hs : p.step display ⟨client, .cancel path⟩ = some p')
    (ht : q.step display ⟨client, .cancel path⟩ = some q') :
    Sim client pairs p'.requests q'.requests := by
  have hview : ∀ {r r' : Peers}, r.step display ⟨client, .cancel path⟩ = some r' →
      r'.requests
        = (r.requests.objects.lookup path).elim r.requests fun id => r.requests.cancelHandle id := by
    intro r r' hr
    simp only [Peers.step, Requests.event, Option.bind_some, Requests.step] at hr
    cases hobj : r.requests.objects.lookup path <;> simp only [hobj, Option.map_none,
      Option.map_some] at hr <;> cases hr <;> rfl
  rw [hview hs, hview ht]
  rcases h.lookup hp.requests.served hq.requests.served path hok hok' with
    ⟨hobj, hobj'⟩ | ⟨i, j, hmem, hobj, hobj'⟩
  · rw [hobj, hobj']
    exact h
  · rw [hobj, hobj']
    exact h.cancelHandle hmem rfl rfl ⟨rfl, rfl⟩ ⟨rfl, rfl⟩ ⟨rfl, rfl⟩ h.cancelling

/-- The client's own step, in both runs. -/
theorem Sim.own (h : Sim client pairs p.requests q.requests) (hp : PeersInv display p)
    (hq : PeersInv display q) (hmine : e.client = client) (hok : OwnRequests p e)
    (hs : p.step display e = some p') (hok' : OwnRequests q e)
    (ht : q.step display e = some q') : ∃ pairs', Sim client pairs' p'.requests q'.requests := by
  obtain ⟨sender, action⟩ := e
  obtain rfl : sender = client := hmine
  by_cases hcancel : ∃ path, action = .cancel path
  · obtain ⟨path, rfl⟩ := hcancel
    exact ⟨pairs, h.cancel hp hq hok hok' hs ht⟩
  have hne : ∀ path, action ≠ .cancel path := fun path heq => hcancel ⟨path, heq⟩
  obtain ⟨event, hevent, hr⟩ := Peers.step_event hs hne
  obtain ⟨event', hevent', hr'⟩ := Peers.step_event ht hne
  cases action with
  | enter token =>
      cases hevent
      cases hevent'
      rw [← Option.some.inj hr, ← Option.some.inj hr']
      exact ⟨_, h.enter hp.requests.known hq.requests.known token⟩
  | task n event =>
      obtain ⟨i, hi, rfl⟩ := Option.map_eq_some_iff.mp hevent
      obtain ⟨j, hj, rfl⟩ := Option.map_eq_some_iff.mp hevent'
      have hmem : (i, j) ∈ pairs := by
        rw [← h.left, List.getElem?_map] at hi
        rw [← h.right, List.getElem?_map] at hj
        obtain ⟨⟨i', j'⟩, hpair, rfl⟩ := Option.map_eq_some_iff.mp hi
        rw [hpair] at hj
        obtain rfl := Option.some.inj hj
        exact List.mem_of_getElem? hpair
      refine ⟨pairs, h.task hp.requests.served hq.requests.served hmem (fun hat c hcall => ?_) hr hr'⟩
      subst hat
      exact ⟨hok i (by simp [hi]) c (by simp [hcall]),
        hok' j (by simp [hj]) c (by simp [← h.calls _ hmem, hcall])⟩
  | cancel path => exact absurd rfl (hne path)
  | vanish =>
      cases hevent
      cases hevent'
      rw [← Option.some.inj hr, ← Option.some.inj hr']
      exact ⟨pairs, h.left, h.right, h.calls, h.slots, h.cancelling,
        iff_of_true (List.mem_cons_self ..) (List.mem_cons_self ..), h.answers⟩
  | cancelClient =>
      cases hevent
      cases hevent'
      exact ⟨pairs, h.cancelClient hr hr'⟩
  | cancelNext =>
      have hnext : ∀ {r r' : Requests} {event : RequestEvent},
          r.event ⟨sender, .cancelNext⟩ = some event → r.step display event = some r' →
          ∃ id rest, r.cancelling = id :: rest ∧ r.owner id = some sender
            ∧ r' = { r.cancelHandle id with cancelling := rest } := by
        intro r r' event hevent hr
        obtain ⟨id, hid, hevent⟩ := Option.bind_eq_some_iff.mp hevent
        split at hevent
        · rename_i howner
          cases hevent
          obtain ⟨rest, hrest⟩ := List.head?_eq_some_iff.mp hid
          simp only [Requests.step, hrest] at hr
          exact ⟨id, rest, hrest, howner, (Option.some.inj hr).symm⟩
        · cases hevent
      obtain ⟨i, rest, hi, howner, hr⟩ := hnext hevent hr
      obtain ⟨j, rest', hj, howner', hr'⟩ := hnext hevent' hr'
      rw [hr, hr']
      exact ⟨pairs, h.cancelNext hi hj howner howner'⟩

/-- Two runs that are the same to the client. -/
def Related (display : Error → String) (client : String) (p q : Peers) : Prop :=
  PeersInv display p ∧ PeersInv display q ∧ ∃ pairs, Sim client pairs p.requests q.requests

theorem related_unwinding (client : String) :
    Machine.Unwinding (Peers.step display) OwnRequests (fun e => e.client = client)
      (Related display client) where
  left := fun ⟨hp, hq, _, h⟩ hmine hok hs =>
    ⟨peersInv_step hs hok hp, hq, _, h.of_frame (Peers.frame hp hok hs (of_decide_eq_false hmine))⟩
  right := fun ⟨hp, hq, _, h⟩ hmine hok hs =>
    ⟨hp, peersInv_step hs hok hq, _,
      (h.symm.of_frame (Peers.frame hq hok hs (of_decide_eq_false hmine))).symm⟩
  both := fun ⟨hp, hq, _, h⟩ hmine hok hs hok' ht =>
    ⟨peersInv_step hs hok hp, peersInv_step ht hok' hq,
      h.own hp hq (of_decide_eq_true hmine) hok hs hok' ht⟩

theorem related_init (client : String) : Related display client Peers.init Peers.init :=
  ⟨peersInv_init, peersInv_init, [], ⟨rfl, rfl, by simp, .nil, .nil, Iff.rfl, by simp⟩⟩

/-- **Clients cannot affect each other's requests** as long as each finds
its own requests only under the paths it uses. -/
theorem clients_apart (display : Error → String) : ClientsApart display OwnRequests where
  same := fun client es es' p p' h h' hes => by
    obtain ⟨hp, hq, pairs, hsim⟩ := (related_unwinding client).trace h h' (related_init client) hes
    exact hsim.sameFor hp.requests.served hq.requests.served
  cancelled := fun p hreach id c object results hcall hmem => by
    have hi := peersInv_of_reach hreach
    have hstory := hi.requests.told.story id c hcall
    have hhistory : .response id object response_code.CANCELLED results ∈ p.requests.history id :=
      List.mem_filter.mpr ⟨hmem, by simp [Signal.call]⟩
    exact hi.flags id c hcall (hstory.flag_of_cancelled.2 object results hhistory)
  untouched := fun p p' e hreach hok hs client hne =>
    (Peers.frame (peersInv_of_reach hreach) hok hs hne.symm).toUntouched

end Runs

/-! ## Two clients -/

/-- Client `:1.7` makes a request, and `:1.8`, which computes its path,
calls `Cancel` on it. -/
def cancelOther : List ClientEvent :=
  [⟨":1.7", .enter "t"⟩, ⟨":1.7", .task 0 .register⟩, ⟨":1.7", .task 0 (.at none)⟩,
    ⟨":1.8", .cancel "/dev/l10n_bg/dragomand/request/_1_7/t"⟩,
    ⟨":1.7", .task 0 .cancelWins⟩, ⟨":1.7", .task 0 .decide⟩, ⟨":1.7", .task 0 (.emit true)⟩]

theorem clients_not_apart : ¬ ClientsApart (fun _ => "") Machine.anyStep := by
  intro h
  obtain ⟨p, hreach, hp⟩ := Machine.exists_reach_of_run (Peers.step fun _ => "") Machine.anyStep
    Peers.init cancelOther
    (fun p => decide (p.requests.calls[0]?.map Call.sender = some ":1.7"
      ∧ Signal.response 0 0 response_code.CANCELLED [] ∈ p.requests.log
      ∧ p.own = [] ∧ p.requests.vanished = []))
    (by decide)
  obtain ⟨hsender, hmem, hown, hgone⟩ := of_decide_eq_true hp
  obtain ⟨c, hcall, -⟩ := Option.map_eq_some_iff.mp hsender
  rcases h.cancelled p hreach 0 c 0 [] hcall hmem with hmine | hvanished
  · rw [hown] at hmine
    cases hmine
  · rw [hgone] at hvanished
    cases hvanished

end Dragomand
