import Mathlib.Data.List.Sort
import Dragomand.Peers

/-!
# Two runs of one client

What a client sees of a state does not say how its calls are numbered
(`SameFor`). Two states are related when its calls can be paired in the
order of arrival so that they, its slots and its handles to be cancelled
are the same (`Sim`). Other clients' steps keep that on either side, and a
step of its own taken on both keeps it as well.
-/

namespace Dragomand

/-! ## What a client sees -/

/-- The code and the results of a `Response`. -/
def Signal.answer : Signal → Option (Nat × Results)
  | .response _ _ code results => some (code, results)
  | _ => none

/-- The Responses of a call, newest first. -/
def Requests.answers (s : Requests) (id : Nat) : List (Nat × Results) :=
  (s.history id).filterMap Signal.answer

/-- The object server has the call's object. -/
def Requests.serves (s : Requests) (id : Nat) : Bool :=
  s.calls[id]?.any fun c => s.objects.lookup c.path = some id

/-- To the client, two states are the same: its calls in the order of
arrival with their flags and phases, their Responses and their objects, and
its slots. -/
structure SameFor (client : String) (s t : Requests) : Prop where
  calls : (s.callsOf client).map (s.calls[·]?) = (t.callsOf client).map (t.calls[·]?)
  answers : (s.callsOf client).map s.answers = (t.callsOf client).map t.answers
  objects : (s.callsOf client).map s.serves = (t.callsOf client).map t.serves
  slots : (s.manager.slots client).map Slot.path = (t.manager.slots client).map Slot.path
  vanished : client ∈ s.vanished ↔ client ∈ t.vanished

/-! ## Two runs, call by call -/

/-- The client's calls in `s` and in `t`, paired in the order of arrival by
`pairs`, are the same calls; so are its slots, the handles of its own that
are about to be cancelled, and its Responses. -/
structure Sim (client : String) (pairs : List (Nat × Nat)) (s t : Requests) : Prop where
  left : pairs.map Prod.fst = s.callsOf client
  right : pairs.map Prod.snd = t.callsOf client
  calls : ∀ pair ∈ pairs, s.calls[pair.1]? = t.calls[pair.2]?
  slots : List.Forall₂ (fun a b => a.path = b.path ∧ (a.call, b.call) ∈ pairs)
    (s.manager.slots client) (t.manager.slots client)
  cancelling : List.Forall₂ (fun i j => (i, j) ∈ pairs) (s.cancellingOf client)
    (t.cancellingOf client)
  vanished : client ∈ s.vanished ↔ client ∈ t.vanished
  answers : ∀ pair ∈ pairs, s.answers pair.1 = t.answers pair.2

section Sim

variable {display : Error → String} {client : String} {pairs : List (Nat × Nat)}
  {s t s' t' : Requests}

theorem Requests.mem_callsOf_iff {id : Nat} : id ∈ s.callsOf client ↔ s.owner id = some client :=
  mem_callsOf.trans Option.map_eq_some_iff.symm

/-- The client's calls, in the order of arrival, are known by their owner. -/
theorem Requests.callsOf_eq (h : ∀ id, s'.owner id = some client ↔ s.owner id = some client) :
    s'.callsOf client = s.callsOf client :=
  (List.pairwise_lt_range.filter _).eq_of_mem_iff (List.pairwise_lt_range.filter _)
    fun id => mem_callsOf_iff.trans ((h id).trans mem_callsOf_iff.symm)

theorem Sim.symm (h : Sim client pairs s t) : Sim client (pairs.map Prod.swap) t s where
  left := (List.map_map ..).trans h.right
  right := (List.map_map ..).trans h.left
  calls := fun pair hmem => by
    obtain ⟨pair, hpair, rfl⟩ := List.mem_map.mp hmem
    exact (h.calls pair hpair).symm
  slots := by
    refine h.slots.flip.imp fun a b hab => ⟨hab.1.symm, ?_⟩
    simpa using hab.2
  cancelling := h.cancelling.flip.imp fun i j hij => by simpa using hij
  vanished := h.vanished.symm
  answers := fun pair hmem => by
    obtain ⟨pair, hpair, rfl⟩ := List.mem_map.mp hmem
    exact (h.answers pair hpair).symm

theorem Sim.owner (h : Sim client pairs s t) {i j : Nat} (hmem : (i, j) ∈ pairs) :
    s.owner i = some client ∧ t.owner j = some client := by
  constructor
  · have hi : i ∈ s.callsOf client := h.left ▸ List.mem_map_of_mem (f := Prod.fst) hmem
    obtain ⟨c, hcall, hsender⟩ := Requests.mem_callsOf.mp hi
    rw [Requests.owner_of_call hcall, hsender]
  · have hj : j ∈ t.callsOf client := h.right ▸ List.mem_map_of_mem (f := Prod.snd) hmem
    obtain ⟨c, hcall, hsender⟩ := Requests.mem_callsOf.mp hj
    rw [Requests.owner_of_call hcall, hsender]

/-- A call of the one run has one partner in the other. -/
theorem Sim.fst_eq_iff (h : Sim client pairs s t) {i j : Nat} (hmem : (i, j) ∈ pairs)
    {pair : Nat × Nat} (hpair : pair ∈ pairs) : pair.1 = i ↔ pair.2 = j := by
  have hleft : (pairs.map Prod.fst).Nodup := h.left ▸ s.nodup_callsOf client
  have hright : (pairs.map Prod.snd).Nodup := h.right ▸ t.nodup_callsOf client
  constructor
  · intro heq
    rw [List.inj_on_of_nodup_map hleft hpair hmem heq]
  · intro heq
    rw [List.inj_on_of_nodup_map hright hpair hmem heq]

theorem Sim.sameFor (h : Sim client pairs s t) (hs : Served s) (ht : Served t) :
    SameFor client s t := by
  have hmap : ∀ {α : Type} {f g : Nat → α}, (∀ pair ∈ pairs, f pair.1 = g pair.2) →
      (s.callsOf client).map f = (t.callsOf client).map g := by
    intro α f g hfg
    rw [← h.left, ← h.right, List.map_map, List.map_map]
    exact List.map_congr_left hfg
  refine ⟨hmap h.calls, hmap h.answers, hmap fun pair hpair => ?_, ?_, h.vanished⟩
  · -- an object is served in the phases in which its call is
    have hcalls := h.calls pair hpair
    cases hcall : s.calls[pair.1]? with
    | none => simp [Requests.serves, hcall, ← hcalls]
    | some c =>
        rw [hcall] at hcalls
        have hiff : s.objects.lookup c.path = some pair.1 ↔ t.objects.lookup c.path = some pair.2 := by
          constructor
          · intro hobj
            obtain ⟨c', hc', -, hserve⟩ := hs.served _ _ hobj
            obtain rfl := Option.some.inj (hcall.symm.trans hc')
            exact ht.own _ c hcalls.symm hserve
          · intro hobj
            obtain ⟨c', hc', -, hserve⟩ := ht.served _ _ hobj
            obtain rfl := Option.some.inj (hcalls.trans hc')
            exact hs.own _ c hcall hserve
        simp [Requests.serves, hcall, ← hcalls, hiff]
  · have hpaths : List.Forall₂ (fun a b : String => a = b)
        ((s.manager.slots client).map Slot.path) ((t.manager.slots client).map Slot.path) :=
      List.forall₂_map_left_iff.mpr (List.forall₂_map_right_iff.mpr
        (h.slots.imp fun _ _ hab => hab.1))
    exact List.forall₂_eq_eq_eq ▸ hpaths

/-- What others do is not seen. -/
theorem Sim.of_frame (h : Sim client pairs s t) (hf : Frame client s s') :
    Sim client pairs s' t where
  left := by
    refine h.left.trans (Requests.callsOf_eq fun id => ?_).symm
    rw [Requests.owner, Requests.owner, Option.map_eq_some_iff, Option.map_eq_some_iff]
    exact exists_congr fun c => and_congr_left fun hsender => hf.calls id c hsender
  right := h.right
  calls := fun pair hpair => by
    obtain ⟨c, hcall, hsender⟩ := Requests.owner_eq_some (h.owner hpair).1
    rw [(hf.calls pair.1 c hsender).mpr hcall, ← h.calls pair hpair, hcall]
  slots := by rw [hf.slots]; exact h.slots
  cancelling := by rw [hf.cancelling]; exact h.cancelling
  vanished := hf.vanished.trans h.vanished
  answers := fun pair hpair => by
    rw [Requests.answers, hf.history pair.1 (h.owner hpair).1]
    exact h.answers pair hpair

/-! ### The client's own steps -/

/-- The same happens to a call in both runs. -/
theorem Sim.modify (h : Sim client pairs s t) {i j : Nat} (hmem : (i, j) ∈ pairs)
    {f : Call → Call} (hf : ∀ c, (f c).sender = c.sender)
    (hs : s'.calls = s.calls.modify i f) (ht : t'.calls = t.calls.modify j f)
    (hslots : List.Forall₂ (fun a b => a.path = b.path ∧ (a.call, b.call) ∈ pairs)
      (s'.manager.slots client) (t'.manager.slots client))
    (hcancelling : List.Forall₂ (fun i j => (i, j) ∈ pairs) (s'.cancellingOf client)
      (t'.cancellingOf client))
    (hvanished : client ∈ s'.vanished ↔ client ∈ t'.vanished)
    (hanswers : ∀ pair ∈ pairs, s'.answers pair.1 = t'.answers pair.2) :
    Sim client pairs s' t' where
  left := h.left.trans (Requests.callsOf_eq fun id => by rw [Requests.owner_modify hf hs]).symm
  right := h.right.trans (Requests.callsOf_eq fun id => by rw [Requests.owner_modify hf ht]).symm
  calls := fun pair hpair => by
    have hiff : i = pair.1 ↔ j = pair.2 :=
      eq_comm.trans ((h.fst_eq_iff hmem hpair).trans eq_comm)
    rw [hs, ht, List.getElem?_modify, List.getElem?_modify, h.calls pair hpair]
    simp only [hiff]
  slots := hslots
  cancelling := hcancelling
  vanished := hvanished
  answers := hanswers

theorem Requests.answers_of_log (hlog : s'.log = s.log) (id : Nat) : s'.answers id = s.answers id := by
  rw [answers, answers, history, history, hlog]

theorem Requests.answers_cons {sig : Signal} (hlog : s'.log = sig :: s.log) (id : Nat) :
    s'.answers id = (if sig.call = id then sig.answer.toList else []) ++ s.answers id := by
  unfold answers history
  rw [hlog]
  by_cases hcall : sig.call = id
  · rw [List.filter_cons_of_pos (by simp [hcall]), if_pos hcall]
    cases hanswer : sig.answer with
    | none => rw [List.filterMap_cons_none hanswer]; rfl
    | some answer => rw [List.filterMap_cons_some hanswer]; rfl
  · rw [List.filter_cons_of_neg (by simp [hcall]), if_neg hcall]
    rfl

/-- The call has the same Responses in both runs after signals of its own
that carry the same one, or none. -/
theorem Sim.answers_cons (h : Sim client pairs s t) {i j : Nat} (hmem : (i, j) ∈ pairs)
    {sig sig' : Signal} (hs : s'.log = sig :: s.log) (ht : t'.log = sig' :: t.log)
    (hcall : sig.call = i) (hcall' : sig'.call = j) (hanswer : sig.answer = sig'.answer) :
    ∀ pair ∈ pairs, s'.answers pair.1 = t'.answers pair.2 := by
  intro pair hpair
  have hiff : i = pair.1 ↔ j = pair.2 := eq_comm.trans ((h.fst_eq_iff hmem hpair).trans eq_comm)
  rw [Requests.answers_cons hs, Requests.answers_cons ht, h.answers pair hpair, hcall, hcall',
    hanswer]
  simp only [hiff]

theorem Sim.answers_of_log (h : Sim client pairs s t) (hs : s'.log = s.log) (ht : t'.log = t.log) :
    ∀ pair ∈ pairs, s'.answers pair.1 = t'.answers pair.2 := by
  intro pair hpair
  rw [Requests.answers_of_log hs, Requests.answers_of_log ht, h.answers pair hpair]

theorem Sim.setPhase (h : Sim client pairs s t) {i j : Nat} (hmem : (i, j) ∈ pairs) {phase : Phase}
    (hs : s'.calls = (s.setPhase i phase).calls) (ht : t'.calls = (t.setPhase j phase).calls)
    (hslots : List.Forall₂ (fun a b => a.path = b.path ∧ (a.call, b.call) ∈ pairs)
      (s'.manager.slots client) (t'.manager.slots client))
    (hcancelling : s'.cancelling = s.cancelling ∧ t'.cancelling = t.cancelling)
    (hvanished : s'.vanished = s.vanished ∧ t'.vanished = t.vanished)
    (hanswers : ∀ pair ∈ pairs, s'.answers pair.1 = t'.answers pair.2) :
    Sim client pairs s' t' := by
  have hof : ∀ {r r' : Requests} {id : Nat}, r'.calls = (r.setPhase id phase).calls →
      r'.cancelling = r.cancelling → r'.cancellingOf client = r.cancellingOf client := by
    intro r r' id hcalls hcan
    rw [Requests.cancellingOf, hcan]
    exact List.filter_congr fun id' _ => by rw [Requests.owner_setPhase hcalls]
  refine h.modify (f := fun c => { c with phase := phase }) hmem (fun _ => rfl) hs ht hslots ?_ ?_
    hanswers
  · rw [hof hs hcancelling.1, hof ht hcancelling.2]
    exact h.cancelling
  · rw [hvanished.1, hvanished.2]
    exact h.vanished

/-- Where paths lead the client to its own requests only, they lead to the
same one, or to none, in both runs. -/
theorem Sim.lookup (h : Sim client pairs s t) (hs : Served s) (ht : Served t) (path : String)
    (hown : ∀ id ∈ (s.objects.lookup path).toList, s.owner id = some client)
    (hown' : ∀ id ∈ (t.objects.lookup path).toList, t.owner id = some client) :
    (s.objects.lookup path = none ∧ t.objects.lookup path = none)
      ∨ ∃ i j, (i, j) ∈ pairs ∧ s.objects.lookup path = some i ∧ t.objects.lookup path = some j := by
  have hfound : ∀ {pairs : List (Nat × Nat)} {s t : Requests}, Sim client pairs s t → Served s →
      Served t → ∀ i, s.objects.lookup path = some i → s.owner i = some client →
      ∃ j, (i, j) ∈ pairs ∧ t.objects.lookup path = some j := by
    intro pairs s t h hs ht i hobj howner
    obtain ⟨c, hcall, rfl, hserve⟩ := hs.served path i hobj
    have hi : i ∈ pairs.map Prod.fst := h.left ▸ Requests.mem_callsOf_iff.mpr howner
    obtain ⟨⟨i, j⟩, hmem, rfl⟩ := List.mem_map.mp hi
    exact ⟨j, hmem, ht.own j c ((h.calls _ hmem).symm.trans hcall) hserve⟩
  cases hobj : s.objects.lookup path with
  | some i =>
      obtain ⟨j, hmem, hobj'⟩ := hfound h hs ht i hobj (hown i (by simp [hobj]))
      exact Or.inr ⟨i, j, hmem, rfl, hobj'⟩
  | none =>
      cases hobj' : t.objects.lookup path with
      | none => exact Or.inl ⟨rfl, rfl⟩
      | some j =>
          obtain ⟨i, -, hsome⟩ := hfound h.symm ht hs j hobj' (hown' j (by simp [hobj']))
          rw [hobj] at hsome
          cases hsome

theorem RequestManager.register_full {m : RequestManager} {sender : String} {slot : Slot}
    (h : (m.slots sender).length ≥ MAX_REQUESTS_PER_CLIENT) : m.register sender slot
      = .error (.limitExceeded "at most 8 concurrent requests per client") :=
  if_pos h

theorem RequestManager.register_room {m : RequestManager} {sender : String} {slot : Slot}
    (h : ¬ (m.slots sender).length ≥ MAX_REQUESTS_PER_CLIENT) : m.register sender slot
      = .ok ⟨m.clients.insert sender (m.slots sender ++ [slot])⟩ :=
  if_neg h

/-- The release of a path takes the same slots in both runs. -/
theorem Sim.release_slots (h : Sim client pairs s t) (path : String) :
    List.Forall₂ (fun a b => a.path = b.path ∧ (a.call, b.call) ∈ pairs)
      ((s.manager.release client path).slots client)
      ((t.manager.release client path).slots client) := by
  rw [RequestManager.slots_release_self, RequestManager.slots_release_self]
  exact List.rel_filter (fun a b hab => by simp [hab.1]) h.slots

theorem Sim.register (h : Sim client pairs s t) {i j : Nat} (hmem : (i, j) ∈ pairs) {c : Call}
    (hi : s.calls[i]? = some c) (hj : t.calls[j]? = some c) (hsender : c.sender = client)
    (hs : s.step display (.register i) = some s') (ht : t.step display (.register j) = some t') :
    Sim client pairs s' t' := by
  subst hsender
  simp only [Requests.step, hi, hj, Option.bind_some] at hs ht
  split at hs
  · rename_i hphase
    simp only [hphase] at ht
    by_cases hfull : (s.manager.slots c.sender).length ≥ MAX_REQUESTS_PER_CLIENT
    · rw [RequestManager.register_full hfull] at hs
      rw [RequestManager.register_full (h.slots.length_eq ▸ hfull)] at ht
      cases hs
      cases ht
      exact h.setPhase hmem rfl rfl h.slots ⟨rfl, rfl⟩ ⟨rfl, rfl⟩ (h.answers_of_log rfl rfl)
    · rw [RequestManager.register_room hfull] at hs
      rw [RequestManager.register_room (h.slots.length_eq ▸ hfull)] at ht
      cases hs
      cases ht
      refine h.setPhase hmem rfl rfl ?_ ⟨rfl, rfl⟩ ⟨rfl, rfl⟩ (h.answers_of_log rfl rfl)
      simp only [RequestManager.slots, AList.lookup_insert, Option.getD_some]
      exact List.rel_append h.slots (.cons ⟨rfl, hmem⟩ .nil)
  · cases hs

theorem Sim.at (h : Sim client pairs s t) (hs₀ : Served s) (ht₀ : Served t) {i j : Nat}
    (hmem : (i, j) ∈ pairs) {c : Call} {error : Option String} (hi : s.calls[i]? = some c)
    (hj : t.calls[j]? = some c)
    (hown : error = none →
      (∀ id ∈ (s.objects.lookup c.path).toList, s.owner id = some client)
        ∧ ∀ id ∈ (t.objects.lookup c.path).toList, t.owner id = some client)
    (hs : s.step display (.at i error) = some s') (ht : t.step display (.at j error) = some t') :
    Sim client pairs s' t' := by
  simp only [Requests.step, hi, hj, Option.bind_some] at hs ht
  split at hs
  · rename_i hphase
    simp only [hphase] at ht
    cases hs
    cases ht
    cases error with
    | some message =>
        exact h.setPhase hmem rfl rfl h.slots ⟨rfl, rfl⟩ ⟨rfl, rfl⟩ (h.answers_of_log rfl rfl)
    | none =>
        obtain ⟨hs', ht'⟩ := hown rfl
        unfold Requests.at
        rcases h.lookup hs₀ ht₀ c.path hs' ht' with ⟨hnone, hnone'⟩ | ⟨i', j', -, hobj, hobj'⟩
        · simp only [hnone, hnone']
          exact h.setPhase hmem rfl rfl h.slots ⟨rfl, rfl⟩ ⟨rfl, rfl⟩
            (h.answers_cons hmem rfl rfl rfl rfl rfl)
        · simp only [hobj, hobj']
          exact h.setPhase hmem rfl rfl h.slots ⟨rfl, rfl⟩ ⟨rfl, rfl⟩ (h.answers_of_log rfl rfl)
  · cases hs

/-- A step of the client's request, the same in both runs. -/
theorem Sim.task (h : Sim client pairs s t) (hs₀ : Served s) (ht₀ : Served t) {i j : Nat}
    (hmem : (i, j) ∈ pairs) {event : TaskEvent}
    (hown : event = .at none → ∀ c, s.calls[i]? = some c →
      (∀ id ∈ (s.objects.lookup c.path).toList, s.owner id = some client)
        ∧ ∀ id ∈ (t.objects.lookup c.path).toList, t.owner id = some client)
    (hs : s.step display (event.on i) = some s') (ht : t.step display (event.on j) = some t') :
    Sim client pairs s' t' := by
  obtain ⟨c, hi, hsender⟩ := Requests.owner_eq_some (h.owner hmem).1
  have hj : t.calls[j]? = some c := (h.calls _ hmem).symm.trans hi
  have hquiet : ∀ {phase : Phase} {s' t' : Requests}, s'.calls = (s.setPhase i phase).calls →
      t'.calls = (t.setPhase j phase).calls → s'.manager = s.manager ∧ t'.manager = t.manager →
      s'.cancelling = s.cancelling ∧ t'.cancelling = t.cancelling →
      s'.vanished = s.vanished ∧ t'.vanished = t.vanished →
      (∀ pair ∈ pairs, s'.answers pair.1 = t'.answers pair.2) → Sim client pairs s' t' := by
    intro phase s' t' hcalls hcalls' hmanager
    exact h.setPhase hmem hcalls hcalls' (by rw [hmanager.1, hmanager.2]; exact h.slots)
  cases event with
  | register => exact h.register hmem hi hj hsender hs ht
  | «at» error => exact h.at hs₀ ht₀ hmem hi hj (fun herror => hown (herror ▸ rfl) c hi) hs ht
  | rollback | release =>
      subst hsender
      simp only [TaskEvent.on, Requests.step, hi, hj, Option.bind_some] at hs ht
      split at hs
      · rename_i hphase
        simp only [hphase] at ht
        cases hs
        cases ht
        exact h.setPhase hmem rfl rfl (h.release_slots c.path) ⟨rfl, rfl⟩ ⟨rfl, rfl⟩
          (h.answers_of_log rfl rfl)
      · cases hs
  | progress fraction stage =>
      simp only [TaskEvent.on, Requests.step, hi, hj, Option.bind_some] at hs ht
      split at hs
      · rename_i hphase
        simp only [hphase] at ht
        have hobj := hs₀.own i c hi (by rw [hphase]; rfl)
        have hobj' := ht₀.own j c hj (by rw [hphase]; rfl)
        simp only [Requests.emitProgress, hobj, hobj'] at hs ht
        cases hs
        cases ht
        refine @hquiet c.phase _ _ ?_ ?_ ⟨rfl, rfl⟩ ⟨rfl, rfl⟩ ⟨rfl, rfl⟩
          (h.answers_cons hmem rfl rfl rfl rfl rfl)
        · rw [Requests.setPhase_self hi]
        · rw [Requests.setPhase_self hj]
      · cases hs
  | work | decide | remove =>
      simp only [TaskEvent.on, Requests.step, hi, hj, Option.bind_some] at hs ht
      split at hs
      · rename_i hphase
        simp only [hphase] at ht
        cases hs
        cases ht
        exact hquiet rfl rfl ⟨rfl, rfl⟩ ⟨rfl, rfl⟩ ⟨rfl, rfl⟩
          (h.answers_cons hmem rfl rfl rfl rfl rfl)
      · cases hs
  | cancelWins =>
      simp only [TaskEvent.on, Requests.step, hi, hj, Option.bind_some] at hs ht
      split at hs
      · rename_i hphase
        simp only [hphase] at ht
        split at hs
        · rename_i hflag
          rw [if_pos hflag] at ht
          cases hs
          cases ht
          exact hquiet rfl rfl ⟨rfl, rfl⟩ ⟨rfl, rfl⟩ ⟨rfl, rfl⟩ (h.answers_of_log rfl rfl)
        · cases hs
      · cases hs
  | panic =>
      simp only [TaskEvent.on, Requests.step, hi, hj, Option.bind_some] at hs ht
      split at hs
      · rename_i hphase
        simp only [hphase] at ht
        cases hs
        cases ht
        exact hquiet rfl rfl ⟨rfl, rfl⟩ ⟨rfl, rfl⟩ ⟨rfl, rfl⟩ (h.answers_of_log rfl rfl)
      · cases hs
  | emit sent =>
      simp only [TaskEvent.on, Requests.step, hi, hj, Option.bind_some] at hs ht
      split at hs
      · rename_i code results hphase
        simp only [hphase] at ht
        have hobj := hs₀.own i c hi (by rw [hphase]; rfl)
        have hobj' := ht₀.own j c hj (by rw [hphase]; rfl)
        simp only [Requests.emitResponse, hobj, hobj'] at hs ht
        cases hs
        cases ht
        refine hquiet rfl rfl ⟨rfl, rfl⟩ ⟨rfl, rfl⟩ ⟨rfl, rfl⟩
          (h.answers_cons hmem rfl rfl ?_ ?_ ?_)
        all_goals cases sent <;> rfl
      · cases hs

/-- A pair of runs in which the client makes the same call next. -/
theorem Sim.enter (h : Sim client pairs s t) (hs : Known s) (ht : Known t) (token : String) :
    Sim client (pairs ++ [(s.calls.length, t.calls.length)]) (s.enter client token)
      (t.enter client token) := by
  obtain ⟨c, hc, hs', ht'⟩ : ∃ c : Call, c.sender = client
      ∧ s.enter client token = { s with calls := s.calls ++ [c] }
      ∧ t.enter client token = { t with calls := t.calls ++ [c] } := ⟨_, rfl, rfl, rfl⟩
  rw [hs', ht']
  have hcallsOf : ∀ r : Requests,
      Requests.callsOf { r with calls := r.calls ++ [c] } client
        = r.callsOf client ++ [r.calls.length] := by
    intro r
    simp only [Requests.callsOf, List.length_append, List.length_singleton, List.range_succ,
      List.filter_append]
    congr 1
    · refine List.filter_congr fun id hid => ?_
      rw [List.getElem?_append_left (List.mem_range.mp hid)]
    · simp [hc]
  have howner : ∀ (r : Requests) (id : Nat), id < r.calls.length →
      Requests.owner { r with calls := r.calls ++ [c] } id = r.owner id := by
    intro r id hlt
    rw [Requests.owner, List.getElem?_append_left hlt]
    rfl
  have hcan : ∀ r : Requests, Known r →
      Requests.cancellingOf { r with calls := r.calls ++ [c] } client = r.cancellingOf client :=
    fun r hr => List.filter_congr fun id hmem => by rw [howner r id (hr.cancelling id hmem)]
  have hfresh : ∀ r : Requests, Known r → r.answers r.calls.length = [] := by
    intro r hr
    have hnil : r.history r.calls.length = [] := by
      refine List.filter_eq_nil_iff.mpr fun sig hmem => ?_
      have := hr.log sig hmem
      simp only [decide_eq_true_eq]
      omega
    rw [Requests.answers, hnil]
    rfl
  have hlt : ∀ pair ∈ pairs, pair.1 < s.calls.length ∧ pair.2 < t.calls.length := by
    intro pair hpair
    obtain ⟨c₁, h₁, -⟩ := Requests.owner_eq_some (h.owner hpair).1
    obtain ⟨c₂, h₂, -⟩ := Requests.owner_eq_some (h.owner hpair).2
    exact ⟨(List.getElem?_eq_some_iff.mp h₁).1, (List.getElem?_eq_some_iff.mp h₂).1⟩
  refine ⟨?_, ?_, fun pair hpair => ?_, ?_, ?_, h.vanished, fun pair hpair => ?_⟩
  · rw [List.map_append, h.left, hcallsOf]
    rfl
  · rw [List.map_append, h.right, hcallsOf]
    rfl
  · rcases List.mem_append.mp hpair with hold | hnew
    · rw [List.getElem?_append_left (hlt pair hold).1, List.getElem?_append_left (hlt pair hold).2]
      exact h.calls pair hold
    · obtain rfl := List.mem_singleton.mp hnew
      simp
  · exact h.slots.imp fun _ _ hab => ⟨hab.1, List.mem_append_left _ hab.2⟩
  · rw [hcan s hs, hcan t ht]
    exact h.cancelling.imp fun _ _ hij => List.mem_append_left _ hij
  · rcases List.mem_append.mp hpair with hold | hnew
    · exact h.answers pair hold
    · obtain rfl := List.mem_singleton.mp hnew
      exact (hfresh s hs).trans (hfresh t ht).symm

theorem Sim.cancelHandle (h : Sim client pairs s t) {i j : Nat} (hmem : (i, j) ∈ pairs)
    (hs : s'.calls = (s.cancelHandle i).calls) (ht : t'.calls = (t.cancelHandle j).calls)
    (hlog : s'.log = (s.cancelHandle i).log ∧ t'.log = (t.cancelHandle j).log)
    (hmanager : s'.manager = s.manager ∧ t'.manager = t.manager)
    (hvanished : s'.vanished = s.vanished ∧ t'.vanished = t.vanished)
    (hcancelling : List.Forall₂ (fun i j => (i, j) ∈ pairs)
      (s'.cancelling.filter fun id => s.owner id = some client)
      (t'.cancelling.filter fun id => t.owner id = some client)) : Sim client pairs s' t' := by
  have hof : ∀ {r r' : Requests} {id : Nat}, r'.calls = (r.cancelHandle id).calls →
      r'.cancellingOf client = r'.cancelling.filter fun id => r.owner id = some client := by
    intro r r' id hcalls
    exact List.filter_congr fun id' _ => by rw [Requests.owner_cancelHandle hcalls]
  refine h.modify (f := fun c => { c with cancelled := true }) hmem (fun _ => rfl) hs ht ?_ ?_ ?_
    (h.answers_cons hmem hlog.1 hlog.2 rfl rfl rfl)
  · rw [hmanager.1, hmanager.2]
    exact h.slots
  · rw [hof hs, hof ht]
    exact hcancelling
  · rw [hvanished.1, hvanished.2]
    exact h.vanished

/-- `cancel_client` takes the same slots in both runs. -/
theorem Sim.cancelClient (h : Sim client pairs s t)
    (hs : s.step display (.cancelClient client) = some s')
    (ht : t.step display (.cancelClient client) = some t') : Sim client pairs s' t' := by
  simp only [Requests.step] at hs ht
  split at hs
  · split at ht
    · cases hs
      cases ht
      refine ⟨h.left, h.right, h.calls, ?_, ?_, h.vanished, h.answers⟩
      · simp only [RequestManager.slots_removeClient_self]
        exact .nil
      · have hhandles : List.Forall₂ (fun i j => (i, j) ∈ pairs)
            ((s.manager.slots client).map Slot.call) ((t.manager.slots client).map Slot.call) :=
          List.forall₂_map_left_iff.mpr (List.forall₂_map_right_iff.mpr
            (h.slots.imp fun _ _ hab => hab.2))
        refine List.rel_filter (fun i j hij => ?_) hhandles
        show decide (s.owner i = some client) = true ↔ decide (t.owner j = some client) = true
        simp [h.owner hij]
    · cases ht
  · cases hs

/-- One flag of the client's, set in both runs. -/
theorem Sim.cancelNext (h : Sim client pairs s t) {i j : Nat} {rest rest' : List Nat}
    (hs : s.cancelling = i :: rest) (ht : t.cancelling = j :: rest')
    (howner : s.owner i = some client) (howner' : t.owner j = some client) :
    Sim client pairs { s.cancelHandle i with cancelling := rest }
      { t.cancelHandle j with cancelling := rest' } := by
  have hcan := h.cancelling
  rw [Requests.cancellingOf, Requests.cancellingOf, hs, ht,
    List.filter_cons_of_pos (by simp [howner]), List.filter_cons_of_pos (by simp [howner'])] at hcan
  obtain ⟨hmem, hrest⟩ := List.forall₂_cons.mp hcan
  exact h.cancelHandle hmem rfl rfl ⟨rfl, rfl⟩ ⟨rfl, rfl⟩ ⟨rfl, rfl⟩ hrest

end Sim

end Dragomand
