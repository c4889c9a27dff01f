import Dragomand.Requests

/-!
# Exactly one Response

A request's history, seen alone, is a `Story`: one constructor for each
thing that can happen to the call or to its task, with the phase and the
flag it leaves behind. `told_step` shows that the interleaved system
only ever extends each story by its own constructors; what a request
emits, and with which code, is then an induction over the story of one
request.

The object found under a request's path is its own as long as the request
is served (`Served`), although the path is free again the moment the task
has removed it.
-/

namespace Dragomand

/-! ## Views of the history -/

def Signal.call : Signal → Nat
  | .accepted call | .cancelled call | .returned call _ | .decided call
  | .progress call _ _ _ | .response call _ _ _ | .unsent call | .removed call => call

def Signal.isResponse : Signal → Bool
  | .response _ _ _ _ => true
  | _ => false

def Signal.isUnsent : Signal → Bool
  | .unsent _ => true
  | _ => false

/-- The request object a signal goes out on. -/
def Signal.object : Signal → Option Nat
  | .response _ object _ _ | .progress _ object _ _ => some object
  | _ => none

/-- What the request's work returned, newest first. -/
def returns (history : List Signal) : List (Except Error Results) :=
  history.filterMap fun | .returned _ result => some result | _ => none

/-- Everything that concerns one call, newest first. -/
def Requests.history (s : Requests) (id : Nat) : List Signal :=
  s.log.filter fun sig => sig.call = id

/-- The object server serves the call's object. -/
def Phase.serving : Phase → Bool
  | .selecting | .outcome _ | .responding _ _ | .emitted | .panicked => true
  | _ => false

/-! ## Frame lemmas -/

@[simp] theorem Requests.length_setPhase (s : Requests) (id : Nat) (phase : Phase) :
    (s.setPhase id phase).calls.length = s.calls.length := by
  simp [setPhase]

@[simp] theorem Requests.length_cancelHandle (s : Requests) (id : Nat) :
    (s.cancelHandle id).calls.length = s.calls.length := by
  simp [cancelHandle]

theorem Requests.calls_setPhase_self {s : Requests} {id : Nat} {c : Call} {phase : Phase}
    (h : s.calls[id]? = some c) :
    (s.setPhase id phase).calls[id]? = some { c with phase := phase } := by
  simp [setPhase, h]

theorem Requests.calls_setPhase_of_ne {s : Requests} {id id' : Nat} {phase : Phase}
    (h : id' ≠ id) : (s.setPhase id phase).calls[id']? = s.calls[id']? := by
  simp [setPhase, Ne.symm h]

theorem Requests.setPhase_self {s : Requests} {id : Nat} {c : Call}
    (h : s.calls[id]? = some c) : s.setPhase id c.phase = s := by
  have hcalls : (s.setPhase id c.phase).calls = s.calls := by
    refine List.ext_getElem? fun id' => ?_
    by_cases hid : id' = id
    · subst hid
      rw [calls_setPhase_self h, h]
    · exact calls_setPhase_of_ne hid
  exact congrArg (fun calls => { s with calls := calls }) hcalls

theorem Requests.calls_cancelHandle_self {s : Requests} {id : Nat} {c : Call}
    (h : s.calls[id]? = some c) :
    (s.cancelHandle id).calls[id]? = some { c with cancelled := true } := by
  simp [cancelHandle, h]

theorem Requests.calls_cancelHandle_of_ne {s : Requests} {id id' : Nat} (h : id' ≠ id) :
    (s.cancelHandle id).calls[id']? = s.calls[id']? := by
  simp [cancelHandle, Ne.symm h]

/-- After a change of phase a call is the one that moved, or as before. -/
theorem Requests.calls_setPhase_eq_some {s : Requests} {id id' : Nat} {c' : Call}
    {phase : Phase} (h : (s.setPhase id phase).calls[id']? = some c') :
    (id' = id ∧ ∃ c, s.calls[id]? = some c ∧ c' = { c with phase := phase })
      ∨ (id' ≠ id ∧ s.calls[id']? = some c') :=
  getElem?_modify_cases h

theorem Requests.calls_cancelHandle_eq_some {s : Requests} {id id' : Nat} {c' : Call}
    (h : (s.cancelHandle id).calls[id']? = some c') :
    ∃ c, s.calls[id']? = some c ∧ c' = { c with cancelled := c.cancelled || id' = id } := by
  rcases getElem?_modify_cases h with ⟨rfl, c, hc, rfl⟩ | ⟨hne, hold⟩
  · exact ⟨c, hc, by simp⟩
  · exact ⟨c', hold, by simp [hne]⟩

/-! ## Served objects -/

/-- A served request is found under its path, and whatever is found there
is the request being served. -/
structure Served (s : Requests) : Prop where
  own : ∀ id c, s.calls[id]? = some c → c.phase.serving = true →
    s.objects.lookup c.path = some id
  served : ∀ path id, s.objects.lookup path = some id →
    ∃ c, s.calls[id]? = some c ∧ c.path = path ∧ c.phase.serving = true

section Served

variable {display : Error → String} {s s' : Requests}

/-- Steps that leave the objects and the served phases alone. -/
theorem Served.of_views (hs : Served s) (hobj : s'.objects = s.objects)
    (hback : ∀ (id : Nat) (c' : Call), s'.calls[id]? = some c' →
      c'.phase.serving = true → ∃ c : Call, s.calls[id]? = some c ∧ c.path = c'.path
        ∧ c.phase.serving = true)
    (hforth : ∀ (id : Nat) (c : Call), s.calls[id]? = some c → c.phase.serving = true →
      ∃ c' : Call, s'.calls[id]? = some c' ∧ c'.path = c.path ∧ c'.phase.serving = true) :
    Served s' where
  own := fun id c' hcall hserve => by
    obtain ⟨c, hc, hpath, hserve'⟩ := hback id c' hcall hserve
    rw [hobj, ← hpath]
    exact hs.own id c hc hserve'
  served := fun path id hlookup => by
    obtain ⟨c, hc, rfl, hserve⟩ := hs.served path id (hobj ▸ hlookup)
    exact hforth id c hc hserve

theorem Served.setPhase (hs : Served s) {id : Nat} {c : Call} {phase : Phase}
    (hcall : s.calls[id]? = some c) (hphase : phase.serving = c.phase.serving)
    (hcalls : s'.calls = (s.setPhase id phase).calls) (hobj : s'.objects = s.objects) :
    Served s' := by
  refine hs.of_views hobj (fun id' c' hc' hserve => ?_) (fun id' c' hc' hserve => ?_)
  · rw [hcalls] at hc'
    rcases Requests.calls_setPhase_eq_some hc' with ⟨rfl, c₀, hc₀, rfl⟩ | ⟨-, hold⟩
    · obtain rfl := Option.some.inj (hcall.symm.trans hc₀)
      exact ⟨c, hcall, rfl, hphase ▸ hserve⟩
    · exact ⟨c', hold, rfl, hserve⟩
  · rw [hcalls]
    by_cases hid : id' = id
    · subst hid
      obtain rfl := Option.some.inj (hcall.symm.trans hc')
      exact ⟨{ c with phase := phase }, Requests.calls_setPhase_self hcall, rfl,
        hphase.trans hserve⟩
    · exact ⟨c', (Requests.calls_setPhase_of_ne hid).trans hc', rfl, hserve⟩

theorem Served.cancelHandle (hs : Served s) {id : Nat}
    (hcalls : s'.calls = (s.cancelHandle id).calls) (hobj : s'.objects = s.objects) :
    Served s' := by
  refine hs.of_views hobj (fun id' c' hc' hserve => ?_) (fun id' c' hc' hserve => ?_)
  · rw [hcalls] at hc'
    obtain ⟨c, hc, rfl⟩ := Requests.calls_cancelHandle_eq_some hc'
    exact ⟨c, hc, rfl, hserve⟩
  · rw [hcalls]
    by_cases hid : id' = id
    · subst hid
      exact ⟨_, Requests.calls_cancelHandle_self hc', rfl, hserve⟩
    · exact ⟨c', (Requests.calls_cancelHandle_of_ne hid).trans hc', rfl, hserve⟩

theorem served_step {e : RequestEvent} (h : s.Transition display e s') (hs : Served s) :
    Served s' := by
  cases h with
  | @enter sender token c hsender hflag hphase =>
      have hnew : c.phase.serving = false := by
        rcases hphase with hp | ⟨e, hp⟩ <;> rw [hp] <;> rfl
      refine hs.of_views rfl (fun id c' hc' hserve => ?_) (fun id c' hc' hserve => ?_)
      · by_cases hlt : id < s.calls.length
        · rw [List.getElem?_append_left hlt] at hc'
          exact ⟨c', hc', rfl, hserve⟩
        · rw [List.getElem?_append_right (Nat.le_of_not_lt hlt)] at hc'
          obtain rfl := List.mem_singleton.mp (List.mem_of_getElem? hc')
          rw [hnew] at hserve
          cases hserve
      · have hlt := (List.getElem?_eq_some_iff.mp hc').1
        exact ⟨c', (List.getElem?_append_left hlt).trans hc', rfl, hserve⟩
  | refuse hcall hphase | register hcall hphase | serverError hcall hphase
  | duplicate hcall hphase | rollback hcall hphase | work hcall hphase
  | cancelWins hcall hphase | panic hcall hphase | decide hcall hphase | emit hcall hphase
  | unsent hcall hphase | emitLost hcall hphase | release hcall hphase =>
      exact hs.setPhase hcall (by rw [hphase]; rfl) rfl rfl
  | progress | progressLost | vanish | cancelClient =>
      exact hs.of_views rfl (fun _ c' hc' hserve => ⟨c', hc', rfl, hserve⟩)
        (fun _ c hc hserve => ⟨c, hc, rfl, hserve⟩)
  | cancel => exact hs.cancelHandle rfl rfl
  | cancelNext => exact hs.cancelHandle rfl rfl
  | @accept id c hcall hphase hobj =>
      constructor
      · intro id' c' hc' hserve
        rcases Requests.calls_setPhase_eq_some hc' with ⟨rfl, c₀, hc₀, rfl⟩ | ⟨hne, hold⟩
        · obtain rfl := Option.some.inj (hcall.symm.trans hc₀)
          exact AList.lookup_insert _
        · have hown := hs.own id' c' hold hserve
          have hpath : c'.path ≠ c.path := by
            intro heq
            rw [heq, hobj] at hown
            cases hown
          exact (AList.lookup_insert_ne hpath).trans hown
      · intro path id' hlookup
        by_cases hpath : path = c.path
        · subst hpath
          obtain rfl := Option.some.inj ((AList.lookup_insert _).symm.trans hlookup)
          exact ⟨_, Requests.calls_setPhase_self hcall, rfl, rfl⟩
        · have hold := (AList.lookup_insert_ne hpath).symm.trans hlookup
          obtain ⟨c', hc', rfl, hserve⟩ := hs.served path id' hold
          have hne : id' ≠ id := by
            rintro rfl
            obtain rfl := Option.some.inj (hcall.symm.trans hc')
            exact hpath rfl
          exact ⟨c', (Requests.calls_setPhase_of_ne hne).trans hc', rfl, hserve⟩
  | @remove id c hcall hphase =>
      have hown := hs.own id c hcall (by rw [hphase]; rfl)
      constructor
      · intro id' c' hc' hserve
        rcases Requests.calls_setPhase_eq_some hc' with ⟨rfl, c₀, hc₀, rfl⟩ | ⟨hne, hold⟩
        · cases hserve
        · have hown' := hs.own id' c' hold hserve
          have hpath : c'.path ≠ c.path := by
            intro heq
            rw [heq, hown] at hown'
            exact hne (Option.some.inj hown').symm
          exact (AList.lookup_erase_ne hpath).trans hown'
      · intro path id' hlookup
        have hpath : path ≠ c.path := by
          rintro rfl
          exact absurd ((AList.lookup_erase _ _).symm.trans hlookup) (by simp)
        have hold := (AList.lookup_erase_ne hpath).symm.trans hlookup
        obtain ⟨c', hc', rfl, hserve⟩ := hs.served path id' hold
        have hne : id' ≠ id := by
          rintro rfl
          obtain rfl := Option.some.inj (hcall.symm.trans hc')
          exact hpath rfl
        exact ⟨c', (Requests.calls_setPhase_of_ne hne).trans hc', rfl, hserve⟩

end Served

/-! ## Handles name calls -/

structure Known (s : Requests) : Prop where
  slots : ∀ sender, ∀ slot ∈ s.manager.slots sender, slot.call < s.calls.length
  cancelling : ∀ id ∈ s.cancelling, id < s.calls.length
  log : ∀ sig ∈ s.log, sig.call < s.calls.length

section Known

variable {display : Error → String} {s s' : Requests}

/-- Steps that hand out no new name. -/
theorem Known.of_views (hk : Known s) (hlen : s.calls.length ≤ s'.calls.length)
    (hslots : ∀ sender, s'.manager.slots sender ⊆ s.manager.slots sender)
    (hcan : ∀ id ∈ s'.cancelling, id < s.calls.length)
    (hlog : ∀ sig ∈ s'.log, sig ∈ s.log ∨ sig.call < s.calls.length) : Known s' where
  slots := fun sender slot hmem =>
    Nat.lt_of_lt_of_le (hk.slots sender slot (hslots sender hmem)) hlen
  cancelling := fun id hmem => Nat.lt_of_lt_of_le (hcan id hmem) hlen
  log := fun sig hmem => by
    rcases hlog sig hmem with hold | hnew
    · exact Nat.lt_of_lt_of_le (hk.log sig hold) hlen
    · exact Nat.lt_of_lt_of_le hnew hlen

theorem RequestManager.slots_release_subset (m : RequestManager) (sender path sender' : String) :
    (m.release sender path).slots sender' ⊆ m.slots sender' := by
  by_cases h : sender' = sender
  · subst h
    rw [slots_release_self]
    exact List.filter_subset_self _
  · rw [slots_release_of_ne m h]
    exact List.Subset.refl _

theorem RequestManager.slots_removeClient_subset (m : RequestManager) (sender sender' : String) :
    (m.removeClient sender).slots sender' ⊆ m.slots sender' := by
  by_cases h : sender' = sender
  · subst h
    simp
  · rw [slots_removeClient_of_ne m h]
    exact List.Subset.refl _

theorem known_step {e : RequestEvent} (h : s.Transition display e s') (hs : Served s)
    (hk : Known s) : Known s' := by
  have hlt : ∀ {id : Nat} {c : Call}, s.calls[id]? = some c → id < s.calls.length :=
    fun h => (List.getElem?_eq_some_iff.mp h).1
  have hsame : ∀ sender, s.manager.slots sender ⊆ s.manager.slots sender :=
    fun _ => List.Subset.refl _
  cases h with
  | enter =>
      exact hk.of_views (by simp) hsame hk.cancelling (fun sig hmem => Or.inl hmem)
  | @register id c manager hcall hphase hok =>
      obtain ⟨-, hself, hother⟩ := RequestManager.register_eq_ok hok
      refine ⟨fun sender slot hmem => ?_, fun id' hmem => ?_, fun sig hmem => ?_⟩ <;>
        rw [Requests.length_setPhase]
      rotate_left
      · exact hk.cancelling id' hmem
      · exact hk.log sig hmem
      by_cases hsender : sender = c.sender
      · subst hsender
        replace hmem : slot ∈ s.manager.slots c.sender ++ [⟨c.path, id⟩] := hself ▸ hmem
        rcases List.mem_append.mp hmem with hold | hnew
        · exact hk.slots _ _ hold
        · rw [List.mem_singleton.mp hnew]
          exact hlt hcall
      · replace hmem : slot ∈ s.manager.slots sender := hother sender hsender ▸ hmem
        exact hk.slots _ _ hmem
  | rollback hcall | release hcall =>
      exact hk.of_views (by simp) (fun sender => RequestManager.slots_release_subset _ _ _ _)
        hk.cancelling (fun sig hmem => Or.inl hmem)
  | vanish | progressLost =>
      exact hk.of_views (Nat.le_refl _) hsame hk.cancelling (fun sig hmem => Or.inl hmem)
  | refuse | serverError | duplicate | cancelWins | panic | emitLost =>
      exact hk.of_views (by simp) hsame hk.cancelling (fun sig hmem => Or.inl hmem)
  | accept hcall | progress hcall | work hcall | decide hcall | emit hcall | unsent hcall
  | remove hcall =>
      refine hk.of_views (by simp) hsame hk.cancelling (fun sig hmem => ?_)
      rcases List.mem_cons.mp hmem with rfl | hold
      · exact Or.inr (hlt hcall)
      · exact Or.inl hold
  | @cancel path id hobj =>
      obtain ⟨c, hc, -, -⟩ := hs.served path id hobj
      refine hk.of_views (by simp) hsame hk.cancelling (fun sig hmem => ?_)
      rcases List.mem_cons.mp hmem with rfl | hold
      · exact Or.inr (hlt hc)
      · exact Or.inl hold
  | @cancelClient sender hgone hidle =>
      refine hk.of_views (Nat.le_refl _)
        (fun sender' => RequestManager.slots_removeClient_subset _ _ _) ?_
        (fun sig hmem => Or.inl hmem)
      intro id hmem
      obtain ⟨slot, hslot, rfl⟩ := List.mem_map.mp hmem
      exact hk.slots sender slot hslot
  | @cancelNext id rest hnext =>
      have hid : id < s.calls.length := hk.cancelling id (by simp [hnext])
      refine hk.of_views (by simp) hsame
        (fun id' hmem => hk.cancelling id' (by simp [hnext, show id' ∈ rest from hmem]))
        (fun sig hmem => ?_)
      rcases List.mem_cons.mp hmem with rfl | hold
      · exact Or.inr hid
      · exact Or.inl hold

end Known

/-! ## The story of one request -/

/-- `Story display id phase cancelled history`: what can have happened to
call `id` by the time it stands in `phase`, with its flag at `cancelled`.
Signals go out on the call's own object. -/
inductive Story (display : Error → String) (id : Nat) : Phase → Bool → List Signal → Prop
  | entered : Story display id .entered false []
  | invalid {e : Error} : Story display id (.failed e) false []
  | refused {e : Error} {flag : Bool} {l : List Signal} :
      Story display id .entered flag l → Story display id (.failed e) flag l
  | registered {flag : Bool} {l : List Signal} :
      Story display id .entered flag l → Story display id .registered flag l
  | serverError {e : Error} {flag : Bool} {l : List Signal} :
      Story display id .registered flag l → Story display id (.failed e) flag l
  | duplicate {flag : Bool} {l : List Signal} :
      Story display id .registered flag l → Story display id .rejected flag l
  | rolledBack {e : Error} {flag : Bool} {l : List Signal} :
      Story display id .rejected flag l → Story display id (.failed e) flag l
  | accepted {flag : Bool} {l : List Signal} :
      Story display id .registered flag l →
      Story display id .selecting flag (.accepted id :: l)
  | progress {flag : Bool} {l : List Signal} {fraction : Nat × Nat} {stage : String} :
      Story display id .selecting flag l →
      Story display id .selecting flag (.progress id id fraction stage :: l)
  | returned {flag : Bool} {l : List Signal} {result : Except Error Results} :
      Story display id .selecting flag l →
      Story display id (.outcome result) flag (.returned id result :: l)
  | cancelWon {l : List Signal} {e : Error} :
      Story display id .selecting true l → Story display id (.outcome (.error e)) true l
  | panicked {flag : Bool} {l : List Signal} :
      Story display id .selecting flag l → Story display id .panicked flag l
  | decided {flag : Bool} {l : List Signal} {outcome : Except Error Results} {code : Nat}
      {results : Results} (hresponse : response display flag outcome = (code, results)) :
      Story display id (.outcome outcome) flag l →
      Story display id (.responding code results) flag (.decided id :: l)
  | responded {flag : Bool} {l : List Signal} {code : Nat} {results : Results} :
      Story display id (.responding code results) flag l →
      Story display id .emitted flag (.response id id code results :: l)
  | unsent {flag : Bool} {l : List Signal} {code : Nat} {results : Results} :
      Story display id (.responding code results) flag l →
      Story display id .emitted flag (.unsent id :: l)
  | removed {flag : Bool} {l : List Signal} :
      Story display id .emitted flag l → Story display id .removed flag (.removed id :: l)
  | ended {flag : Bool} {l : List Signal} :
      Story display id .removed flag l → Story display id .ended flag l
  | cancelled {phase : Phase} {flag : Bool} {l : List Signal} :
      Story display id phase flag l → Story display id phase true (.cancelled id :: l)

/-- Every call's history is its story. -/
structure Told (display : Error → String) (s : Requests) : Prop where
  story : ∀ id c, s.calls[id]? = some c → Story display id c.phase c.cancelled (s.history id)

section Told

variable {display : Error → String} {s s' : Requests}

/-- A change of phase without a signal. -/
theorem Told.setPhase (ht : Told display s) {id : Nat} {c : Call} {phase : Phase}
    (hcall : s.calls[id]? = some c)
    (hstory : Story display id c.phase c.cancelled (s.history id) →
      Story display id phase c.cancelled (s.history id))
    (hcalls : s'.calls = (s.setPhase id phase).calls) (hlog : s'.log = s.log) :
    Told display s' := by
  refine ⟨fun id' c' hc' => ?_⟩
  rw [Requests.history, hlog]
  rw [hcalls] at hc'
  rcases Requests.calls_setPhase_eq_some hc' with ⟨rfl, c₀, hc₀, rfl⟩ | ⟨-, hold⟩
  · obtain rfl := Option.some.inj (hcall.symm.trans hc₀)
    exact hstory (ht.story id' c hcall)
  · exact ht.story id' c' hold

/-- A change of phase, with a signal of the call that moved. -/
theorem Told.signal (ht : Told display s) {id : Nat} {c : Call} {phase : Phase}
    {sig : Signal} (hcall : s.calls[id]? = some c) (hsig : sig.call = id)
    (hstory : Story display id c.phase c.cancelled (s.history id) →
      Story display id phase c.cancelled (sig :: s.history id))
    (hcalls : s'.calls = (s.setPhase id phase).calls) (hlog : s'.log = sig :: s.log) :
    Told display s' := by
  refine ⟨fun id' c' hc' => ?_⟩
  rw [Requests.history, hlog]
  rw [hcalls] at hc'
  rcases Requests.calls_setPhase_eq_some hc' with ⟨rfl, c₀, hc₀, rfl⟩ | ⟨hne, hold⟩
  · obtain rfl := Option.some.inj (hcall.symm.trans hc₀)
    rw [List.filter_cons_of_pos (by simp [hsig])]
    exact hstory (ht.story id' c hcall)
  · rw [List.filter_cons_of_neg (by simp [hsig, Ne.symm hne])]
    exact ht.story id' c' hold

theorem Told.cancelHandle (ht : Told display s) {id : Nat}
    (hcalls : s'.calls = (s.cancelHandle id).calls) (hlog : s'.log = .cancelled id :: s.log) :
    Told display s' := by
  refine ⟨fun id' c' hc' => ?_⟩
  rw [Requests.history, hlog]
  rw [hcalls] at hc'
  obtain ⟨c, hc, rfl⟩ := Requests.calls_cancelHandle_eq_some hc'
  by_cases hid : id' = id
  · subst hid
    rw [List.filter_cons_of_pos (by simp [Signal.call])]
    simp only [decide_true, Bool.or_true]
    exact (ht.story id' c hc).cancelled
  · rw [List.filter_cons_of_neg (by simp [Signal.call, Ne.symm hid])]
    simp only [hid, decide_false, Bool.or_false]
    exact ht.story id' c hc

theorem told_step {e : RequestEvent} (h : s.Transition display e s') (hs : Served s)
    (hk : Known s) (ht : Told display s) : Told display s' := by
  cases h with
  | @enter sender token c hsender hflag hphase =>
      refine ⟨fun id c' hc' => ?_⟩
      by_cases hlt : id < s.calls.length
      · rw [List.getElem?_append_left hlt] at hc'
        exact ht.story id c' hc'
      · rw [List.getElem?_append_right (Nat.le_of_not_lt hlt)] at hc'
        obtain rfl := List.mem_singleton.mp (List.mem_of_getElem? hc')
        have hnil : s.log.filter (fun sig => decide (sig.call = id)) = [] := by
          refine List.filter_eq_nil_iff.mpr fun sig hmem => ?_
          have := hk.log sig hmem
          simp only [decide_eq_true_eq]
          omega
        rw [Requests.history, hnil, hflag]
        rcases hphase with hp | ⟨e, hp⟩
        · rw [hp]
          exact .entered
        · rw [hp]
          exact .invalid
  | refuse hcall hphase =>
      exact ht.setPhase hcall (fun hst => .refused (hphase ▸ hst)) rfl rfl
  | register hcall hphase =>
      exact ht.setPhase hcall (fun hst => .registered (hphase ▸ hst)) rfl rfl
  | serverError hcall hphase =>
      exact ht.setPhase hcall (fun hst => .serverError (hphase ▸ hst)) rfl rfl
  | duplicate hcall hphase =>
      exact ht.setPhase hcall (fun hst => .duplicate (hphase ▸ hst)) rfl rfl
  | accept hcall hphase =>
      exact ht.signal hcall rfl (fun hst => .accepted (hphase ▸ hst)) rfl rfl
  | rollback hcall hphase =>
      exact ht.setPhase hcall (fun hst => .rolledBack (hphase ▸ hst)) rfl rfl
  | @progress id object c fraction stage hcall hphase hobj =>
      obtain rfl : id = object :=
        Option.some.inj ((hs.own id c hcall (by rw [hphase]; rfl)).symm.trans hobj)
      refine ht.signal hcall rfl (fun hst => .progress (hphase ▸ hst)) ?_ rfl
      rw [← hphase, Requests.setPhase_self hcall]
  | progressLost => exact ht
  | work hcall hphase =>
      exact ht.signal hcall rfl (fun hst => .returned (hphase ▸ hst)) rfl rfl
  | cancelWins hcall hphase hflag =>
      refine ht.setPhase hcall (fun hst => ?_) rfl rfl
      rw [hflag] at hst ⊢
      exact .cancelWon (hphase ▸ hst)
  | panic hcall hphase =>
      exact ht.setPhase hcall (fun hst => .panicked (hphase ▸ hst)) rfl rfl
  | decide hcall hphase hresponse =>
      exact ht.signal hcall rfl (fun hst => .decided hresponse (hphase ▸ hst)) rfl rfl
  | @emit id object c code results hcall hphase hobj =>
      obtain rfl : id = object :=
        Option.some.inj ((hs.own id c hcall (by rw [hphase]; rfl)).symm.trans hobj)
      exact ht.signal hcall rfl (fun hst => .responded (hphase ▸ hst)) rfl rfl
  | unsent hcall hphase =>
      exact ht.signal hcall rfl (fun hst => .unsent (hphase ▸ hst)) rfl rfl
  | @emitLost id c code results sent hcall hphase hobj =>
      rw [hs.own id c hcall (by rw [hphase]; rfl)] at hobj
      cases hobj
  | remove hcall hphase =>
      exact ht.signal hcall rfl (fun hst => .removed (hphase ▸ hst)) rfl rfl
  | release hcall hphase =>
      exact ht.setPhase hcall (fun hst => .ended (hphase ▸ hst)) rfl rfl
  | cancel | cancelNext => exact ht.cancelHandle rfl rfl
  | vanish | cancelClient => exact ⟨ht.story⟩

end Told

/-! ## What a story can look like -/

/-- The task is past `emit_response`. -/
def Phase.answered : Phase → Bool
  | .emitted | .removed | .ended => true
  | _ => false

/-- The task has read the flag. -/
def Phase.decided : Phase → Bool
  | .responding _ _ | .emitted | .removed | .ended => true
  | _ => false

/-- The work may still return. -/
def Phase.early : Phase → Bool
  | .entered | .registered | .rejected | .selecting | .failed _ | .panicked => true
  | _ => false

/-- The Response that the history up to the reading of the flag calls
for: the cancellation, or what the work returned. -/
structure Verdict (display : Error → String) (id : Nat) (history : List Signal)
    (code : Nat) (results : Results) : Prop where
  cancelled : .cancelled id ∈ history → code = response_code.CANCELLED ∧ results = []
  returned : .cancelled id ∉ history → ∃ result, returns history = [result] ∧
    match result with
    | .ok value => code = response_code.SUCCESS ∧ results = value
    | .error error => code = response_code.ERROR
        ∧ results = [(result_key.ERROR_MESSAGE, .str (display error))]

section Story

variable {display : Error → String} {id : Nat} {phase : Phase} {flag : Bool}
  {l : List Signal}

theorem Story.count_responses (h : Story display id phase flag l) :
    l.countP Signal.isResponse + l.countP Signal.isUnsent
      = if phase.answered then 1 else 0 := by
  induction h with
  | responded _ ih | unsent _ ih =>
      simp only [List.countP_cons, Signal.isResponse, Signal.isUnsent, Phase.answered] at ih ⊢
      simp only [if_true, Bool.false_eq_true, if_false] at ih ⊢
      omega
  | cancelled _ ih => simpa [List.countP_cons, Signal.isResponse, Signal.isUnsent] using ih
  | entered | invalid | refused | registered | serverError | duplicate | rolledBack | accepted
  | progress | returned | cancelWon | panicked | decided | removed | ended =>
      simp_all [Signal.isResponse, Signal.isUnsent, Phase.answered]

theorem Story.count_decided (h : Story display id phase flag l) :
    l.count (.decided id) = if phase.decided then 1 else 0 := by
  induction h with
  | cancelled _ ih => simpa using ih
  | _ => simp_all [Phase.decided]

theorem Story.flag_iff (h : Story display id phase flag l) :
    flag = true ↔ .cancelled id ∈ l := by
  induction h with
  | cancelled => simp
  | _ => simp_all

theorem Story.object_eq (h : Story display id phase flag l) :
    ∀ sig ∈ l, ∀ object, sig.object = some object → object = id := by
  induction h with
  | accepted _ ih | progress _ ih | returned _ ih | decided _ _ ih | responded _ ih
  | unsent _ ih | removed _ ih | cancelled _ ih =>
      intro sig hmem object hobj
      rcases List.mem_cons.mp hmem with rfl | hold
      · simp only [Signal.object, reduceCtorEq] at hobj
        try exact (Option.some.inj hobj).symm
      · exact ih sig hold object hobj
  | entered | invalid => simp
  | refused _ ih | registered _ ih | serverError _ ih | duplicate _ ih | rolledBack _ ih
  | cancelWon _ ih | panicked _ ih | ended _ ih => exact ih

theorem Story.returns_eq_nil (h : Story display id phase flag l) :
    phase.early = true → returns l = [] := by
  induction h with
  | cancelled _ ih => simpa [returns] using ih
  | returned | cancelWon | decided | responded | unsent | removed | ended =>
      simp [Phase.early]
  | entered | invalid | refused | registered | serverError | duplicate | rolledBack | accepted
  | progress | panicked => simp_all [returns, Phase.early]

/-- The outcome is what the work returned, unless the cancellation won. -/
theorem Story.outcome_eq {outcome : Except Error Results}
    (h : Story display id (.outcome outcome) flag l) :
    returns l = [outcome] ∨ flag = true := by
  generalize hp : Phase.outcome outcome = phase at h
  induction h with
  | @returned flag l result h =>
      cases hp
      have := h.returns_eq_nil rfl
      exact Or.inl (by simpa [returns] using this)
  | cancelWon => exact Or.inr rfl
  | cancelled => exact Or.inr rfl
  | _ => cases hp

theorem Story.verdict_of_outcome {outcome : Except Error Results} {code : Nat}
    {results : Results} (h : Story display id (.outcome outcome) flag l)
    (hresponse : response display flag outcome = (code, results)) :
    Verdict display id l code results := by
  constructor
  · intro hmem
    unfold response at hresponse
    rw [if_pos (h.flag_iff.mpr hmem)] at hresponse
    cases hresponse
    exact ⟨rfl, rfl⟩
  · intro hmem
    have hflag : flag ≠ true := fun hf => hmem (h.flag_iff.mp hf)
    unfold response at hresponse
    rw [if_neg hflag] at hresponse
    refine ⟨outcome, h.outcome_eq.resolve_right hflag, ?_⟩
    cases outcome <;> cases hresponse <;> exact ⟨rfl, rfl⟩

/-- A Response on its way was decided before, once and for all. -/
theorem Story.verdict {code : Nat} {results : Results}
    (h : Story display id (.responding code results) flag l) :
    ∃ mid pre, l = mid ++ .decided id :: pre ∧ Verdict display id pre code results := by
  generalize hp : Phase.responding code results = phase at h
  induction h with
  | decided hresponse h =>
      cases hp
      exact ⟨[], _, rfl, h.verdict_of_outcome hresponse⟩
  | cancelled _ ih =>
      obtain ⟨mid, pre, rfl, hv⟩ := ih hp
      exact ⟨.cancelled id :: mid, pre, rfl, hv⟩
  | _ => cases hp

/-- In a story without a Response yet, no signal follows one. -/
theorem Story.no_response (h : Story display id phase flag l)
    (hphase : phase.answered = false) {post pre : List Signal} {object code : Nat}
    {results : Results} (hl : l = post ++ .response id object code results :: pre) : False := by
  have hcount := h.count_responses
  have hmem : 0 < l.countP Signal.isResponse :=
    List.countP_pos_iff.mpr ⟨.response id object code results, by simp [hl], rfl⟩
  rw [hphase] at hcount
  simp only [Bool.false_eq_true, if_false] at hcount
  omega

/-- The Response is as decided, and the last signal on the object. -/
theorem Story.response_spec (h : Story display id phase flag l) :
    ∀ post pre object code results, l = post ++ .response id object code results :: pre →
      (∃ mid pre', pre = mid ++ .decided id :: pre' ∧ Verdict display id pre' code results)
        ∧ ∀ sig ∈ post, sig.object = none := by
  induction h with
  | entered | invalid => simp
  | refused _ ih | registered _ ih | serverError _ ih | duplicate _ ih | rolledBack _ ih
  | cancelWon _ ih | panicked _ ih | ended _ ih => exact ih
  | accepted _ ih | returned _ ih | decided _ _ ih | unsent _ ih | removed _ ih
  | cancelled _ ih =>
      intro post pre object code results hl
      rcases List.cons_eq_append_iff.mp hl with ⟨-, hnew⟩ | ⟨post', rfl, hrest⟩
      · cases hnew
      · obtain ⟨hverdict, hlast⟩ := ih post' pre object code results hrest
        refine ⟨hverdict, fun sig hmem => ?_⟩
        rcases List.mem_cons.mp hmem with rfl | hold
        · rfl
        · exact hlast sig hold
  | progress h =>
      intro post pre object code results hl
      rcases List.cons_eq_append_iff.mp hl with ⟨-, hnew⟩ | ⟨post', -, hrest⟩
      · cases hnew
      · exact absurd hrest fun hrest => h.no_response rfl hrest
  | responded h =>
      intro post pre object code results hl
      rcases List.cons_eq_append_iff.mp hl with ⟨rfl, hnew⟩ | ⟨post', -, hrest⟩
      · cases hnew
        exact ⟨h.verdict, by simp⟩
      · exact absurd hrest fun hrest => h.no_response rfl hrest

theorem Story.removed_mem (h : Story display id phase flag l) :
    phase = .removed ∨ phase = .ended → .removed id ∈ l := by
  induction h with
  | removed => simp
  | ended _ ih => exact fun _ => ih (Or.inl rfl)
  | cancelled _ ih => exact fun hp => List.mem_cons_of_mem _ (ih hp)
  | _ => simp

end Story

/-! ## Whole runs -/

/-- The connection takes every signal it is given. -/
def SignalsSent (_ : Requests) : RequestEvent → Prop
  | .emit _ sent => sent = true
  | _ => True

instance (s : Requests) (e : RequestEvent) : Decidable (SignalsSent s e) :=
  match e with
  | .enter _ _ | .register _ | .at _ _ | .rollback _ | .progress _ _ _ | .work _ _
  | .cancelWins _ | .panic _ | .decide _ | .emit _ _ | .remove _ | .release _ | .cancel _
  | .vanish _ | .cancelClient _ | .cancelNext => by delta SignalsSent; infer_instance

section Runs

variable {display : Error → String} {s : Requests} {ok : Requests → RequestEvent → Prop}

structure RequestsInv (display : Error → String) (s : Requests) : Prop where
  served : Served s
  known : Known s
  told : Told display s

theorem requestsInv_init : RequestsInv display Requests.init where
  served := ⟨by simp [Requests.init], by simp [Requests.init]⟩
  known := ⟨by simp [Requests.init, RequestManager.slots], by simp [Requests.init],
    by simp [Requests.init]⟩
  told := ⟨by simp [Requests.init]⟩

theorem requestsInv_step {e : RequestEvent} {s' : Requests}
    (h : s.Transition display e s') (hs : RequestsInv display s) : RequestsInv display s' where
  served := served_step h hs.served
  known := known_step h hs.served hs.known
  told := told_step h hs.served hs.known hs.told

theorem requestsInv_of_reach
    (h : Machine.Reach (Requests.step display) ok Requests.init s) : RequestsInv display s :=
  h.invariant requestsInv_init fun _ _ _ _ _ hs hi =>
    requestsInv_step (Requests.step_cases hs) hi

/-- No emit of a signal has failed. -/
def NothingUnsent (s : Requests) : Prop :=
  ∀ sig ∈ s.log, sig.isUnsent = false

theorem nothingUnsent_init : NothingUnsent Requests.init := by
  simp [NothingUnsent, Requests.init]

theorem no_unsent_of_reach
    (h : Machine.Reach (Requests.step display) SignalsSent Requests.init s) :
    NothingUnsent s := by
  refine h.invariant nothingUnsent_init fun s e s' _ hok hs hi => ?_
  cases Requests.step_cases hs with
  | unsent => exact absurd hok (by simp [SignalsSent])
  | enter | refuse | register | serverError | duplicate | rollback | progressLost | cancelWins
  | panic | emitLost | release | vanish | cancelClient => exact hi
  | accept | progress | work | decide | emit | remove | cancel | cancelNext =>
      intro sig hmem
      rcases List.mem_cons.mp hmem with rfl | hold
      · rfl
      · exact hi sig hold

/-- What the client of request `id` sees on its object. -/
structure OneResponse (display : Error → String) (s : Requests) (id : Nat) (c : Call) :
    Prop where
  /-- one Response at most at any time, and exactly one when the task has
  ended, -/
  atMostOnce : (s.history id).countP Signal.isResponse ≤ 1
  onceEnded : c.phase = .ended → (s.history id).countP Signal.isResponse = 1
  /-- on the request's own object, where nobody else emits; -/
  ownObject : ∀ sig ∈ s.history id, ∀ object, sig.object = some object → object = id
  nobodyElse : ∀ sig ∈ s.log, sig.object = some id → sig.call = id
  /-- the flag is read once, and the Response is what it and the work
  decided by then; -/
  decidedOnce : (s.history id).count (.decided id) ≤ 1
  asDecided : ∀ post pre object code results,
    s.history id = post ++ .response id object code results :: pre →
    ∃ mid pre', pre = mid ++ .decided id :: pre' ∧ Verdict display id pre' code results
  /-- neither a Progress nor a Response comes after it, -/
  lastWord : ∀ post pre object code results,
    s.history id = post ++ .response id object code results :: pre →
    ∀ sig ∈ post, sig.object = none
  /-- and the object goes. -/
  gone : c.phase = .ended → .removed id ∈ s.history id ∧ ∀ path, s.objects.lookup path ≠ some id

/-- **Exactly one Response** for every request whose task does not panic,
in every run: however the work ends, whoever cancels, disconnects or uses
the token again. -/
theorem request_one_response
    (h : Machine.Reach (Requests.step display) SignalsSent Requests.init s)
    {id : Nat} {c : Call} (hcall : s.calls[id]? = some c) : OneResponse display s id c := by
  have hinv := requestsInv_of_reach h
  have hstory := hinv.told.story id c hcall
  have hcount := hstory.count_responses
  refine ⟨?_, fun hended => ?_, hstory.object_eq, fun sig hmem hobj => ?_, ?_,
    fun post pre object code results hl =>
      (hstory.response_spec post pre object code results hl).1,
    fun post pre object code results hl =>
      (hstory.response_spec post pre object code results hl).2, fun hended => ⟨?_, ?_⟩⟩
  · split at hcount <;> omega
  · have hsent : (s.history id).countP Signal.isUnsent = 0 := by
      refine List.countP_eq_zero.mpr fun sig hmem => ?_
      rw [no_unsent_of_reach h sig (List.mem_of_mem_filter hmem)]
      exact Bool.false_ne_true
    rw [hended] at hcount
    simp only [Phase.answered, if_true] at hcount
    omega
  · have hlt := hinv.known.log sig hmem
    have hown := (hinv.told.story sig.call _ (List.getElem?_eq_getElem hlt)).object_eq sig
      (List.mem_filter.mpr ⟨hmem, by simp⟩) id hobj
    exact hown.symm
  · rw [hstory.count_decided]
    split <;> omega
  · exact hstory.removed_mem (Or.inr hended)
  · intro path hlookup
    obtain ⟨c', hc', -, hserve⟩ := hinv.served.served path id hlookup
    obtain rfl := Option.some.inj (hcall.symm.trans hc')
    rw [hended] at hserve
    cases hserve

end Runs

/-- The client cancels while the work is finishing: the work won the race,
the flag is read set. The token is used again before the task has ended. -/
theorem request_one_response_cancelled :
    ∃ s c, Machine.Reach (Requests.step fun _ => "") SignalsSent Requests.init s
      ∧ s.calls[0]? = some c ∧ c.phase = .ended
      ∧ .response 0 0 response_code.CANCELLED [] ∈ s.log
      ∧ OneResponse (fun _ => "") s 0 c := by
  obtain ⟨s, hreach, hs⟩ := Machine.exists_reach_of_run (Requests.step fun _ => "") SignalsSent
    Requests.init
    [.enter ":1.7" "t", .register 0, .at 0 none, .progress 0 (1, 2) "translating",
      .work 0 (.ok []), .cancel "/dev/l10n_bg/dragomand/request/_1_7/t", .decide 0,
      .emit 0 true, .remove 0, .enter ":1.7" "t", .register 1, .at 1 none, .release 0]
    (fun s => decide (s.calls[0]? = some (⟨":1.7", "t",
        "/dev/l10n_bg/dragomand/request/_1_7/t", true, .ended⟩ : Call)
      ∧ Signal.response 0 0 response_code.CANCELLED [] ∈ s.log)) (by decide)
  obtain ⟨hcall, hmem⟩ := of_decide_eq_true hs
  exact ⟨s, _, hreach, hcall, rfl, hmem, request_one_response hreach hcall⟩

end Dragomand
