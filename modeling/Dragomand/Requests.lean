import Mathlib.Algebra.Order.Ring.Nat
import Mathlib.Data.List.AList
import Dragomand.Machine

/-!
# Request objects and per-client accounting

`RequestManager`, `spawn_request` and the task it spawns, together with
the parts of the bus they talk to: the object server, a map from path to
object, and the disappearance of clients. Every call of `spawn_request`
is a `Call`, numbered in the order of arrival; the number also names the
call's `CancelHandle`. `Phase` says where a call, and after it its task,
stands between two atomic actions.

`log` is a history variable, newest first; no transition reads it.
-/

namespace Dragomand

/-! ## Values of the bus -/

/-- The D-Bus error vocabulary. -/
inductive Error where
  | zbus (message : String)
  | invalidArgument (message : String)
  | unsupportedPair (message : String)
  | notInstalled (message : String)
  | limitExceeded (message : String)
  | networkDisabled (message : String)
  | engineFailure (message : String)
deriving DecidableEq, Repr

/-- The variants that occur in `Response` results. -/
inductive OwnedValue where
  | str (value : String)
  | strs (value : List String)
  | u32 (value : Nat)
  | spans (value : List (List (Nat × Nat × Nat × Nat)))
deriving DecidableEq, Repr

abbrev Results := List (String × OwnedValue)

namespace response_code

def SUCCESS : Nat := 0
def CANCELLED : Nat := 1
def ERROR : Nat := 2

end response_code

namespace result_key

def TRANSLATIONS : String := "translations"
def PIVOT : String := "pivot"
def ERROR_MESSAGE : String := "error"
def SENTENCES : String := "sentences"
def LINES : String := "lines"

end result_key

/-! ## Request paths -/

def REQUEST_PATH_PREFIX : String := "/dev/l10n_bg/dragomand/request"

def valid_token (token : String) : Bool :=
  token ≠ "" && token.utf8ByteSize ≤ 128
    && token.toList.all fun c => c.isAlphanum || c == '_'

/-- What `ObjectPath::try_from` accepts: `/`, or elements of letters,
digits and underscores, each after a slash. -/
def validObjectPath (path : String) : Bool :=
  match path.toList.splitOn '/' with
  | [[], []] => true
  | [] :: elements =>
      !elements.isEmpty && elements.all fun element =>
        !element.isEmpty && element.all fun c => c.isAlphanum || c == '_'
  | _ => false

/-- The sender's unique name with everything but letters and digits mapped
to `_`, then the token. -/
def request_path (sender token : String) : Except String String :=
  let escaped := String.ofList (sender.toList.map fun c => if c.isAlphanum then c else '_')
  let path := REQUEST_PATH_PREFIX ++ "/" ++ escaped ++ "/" ++ token
  if validObjectPath path then .ok path else .error "invalid object path"

/-! ## The slot table -/

def MAX_REQUESTS_PER_CLIENT : Nat := 8

/-- `(OwnedObjectPath, CancelHandle)`. -/
structure Slot where
  path : String
  call : Nat
deriving DecidableEq, Repr

structure RequestManager where
  clients : AList fun _ : String => List Slot
deriving DecidableEq

def RequestManager.slots (m : RequestManager) (sender : String) : List Slot :=
  (m.clients.lookup sender).getD []

/-- Reserves a request slot. Fails when the client is over its cap. -/
def RequestManager.register (m : RequestManager) (sender : String) (slot : Slot) :
    Except Error RequestManager :=
  let requests := m.slots sender
  if requests.length ≥ MAX_REQUESTS_PER_CLIENT then
    .error (.limitExceeded "at most 8 concurrent requests per client")
  else .ok ⟨m.clients.insert sender (requests ++ [slot])⟩

def RequestManager.release (m : RequestManager) (sender path : String) : RequestManager :=
  match m.clients.lookup sender with
  | none => m
  | some requests =>
      let requests := requests.filter fun slot => slot.path ≠ path
      ⟨if requests.isEmpty then m.clients.erase sender else m.clients.insert sender requests⟩

/-- Requests currently in flight, across all clients. -/
def RequestManager.active_count (m : RequestManager) : Nat :=
  (m.clients.entries.map fun entry => entry.2.length).sum

/-- Takes everything a vanished client had in flight out of the table. -/
def RequestManager.removeClient (m : RequestManager) (sender : String) : RequestManager :=
  ⟨m.clients.erase sender⟩

@[simp] theorem RequestManager.slots_removeClient_self (m : RequestManager) (sender : String) :
    (m.removeClient sender).slots sender = [] := by
  simp [removeClient, slots]

theorem RequestManager.slots_removeClient_of_ne (m : RequestManager) {sender sender' : String}
    (h : sender' ≠ sender) : (m.removeClient sender).slots sender' = m.slots sender' := by
  simp [removeClient, slots, AList.lookup_erase_ne h]

@[simp] theorem RequestManager.slots_release_self (m : RequestManager) (sender path : String) :
    (m.release sender path).slots sender
      = (m.slots sender).filter fun slot => slot.path ≠ path := by
  unfold release slots
  cases hm : m.clients.lookup sender with
  | none => simp [hm]
  | some requests =>
      dsimp only
      split
      · rename_i hempty
        rw [AList.lookup_erase]
        exact (List.isEmpty_iff.mp hempty).symm
      · rw [AList.lookup_insert]
        rfl

theorem RequestManager.slots_release_of_ne (m : RequestManager) {sender sender' path : String}
    (h : sender' ≠ sender) : (m.release sender path).slots sender' = m.slots sender' := by
  unfold release slots
  split
  · rfl
  · dsimp only
    split
    · rw [AList.lookup_erase_ne h]
    · rw [AList.lookup_insert_ne h]

theorem RequestManager.register_eq_ok {m m' : RequestManager} {sender : String} {slot : Slot}
    (h : m.register sender slot = .ok m') :
    (m.slots sender).length < MAX_REQUESTS_PER_CLIENT
      ∧ m'.slots sender = m.slots sender ++ [slot]
      ∧ ∀ sender', sender' ≠ sender → m'.slots sender' = m.slots sender' := by
  unfold register at h
  dsimp only at h
  split at h
  · cases h
  · rename_i hlen
    cases h
    refine ⟨Nat.lt_of_not_le hlen, by simp [slots], fun sender' hne => ?_⟩
    simp [slots, AList.lookup_insert_ne hne]

/-! ## States -/

/-- Looking up in a modified list. -/
theorem getElem?_modify_cases {α : Type*} {l : List α} {i j : Nat} {f : α → α} {b : α}
    (h : (l.modify i f)[j]? = some b) :
    (j = i ∧ ∃ a, l[i]? = some a ∧ b = f a) ∨ (j ≠ i ∧ l[j]? = some b) := by
  rw [List.getElem?_modify] at h
  obtain ⟨a, ha, rfl⟩ := Option.map_eq_some_iff.mp h
  by_cases hij : i = j
  · subst hij
    exact Or.inl ⟨rfl, a, ha, if_pos rfl⟩
  · rw [if_neg hij]
    exact Or.inr ⟨Ne.symm hij, ha⟩

/-- Looking up in a list with one more element. -/
theorem getElem?_concat_cases {α : Type*} {l : List α} {a b : α} {i : Nat}
    (h : (l ++ [a])[i]? = some b) : l[i]? = some b ∨ i = l.length ∧ b = a := by
  rcases Nat.lt_or_ge i l.length with hlt | hge
  · rw [List.getElem?_append_left hlt] at h
    exact Or.inl h
  · have hlen := (List.getElem?_eq_some_iff.mp h).1
    rw [List.length_append, List.length_singleton] at hlen
    obtain rfl : i = l.length := by omega
    rw [List.getElem?_concat_length] at h
    exact Or.inr ⟨rfl, (Option.some.inj h).symm⟩

inductive Phase where
  /-- the call computed its path and has not registered -/
  | entered
  /-- it holds a slot and waits for `object_server().at` -/
  | registered
  /-- the path was taken; the slot is to be released -/
  | rejected
  /-- accepted: the task races the work against the cancellation -/
  | selecting
  | outcome (outcome : Except Error Results)
  /-- the flag was read: `Response` is to be emitted -/
  | responding (code : Nat) (results : Results)
  /-- the object is to be removed -/
  | emitted
  /-- the slot is to be released -/
  | removed
  | ended
  | failed (error : Error)
  | panicked
deriving DecidableEq, Repr

/-- `cancelled` is the flag of the call's `CancelHandle`. -/
structure Call where
  sender : String
  token : String
  path : String
  cancelled : Bool
  phase : Phase
deriving DecidableEq, Repr

/-- Signals carry the object they are emitted on, which the emitter looks
up by path. -/
inductive Signal where
  | accepted (call : Nat)
  | cancelled (call : Nat)
  | returned (call : Nat) (result : Except Error Results)
  | decided (call : Nat)
  | progress (call object : Nat) (fraction : Nat × Nat) (stage : String)
  | response (call object : Nat) (code : Nat) (results : Results)
  | unsent (call : Nat)
  | removed (call : Nat)
deriving DecidableEq, Repr

/-- `objects` is the object server, `vanished` the clients that left the
bus, `cancelling` the handles that `cancel_client` has taken out of the
table and not cancelled yet. -/
structure Requests where
  manager : RequestManager
  objects : AList fun _ : String => Nat
  calls : List Call
  vanished : List String
  cancelling : List Nat
  log : List Signal
deriving DecidableEq

def Requests.init : Requests := ⟨⟨∅⟩, ∅, [], [], [], []⟩

def Requests.setPhase (s : Requests) (id : Nat) (phase : Phase) : Requests :=
  { s with calls := s.calls.modify id fun c => { c with phase := phase } }

/-- `CancelHandle::cancel`. -/
def Requests.cancelHandle (s : Requests) (id : Nat) : Requests :=
  { s with
    calls := s.calls.modify id fun c => { c with cancelled := true }
    log := .cancelled id :: s.log }

inductive RequestEvent where
  | enter (sender token : String)
  | register (id : Nat)
  /-- the object server's answer; an error is the server's own -/
  | at (id : Nat) (error : Option String)
  | rollback (id : Nat)
  | progress (id : Nat) (fraction : Nat × Nat) (stage : String)
  | work (id : Nat) (result : Except Error Results)
  | cancelWins (id : Nat)
  | panic (id : Nat)
  | decide (id : Nat)
  /-- `sent`: the bus took the signal -/
  | emit (id : Nat) (sent : Bool)
  | remove (id : Nat)
  | release (id : Nat)
  /-- `Request1.Cancel` on an object -/
  | cancel (path : String)
  | vanish (sender : String)
  | cancelClient (sender : String)
  | cancelNext
deriving DecidableEq

/-! ## Steps -/

/-- The first part of `spawn_request`, before any lock is taken. -/
def Requests.enter (s : Requests) (sender token : String) : Requests :=
  let phase :=
    if !valid_token token then
      Phase.failed (.invalidArgument "handle_token must be 1..=128 chars of [A-Za-z0-9_]")
    else
      match request_path sender token with
      | .error e => .failed (.invalidArgument ("bad request path: " ++ e))
      | .ok _ => .entered
  let path := match request_path sender token with
    | .error _ => ""
    | .ok path => path
  { s with calls := s.calls ++ [⟨sender, token, path, false, phase⟩] }

/-- `object_server().at(path, object)`: refused exactly when the path is
served already. -/
def Requests.at (s : Requests) (id : Nat) (c : Call) : Option String → Requests
  | some message => s.setPhase id (.failed (.zbus message))
  | none =>
      match s.objects.lookup c.path with
      | some _ => s.setPhase id .rejected
      | none =>
          { s.setPhase id .selecting with
            objects := s.objects.insert c.path id
            log := .accepted id :: s.log }

/-- The `Response` the task sends, from the flag and the outcome. -/
def response (display : Error → String) (cancelled : Bool) (outcome : Except Error Results) :
    Nat × Results :=
  if cancelled then (response_code.CANCELLED, [])
  else
    match outcome with
    | .ok results => (response_code.SUCCESS, results)
    | .error error => (response_code.ERROR, [(result_key.ERROR_MESSAGE, .str (display error))])

/-- `emit_response`: on the object found under the path, if any. -/
def Requests.emitResponse (s : Requests) (id : Nat) (c : Call) (code : Nat)
    (results : Results) (sent : Bool) : Requests :=
  match s.objects.lookup c.path with
  | none => s
  | some object =>
      { s with
        log := (if sent then .response id object code results else .unsent id) :: s.log }

/-- `emit_progress`, if the object still exists. -/
def Requests.emitProgress (s : Requests) (id : Nat) (c : Call) (fraction : Nat × Nat)
    (stage : String) : Requests :=
  match s.objects.lookup c.path with
  | none => s
  | some object => { s with log := .progress id object fraction stage :: s.log }

/-- One atomic action. `display` is `Error`'s `to_string`. -/
def Requests.step (display : Error → String) (s : Requests) : RequestEvent → Option Requests
  | .enter sender token => some (s.enter sender token)
  | .register id => s.calls[id]?.bind fun c =>
      match c.phase with
      | .entered =>
          match s.manager.register c.sender ⟨c.path, id⟩ with
          | .error e => some (s.setPhase id (.failed e))
          | .ok manager => some { s.setPhase id .registered with manager := manager }
      | _ => none
  | .at id error => s.calls[id]?.bind fun c =>
      match c.phase with
      | .registered => some (s.at id c error)
      | _ => none
  | .rollback id => s.calls[id]?.bind fun c =>
      match c.phase with
      | .rejected =>
          some { s.setPhase id (.failed (.invalidArgument
              ("a request with token \"" ++ c.token ++ "\" already exists"))) with
            manager := s.manager.release c.sender c.path }
      | _ => none
  | .progress id fraction stage => s.calls[id]?.bind fun c =>
      match c.phase with
      | .selecting => some (s.emitProgress id c fraction stage)
      | _ => none
  | .work id result => s.calls[id]?.bind fun c =>
      match c.phase with
      | .selecting =>
          some { s.setPhase id (.outcome result) with log := .returned id result :: s.log }
      | _ => none
  | .cancelWins id => s.calls[id]?.bind fun c =>
      match c.phase with
      | .selecting =>
          if c.cancelled then
            some (s.setPhase id (.outcome (.error (.engineFailure "cancelled"))))
          else none
      | _ => none
  | .panic id => s.calls[id]?.bind fun c =>
      match c.phase with
      | .selecting => some (s.setPhase id .panicked)
      | _ => none
  | .decide id => s.calls[id]?.bind fun c =>
      match c.phase with
      | .outcome outcome =>
          let (code, results) := response display c.cancelled outcome
          some { s.setPhase id (.responding code results) with log := .decided id :: s.log }
      | _ => none
  | .emit id sent => s.calls[id]?.bind fun c =>
      match c.phase with
      | .responding code results =>
          some ((s.emitResponse id c code results sent).setPhase id .emitted)
      | _ => none
  | .remove id => s.calls[id]?.bind fun c =>
      match c.phase with
      | .emitted =>
          some { s.setPhase id .removed with
            objects := s.objects.erase c.path
            log := .removed id :: s.log }
      | _ => none
  | .release id => s.calls[id]?.bind fun c =>
      match c.phase with
      | .removed =>
          some { s.setPhase id .ended with manager := s.manager.release c.sender c.path }
      | _ => none
  | .cancel path => (s.objects.lookup path).map s.cancelHandle
  | .vanish sender => some { s with vanished := sender :: s.vanished }
  | .cancelClient sender =>
      -- one `NameOwnerChanged` at a time
      if sender ∈ s.vanished ∧ s.cancelling = [] then
        some { s with
          manager := s.manager.removeClient sender
          cancelling := (s.manager.slots sender).map (·.call) }
      else none
  | .cancelNext =>
      match s.cancelling with
      | [] => none
      | id :: rest => some { s.cancelHandle id with cancelling := rest }

/-! ## What one step can do -/

section Transition

variable (display : Error → String)

inductive Requests.Transition (s : Requests) : RequestEvent → Requests → Prop
  | enter {sender token : String} {c : Call} (hsender : c.sender = sender)
      (hflag : c.cancelled = false) (hphase : c.phase = .entered ∨ ∃ e, c.phase = .failed e) :
      Transition s (.enter sender token) { s with calls := s.calls ++ [c] }
  | refuse {id : Nat} {c : Call} {e : Error} (hcall : s.calls[id]? = some c)
      (hphase : c.phase = .entered) : Transition s (.register id) (s.setPhase id (.failed e))
  | register {id : Nat} {c : Call} {manager : RequestManager} (hcall : s.calls[id]? = some c)
      (hphase : c.phase = .entered)
      (hok : s.manager.register c.sender ⟨c.path, id⟩ = .ok manager) :
      Transition s (.register id) { s.setPhase id .registered with manager := manager }
  | serverError {id : Nat} {c : Call} {message : String} (hcall : s.calls[id]? = some c)
      (hphase : c.phase = .registered) :
      Transition s (.at id (some message)) (s.setPhase id (.failed (.zbus message)))
  | duplicate {id object : Nat} {c : Call} (hcall : s.calls[id]? = some c)
      (hphase : c.phase = .registered) (hobj : s.objects.lookup c.path = some object) :
      Transition s (.at id none) (s.setPhase id .rejected)
  | accept {id : Nat} {c : Call} (hcall : s.calls[id]? = some c)
      (hphase : c.phase = .registered) (hobj : s.objects.lookup c.path = none) :
      Transition s (.at id none) { s.setPhase id .selecting with
        objects := s.objects.insert c.path id, log := .accepted id :: s.log }
  | rollback {id : Nat} {c : Call} {e : Error} (hcall : s.calls[id]? = some c)
      (hphase : c.phase = .rejected) :
      Transition s (.rollback id) { s.setPhase id (.failed e) with
        manager := s.manager.release c.sender c.path }
  | progress {id object : Nat} {c : Call} {fraction : Nat × Nat} {stage : String}
      (hcall : s.calls[id]? = some c) (hphase : c.phase = .selecting)
      (hobj : s.objects.lookup c.path = some object) :
      Transition s (.progress id fraction stage)
        { s with log := .progress id object fraction stage :: s.log }
  | progressLost {id : Nat} {c : Call} {fraction : Nat × Nat} {stage : String}
      (hcall : s.calls[id]? = some c) (hphase : c.phase = .selecting)
      (hobj : s.objects.lookup c.path = none) : Transition s (.progress id fraction stage) s
  | work {id : Nat} {c : Call} {result : Except Error Results} (hcall : s.calls[id]? = some c)
      (hphase : c.phase = .selecting) :
      Transition s (.work id result)
        { s.setPhase id (.outcome result) with log := .returned id result :: s.log }
  | cancelWins {id : Nat} {c : Call} (hcall : s.calls[id]? = some c)
      (hphase : c.phase = .selecting) (hflag : c.cancelled = true) :
      Transition s (.cancelWins id)
        (s.setPhase id (.outcome (.error (.engineFailure "cancelled"))))
  | panic {id : Nat} {c : Call} (hcall : s.calls[id]? = some c)
      (hphase : c.phase = .selecting) : Transition s (.panic id) (s.setPhase id .panicked)
  | decide {id : Nat} {c : Call} {outcome : Except Error Results} {code : Nat}
      {results : Results} (hcall : s.calls[id]? = some c) (hphase : c.phase = .outcome outcome)
      (hresponse : response display c.cancelled outcome = (code, results)) :
      Transition s (.decide id)
        { s.setPhase id (.responding code results) with log := .decided id :: s.log }
  | emit {id object : Nat} {c : Call} {code : Nat} {results : Results}
      (hcall : s.calls[id]? = some c) (hphase : c.phase = .responding code results)
      (hobj : s.objects.lookup c.path = some object) :
      Transition s (.emit id true) { s.setPhase id .emitted with
        log := .response id object code results :: s.log }
  | unsent {id object : Nat} {c : Call} {code : Nat} {results : Results}
      (hcall : s.calls[id]? = some c) (hphase : c.phase = .responding code results)
      (hobj : s.objects.lookup c.path = some object) :
      Transition s (.emit id false) { s.setPhase id .emitted with log := .unsent id :: s.log }
  | emitLost {id : Nat} {c : Call} {code : Nat} {results : Results} {sent : Bool}
      (hcall : s.calls[id]? = some c) (hphase : c.phase = .responding code results)
      (hobj : s.objects.lookup c.path = none) :
      Transition s (.emit id sent) (s.setPhase id .emitted)
  | remove {id : Nat} {c : Call} (hcall : s.calls[id]? = some c) (hphase : c.phase = .emitted) :
      Transition s (.remove id) { s.setPhase id .removed with
        objects := s.objects.erase c.path, log := .removed id :: s.log }
  | release {id : Nat} {c : Call} (hcall : s.calls[id]? = some c) (hphase : c.phase = .removed) :
      Transition s (.release id)
        { s.setPhase id .ended with manager := s.manager.release c.sender c.path }
  | cancel {path : String} {id : Nat} (hobj : s.objects.lookup path = some id) :
      Transition s (.cancel path) (s.cancelHandle id)
  | vanish {sender : String} :
      Transition s (.vanish sender) { s with vanished := sender :: s.vanished }
  | cancelClient {sender : String} (hgone : sender ∈ s.vanished) (hidle : s.cancelling = []) :
      Transition s (.cancelClient sender) { s with
        manager := s.manager.removeClient sender
        cancelling := (s.manager.slots sender).map (·.call) }
  | cancelNext {id : Nat} {rest : List Nat} (hnext : s.cancelling = id :: rest) :
      Transition s .cancelNext { s.cancelHandle id with cancelling := rest }

variable {display : Error → String}

theorem Requests.at_cases {s : Requests} {id : Nat} {c : Call} {error : Option String}
    (hcall : s.calls[id]? = some c) (hphase : c.phase = .registered) :
    Transition display s (.at id error) (s.at id c error) := by
  cases error with
  | some message => exact .serverError hcall hphase
  | none =>
      unfold Requests.at
      dsimp only
      split
      · rename_i object hobj
        exact .duplicate hcall hphase hobj
      · rename_i hobj
        exact .accept hcall hphase hobj

theorem Requests.enter_cases (s : Requests) (sender token : String) :
    Transition display s (.enter sender token) (s.enter sender token) := by
  unfold Requests.enter
  refine .enter rfl rfl ?_
  dsimp only
  split
  · exact Or.inr ⟨_, rfl⟩
  · cases request_path sender token with
    | error e => exact Or.inr ⟨_, rfl⟩
    | ok path => exact Or.inl rfl

/-- The inversion lemma: a step is one of the listed transitions. -/
theorem Requests.step_cases {s s' : Requests} {e : RequestEvent}
    (h : s.step display e = some s') : Transition display s e s' := by
  cases e with
  | enter sender token =>
      obtain rfl := Option.some.inj h
      exact s.enter_cases sender token
  | register id =>
      obtain ⟨c, hcall, h⟩ := Option.bind_eq_some_iff.mp h
      split at h
      · rename_i hphase
        split at h
        · cases h
          exact .refuse hcall hphase
        · rename_i hok
          cases h
          exact .register hcall hphase hok
      · cases h
  | «at» id error =>
      obtain ⟨c, hcall, h⟩ := Option.bind_eq_some_iff.mp h
      split at h
      · rename_i hphase
        cases h
        exact Requests.at_cases hcall hphase
      · cases h
  | rollback id =>
      obtain ⟨c, hcall, h⟩ := Option.bind_eq_some_iff.mp h
      split at h
      · rename_i hphase
        cases h
        exact .rollback hcall hphase
      · cases h
  | progress id fraction stage =>
      obtain ⟨c, hcall, h⟩ := Option.bind_eq_some_iff.mp h
      split at h
      · rename_i hphase
        unfold Requests.emitProgress at h
        split at h
        · rename_i hobj
          cases h
          exact .progressLost hcall hphase hobj
        · rename_i hobj
          cases h
          exact .progress hcall hphase hobj
      · cases h
  | work id result =>
      obtain ⟨c, hcall, h⟩ := Option.bind_eq_some_iff.mp h
      split at h
      · rename_i hphase
        cases h
        exact .work hcall hphase
      · cases h
  | cancelWins id =>
      obtain ⟨c, hcall, h⟩ := Option.bind_eq_some_iff.mp h
      split at h
      · rename_i hphase
        split at h
        · rename_i hflag
          cases h
          exact .cancelWins hcall hphase hflag
        · cases h
      · cases h
  | panic id =>
      obtain ⟨c, hcall, h⟩ := Option.bind_eq_some_iff.mp h
      split at h
      · rename_i hphase
        cases h
        exact .panic hcall hphase
      · cases h
  | decide id =>
      obtain ⟨c, hcall, h⟩ := Option.bind_eq_some_iff.mp h
      split at h
      · rename_i outcome hphase
        cases h
        exact .decide hcall hphase rfl
      · cases h
  | emit id sent =>
      obtain ⟨c, hcall, h⟩ := Option.bind_eq_some_iff.mp h
      split at h
      · rename_i code results hphase
        unfold Requests.emitResponse at h
        split at h
        · rename_i hobj
          cases h
          exact .emitLost hcall hphase hobj
        · rename_i object hobj
          cases h
          cases sent with
          | true => exact .emit hcall hphase hobj
          | false => exact .unsent hcall hphase hobj
      · cases h
  | remove id =>
      obtain ⟨c, hcall, h⟩ := Option.bind_eq_some_iff.mp h
      split at h
      · rename_i hphase
        cases h
        exact .remove hcall hphase
      · cases h
  | release id =>
      obtain ⟨c, hcall, h⟩ := Option.bind_eq_some_iff.mp h
      split at h
      · rename_i hphase
        cases h
        exact .release hcall hphase
      · cases h
  | cancel path =>
      obtain ⟨id, hobj, rfl⟩ := Option.map_eq_some_iff.mp h
      exact .cancel hobj
  | vanish sender =>
      obtain rfl := Option.some.inj h
      exact .vanish
  | cancelClient sender =>
      simp only [Requests.step] at h
      split at h
      · rename_i hc
        cases h
        exact .cancelClient hc.1 hc.2
      · cases h
  | cancelNext =>
      simp only [Requests.step] at h
      split at h
      · cases h
      · rename_i hnext
        cases h
        exact .cancelNext hnext

end Transition

end Dragomand
