import Dragomand.PeerRuns
import Dragomand.RequestPaths

/-!
# The client's side of a request

`call_with_request` subscribes to the `Response` of the path that its
request will have before it makes the call, so that no signal can be missed.
`Bus` runs any number of such calls, of any number of connections, next to
the daemon's requests and the calls of everybody else.

The path of a request tells its sender and its token, and a process gives
no token twice: so what arrives on the subscription is the `Response` of the
request that the call has made, whoever else calls what, and all of it is
there when the reply to the call comes (`Bus.Followed`).
-/

namespace Dragomand

/-! ## Calls -/

/-- A process-unique `handle_token` value, of the counter's value. -/
def new_handle_token (pid n : Nat) : String :=
  "dragoman_" ++ toString pid ++ "_" ++ toString n

/-- Where `call_with_request` stands. -/
inductive CallPc where
  /-- it knows the path, and has not subscribed -/
  | expecting
  | subscribed
  /-- the call is on its way -/
  | calling
  /-- the daemon handles it -/
  | called
  /-- the reply has come -/
  | waiting
  | done (outcome : Except String (Nat × Results))
deriving DecidableEq, Repr

/-- `path` is the path subscribed to, `stream` what has come on it and was
not read, and `request` the daemon's number of the call, once it has one. -/
structure ClientCall where
  sender : String
  token : String
  path : String
  request : Option Nat
  pc : CallPc
  stream : List (Nat × Results)
deriving DecidableEq, Repr

/-- It has the signals of its path delivered. -/
def CallPc.listens : CallPc → Bool
  | .subscribed | .calling | .called | .waiting => true
  | .expecting | .done _ => false

def ClientCall.deliver (path : String) (answer : Nat × Results) (call : ClientCall) : ClientCall :=
  if call.pc.listens = true ∧ call.path = path then
    { call with stream := call.stream ++ [answer] }
  else call

/-! ## The bus -/

/-- `tokens` is the `TOKEN_COUNTER` of each process. -/
structure Bus where
  requests : Requests
  calls : List ClientCall
  tokens : Nat → Nat

def Bus.init : Bus := ⟨.init, [], fun _ => 0⟩

/-- The `Response` that goes out, and its path. -/
def Requests.responds (s : Requests) : RequestEvent → Option (String × Nat × Results)
  | .emit id true => s.calls[id]?.bind fun c =>
      match c.phase, s.objects.lookup c.path with
      | .responding code results, some _ => some (c.path, code, results)
      | _, _ => none
  | _ => none

inductive BusEvent where
  /-- `call_with_request` on a connection -/
  | start (name : UniqueName)
  | subscribe (k : Nat)
  | send (k : Nat)
  /-- no subscription, an answer without a request, no reply, or an end of
  the stream -/
  | fail (k : Nat) (message : String)
  | handle (k : Nat)
  | reply (k : Nat)
  | receive (k : Nat)
  /-- somebody else makes a request -/
  | foreign (name : UniqueName) (token : String)
  | daemon (event : RequestEvent)

section Step

variable (display : Error → String) (process : String → Option Nat) (pid : Nat → Nat)

/-- `process` is the process of a connection that makes its requests by
`call_with_request`, and by nothing else. -/
def Bus.start (s : Bus) (sender : String) : Option Bus :=
  (process sender).bind fun p =>
    let token := new_handle_token (pid p) (s.tokens p % 2 ^ 64)
    let s := { s with tokens := Function.update s.tokens p (s.tokens p + 1) }
    let call : ClientCall :=
      match request_path sender token with
      | .error e => ⟨sender, token, "", none, .done (.error e), []⟩
      | .ok path => ⟨sender, token, path, none, .expecting, []⟩
    some { s with calls := s.calls ++ [call] }

/-- The reply to the method call: an error, or the path of the request. A
path that was not expected is followed. -/
def ClientCall.reply (call : ClientCall) (c : Call) (accepted : Bool) :
    Option ClientCall :=
  match c.phase with
  | .failed error => some { call with pc := .done (.error (display error)) }
  | _ =>
      if accepted then
        if c.path = call.path then some { call with pc := .waiting }
        else some { call with path := c.path, pc := .waiting, stream := [] }
      else none

def Bus.setCall (s : Bus) (k : Nat) (call : ClientCall) : Bus :=
  { s with calls := s.calls.set k call }

def Bus.step (s : Bus) : BusEvent → Option Bus
  | .start name => s.start process pid name.text
  | .subscribe k => s.calls[k]?.bind fun call =>
      match call.pc with
      | .expecting => some (s.setCall k { call with pc := .subscribed })
      | _ => none
  | .send k => s.calls[k]?.bind fun call =>
      match call.pc with
      | .subscribed => some (s.setCall k { call with pc := .calling })
      | _ => none
  | .fail k message => s.calls[k]?.bind fun call =>
      match call.pc with
      | .expecting | .calling | .called | .waiting =>
          some (s.setCall k { call with pc := .done (.error message) })
      | _ => none
  | .handle k => s.calls[k]?.bind fun call =>
      match call.pc with
      | .calling =>
          some { s.setCall k { call with
            request := some s.requests.calls.length, pc := .called } with
            requests := s.requests.enter call.sender call.token }
      | _ => none
  | .reply k => s.calls[k]?.bind fun call =>
      match call.pc, call.request with
      | .called, some id => s.requests.calls[id]?.bind fun c =>
          (call.reply display c (.accepted id ∈ s.requests.log)).map (s.setCall k)
      | _, _ => none
  | .receive k => s.calls[k]?.bind fun call =>
      match call.pc, call.stream with
      | .waiting, answer :: rest =>
          some (s.setCall k { call with pc := .done (.ok answer), stream := rest })
      | _, _ => none
  | .foreign name token =>
      if process name.text = none then
        some { s with requests := s.requests.enter name.text token }
      else none
  | .daemon (.enter _ _) => none
  | .daemon event => (s.requests.step display event).map fun requests =>
      { s with
        requests := requests
        calls := match s.requests.responds event with
          | none => s.calls
          | some (path, answer) => s.calls.map (ClientCall.deliver path answer) }

end Step

/-- A process makes fewer calls than its counter can tell apart. -/
def Bus.Countable (process : String → Option Nat) (s : Bus) : BusEvent → Prop
  | .start name => ∀ p ∈ process name.text, s.tokens p < 2 ^ 64
  | _ => True

instance (process : String → Option Nat) (s : Bus) :
    (e : BusEvent) → Decidable (s.Countable process e)
  | .start name => inferInstanceAs (Decidable (∀ p ∈ process name.text, s.tokens p < 2 ^ 64))
  | .subscribe _ | .send _ | .fail _ _ | .handle _ | .reply _ | .receive _ | .foreign _ _
  | .daemon _ => inferInstanceAs (Decidable True)

/-! ## What one step can do -/

section Transition

variable (display : Error → String) (process : String → Option Nat) (pid : Nat → Nat)

inductive Bus.Transition (s : Bus) : BusEvent → Bus → Prop
  | start {name : UniqueName} {p : Nat} {call : ClientCall}
      (hprocess : process name.text = some p) (hsender : call.sender = name.text)
      (htoken : call.token = new_handle_token (pid p) (s.tokens p % 2 ^ 64))
      (hrequest : call.request = none) (hstream : call.stream = [])
      (hpath : (call.pc = .expecting ∧ request_path call.sender call.token = .ok call.path)
        ∨ ∃ e, call.pc = .done (.error e)) :
      Transition s (.start name) { s with
        tokens := Function.update s.tokens p (s.tokens p + 1), calls := s.calls ++ [call] }
  | go {e : BusEvent} {k : Nat} {call call' : ClientCall} (hcall : s.calls[k]? = some call)
      (hsame : call'.sender = call.sender ∧ call'.token = call.token ∧ call'.path = call.path
        ∧ call'.request = call.request ∧ call'.stream = call.stream)
      (hpc : (call.pc = .expecting ∧ call'.pc = .subscribed)
        ∨ (call.pc = .subscribed ∧ call'.pc = .calling)
        ∨ ∃ message, call'.pc = .done (.error message)) :
      Transition s e (s.setCall k call')
  | handle {k : Nat} {call : ClientCall} (hcall : s.calls[k]? = some call)
      (hpc : call.pc = .calling) :
      Transition s (.handle k) { s.setCall k { call with
          request := some s.requests.calls.length, pc := .called } with
        requests := s.requests.enter call.sender call.token }
  | reply {k id : Nat} {call : ClientCall} {c : Call} (hcall : s.calls[k]? = some call)
      (hpc : call.pc = .called) (hrequest : call.request = some id)
      (hc : s.requests.calls[id]? = some c) (hpath : c.path = call.path) :
      Transition s (.reply k) (s.setCall k { call with pc := .waiting })
  | follow {k id : Nat} {call : ClientCall} {c : Call} (hcall : s.calls[k]? = some call)
      (hpc : call.pc = .called) (hrequest : call.request = some id)
      (hc : s.requests.calls[id]? = some c) (hphase : ∀ e, c.phase ≠ .failed e)
      (hpath : c.path ≠ call.path) :
      Transition s (.reply k)
        (s.setCall k { call with path := c.path, pc := .waiting, stream := [] })
  | receive {k : Nat} {call : ClientCall} {answer : Nat × Results} {rest : List (Nat × Results)}
      (hcall : s.calls[k]? = some call) (hpc : call.pc = .waiting)
      (hstream : call.stream = answer :: rest) :
      Transition s (.receive k)
        (s.setCall k { call with pc := .done (.ok answer), stream := rest })
  | foreign {name : UniqueName} {token : String} (hprocess : process name.text = none) :
      Transition s (.foreign name token)
        { s with requests := s.requests.enter name.text token }
  | quiet {event : RequestEvent} {requests : Requests}
      (hevent : ∀ sender token, event ≠ .enter sender token)
      (hresponds : s.requests.responds event = none)
      (h : s.requests.step display event = some requests) :
      Transition s (.daemon event) { s with requests := requests }
  | respond {event : RequestEvent} {requests : Requests} {path : String}
      {answer : Nat × Results} (hevent : ∀ sender token, event ≠ .enter sender token)
      (hresponds : s.requests.responds event = some (path, answer))
      (h : s.requests.step display event = some requests) :
      Transition s (.daemon event) { s with
        requests := requests, calls := s.calls.map (ClientCall.deliver path answer) }

variable {display : Error → String} {process : String → Option Nat} {pid : Nat → Nat}
  {s s' : Bus}

theorem Bus.start_cases {name : UniqueName} (h : s.start process pid name.text = some s') :
    s.Transition display process pid (.start name) s' := by
  obtain ⟨p, hprocess, h⟩ := Option.bind_eq_some_iff.mp h
  cases h
  refine .start hprocess ?_ ?_ ?_ ?_ ?_ <;> split
  all_goals try rfl
  · exact Or.inr ⟨_, rfl⟩
  · rename_i hpath
    exact Or.inl ⟨rfl, hpath⟩

theorem Bus.daemon_cases {event : RequestEvent}
    (h : s.step display process pid (.daemon event) = some s') :
    s.Transition display process pid (.daemon event) s' := by
  have hevent : ∀ sender token, event ≠ .enter sender token := by
    rintro sender token rfl
    cases h
  have hstep : (s.requests.step display event).map (fun requests => { s with
      requests := requests
      calls := match s.requests.responds event with
        | none => s.calls
        | some (path, answer) => s.calls.map (ClientCall.deliver path answer) }) = some s' := by
    cases event with
    | enter => cases h
    | _ => exact h
  obtain ⟨requests, hs, rfl⟩ := Option.map_eq_some_iff.mp hstep
  cases hresponds : s.requests.responds event with
  | none => exact .quiet hevent hresponds hs
  | some response => exact .respond hevent hresponds hs

theorem Bus.step_cases {e : BusEvent} (h : s.step display process pid e = some s') :
    s.Transition display process pid e s' := by
  cases e with
  | start name => exact Bus.start_cases h
  | subscribe k =>
      obtain ⟨call, hcall, h⟩ := Option.bind_eq_some_iff.mp h
      split at h
      · rename_i hpc
        cases h
        exact .go hcall ⟨rfl, rfl, rfl, rfl, rfl⟩ (Or.inl ⟨hpc, rfl⟩)
      · cases h
  | send k =>
      obtain ⟨call, hcall, h⟩ := Option.bind_eq_some_iff.mp h
      split at h
      · rename_i hpc
        cases h
        exact .go hcall ⟨rfl, rfl, rfl, rfl, rfl⟩ (Or.inr (Or.inl ⟨hpc, rfl⟩))
      · cases h
  | fail k message =>
      obtain ⟨call, hcall, h⟩ := Option.bind_eq_some_iff.mp h
      split at h <;> cases h <;>
        exact .go hcall ⟨rfl, rfl, rfl, rfl, rfl⟩ (Or.inr (Or.inr ⟨message, rfl⟩))
  | handle k =>
      obtain ⟨call, hcall, h⟩ := Option.bind_eq_some_iff.mp h
      split at h
      · rename_i hpc
        cases h
        exact .handle hcall hpc
      · cases h
  | reply k =>
      obtain ⟨call, hcall, h⟩ := Option.bind_eq_some_iff.mp h
      split at h
      · rename_i id hpc hrequest
        obtain ⟨c, hc, h⟩ := Option.bind_eq_some_iff.mp h
        obtain ⟨call', hreply, rfl⟩ := Option.map_eq_some_iff.mp h
        unfold ClientCall.reply at hreply
        split at hreply
        · cases hreply
          exact .go hcall ⟨rfl, rfl, rfl, rfl, rfl⟩ (Or.inr (Or.inr ⟨_, rfl⟩))
        · rename_i hphase
          split at hreply
          · split at hreply
            · rename_i hpath
              cases hreply
              exact .reply hcall hpc hrequest hc hpath
            · rename_i hpath
              cases hreply
              exact .follow hcall hpc hrequest hc hphase hpath
          · cases hreply
      · cases h
  | receive k =>
      obtain ⟨call, hcall, h⟩ := Option.bind_eq_some_iff.mp h
      split at h
      · rename_i answer rest hpc hstream
        cases h
        exact .receive hcall hpc hstream
      · cases h
  | foreign name token =>
      simp only [Bus.step] at h
      split at h
      · rename_i hprocess
        cases h
        exact .foreign hprocess
      · cases h
  | daemon event => exact Bus.daemon_cases h

end Transition

/-! ## The requests under a step -/

section Requests

variable {display : Error → String} {s s' : Requests}

/-- A step leaves what a call was made with, and lets a failed one be. -/
structure Call.Continues (c c' : Call) : Prop where
  sender : c'.sender = c.sender
  token : c'.token = c.token
  path : c'.path = c.path
  failed : ∀ e, c.phase = .failed e → c'.phase = .failed e

theorem Call.Continues.refl (c : Call) : c.Continues c := ⟨rfl, rfl, rfl, fun _ h => h⟩

theorem Requests.setPhase_continues {id id' : Nat} {c c' : Call} {phase : Phase}
    (hcall : s.calls[id]? = some c) (hphase : ∀ e, c.phase ≠ .failed e)
    (hc' : (s.setPhase id phase).calls[id']? = some c') :
    ∃ c, s.calls[id']? = some c ∧ c.Continues c' := by
  rcases Requests.calls_setPhase_eq_some hc' with ⟨rfl, c₀, hc₀, rfl⟩ | ⟨-, hold⟩
  · obtain rfl := Option.some.inj (hcall.symm.trans hc₀)
    exact ⟨c, hcall, rfl, rfl, rfl, fun e he => absurd he (hphase e)⟩
  · exact ⟨c', hold, .refl c'⟩

theorem Requests.cancelHandle_continues {id id' : Nat} {c' : Call}
    (hc' : (s.cancelHandle id).calls[id']? = some c') :
    ∃ c, s.calls[id']? = some c ∧ c.Continues c' := by
  obtain ⟨c, hc, rfl⟩ := Requests.calls_cancelHandle_eq_some hc'
  exact ⟨c, hc, rfl, rfl, rfl, fun _ h => h⟩

theorem Requests.continues_step {event : RequestEvent} (h : s.Transition display event s')
    (hevent : ∀ sender token, event ≠ .enter sender token) {id : Nat} {c' : Call}
    (hc' : s'.calls[id]? = some c') : ∃ c, s.calls[id]? = some c ∧ c.Continues c' := by
  cases h with
  | enter => exact absurd rfl (hevent _ _)
  | refuse hcall hphase | register hcall hphase | serverError hcall hphase
  | duplicate hcall hphase | accept hcall hphase | rollback hcall hphase | work hcall hphase
  | cancelWins hcall hphase | panic hcall hphase | decide hcall hphase | emit hcall hphase
  | unsent hcall hphase | emitLost hcall hphase | remove hcall hphase
  | release hcall hphase =>
      exact setPhase_continues hcall (by simp [hphase]) hc'
  | progress | progressLost | vanish | cancelClient => exact ⟨c', hc', .refl c'⟩
  | cancel | cancelNext => exact cancelHandle_continues hc'

theorem Requests.length_step {event : RequestEvent} (h : s.Transition display event s')
    (hevent : ∀ sender token, event ≠ .enter sender token) :
    s'.calls.length = s.calls.length := by
  cases h with
  | enter => exact absurd rfl (hevent _ _)
  | progress | progressLost | vanish | cancelClient => rfl
  | cancel | cancelNext => exact Requests.length_cancelHandle _ _
  | refuse | register | serverError | duplicate | accept | rollback | work | cancelWins | panic
  | decide | emit | unsent | emitLost | remove | release => exact Requests.length_setPhase _ _ _

/-- The calls before a step are there after it. -/
theorem Requests.continues_forth {event : RequestEvent} (h : s.Transition display event s')
    (hevent : ∀ sender token, event ≠ .enter sender token) {id : Nat} {c : Call}
    (hc : s.calls[id]? = some c) : ∃ c', s'.calls[id]? = some c' ∧ c.Continues c' := by
  have hlt : id < s'.calls.length := by
    rw [Requests.length_step h hevent]
    exact (List.getElem?_eq_some_iff.mp hc).1
  have hc' := List.getElem?_eq_getElem hlt
  obtain ⟨c₀, hc₀, hcont⟩ := Requests.continues_step h hevent hc'
  obtain rfl := Option.some.inj (hc₀.symm.trans hc)
  exact ⟨_, hc', hcont⟩

/-- A signal that is no `Response` changes no request's answers. -/
theorem Requests.answers_of_cons {sig : Signal} (hlog : s'.log = sig :: s.log)
    (hsig : sig.answer = none) (id : Nat) : s'.answers id = s.answers id := by
  rw [Requests.answers_cons hlog, hsig]
  split <;> rfl

theorem Requests.answers_quiet {event : RequestEvent} (h : s.Transition display event s')
    (hresponds : s.responds event = none) (id : Nat) : s'.answers id = s.answers id := by
  cases h with
  | emit hcall hphase hobj =>
      simp only [Requests.responds, hcall, Option.bind_some, hphase, hobj, reduceCtorEq]
        at hresponds
  | enter | refuse | register | serverError | duplicate | rollback | progressLost | cancelWins
  | panic | emitLost | release | vanish | cancelClient => exact Requests.answers_of_log rfl id
  | accept | progress | work | decide | unsent | remove | cancel | cancelNext =>
      exact Requests.answers_of_cons rfl rfl id

theorem Requests.answers_respond {event : RequestEvent} {path : String}
    {answer : Nat × Results} (h : s.Transition display event s')
    (hresponds : s.responds event = some (path, answer)) :
    ∃ id c, s.calls[id]? = some c ∧ c.path = path ∧ (∀ e, c.phase ≠ .failed e)
      ∧ ∀ id', s'.answers id' = if id = id' then answer :: s.answers id' else s.answers id' := by
  cases h with
  | @emit id object c code results hcall hphase hobj =>
      simp only [Requests.responds, hcall, Option.bind_some, hphase, hobj, Option.some.injEq,
        Prod.mk.injEq] at hresponds
      obtain ⟨rfl, hanswer⟩ := hresponds
      refine ⟨id, c, hcall, rfl, by simp [hphase], fun id' => ?_⟩
      have hlog : ({ s.setPhase id .emitted with
          log := .response id object code results :: s.log } : Requests).log
          = .response id object code results :: s.log := rfl
      rw [Requests.answers_cons hlog, ← hanswer]
      show (if id = id' then [(code, results)] else []) ++ s.answers id' = _
      split <;> rfl
  | @emitLost id c code results sent hcall hphase hobj =>
      cases sent <;>
        simp only [Requests.responds, hcall, Option.bind_some, hphase, hobj, reduceCtorEq]
          at hresponds
  | _ => cases hresponds

theorem Requests.answers_new (hk : Known s) : s.answers s.calls.length = [] := by
  have hnil : s.history s.calls.length = [] := by
    refine List.filter_eq_nil_iff.mpr fun sig hmem => ?_
    have := hk.log sig hmem
    simp only [decide_eq_true_eq]
    omega
  rw [Requests.answers, hnil]
  rfl

/-- A call has one answer at most. -/
theorem RequestsInv.answers_le (hs : RequestsInv display s) {id : Nat} {c : Call}
    (hc : s.calls[id]? = some c) : (s.answers id).length ≤ 1 := by
  have hcount := (hs.told.story id c hc).count_responses
  have hlen : (s.answers id).length = (s.history id).countP Signal.isResponse := by
    rw [Requests.answers]
    generalize s.history id = l
    induction l with
    | nil => rfl
    | cons sig l ih =>
        cases sig <;>
          simp_all [List.filterMap_cons, List.countP_cons, Signal.answer, Signal.isResponse]
  rw [hlen]
  split at hcount <;> omega

end Requests

/-! ## Names of requests -/

theorem requestPath_inj {name name' : UniqueName} {token token' : String}
    (h : requestPath name.text token = requestPath name'.text token') :
    name.text = name'.text ∧ token = token' := by
  have hrest : escapeSender name.text ++ '/' :: token.toList
      = escapeSender name'.text ++ '/' :: token'.toList := by
    rw [← String.toList_inj] at h
    simpa [requestPath, List.append_assoc] using h
  have hslash : ∀ name : UniqueName, '/' ∉ escapeSender name.text := by
    intro name hmem
    rw [name.escape] at hmem
    exact absurd (name.escape_chars _ hmem) (by decide)
  obtain ⟨hsender, htokens⟩ := eq_of_first_split (hslash name) (hslash name') hrest
  exact ⟨UniqueName.escape_inj hsender, String.toList_inj.mp htokens⟩

theorem requestPath_of_ok {sender token path : String} (h : request_path sender token = .ok path) :
    path = requestPath sender token := by
  unfold request_path at h
  dsimp only at h
  split at h
  · cases h
    rfl
  · cases h

/-- A process gives no token twice. -/
theorem new_handle_token_inj {pid n n' : Nat}
    (h : new_handle_token pid n = new_handle_token pid n') : n = n' := by
  have hrepr : (toString n).toList = (toString n').toList := by
    rw [← String.toList_inj] at h
    simpa [new_handle_token] using h
  -- the number is read back from its digits
  have hdigits := congrArg (Nat.ofDigitChars 10 · 0) hrepr
  simpa [Nat.toString_eq_repr, Nat.ofDigitChars_toDigits] using hdigits

/-! ## The invariant -/

/-- What has come on the subscription: nothing before the call is made, then
every `Response` of its request. -/
def ClientCall.Hears (s : Requests) (call : ClientCall) : Prop :=
  match call.pc with
  | .expecting | .subscribed | .calling => call.request = none ∧ call.stream = []
  | .called | .waiting =>
      ∃ id, call.request = some id ∧ call.stream = (s.answers id).reverse
  | .done (.ok answer) => ∃ id, call.request = some id ∧ answer ∈ s.answers id
  | .done (.error _) => True

/-- The call `n` of a process. -/
structure ClientCall.Numbered (process : String → Option Nat) (pid : Nat → Nat)
    (tokens : Nat → Nat) (call : ClientCall) (p n : Nat) : Prop where
  sender : ∃ name : UniqueName, call.sender = name.text
  process : process call.sender = some p
  token : call.token = new_handle_token (pid p) n
  lt : n < tokens p

/-- A request of the daemon is of the connection and of the token it was
made with, and so is its path, unless it failed. -/
structure Call.Named (c : Call) : Prop where
  sender : ∃ name : UniqueName, c.sender = name.text
  path : c.path = requestPath c.sender c.token ∨ ∃ e, c.phase = .failed e

/-- The request the call made. -/
structure ClientCall.Makes (call : ClientCall) (c : Call) : Prop where
  sender : c.sender = call.sender
  token : c.token = call.token

structure Bus.Followed (process : String → Option Nat) (pid : Nat → Nat) (s : Bus) : Prop where
  numbered : ∀ (k : Nat) (call : ClientCall), s.calls[k]? = some call →
    ∃ p n, call.Numbered process pid s.tokens p n
  apart : ∀ (k k' : Nat) (call call' : ClientCall), s.calls[k]? = some call →
    s.calls[k']? = some call' → call.sender = call'.sender → call.token = call'.token → k = k'
  path : ∀ (k : Nat) (call : ClientCall), s.calls[k]? = some call →
    call.path = requestPath call.sender call.token ∨ ∃ e, call.pc = .done (.error e)
  request : ∀ (k : Nat) (call : ClientCall) (id : Nat), s.calls[k]? = some call →
    call.request = some id → ∃ c, s.requests.calls[id]? = some c ∧ call.Makes c
  named : ∀ (id : Nat) (c : Call), s.requests.calls[id]? = some c → c.Named
  owned : ∀ (id : Nat) (c : Call), s.requests.calls[id]? = some c →
    process c.sender = none
      ∨ ∃ (k : Nat) (call : ClientCall), s.calls[k]? = some call ∧ call.request = some id
  hears : ∀ (k : Nat) (call : ClientCall), s.calls[k]? = some call → call.Hears s.requests

section Followed

variable {display : Error → String} {process : String → Option Nat} {pid : Nat → Nat}
  {s s' : Bus}

theorem Bus.followed_init : Bus.init.Followed process pid := by
  constructor <;> simp [Bus.init, Requests.init]

/-- Calls whose names are the same are one call. -/
theorem Bus.Followed.eq_of_path (hf : s.Followed process pid) {k id : Nat} {call : ClientCall}
    {c : Call} (hcall : s.calls[k]? = some call) (hc : s.requests.calls[id]? = some c)
    (hpc : ∀ e, call.pc ≠ .done (.error e)) (hphase : ∀ e, c.phase ≠ .failed e)
    (hpath : call.path = c.path) : call.request = some id := by
  obtain ⟨p, n, hnumbered⟩ := hf.numbered k call hcall
  obtain ⟨name, hname⟩ := hnumbered.sender
  obtain ⟨name', hname'⟩ := (hf.named id c hc).sender
  rcases hf.path k call hcall with hown | ⟨e, he⟩
  swap
  · exact absurd he (hpc e)
  rcases (hf.named id c hc).path with hown' | ⟨e, he⟩
  swap
  · exact absurd he (hphase e)
  have heq : requestPath name.text call.token = requestPath name'.text c.token := by
    rw [← hname, ← hname', ← hown, ← hown', hpath]
  obtain ⟨hsender, htoken⟩ := requestPath_inj heq
  rw [← hname, ← hname'] at hsender
  rcases hf.owned id c hc with hnone | ⟨k', call', hcall', hrequest'⟩
  · rw [← hsender, hnumbered.process] at hnone
    cases hnone
  · obtain ⟨c', hc', hmakes⟩ := hf.request k' call' id hcall' hrequest'
    obtain rfl := Option.some.inj (hc.symm.trans hc')
    obtain rfl := hf.apart k k' call call' hcall hcall' (hsender.trans hmakes.sender)
      (htoken.trans hmakes.token)
    obtain rfl := Option.some.inj (hcall.symm.trans hcall')
    exact hrequest'

theorem ClientCall.Hears.of_answers {s s' : Requests} {call : ClientCall}
    (hanswers : ∀ id, s'.answers id = s.answers id) (h : call.Hears s) : call.Hears s' := by
  unfold ClientCall.Hears at h ⊢
  simp only [hanswers]
  exact h

/-- One call goes on, and perhaps makes its request. -/
theorem Bus.Followed.change (hf : s.Followed process pid) {k : Nat} {call call' : ClientCall}
    (hcall : s.calls[k]? = some call) (hcalls : s'.calls = s.calls.set k call')
    (htokens : s'.tokens = s.tokens) (hsender : call'.sender = call.sender)
    (htoken : call'.token = call.token)
    (hpath : (call'.path = call.path ∧ ∀ e, call.pc ≠ .done (.error e))
      ∨ ∃ e, call'.pc = .done (.error e))
    (hkeep : ∀ (id : Nat) (c : Call), s.requests.calls[id]? = some c →
      s'.requests.calls[id]? = some c)
    (hrequest : ∀ id, call.request = some id → call'.request = some id)
    (hmakes : ∀ id, call'.request = some id →
      ∃ c, s'.requests.calls[id]? = some c ∧ call'.Makes c)
    (hback : ∀ (id : Nat) (c : Call), s'.requests.calls[id]? = some c →
      s.requests.calls[id]? = some c ∨ c.Named ∧ call'.request = some id)
    (hanswers : ∀ id, s'.requests.answers id = s.requests.answers id)
    (hhears : call'.Hears s'.requests) : s'.Followed process pid := by
  have hself : s'.calls[k]? = some call' := by
    rw [hcalls]
    exact List.getElem?_set_self (List.getElem?_eq_some_iff.mp hcall).1
  have hother : ∀ {k' : Nat}, k ≠ k' → s'.calls[k']? = s.calls[k']? := fun hne => by
    rw [hcalls]
    exact List.getElem?_set_ne hne
  have hget : ∀ {k' : Nat} {c : ClientCall}, s'.calls[k']? = some c →
      (k' = k ∧ c = call') ∨ s.calls[k']? = some c := by
    intro k' c hc
    rcases eq_or_ne k k' with rfl | hne
    · exact Or.inl ⟨rfl, Option.some.inj (hc.symm.trans hself)⟩
    · exact Or.inr ((hother hne).symm.trans hc)
  -- each call has the names it had
  have hold : ∀ {k' : Nat} {c : ClientCall}, s'.calls[k']? = some c →
      ∃ c₀, s.calls[k']? = some c₀ ∧ c.sender = c₀.sender ∧ c.token = c₀.token := by
    intro k' c hc
    rcases hget hc with ⟨rfl, rfl⟩ | hc
    · exact ⟨call, hcall, hsender, htoken⟩
    · exact ⟨c, hc, rfl, rfl⟩
  constructor
  · intro k' c hc
    obtain ⟨c₀, hc₀, hs, ht⟩ := hold hc
    obtain ⟨p, n, hnumbered⟩ := hf.numbered k' c₀ hc₀
    exact ⟨p, n, hs ▸ hnumbered.sender, hs ▸ hnumbered.process, ht.trans hnumbered.token,
      htokens ▸ hnumbered.lt⟩
  · intro k₁ k₂ c₁ c₂ hc₁ hc₂ hs ht
    obtain ⟨a, ha, hsa, hta⟩ := hold hc₁
    obtain ⟨b, hb, hsb, htb⟩ := hold hc₂
    exact hf.apart k₁ k₂ a b ha hb (hsa.symm.trans (hs.trans hsb)) (hta.symm.trans (ht.trans htb))
  · intro k' c hc
    rcases hget hc with ⟨rfl, rfl⟩ | hc
    · rcases hpath with ⟨hpath, hpc⟩ | herror
      · rw [hpath, hsender, htoken]
        refine Or.inl ((hf.path k' call hcall).resolve_right ?_)
        rintro ⟨e, he⟩
        exact hpc e he
      · exact Or.inr herror
    · exact hf.path k' c hc
  · intro k' c id hc hr
    rcases hget hc with ⟨rfl, rfl⟩ | hc
    · exact hmakes id hr
    · obtain ⟨d, hd, hdmakes⟩ := hf.request k' c id hc hr
      exact ⟨d, hkeep id d hd, hdmakes⟩
  · intro id c hc
    rcases hback id c hc with hc | hnew
    · exact hf.named id c hc
    · exact hnew.1
  · intro id c hc
    rcases hback id c hc with hc | hnew
    · rcases hf.owned id c hc with hnone | ⟨k', c₀, hc₀, hr⟩
      · exact Or.inl hnone
      · rcases eq_or_ne k k' with rfl | hne
        · obtain rfl := Option.some.inj (hcall.symm.trans hc₀)
          exact Or.inr ⟨k, call', hself, hrequest id hr⟩
        · exact Or.inr ⟨k', c₀, (hother hne).trans hc₀, hr⟩
    · exact Or.inr ⟨k, call', hself, hnew.2⟩
  · intro k' c hc
    rcases hget hc with ⟨rfl, rfl⟩ | hc
    · exact hhears
    · exact (hf.hears k' c hc).of_answers hanswers

/-- The call goes on, with the request it has. -/
theorem Bus.Followed.setCall (hf : s.Followed process pid) {k : Nat} {call call' : ClientCall}
    (hcall : s.calls[k]? = some call) (hsender : call'.sender = call.sender)
    (htoken : call'.token = call.token)
    (hpath : (call'.path = call.path ∧ ∀ e, call.pc ≠ .done (.error e))
      ∨ ∃ e, call'.pc = .done (.error e))
    (hrequest : call'.request = call.request) (hhears : call'.Hears s.requests) :
    (s.setCall k call').Followed process pid := by
  refine hf.change hcall rfl rfl hsender htoken hpath (fun _ _ hc => hc)
    (fun id hr => hrequest.trans hr) (fun id hr => ?_) (fun _ _ hc => Or.inl hc) (fun _ => rfl)
    hhears
  obtain ⟨c, hc, hmakes⟩ := hf.request k call id hcall (hrequest.symm.trans hr)
  exact ⟨c, hc, hmakes.sender.trans hsender.symm, hmakes.token.trans htoken.symm⟩

/-- What `spawn_request` is called with. -/
theorem Requests.enter_named (s : Requests) (name : UniqueName) (token : String) :
    ∃ c, (s.enter name.text token).calls = s.calls ++ [c] ∧ c.sender = name.text
      ∧ c.token = token ∧ c.Named := by
  refine ⟨_, rfl, rfl, rfl, ⟨name, rfl⟩, ?_⟩
  dsimp only
  cases hvalid : valid_token token with
  | false => exact Or.inr ⟨_, rfl⟩
  | true =>
      cases hpath : request_path name.text token with
      | error e => exact Or.inr ⟨_, rfl⟩
      | ok path => exact Or.inl (requestPath_of_ok hpath)

theorem Requests.get_enter {requests : Requests} {name token : String} {c : Call}
    (h : (requests.enter name token).calls = requests.calls ++ [c]) :
    (requests.enter name token).calls[requests.calls.length]? = some c
      ∧ (∀ (id : Nat) (c : Call), requests.calls[id]? = some c →
          (requests.enter name token).calls[id]? = some c)
      ∧ ∀ (id : Nat) (c' : Call), (requests.enter name token).calls[id]? = some c' →
          requests.calls[id]? = some c' ∨ id = requests.calls.length ∧ c' = c := by
  rw [h]
  refine ⟨List.getElem?_concat_length, fun id c hc => ?_, fun id c' hc => getElem?_concat_cases hc⟩
  rw [List.getElem?_append_left (List.getElem?_eq_some_iff.mp hc).1, hc]

/-- The call makes its request. -/
theorem Bus.Followed.handle (hf : s.Followed process pid) (hk : Known s.requests) {k : Nat}
    {call : ClientCall} (hcall : s.calls[k]? = some call) (hpc : call.pc = .calling) :
    Bus.Followed process pid { s.setCall k { call with
        request := some s.requests.calls.length, pc := .called } with
      requests := s.requests.enter call.sender call.token } := by
  obtain ⟨p, n, hnumbered⟩ := hf.numbered k call hcall
  obtain ⟨name, hname⟩ := hnumbered.sender
  obtain ⟨c, hcalls, hsender, htoken, hnamed⟩ := s.requests.enter_named name call.token
  rw [← hname] at hcalls hsender
  obtain ⟨hself, hkeep, hback⟩ := Requests.get_enter hcalls
  have hhears := hf.hears k call hcall
  rw [ClientCall.Hears, hpc] at hhears
  refine hf.change hcall rfl rfl rfl rfl (Or.inl ⟨rfl, by simp [hpc]⟩) hkeep (fun id hr => ?_)
    (fun id hr => ?_) (fun id c' hc => ?_) (fun _ => rfl) ⟨_, rfl, ?_⟩
  · rw [hhears.1] at hr
    cases hr
  · cases hr
    exact ⟨c, hself, hsender, htoken⟩
  · rcases hback id c' hc with hc | ⟨rfl, rfl⟩
    · exact Or.inl hc
    · exact Or.inr ⟨hnamed, rfl⟩
  · show call.stream = (s.requests.answers s.requests.calls.length).reverse
    rw [hhears.2, Requests.answers_new hk]
    rfl

/-- Somebody else makes a request. -/
theorem Bus.Followed.foreign (hf : s.Followed process pid) {name : UniqueName} {token : String}
    (hprocess : process name.text = none) :
    Bus.Followed process pid { s with requests := s.requests.enter name.text token } := by
  obtain ⟨c, hcalls, hsender, -, hnamed⟩ := s.requests.enter_named name token
  obtain ⟨-, hkeep, hback⟩ := Requests.get_enter hcalls
  refine ⟨hf.numbered, hf.apart, hf.path, fun k call id hcall hr => ?_, fun id c' hc => ?_,
    fun id c' hc => ?_, fun k call hcall => (hf.hears k call hcall).of_answers fun _ => rfl⟩
  · obtain ⟨d, hd, hmakes⟩ := hf.request k call id hcall hr
    exact ⟨d, hkeep id d hd, hmakes⟩
  · rcases hback id c' hc with hc | ⟨rfl, rfl⟩
    · exact hf.named id c' hc
    · exact hnamed
  · rcases hback id c' hc with hc | ⟨rfl, rfl⟩
    · exact hf.owned id c' hc
    · exact Or.inl (hsender ▸ hprocess)

/-- A process gives its next token. -/
theorem Bus.Followed.start (hf : s.Followed process pid) {name : UniqueName} {p : Nat}
    {call : ClientCall} (hcountable : s.Countable process (.start name))
    (hprocess : process name.text = some p) (hsender : call.sender = name.text)
    (htoken : call.token = new_handle_token (pid p) (s.tokens p % 2 ^ 64))
    (hrequest : call.request = none) (hstream : call.stream = [])
    (hpath : (call.pc = .expecting ∧ request_path call.sender call.token = .ok call.path)
      ∨ ∃ e, call.pc = .done (.error e)) :
    Bus.Followed process pid { s with
      tokens := Function.update s.tokens p (s.tokens p + 1), calls := s.calls ++ [call] } := by
  rw [Nat.mod_eq_of_lt (hcountable p hprocess)] at htoken
  have hget : ∀ {k : Nat} {c : ClientCall}, (s.calls ++ [call])[k]? = some c →
      s.calls[k]? = some c ∨ k = s.calls.length ∧ c = call := getElem?_concat_cases
  have hle : ∀ q, s.tokens q ≤ Function.update s.tokens p (s.tokens p + 1) q := by
    intro q
    rcases eq_or_ne q p with rfl | hne
    · rw [Function.update_self]
      exact Nat.le_succ _
    · rw [Function.update_of_ne hne]
  -- the token is none of those before it
  have hnew : ∀ (k : Nat) (c : ClientCall), s.calls[k]? = some c → c.sender = call.sender →
      c.token = call.token → False := by
    intro k c hc hs ht
    obtain ⟨q, n, hnumbered⟩ := hf.numbered k c hc
    have hq := hnumbered.process
    rw [hs, hsender, hprocess] at hq
    obtain rfl := Option.some.inj hq
    have hn := new_handle_token_inj (hnumbered.token.symm.trans (ht.trans htoken))
    exact absurd hnumbered.lt (by omega)
  refine ⟨fun k c hc => ?_, fun k k' c c' hc hc' hs ht => ?_, fun k c hc => ?_,
    fun k c id hc hr => ?_, hf.named, fun id c hc => ?_, fun k c hc => ?_⟩
  · rcases hget hc with hc | ⟨rfl, rfl⟩
    · obtain ⟨q, n, hnumbered⟩ := hf.numbered k c hc
      exact ⟨q, n, hnumbered.sender, hnumbered.process, hnumbered.token,
        Nat.lt_of_lt_of_le hnumbered.lt (hle q)⟩
    · refine ⟨p, s.tokens p, ⟨name, hsender⟩, hsender ▸ hprocess, htoken, ?_⟩
      show s.tokens p < Function.update s.tokens p (s.tokens p + 1) p
      rw [Function.update_self]
      exact Nat.lt_succ_self _
  · rcases hget hc with hold | ⟨rfl, rfl⟩ <;> rcases hget hc' with hold' | ⟨rfl, rfl⟩
    · exact hf.apart k k' c c' hold hold' hs ht
    · exact (hnew k c hold hs ht).elim
    · exact (hnew k' c' hold' hs.symm ht.symm).elim
    · rfl
  · rcases hget hc with hc | ⟨rfl, rfl⟩
    · exact hf.path k c hc
    · rcases hpath with ⟨-, hok⟩ | herror
      · exact Or.inl (requestPath_of_ok hok)
      · exact Or.inr herror
  · rcases hget hc with hc | ⟨rfl, rfl⟩
    · exact hf.request k c id hc hr
    · rw [hrequest] at hr
      cases hr
  · rcases hf.owned id c hc with hnone | ⟨k, c', hc', hr⟩
    · exact Or.inl hnone
    · refine Or.inr ⟨k, c', ?_, hr⟩
      exact (List.getElem?_append_left (List.getElem?_eq_some_iff.mp hc').1).trans hc'
  · rcases hget hc with hc | ⟨rfl, rfl⟩
    · exact hf.hears k c hc
    · rcases hpath with ⟨hpc, -⟩ | ⟨e, hpc⟩
      · rw [ClientCall.Hears, hpc]
        exact ⟨hrequest, hstream⟩
      · rw [ClientCall.Hears, hpc]
        trivial

/-- The call after a delivery has all but its stream as before. -/
structure ClientCall.Same (call call' : ClientCall) : Prop where
  sender : call'.sender = call.sender
  token : call'.token = call.token
  path : call'.path = call.path
  request : call'.request = call.request
  pc : call'.pc = call.pc

theorem ClientCall.Same.refl (call : ClientCall) : call.Same call := ⟨rfl, rfl, rfl, rfl, rfl⟩

theorem ClientCall.same_deliver (call : ClientCall) (path : String) (answer : Nat × Results) :
    call.Same (call.deliver path answer) := by
  unfold ClientCall.deliver
  split
  · exact ⟨rfl, rfl, rfl, rfl, rfl⟩
  · exact .refl call

/-- The daemon goes on. -/
theorem Bus.Followed.daemon (hf : s.Followed process pid) {event : RequestEvent}
    (hevent : ∀ sender token, event ≠ .enter sender token)
    (htr : s.requests.Transition display event s'.requests) (htokens : s'.tokens = s.tokens)
    {f : ClientCall → ClientCall} (hcalls : s'.calls = s.calls.map f)
    (hsame : ∀ call : ClientCall, call.Same (f call))
    (hhears : ∀ (k : Nat) (call : ClientCall), s.calls[k]? = some call →
      (f call).Hears s'.requests) : s'.Followed process pid := by
  have hget : ∀ {k : Nat} {c' : ClientCall}, s'.calls[k]? = some c' →
      ∃ c, s.calls[k]? = some c ∧ c' = f c := by
    intro k c' hc'
    rw [hcalls, List.getElem?_map] at hc'
    obtain ⟨c, hc, rfl⟩ := Option.map_eq_some_iff.mp hc'
    exact ⟨c, hc, rfl⟩
  constructor
  · intro k c' hc'
    obtain ⟨c, hc, rfl⟩ := hget hc'
    obtain ⟨p, n, hnumbered⟩ := hf.numbered k c hc
    have hs := (hsame c).sender
    exact ⟨p, n, hs.symm ▸ hnumbered.sender, hs.symm ▸ hnumbered.process,
      (hsame c).token.trans hnumbered.token, htokens ▸ hnumbered.lt⟩
  · intro k k' c c' hc hc' hs ht
    obtain ⟨a, ha, rfl⟩ := hget hc
    obtain ⟨b, hb, rfl⟩ := hget hc'
    exact hf.apart k k' a b ha hb ((hsame a).sender.symm.trans (hs.trans (hsame b).sender))
      ((hsame a).token.symm.trans (ht.trans (hsame b).token))
  · intro k c' hc'
    obtain ⟨c, hc, rfl⟩ := hget hc'
    rw [(hsame c).path, (hsame c).sender, (hsame c).token, (hsame c).pc]
    exact hf.path k c hc
  · intro k c' id hc' hr
    obtain ⟨c, hc, rfl⟩ := hget hc'
    obtain ⟨d, hd, hmakes⟩ := hf.request k c id hc ((hsame c).request.symm.trans hr)
    obtain ⟨d', hd', hcont⟩ := Requests.continues_forth htr hevent hd
    exact ⟨d', hd', hcont.sender.trans (hmakes.sender.trans (hsame c).sender.symm),
      hcont.token.trans (hmakes.token.trans (hsame c).token.symm)⟩
  · intro id d' hd'
    obtain ⟨d, hd, hcont⟩ := Requests.continues_step htr hevent hd'
    have hnamed := hf.named id d hd
    refine ⟨hcont.sender.symm ▸ hnamed.sender, ?_⟩
    rw [hcont.path, hcont.sender, hcont.token]
    refine hnamed.path.imp_right ?_
    rintro ⟨e, he⟩
    exact ⟨e, hcont.failed e he⟩
  · intro id d' hd'
    obtain ⟨d, hd, hcont⟩ := Requests.continues_step htr hevent hd'
    rw [hcont.sender]
    refine (hf.owned id d hd).imp_right ?_
    rintro ⟨k, c, hc, hr⟩
    refine ⟨k, f c, ?_, (hsame c).request.trans hr⟩
    rw [hcalls, List.getElem?_map, hc]
    rfl
  · intro k c' hc'
    obtain ⟨c, hc, rfl⟩ := hget hc'
    exact hhears k c hc

/-- The path that the reply names is the one subscribed to. -/
theorem Bus.Followed.path_eq (hf : s.Followed process pid) {k id : Nat} {call : ClientCall}
    {c : Call} (hcall : s.calls[k]? = some call) (hpc : ∀ e, call.pc ≠ .done (.error e))
    (hrequest : call.request = some id) (hc : s.requests.calls[id]? = some c)
    (hphase : ∀ e, c.phase ≠ .failed e) : c.path = call.path := by
  obtain ⟨c', hc', hmakes⟩ := hf.request k call id hcall hrequest
  obtain rfl := Option.some.inj (hc.symm.trans hc')
  rcases (hf.named id c hc).path with hcpath | ⟨e, he⟩
  swap
  · exact absurd he (hphase e)
  rcases hf.path k call hcall with hcallpath | ⟨e, he⟩
  swap
  · exact absurd he (hpc e)
  rw [hcallpath, hcpath, hmakes.sender, hmakes.token]

/-- The `Response` is delivered to the call that made the request, if that
has subscribed, and to no other. -/
theorem Bus.Followed.hears_respond (hf : s.Followed process pid) {event : RequestEvent}
    {requests : Requests} {path : String} {answer : Nat × Results}
    (htr : s.requests.Transition display event requests)
    (hresponds : s.requests.responds event = some (path, answer)) {k : Nat} {call : ClientCall}
    (hcall : s.calls[k]? = some call) : (call.deliver path answer).Hears requests := by
  obtain ⟨id, c, hc, rfl, hphase, hanswers⟩ := Requests.answers_respond htr hresponds
  have hhears := hf.hears k call hcall
  -- it is the call's own, if it gets there
  have hown : call.pc.listens = true → call.path = c.path → call.request = some id := by
    intro hlistens hpath
    refine hf.eq_of_path hcall hc (fun e he => ?_) hphase hpath
    rw [he] at hlistens
    cases hlistens
  unfold ClientCall.Hears at hhears ⊢
  rw [(call.same_deliver c.path answer).pc, (call.same_deliver c.path answer).request]
  cases hpc : call.pc with
  | expecting =>
      rw [hpc] at hhears
      rw [ClientCall.deliver, if_neg (by simp [hpc, CallPc.listens])]
      exact hhears
  | subscribed | calling =>
      rw [hpc] at hhears
      rw [ClientCall.deliver, if_neg]
      · exact hhears
      · rintro ⟨hlistens, hpath⟩
        have := hhears.1.symm.trans (hown hlistens hpath)
        cases this
  | called | waiting =>
      rw [hpc] at hhears
      obtain ⟨id', hrequest, hstream⟩ := hhears
      refine ⟨id', hrequest, ?_⟩
      rw [hanswers id']
      by_cases hid : id = id'
      · subst hid
        have hpath := hf.path_eq hcall (by simp [hpc]) hrequest hc hphase
        have hlistens : call.pc.listens = true := by rw [hpc]; rfl
        rw [if_pos rfl, ClientCall.deliver, if_pos ⟨hlistens, hpath.symm⟩, List.reverse_cons,
          ← hstream]
      · rw [if_neg hid, ClientCall.deliver, if_neg]
        · exact hstream
        · rintro ⟨hlistens, hpath⟩
          exact hid (Option.some.inj ((hown hlistens hpath).symm.trans hrequest))
  | done outcome =>
      rw [hpc] at hhears
      cases outcome with
      | error e => trivial
      | ok a =>
          obtain ⟨id', hrequest, hmem⟩ := hhears
          refine ⟨id', hrequest, ?_⟩
          rw [hanswers id']
          split
          · exact List.mem_cons_of_mem _ hmem
          · exact hmem

theorem Bus.followed_step {e : BusEvent} (h : s.Transition display process pid e s')
    (hok : s.Countable process e) (hk : Known s.requests) (hf : s.Followed process pid) :
    s'.Followed process pid := by
  cases h with
  | start hprocess hsender htoken hrequest hstream hpath =>
      exact hf.start hok hprocess hsender htoken hrequest hstream hpath
  | @go e k call call' hcall hsame hpc =>
      obtain ⟨hsender, htoken, hpath, hrequest, hstream⟩ := hsame
      have hhears := hf.hears k call hcall
      rcases hpc with ⟨hpc, hpc'⟩ | ⟨hpc, hpc'⟩ | ⟨message, hpc'⟩
      · rw [ClientCall.Hears, hpc] at hhears
        refine hf.setCall hcall hsender htoken (Or.inl ⟨hpath, by simp [hpc]⟩) hrequest ?_
        rw [ClientCall.Hears, hpc', hrequest, hstream]
        exact hhears
      · rw [ClientCall.Hears, hpc] at hhears
        refine hf.setCall hcall hsender htoken (Or.inl ⟨hpath, by simp [hpc]⟩) hrequest ?_
        rw [ClientCall.Hears, hpc', hrequest, hstream]
        exact hhears
      · refine hf.setCall hcall hsender htoken (Or.inr ⟨message, hpc'⟩) hrequest ?_
        rw [ClientCall.Hears, hpc']
        trivial
  | handle hcall hpc => exact hf.handle hk hcall hpc
  | @reply k id call c hcall hpc hrequest hc hpath =>
      have hhears := hf.hears k call hcall
      rw [ClientCall.Hears, hpc] at hhears
      exact hf.setCall hcall rfl rfl (Or.inl ⟨rfl, by simp [hpc]⟩) rfl hhears
  | follow hcall hpc hrequest hc hphase hpath =>
      exact absurd (hf.path_eq hcall (by simp [hpc]) hrequest hc hphase) hpath
  | @receive k call answer rest hcall hpc hstream =>
      have hhears := hf.hears k call hcall
      rw [ClientCall.Hears, hpc] at hhears
      obtain ⟨id, hrequest, hanswers⟩ := hhears
      refine hf.setCall hcall rfl rfl (Or.inl ⟨rfl, by simp [hpc]⟩) rfl ⟨id, hrequest, ?_⟩
      rw [← List.mem_reverse, ← hanswers, hstream]
      exact List.mem_cons_self
  | foreign hprocess => exact hf.foreign hprocess
  | quiet hevent hresponds h =>
      have htr := Requests.step_cases h
      refine hf.daemon hevent htr rfl (List.map_id _).symm (fun call => .refl call) ?_
      intro k call hcall
      exact (hf.hears k call hcall).of_answers (Requests.answers_quiet htr hresponds)
  | @respond event requests path answer hevent hresponds h =>
      have htr := Requests.step_cases h
      refine hf.daemon hevent htr rfl rfl (fun call => call.same_deliver path answer) ?_
      intro k call hcall
      exact hf.hears_respond htr hresponds hcall

/-- The requests of the daemon on the bus go as they would alone. -/
theorem Bus.requestsInv_step {e : BusEvent} (h : s.Transition display process pid e s')
    (hs : RequestsInv display s.requests) : RequestsInv display s'.requests := by
  cases h with
  | start | go | reply | follow | receive => exact hs
  | @handle k call _ _ =>
      have htr : s.requests.Transition display _ _ :=
        s.requests.enter_cases call.sender call.token
      exact requestsInv_step htr hs
  | @foreign name token _ =>
      have htr : s.requests.Transition display _ _ := s.requests.enter_cases name.text token
      exact requestsInv_step htr hs
  | quiet _ _ h => exact requestsInv_step (Requests.step_cases h) hs
  | respond _ _ h => exact requestsInv_step (Requests.step_cases h) hs

theorem Bus.followed_of_reach
    (h : Machine.Reach (Bus.step display process pid) (Bus.Countable process) Bus.init s) :
    RequestsInv display s.requests ∧ s.Followed process pid := by
  refine h.invariant (I := fun s : Bus => RequestsInv display s.requests ∧ s.Followed process pid)
    ⟨requestsInv_init, Bus.followed_init⟩ fun s e s' _ hok hs hi => ?_
  have htr := Bus.step_cases hs
  exact ⟨Bus.requestsInv_step htr hi.1, Bus.followed_step htr hok hi.1.known hi.2⟩

end Followed

/-! ## A call and its Response -/

/-- What a call of `call_with_request` gets. -/
structure ClientCall.OwnResponse (s : Bus) (k : Nat) (call : ClientCall) : Prop where
  /-- its request is the one made with its sender and its token, and no other
  call's; -/
  request : ∀ id, call.request = some id → (∃ c, s.requests.calls[id]? = some c
      ∧ c.sender = call.sender ∧ c.token = call.token ∧ ((∀ e, c.phase ≠ .failed e) →
        (∀ e, call.pc ≠ .done (.error e)) → c.path = call.path))
    ∧ ∀ k' call', s.calls[k']? = some call' → call'.request = some id → k' = k
  /-- while it waits, what has come is what its request was answered, -/
  waiting : call.pc = .waiting →
    ∃ id, call.request = some id ∧ call.stream = s.requests.answers id
  /-- and what it returns is the one answer to its request. -/
  returned : ∀ answer, call.pc = .done (.ok answer) →
    ∃ id, call.request = some id ∧ s.requests.answers id = [answer]

/-- **A call returns the Response of its own request.** With any number of
calls of any clients on the bus, in any order of their steps and the daemon's,
a call is delivered each answer of its own request, and none of another's. -/
theorem call_with_request_own (display : Error → String) (process : String → Option Nat)
    (pid : Nat → Nat) {s : Bus}
    (h : Machine.Reach (Bus.step display process pid) (Bus.Countable process) Bus.init s)
    {k : Nat} {call : ClientCall} (hcall : s.calls[k]? = some call) : call.OwnResponse s k := by
  obtain ⟨hrequests, hf⟩ := Bus.followed_of_reach h
  have hhears := hf.hears k call hcall
  -- there is one answer at most, so its order is no matter
  have hle : ∀ id, call.request = some id → (s.requests.answers id).length ≤ 1 := by
    intro id hrequest
    obtain ⟨c, hc, -⟩ := hf.request k call id hcall hrequest
    exact hrequests.answers_le hc
  refine ⟨fun id hrequest => ?_, fun hpc => ?_, fun answer hpc => ?_⟩
  · obtain ⟨c, hc, hmakes⟩ := hf.request k call id hcall hrequest
    refine ⟨⟨c, hc, hmakes.sender, hmakes.token, fun hphase hpc => ?_⟩, ?_⟩
    · exact hf.path_eq hcall hpc hrequest hc hphase
    · intro k' call' hcall' hrequest'
      obtain ⟨c', hc', hmakes'⟩ := hf.request k' call' id hcall' hrequest'
      obtain rfl := Option.some.inj (hc.symm.trans hc')
      exact hf.apart k' k call' call hcall' hcall (hmakes'.sender.symm.trans hmakes.sender)
        (hmakes'.token.symm.trans hmakes.token)
  · rw [ClientCall.Hears, hpc] at hhears
    obtain ⟨id, hrequest, hstream⟩ := hhears
    refine ⟨id, hrequest, hstream.trans ?_⟩
    match hanswers : s.requests.answers id, hle id hrequest with
    | [], _ => rfl
    | [_], _ => rfl
  · rw [ClientCall.Hears, hpc] at hhears
    obtain ⟨id, hrequest, hmem⟩ := hhears
    refine ⟨id, hrequest, ?_⟩
    obtain ⟨a, ha⟩ := List.length_eq_one_iff.mp
      (Nat.le_antisymm (hle id hrequest) (List.length_pos_of_mem hmem))
    rw [ha] at hmem ⊢
    rw [List.mem_singleton.mp hmem]

/-- Two calls of one client, answered in the other order, and a stranger that
takes the second's token: the answer is there before the reply to the call. -/
theorem call_with_request_own_two :
    ∃ process s call, process ":1.42" = some 0
      ∧ Machine.Reach (Bus.step (fun _ => "") process fun _ => 7) (Bus.Countable process)
          Bus.init s
      ∧ s.calls[1]? = some call ∧ call.pc = .waiting
      ∧ call.stream = [(response_code.SUCCESS, [])] ∧ call.OwnResponse s 1 := by
  let process : String → Option Nat := fun name => if name = ":1.42" then some 0 else none
  let client : UniqueName := ⟨['1'], ['4', '2'], by decide, by decide,
    List.all_eq_true.mp rfl, List.all_eq_true.mp rfl⟩
  let stranger : UniqueName := ⟨['1'], ['7'], by decide, by decide,
    List.all_eq_true.mp rfl, List.all_eq_true.mp rfl⟩
  obtain ⟨s, hreach, hs⟩ := Machine.exists_reach_of_run (Bus.step (fun _ => "") process fun _ => 7)
    (Bus.Countable process) Bus.init
    [.start client, .start client, .subscribe 0, .subscribe 1, .send 0, .send 1, .handle 0,
      .handle 1, .foreign stranger "dragoman_7_1", .daemon (.register 0), .daemon (.register 1),
      .daemon (.register 2), .daemon (.at 0 none), .daemon (.at 1 none), .daemon (.at 2 none),
      .reply 0, .daemon (.work 1 (.ok [])), .daemon (.work 2 (.error (.notInstalled "deen"))),
      .daemon (.decide 2), .daemon (.decide 1), .daemon (.emit 2 true), .daemon (.emit 1 true),
      .reply 1]
    (fun s => decide (s.calls[1]? = some (⟨":1.42", "dragoman_7_1",
      "/dev/l10n_bg/dragomand/request/_1_42/dragoman_7_1", some 1, .waiting,
      [(response_code.SUCCESS, [])]⟩ : ClientCall))) (by decide +kernel)
  have hcall := of_decide_eq_true hs
  exact ⟨process, s, _, rfl, hreach, hcall, rfl, rfl, call_with_request_own _ _ _ hreach hcall⟩

end Dragomand
