import Dragomand.Machine
import Dragomand.SetConfig

/-!
# Concurrent SetConfig calls

Handlers run as tasks, so that the steps of several calls may come in any
order: `check`, reading and editing the file, writing the temporary file,
renaming it, `apply` under the lock, the provider's flag, `enforce_budget`
and the signal. Nothing is held across two of them. `InTurn` says which
steps of a run must not overtake each other, and `Serial` what then
connects the file, the memory, the flag and the last signal.
-/

namespace Dragomand

open Overrides

/-- How far a call has come: what it does next, with the data it has. -/
inductive SetPhase where
  | checking
  | reading (checked : List (String × Setting))
  | writing (checked : List (String × Setting)) (existing : Option Text) (document : Document)
  | renaming (checked : List (String × Setting)) (existing : Option Text) (document : Document)
  | applying (checked : List (String × Setting))
  | flagging (config : Config)
  | enforcing (config : Config)
  | emitting (config : Config)
  | returned (config : Config)
  | failed (error : Error)
deriving DecidableEq

structure SetCall where
  changes : List (String × Value)
  phase : SetPhase
deriving DecidableEq

/-- The calls with the state they share. The last two fields are the
history: the calls whose file has been renamed and that have not been
applied, and the calls that have, with the configuration each has left. -/
structure ConfigRun where
  shared : ConfigState
  calls : List SetCall
  unapplied : List (Nat × List (String × Setting))
  applied : List (Nat × List (String × Setting) × Config)
deriving DecidableEq

inductive SetEvent where
  | call (changes : List (String × Value))
  /-- the next step of a call, with what goes wrong in it -/
  | advance (id : Nat) (io : SaveIo)
deriving DecidableEq

namespace ConfigRun

def start (shared : ConfigState) : ConfigRun where
  shared
  calls := []
  unapplied := []
  applied := []

def setPhase (run : ConfigRun) (id : Nat) (phase : SetPhase) : ConfigRun :=
  { run with calls := run.calls.modify id fun call => { call with phase } }

/-- The next step of call `id`. -/
def advance (host : Host) (run : ConfigRun) (id : Nat) (io : SaveIo) (call : SetCall) :
    Option ConfigRun :=
  let shared := run.shared
  match call.phase with
  | .checking =>
      match Config.check host call.changes with
      | .error message => some (run.setPhase id (.failed (.invalidArgument message)))
      | .ok checked =>
          some (run.setPhase id
            (if shared.config_path.isSome then .reading checked else .applying checked))
  | .reading checked => do
      let path ← shared.config_path
      match Config.edit io path (io.read_to_string shared.files.file) checked with
      | .error message => some (run.setPhase id (.failed (.engineFailure message)))
      | .ok document => some (run.setPhase id (.writing checked shared.files.file document))
  | .writing checked existing document => do
      let path ← shared.config_path
      match Config.writeTemporary io path shared.files document with
      | (files, .error message) =>
          some ({ run with shared := { shared with files } }.setPhase id
            (.failed (.engineFailure message)))
      | (files, .ok ()) =>
          some ({ run with shared := { shared with files } }.setPhase id
            (.renaming checked existing document))
  | .renaming checked _ _ => do
      let path ← shared.config_path
      match Config.renameTemporary io path shared.files with
      | (files, .error message) =>
          some ({ run with shared := { shared with files } }.setPhase id
            (.failed (.engineFailure message)))
      | (files, .ok ()) =>
          some ({ run with
            shared := { shared with files }
            unapplied := run.unapplied ++ [(id, checked)] }.setPhase id (.applying checked))
  | .applying checked => do
      let config ← shared.config.apply checked
      some ({ run with
        shared := { shared with config }
        unapplied := run.unapplied.filter fun entry => entry.1 ≠ id
        applied := run.applied ++ [(id, checked, config)] }.setPhase id (.flagging config))
  | .flagging config =>
      some ({ run with shared :=
        { shared with allow_prerelease := config.allow_prerelease } }.setPhase id
        (.enforcing config))
  | .enforcing config =>
      some ({ run with shared :=
        { shared with enforced := shared.enforced ++ [config.memory_budget_mb] } }.setPhase
        id (.emitting config))
  | .emitting config =>
      some ({ run with shared :=
        { shared with signals := shared.signals ++ [config.to_values] } }.setPhase
        id (.returned config))
  | .returned _ | .failed _ => none

def step (host : Host) (run : ConfigRun) : SetEvent → Option ConfigRun
  | .call changes =>
      if (changes.map Prod.fst).Nodup then
        some { run with calls := run.calls ++ [⟨changes, .checking⟩] }
      else none
  | .advance id io => run.calls[id]?.bind (run.advance host id io)

end ConfigRun

/-! ## Steps in turn -/

/-- The call has ended. -/
def SetPhase.ended : SetPhase → Bool
  | .returned _ | .failed _ => true
  | _ => false

def SetPhase.isReturned : SetPhase → Bool
  | .returned _ => true
  | _ => false

/-- The call has set the flag. -/
def SetPhase.flagged : SetPhase → Bool
  | .enforcing _ | .emitting _ | .returned _ => true
  | _ => false

/-- The document that `save` edits; a text that is none has no keys here. -/
def documentOf : Option Text → Document
  | some (.document document) => document
  | some (.malformed _ _) | none => Document.empty

/-- The documents have the same value for every key but the given ones. -/
def SameBut (keys : List String) (document document' : Document) : Prop :=
  ∀ name ∈ document.items.map Item.name ++ document'.items.map Item.name,
    name ∉ keys → document.get name = document'.get name

instance (keys : List String) (document document' : Document) :
    Decidable (SameBut keys document document') :=
  inferInstanceAs (Decidable (∀ name ∈ document.items.map Item.name
    ++ document'.items.map Item.name, name ∉ keys → document.get name = document'.get name))

/-- No key gets two different values. -/
def Agree (checked checked' : List (String × Setting)) : Prop :=
  ∀ change ∈ checked, ∀ change' ∈ checked', change.1 = change'.1 → change.2 = change'.2

instance (checked checked' : List (String × Setting)) : Decidable (Agree checked checked') :=
  inferInstanceAs (Decidable (∀ change ∈ checked, ∀ change' ∈ checked',
    change.1 = change'.1 → change.2 = change'.2))

namespace ConfigRun

/-- The configurations of the calls that were applied after call `id`. -/
def appliedAfter (run : ConfigRun) (id : Nat) : List (Nat × List (String × Setting) × Config) :=
  (run.applied.dropWhile fun entry => entry.1 ≠ id).tail

def phase? (run : ConfigRun) (id : Nat) : Option SetPhase := run.calls[id]?.map SetCall.phase

def phaseAt (run : ConfigRun) (id : Nat) (p : SetPhase → Bool) : Bool := (run.phase? id).any p

/-- A call renames the temporary file that it has written itself, over a
file whose keys, but for those it sets, are as it has read them; it is
applied before no call that was renamed earlier and gives a key another
value; and it sets the flag and sends the signal after no call that was
applied later and has another value to set or to send. -/
def InTurn (run : ConfigRun) : SetEvent → Prop
  | .call _ => True
  | .advance id _ =>
      match run.phase? id with
      | some (.renaming checked existing document) =>
          run.shared.files.temporary = some (.document document)
            ∧ SameBut (checked.map Prod.fst) (documentOf run.shared.files.file)
                (documentOf existing)
      | some (.applying checked) =>
          ∀ entry ∈ run.unapplied.takeWhile (fun entry => entry.1 ≠ id), Agree entry.2 checked
      | some (.flagging config) =>
          ∀ entry ∈ run.appliedAfter id, run.phaseAt entry.1 SetPhase.flagged = true →
            entry.2.2.allow_prerelease = config.allow_prerelease
      | some (.emitting config) =>
          ∀ entry ∈ run.appliedAfter id, run.phaseAt entry.1 SetPhase.isReturned = true →
            entry.2.2.to_values = config.to_values
      | _ => True

instance (run : ConfigRun) (e : SetEvent) : Decidable (run.InTurn e) :=
  match e with
  | .call _ => isTrue trivial
  | .advance id _ => by
      delta InTurn
      dsimp only
      exact match run.phase? id with
        | some (.renaming _ _ _) | some (.applying _) | some (.flagging _)
        | some (.emitting _) => by infer_instance
        | none | some .checking | some (.reading _) | some (.writing _ _ _) | some (.enforcing _)
        | some (.returned _) | some (.failed _) => isTrue trivial

/-- The calls that have succeeded. -/
def successful (run : ConfigRun) : List Nat :=
  (List.range run.calls.length).filter fun id => run.phaseAt id SetPhase.isReturned

/-- What call `id` does to a configuration on its own. -/
def applyCall (host : Host) (run : ConfigRun) (config : Config) (id : Nat) : Option Config := do
  let call ← run.calls[id]?
  match Config.check host call.changes with
  | .error _ => none
  | .ok checked => config.apply checked

/-- The configuration in memory, the one in the file, the flag and the last
signal are the same, and what the successful calls make of `config₀` one
after the other. -/
structure Serial (host : Host) (config₀ : Config) (run : ConfigRun) : Prop where
  loaded : run.shared.loaded = .ok run.shared.config
  flag : run.shared.allow_prerelease = run.shared.config.allow_prerelease
  signal : run.successful = [] ∨ run.shared.signals.getLast? = some run.shared.config.to_values
  order : ∃ order : List Nat, order.Perm run.successful
    ∧ order.foldlM (run.applyCall host) config₀ = some run.shared.config

end ConfigRun

/-! ## What a step does -/

/-- The call may still fail. -/
def SetPhase.early : SetPhase → Bool
  | .checking | .reading _ | .writing _ _ _ | .renaming _ _ _ => true
  | _ => false

namespace ConfigRun

/-- The steps of a daemon with a configuration file. -/
inductive Transition (host : Host) (run : ConfigRun) : SetEvent → ConfigRun → Prop
  | arrived {changes : List (String × Value)} (hkeys : (changes.map Prod.fst).Nodup) :
      Transition host run (.call changes)
        { run with calls := run.calls ++ [⟨changes, .checking⟩] }
  | failed {id : Nat} {call : SetCall} {io : SaveIo} {files : ConfigFiles} {e : Error}
      (hcall : run.calls[id]? = some call)
      (hearly : call.phase.early = true) (hfile : files.file = run.shared.files.file) :
      Transition host run (.advance id io)
        ({ run with shared := { run.shared with files } }.setPhase id (.failed e))
  | checked {id : Nat} {call : SetCall} {io : SaveIo} {checked : List (String × Setting)}
      (hcall : run.calls[id]? = some call) (hphase : call.phase = .checking)
      (hchecked : Checked host call.changes checked) :
      Transition host run (.advance id io) (run.setPhase id (.reading checked))
  | read {id : Nat} {call : SetCall} {io : SaveIo} {checked : List (String × Setting)}
      (hcall : run.calls[id]? = some call) (hphase : call.phase = .reading checked) :
      Transition host run (.advance id io)
        (run.setPhase id (.writing checked run.shared.files.file
          ((documentOf run.shared.files.file).edited checked)))
  | written {id : Nat} {call : SetCall} {io : SaveIo} {checked : List (String × Setting)}
      {existing : Option Text} {document : Document} (hcall : run.calls[id]? = some call)
      (hphase : call.phase = .writing checked existing document) :
      Transition host run (.advance id io)
        ({ run with shared := { run.shared with files :=
            { run.shared.files with temporary := some (.document document) } } }.setPhase id
          (.renaming checked existing document))
  | renamed {id : Nat} {call : SetCall} {io : SaveIo} {checked : List (String × Setting)}
      {existing : Option Text} {document : Document} {text : Text}
      (hcall : run.calls[id]? = some call)
      (hphase : call.phase = .renaming checked existing document)
      (htemporary : run.shared.files.temporary = some text) :
      Transition host run (.advance id io)
        ({ run with
            shared := { run.shared with files := { file := some text, temporary := none } }
            unapplied := run.unapplied ++ [(id, checked)] }.setPhase id (.applying checked))
  | applied {id : Nat} {call : SetCall} {io : SaveIo} {checked : List (String × Setting)}
      {config : Config} (hcall : run.calls[id]? = some call)
      (hphase : call.phase = .applying checked)
      (happly : run.shared.config.apply checked = some config) :
      Transition host run (.advance id io)
        ({ run with
            shared := { run.shared with config }
            unapplied := run.unapplied.filter fun entry => entry.1 ≠ id
            applied := run.applied ++ [(id, checked, config)] }.setPhase id (.flagging config))
  | flagged {id : Nat} {call : SetCall} {io : SaveIo} {config : Config}
      (hcall : run.calls[id]? = some call) (hphase : call.phase = .flagging config) :
      Transition host run (.advance id io)
        ({ run with shared :=
            { run.shared with allow_prerelease := config.allow_prerelease } }.setPhase id
          (.enforcing config))
  | enforced {id : Nat} {call : SetCall} {io : SaveIo} {config : Config}
      (hcall : run.calls[id]? = some call) (hphase : call.phase = .enforcing config) :
      Transition host run (.advance id io)
        ({ run with shared := { run.shared with
            enforced := run.shared.enforced ++ [config.memory_budget_mb] } }.setPhase id
          (.emitting config))
  | emitted {id : Nat} {call : SetCall} {io : SaveIo} {config : Config}
      (hcall : run.calls[id]? = some call) (hphase : call.phase = .emitting config) :
      Transition host run (.advance id io)
        ({ run with shared :=
            { run.shared with signals := run.shared.signals ++ [config.to_values] } }.setPhase id
          (.returned config))

variable {host : Host} {path : ConfigPath} {run run' : ConfigRun} {id : Nat} {call : SetCall}
  {phase : SetPhase}

/-- What has been read is the file. -/
theorem edit_reads {io : SaveIo} {file : Option Text} {checked : List (String × Setting)}
    {document : Document}
    (h : Config.edit io path (io.read_to_string file) checked = .ok document) :
    document = (documentOf file).edited checked := by
  obtain ⟨base, hexisting, hedit⟩ := edit_eq_ok h
  rw [hedit] at h
  cases h
  rcases io.read_to_string_cases file with ⟨message, hread⟩ | hread
  · rw [hread] at hexisting
    rcases hexisting with h | ⟨h, -⟩ <;> cases h
  · rw [hread] at hexisting
    cases file with
    | none =>
        rcases hexisting with h | ⟨-, rfl⟩
        · cases h
        · rfl
    | some text =>
        rcases hexisting with h | ⟨h, -⟩
        · cases h
          rfl
        · cases h

theorem step_cases {e : SetEvent} (hpath : run.shared.config_path = some path)
    (h : run.step host e = some run') : run.Transition host e run' := by
  cases e with
  | call changes =>
      rw [step] at h
      split at h
      · cases h
        exact .arrived ‹_›
      · cases h
  | advance id io =>
      obtain ⟨call, hcall, h⟩ := Option.bind_eq_some_iff.mp h
      unfold advance at h
      cases hphase : call.phase with
      | checking =>
          rw [hphase] at h
          simp only [hpath, Option.isSome_some, ↓reduceIte] at h
          cases hcheck : Config.check host call.changes with
          | error message =>
              rw [hcheck] at h
              cases h
              exact .failed hcall (by rw [hphase]; rfl) rfl
          | ok checked =>
              rw [hcheck] at h
              cases h
              exact .checked hcall hphase (Config.check_eq_ok.mp hcheck)
      | reading checked =>
          rw [hphase] at h
          obtain ⟨path, -, h⟩ := Option.bind_eq_some_iff.mp h
          cases hedit : Config.edit io path (io.read_to_string run.shared.files.file) checked with
          | error message =>
              rw [hedit] at h
              cases h
              exact .failed hcall (by rw [hphase]; rfl) rfl
          | ok document =>
              rw [hedit] at h
              cases h
              rw [edit_reads hedit]
              exact .read hcall hphase
      | writing checked existing document =>
          rw [hphase] at h
          obtain ⟨path, -, h⟩ := Option.bind_eq_some_iff.mp h
          rcases @writeTemporary_cases io path run.shared.files document
            with ⟨files', message, hwrite, hfile⟩ | hwrite
          · rw [hwrite] at h
            cases h
            exact .failed hcall (by rw [hphase]; rfl) hfile
          · rw [hwrite] at h
            cases h
            exact .written hcall hphase
      | «renaming» checked existing document =>
          rw [hphase] at h
          obtain ⟨path, -, h⟩ := Option.bind_eq_some_iff.mp h
          rcases @renameTemporary_cases io path run.shared.files
            with ⟨files', message, hrename, hfile⟩ | ⟨text, htext, hrename⟩
          · rw [hrename] at h
            cases h
            exact .failed hcall (by rw [hphase]; rfl) hfile
          · rw [hrename] at h
            cases h
            exact .renamed hcall hphase htext
      | applying checked =>
          rw [hphase] at h
          obtain ⟨config, happly, h⟩ := Option.bind_eq_some_iff.mp h
          cases h
          exact .applied hcall hphase happly
      | flagging config =>
          rw [hphase] at h
          cases h
          exact .flagged hcall hphase
      | enforcing config =>
          rw [hphase] at h
          cases h
          exact .enforced hcall hphase
      | emitting config =>
          rw [hphase] at h
          cases h
          exact .emitted hcall hphase
      | returned config =>
          rw [hphase] at h
          cases h
      | failed e =>
          rw [hphase] at h
          cases h

end ConfigRun

end Dragomand
