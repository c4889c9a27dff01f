import Dragomand.Announced
import Dragomand.CataloguePanics
import Dragomand.InstallListing

/-!
# Preparing a pair

The future of `prepare_pair` over the file tree of the stores, down to the
system calls of the installs that it makes: a `Preparation` asks one question
of the future, of the provider or of the file system at a time, and others
change the stores in between. Every HTTP request is a step of its own.

The others are whoever uses the stores. `PrepareCall.Undisturbed` is what
they and the catalogue are held to: nothing that is listed goes away, model
directories have the names that their manifests say, an install is alone
with its directories while it has the lock, and the files of a set have
plain names of their own.
-/

namespace Dragomand

open FileTree (plainName)

/-! ## Steps -/

/-- `From<ProviderError>`; `to_string` is the error's. -/
def Error.of_provider (to_string : ProviderError → String) : ProviderError → Error
  | .noSuchPair pair => .unsupportedPair pair
  | error => .engineFailure (to_string error)

/-- The operation is not an install. -/
def CacheOp.isQuery : CacheOp → Bool
  | .install _ _ => false
  | _ => true

/-- A call of `prepare_pair`, and what it finds. -/
structure PrepareCall where
  host : ModelHost
  stores : Stores
  provider : RemoteSettingsProvider
  download_lex : Bool
  to_string : ProviderError → String
  source : String
  target : String
  allow_pivot : Bool

/-- An `install_pair` of the provider: at a question of its own, or in the
install of a set. -/
inductive Installing where
  | asking (prog : Fetching ProviderError InstalledModel)
  | installing (set : ModelSet) (attachments_base : String) (pc : Install.Pc)
      (next : Except ProviderError InstalledModel → Fetching ProviderError InstalledModel)

structure Preparation where
  tree : FileTree Bytes
  future : Async Results
  history : Asked
  installing : Option Installing

inductive PrepareEvent where
  /-- somebody else changes the stores -/
  | others (t : FileTree Bytes)
  /-- the future goes on -/
  | answer (reply : (op : Op) → op.Answer)
  /-- the provider goes on -/
  | provider (reply : (op : CacheOp) → op.Answer)
  | install (event : InstallEvent)

/-- The future gets an answer. -/
def Preparation.answered (s : Preparation) (op : Op) (next : op.Answer → Async Results)
    (answer : op.Answer) : Preparation :=
  ⟨s.tree, next answer, s.history.add op answer, none⟩

namespace PrepareCall

variable (call : PrepareCall)

def init (t : FileTree Bytes) : Preparation :=
  ⟨t, prepare_pair call.source call.target call.allow_pivot, [], none⟩

/-- What `resolve` finds. -/
def disk (t : FileTree Bytes) : Disk := call.stores.disk call.host t

def install (set : ModelSet) (attachments_base : String) : InstallCall :=
  ⟨call.host, call.stores, set, attachments_base, call.download_lex⟩

def step (s : Preparation) : PrepareEvent → Option Preparation
  | .others t => some { s with tree := t }
  | .answer reply =>
      match s.future, s.installing with
      | .op .stores next, none => some (s.answered .stores next (call.disk s.tree))
      | .op (.install_pair source target) _, none =>
          some { s with installing := some (.asking (call.provider.install_pair source target)) }
      | .op (.install_pair source target) next, some (.asking (.done (.ok m))) =>
          some (s.answered (.install_pair source target) next (.ok m))
      | .op (.install_pair source target) next, some (.asking (.done (.error (.err e)))) =>
          some (s.answered (.install_pair source target) next
            (.error (.of_provider call.to_string e)))
      | .op op next, none => some (s.answered op next (reply op))
      -- a panic ends the task
      | _, _ => none
  | .provider reply =>
      match s.installing with
      | some (.asking (.op (.install set attachments_base) next)) =>
          some { s with installing := some (.installing set attachments_base .creatingUser next) }
      | some (.asking (.op op next)) =>
          some { s with installing := some (.asking (next (reply op))) }
      | some (.installing _ _ (.done m _) next) =>
          some { s with installing := some (.asking (next (.ok m))) }
      | some (.installing _ _ (.failed e) next) =>
          some { s with installing := some (.asking (next (.error e))) }
      | _ => none
  | .install event =>
      match s.installing with
      | some (.installing set attachments_base pc next) =>
          ((call.install set attachments_base).step ⟨s.tree, pc⟩ event).map fun i =>
            { s with
              tree := i.tree
              installing := some (.installing set attachments_base i.pc next) }
      | _ => none

end PrepareCall

/-! ## What one step can do -/

namespace PrepareCall

inductive Transition (call : PrepareCall) (s : Preparation) : PrepareEvent → Preparation → Prop
  | others {t : FileTree Bytes} : Transition call s (.others t) { s with tree := t }
  | look {reply : (op : Op) → op.Answer} {next : Disk → Async Results}
      (hfuture : s.future = .op .stores next) (hidle : s.installing = none) :
      Transition call s (.answer reply) (s.answered .stores next (call.disk s.tree))
  | «begin» {reply : (op : Op) → op.Answer} {source target : String}
      {next : Except Error InstalledModel → Async Results}
      (hfuture : s.future = .op (.install_pair source target) next) (hidle : s.installing = none) :
      Transition call s (.answer reply)
        { s with installing := some (.asking (call.provider.install_pair source target)) }
  | «return» {reply : (op : Op) → op.Answer} {source target : String}
      {next : Except Error InstalledModel → Async Results}
      {result : Except (Fault ProviderError) InstalledModel} {answer : Except Error InstalledModel}
      (hfuture : s.future = .op (.install_pair source target) next)
      (hinstalling : s.installing = some (.asking (.done result)))
      (hanswer : ∀ m, answer = .ok m → result = .ok m) :
      Transition call s (.answer reply) (s.answered (.install_pair source target) next answer)
  | answer {reply : (op : Op) → op.Answer} {op : Op} {next : op.Answer → Async Results}
      (hfuture : s.future = .op op next) (hidle : s.installing = none) (hstores : op ≠ .stores)
      (hinstall : ∀ source target, op ≠ .install_pair source target) :
      Transition call s (.answer reply) (s.answered op next (reply op))
  | start {reply : (op : CacheOp) → op.Answer} {set : ModelSet} {attachments_base : String}
      {next : Except ProviderError InstalledModel → Fetching ProviderError InstalledModel}
      (hinstalling : s.installing = some (.asking (.op (.install set attachments_base) next))) :
      Transition call s (.provider reply)
        { s with installing := some (.installing set attachments_base .creatingUser next) }
  | provider {reply : (op : CacheOp) → op.Answer} {op : CacheOp}
      {next : op.Answer → Fetching ProviderError InstalledModel}
      (hinstalling : s.installing = some (.asking (.op op next))) (hquery : op.isQuery = true) :
      Transition call s (.provider reply)
        { s with installing := some (.asking (next (reply op))) }
  | finish {reply : (op : CacheOp) → op.Answer} {set : ModelSet} {attachments_base : String}
      {pc : Install.Pc}
      {next : Except ProviderError InstalledModel → Fetching ProviderError InstalledModel}
      {result : Except ProviderError InstalledModel}
      (hinstalling : s.installing = some (.installing set attachments_base pc next))
      (hresult : ∀ m, result = .ok m → ∃ downloaded, pc = .done m downloaded) :
      Transition call s (.provider reply) { s with installing := some (.asking (next result)) }
  | install {event : InstallEvent} {set : ModelSet} {attachments_base : String} {pc : Install.Pc}
      {next : Except ProviderError InstalledModel → Fetching ProviderError InstalledModel}
      {i : Install}
      (hinstalling : s.installing = some (.installing set attachments_base pc next))
      (hi : (call.install set attachments_base).Transition ⟨s.tree, pc⟩ event i) :
      Transition call s (.install event)
        { s with
          tree := i.tree
          installing := some (.installing set attachments_base i.pc next) }

variable {call : PrepareCall} {s s' : Preparation} {e : PrepareEvent}

theorem step_cases (h : call.step s e = some s') : call.Transition s e s' := by
  unfold step at h
  split at h
  · cases h
    exact .others
  · split at h
    · rename_i hfuture hidle
      cases h
      exact .look hfuture hidle
    · rename_i hfuture hidle
      cases h
      exact .begin hfuture hidle
    · rename_i hfuture hinstalling
      cases h
      exact .return hfuture hinstalling fun m heq => by cases heq; rfl
    · rename_i hfuture hinstalling
      cases h
      exact .return hfuture hinstalling nofun
    · rename_i hstores hinstall hfuture hidle
      cases h
      refine .answer hfuture hidle ?_ ?_
      · rintro rfl
        exact hstores _ rfl HEq.rfl
      · rintro source target rfl
        exact hinstall _ _ _ rfl HEq.rfl
    · cases h
  · split at h
    · rename_i hinstalling
      cases h
      exact .start hinstalling
    · rename_i hother hinstalling
      cases h
      refine .provider hinstalling ?_
      unfold CacheOp.isQuery
      split
      · exact absurd rfl fun heq => hother _ _ _ heq HEq.rfl
      · rfl
    · rename_i hinstalling
      cases h
      exact .finish hinstalling fun m heq => by cases heq; exact ⟨_, rfl⟩
    · rename_i hinstalling
      cases h
      exact .finish hinstalling nofun
    · cases h
  · split at h
    · rename_i hinstalling
      obtain ⟨i, hi, rfl⟩ := Option.map_eq_some_iff.mp h
      exact .install hinstalling (InstallCall.step_cases hi)
    · cases h

end PrepareCall

/-! ## The network -/

/-- The next step is an HTTP request: of the provider, or of a download. -/
def Installing.requesting : Installing → Bool
  | .asking (.op (.get _ _) _) => true
  | .installing _ _ (.fetching ⟨_ :: _, _, _⟩) _ => true
  | _ => false

/-- Other operations of a future that make requests. -/
def Op.requests : Op → Bool
  | .check_for_updates | .refresh => true
  | _ => false

/-- The next step is an HTTP request. -/
def Preparation.Requesting (s : Preparation) : Prop :=
  (∃ i, s.installing = some i ∧ i.requesting = true)
    ∨ ∃ op next, s.future = .op op next ∧ op.requests = true

/-! ## The others -/

/-- The lock of the store is held. -/
def Install.Pc.locked : Install.Pc → Bool
  | .creatingUser | .opening | .locking | .done _ _ | .failed _ => false
  | _ => true

/-- The set that is about to be installed. -/
def Preparation.starting (s : Preparation) : Option (ModelSet × String) :=
  match s.installing with
  | some (.asking (.op (.install set attachments_base) _)) => some (set, attachments_base)
  | _ => none

namespace PrepareCall

variable (call : PrepareCall)

/-- The directories of an install that has the lock are as it left them. -/
def LockKept (s : Preparation) (t : FileTree Bytes) : Prop :=
  ∀ set attachments_base pc next,
    s.installing = some (.installing set attachments_base pc next) → pc.locked = true →
    ∀ q, (call.install set attachments_base).finalAt <:+ q
        ∨ (call.install set attachments_base).tmpAt <:+ q → t.node q = s.tree.node q

/-- The files of the set have plain names of their own, and its manifest is
read back as it is written. -/
structure Catalogued (set : ModelSet) (attachments_base : String) : Prop where
  nodup : (set.files.map fun f => f.2.name).Nodup
  plain : ∀ f ∈ set.files, plainName f.2.name = true
  json : call.host.from_slice (call.host.to_vec_pretty (call.install set attachments_base).installed)
    = .ok (call.install set attachments_base).installed

/-- Nothing is removed, and stores and catalogue are what they should be. -/
def Undisturbed (s : Preparation) : PrepareEvent → Prop
  | .others t =>
      (∀ m ∈ (call.stores.scan call.host s.tree).1, m ∈ (call.stores.scan call.host t).1)
        ∧ call.stores.PathsNamed call.host t ∧ call.LockKept s t
  | .provider _ => ∀ x ∈ s.starting.toList, call.Catalogued x.1 x.2
  | _ => True

/-- No file of a set is called `manifest.json`, and no manifest names files
of another directory. -/
def Harmless (s : Preparation) : PrepareEvent → Prop
  | .others t => call.stores.NamesInside call.host t
  | .provider _ => ∀ x ∈ s.starting.toList, ∀ f ∈ x.1.files, f.2.name ≠ MANIFEST_FILE
  | _ => True

end PrepareCall

/-! ## The provider -/

section Provider

/-- The provider installs a set of the pair that the engine supports. -/
def CacheOp.InstallsPair (source target : String) (_ : Option InstalledModel) : CacheOp → Prop
  | .install set _ =>
      set.source = source ∧ set.target = target ∧ set.version.inWindow = true
  | _ => True

/-- The model that was installed last. -/
def lastInstalled (last : Option InstalledModel) : (op : CacheOp) → op.Answer → Option InstalledModel
  | .install _ _, answer => answer.toOption
  | _, _ => last

/-- What is left of an `install_pair`: it installs such a set, and it returns
the model that it has installed. -/
def InstallsPair (source target : String) (last : Option InstalledModel)
    (p : Fetching ProviderError InstalledModel) : Prop :=
  p.Meets (CacheOp.InstallsPair source target) lastInstalled
    (fun last result => ∀ m, result = .ok m → last = some m) last

theorem only_cached_get {ε : Type} (of : HttpError → ε) (url name : String) :
    (http.cached_get of url name).Only fun op => op.isQuery = true := by
  refine Prog.only_ask_bind rfl fun cached_body => Prog.only_ask_bind rfl fun cached_etag =>
    Prog.only_ask_bind rfl fun answer => ?_
  unfold http.answered
  split
  · split
    · exact Prog.only_pure
    · exact Prog.only_throw
  · refine Prog.only_ask_bind rfl fun _ => Prog.only_ask_bind rfl fun _ => ?_
    split
    · exact Prog.only_ask_bind rfl fun _ => Prog.only_pure
    · exact Prog.only_ask_bind rfl fun _ => Prog.only_pure
  · split
    · exact Prog.only_pure
    · exact Prog.only_throw

theorem only_map_err {δ ε α : Type} {P : CacheOp → Prop} (f : δ → ε) (result : Except δ α) :
    (map_err f result).Only P := by
  cases result with
  | ok a => exact Prog.only_pure
  | error e => exact Prog.only_throw

theorem only_document {α : Type} (url name : String) (parse : Bytes → Except String α) :
    (RemoteSettingsProvider.document url name parse).Only fun op => op.isQuery = true :=
  (only_cached_get _ url name).bind fun _ => only_map_err _ _

section Meets

variable {source target : String} {last : Option InstalledModel} {α : Type}

theorem meets_query {p : Fetching ProviderError α}
    {post : Option InstalledModel → Except (Fault ProviderError) α → Prop}
    (hp : p.Only fun op => op.isQuery = true) (hpost : ∀ result, post last result) :
    p.Meets (CacheOp.InstallsPair source target) lastInstalled post last := by
  refine hp.meets (fun op hop => ?_) hpost
  cases op with
  | install => cases hop
  | read | get | create_dir_all | write | remove_file | prerelease | scan =>
      exact ⟨trivial, fun _ => rfl⟩

/-- The sets are accepted ones. -/
theorem meets_available (provider : RemoteSettingsProvider) :
    provider.available.Meets (CacheOp.InstallsPair source target) lastInstalled
      (fun last' result => last' = last ∧ ∀ available, result = .ok available →
        ∀ set ∈ available.sets, set.version.inWindow = true) last := by
  refine Prog.meets_bind.mpr (meets_query (only_document _ _ _) fun records => ?_)
  cases records with
  | error e => exact ⟨rfl, nofun⟩
  | ok records =>
      refine Prog.meets_bind.mpr (meets_query (only_document _ _ _) fun base_url => ?_)
      cases base_url with
      | error e => exact ⟨rfl, nofun⟩
      | ok base_url =>
          refine ⟨trivial, fun allow_prerelease => ?_⟩
          dsimp only [Prog.bind]
          rw [asserted_sets_eq]
          refine ⟨rfl, fun available heq set hset => ?_⟩
          cases heq
          exact accepted_sets_inWindow hset

/-- **The provider installs an accepted set of the pair, or fails.** -/
theorem installsPair_install_pair (provider : RemoteSettingsProvider) :
    InstallsPair source target none (provider.install_pair source target) := by
  refine Prog.meets_bind.mpr ((meets_available provider).mono fun last available hsets => ?_)
  cases available with
  | error e => nofun
  | ok available =>
      dsimp only
      cases hset : pairSet available.sets source target with
      | none => nofun
      | some set =>
          obtain ⟨hmem, hsource, htarget, -⟩ := pairSet_sound hset
          refine ⟨⟨hsource, htarget, hsets.2 _ rfl _ hmem⟩, fun installed => ?_⟩
          cases installed with
          | error e => nofun
          | ok m =>
              intro m' heq
              cases heq
              rfl

end Meets

end Provider

end Dragomand
