import Dragomand.Install
import Dragomand.ProgramRuns
import Dragomand.Updates

/-!
# The cached catalogue

`cached_get`, and what goes through it: the catalogue of the provider and
Mozilla's model registry. Each is a `Prog` over `CacheOp`, which asks for one
file, or for one answer of the server, at a time. Errors of the file system
are ignored where the source ignores them, so that such an operation has no
answer.

An assertion that fails ends a program as an error does, with `Fault.panic`.
-/

namespace Dragomand

/-! ## Operations -/

/-- `<name>.json` and `<name>.etag` in the cache directory. -/
inductive CacheFile where
  | body (name : String)
  | etag (name : String)
deriving DecidableEq, Repr

inductive CacheOp where
  /-- `fs::read`, and `.ok()` -/
  | read (file : CacheFile)
  | get (url : String) (if_none_match : Option String)
  | create_dir_all
  | write (file : CacheFile) (bytes : Bytes)
  | remove_file (file : CacheFile)
  /-- the flag of the provider -/
  | prerelease
  /-- the stores, as a scan reads them -/
  | scan
  | install (set : ModelSet) (attachments_base : String)
deriving DecidableEq

def CacheOp.Answer : CacheOp → Type
  | .read _ => Option Bytes
  | .get _ _ => Except HttpError FetchResult
  | .create_dir_all | .write _ _ | .remove_file _ => Unit
  | .prerelease => Bool
  | .scan => FileTree Bytes
  | .install _ _ => Except ProviderError InstalledModel

/-- How a function ends, if it does not return `Ok`. -/
inductive Fault (ε : Type) where
  | err (error : ε)
  | panic (message : String)
deriving DecidableEq, Repr

abbrev Fetching (ε α : Type) := Prog CacheOp.Answer (Fault ε) α

def perform {ε : Type} (op : CacheOp) : Fetching ε op.Answer := Prog.ask op

/-- `map_err` and `?`. -/
def map_err {δ ε α : Type} (f : δ → ε) : Except δ α → Fetching ε α
  | .ok a => pure a
  | .error e => .throw (.err (f e))

/-- Each operation with its answer. -/
abbrev Fetched := Prog.History CacheOp.Answer

def utf8 (text : String) : Bytes := text.toUTF8.data.toList

def from_utf8 (bytes : Bytes) : Option String := String.fromUTF8? ⟨bytes.toArray⟩

@[simp] theorem from_utf8_utf8 (text : String) : from_utf8 (utf8 text) = some text :=
  dif_pos text.isValidUTF8

/-! ## `cached_get` -/

namespace http

/-- The ETag to send; none without a cached body. -/
def validator (cached_body cached_etag : Option Bytes) : Option String :=
  if cached_body.isSome then cached_etag.bind from_utf8 else none

/-- What is done with the answer; `of` is the conversion of the error by the
caller's `?`. -/
def answered {ε : Type} (of : HttpError → ε) (name : String) (cached_body : Option Bytes) :
    Except HttpError FetchResult → Fetching ε Bytes
  | .ok .notModified =>
      match cached_body with
      | some bytes => pure bytes
      | none => .throw (.panic "etag was only sent with a cached body")
  | .ok (.fetched bytes etag) => do
      perform .create_dir_all
      perform (.write (.body name) bytes)
      match etag with
      | some etag => perform (.write (.etag name) (utf8 etag))
      | none => perform (.remove_file (.etag name))
      pure bytes
  | .error error =>
      match cached_body with
      | some bytes => pure bytes
      | none => .throw (.err (of error))

/-- GET with ETag revalidation. When the network fails, a stale cached copy
beats nothing at all. -/
def cached_get {ε : Type} (of : HttpError → ε) (url name : String) : Fetching ε Bytes := do
  let cached_body ← perform (.read (.body name))
  let cached_etag ← perform (.read (.etag name))
  let answer ← perform (.get url (validator cached_body cached_etag))
  answered of name cached_body answer

end http

/-! ## The catalogue -/

/-- `accepted_sets` on one group, with its assertion. -/
def checkedSet (key : GroupKey) (group : List ModelRecord) : Except String (Option ModelSet) :=
  if complete (collect_files group) then
    match MozVersion.parse key.version with
    | .error _ => .error "checked above"
    | .ok _ => .ok (groupSet key group)
  else .ok none

/-- `accepted_sets`, with its assertion. -/
def asserted_sets (records : List ModelRecord) (env : FilterEnv) :
    Except String (List ModelSet × List String) :=
  let (groups, skipped_filters) := records.foldl (group_record env) ([], [])
  (groups.foldlM (fun best group =>
    (checkedSet group.1 group.2).map fun _ => best_group best group) []).map fun best =>
      (best.map Prod.snd, skipped_filters)

structure remote_settings.Available where
  sets : List ModelSet
  attachments_base : String
  skipped_filters : List String
deriving DecidableEq, Repr

def COLLECTION : String := "translations-models-v2"

/-- The provider; `serde_json::from_slice` is a parameter for each type. -/
structure RemoteSettingsProvider where
  server : String
  from_records : Bytes → Except String (List ModelRecord)
  from_server_info : Bytes → Except String String

namespace RemoteSettingsProvider

variable (provider : RemoteSettingsProvider)

def records_url : String :=
  provider.server ++ "/buckets/main/collections/" ++ COLLECTION ++ "/records"

def server_url : String := provider.server ++ "/"

/-- The document at `url`. -/
def document {α : Type} (url name : String) (parse : Bytes → Except String α) :
    Fetching ProviderError α := do
  let bytes ← http.cached_get .http url name
  map_err (.badResponse url) (parse bytes)

/-- Fetches (or revalidates) the records and returns the accepted sets. -/
def available : Fetching ProviderError remote_settings.Available := do
  let records ← document provider.records_url "records" provider.from_records
  let base_url ← document provider.server_url "server-info" provider.from_server_info
  let allow_prerelease ← perform .prerelease
  match asserted_sets records (.prerelease allow_prerelease) with
  | .ok (sets, skipped_filters) => pure ⟨sets, base_url, skipped_filters⟩
  | .error message => .throw (.panic message)

/-- What a reader of the cache makes of its files; strictly offline. -/
def available_cached (read : CacheFile → Option Bytes) (allow_prerelease : Bool) :
    Option remote_settings.Available := do
  let records ← (read (.body "records")).bind fun bytes => (provider.from_records bytes).toOption
  let base_url ← (read (.body "server-info")).bind fun bytes =>
    (provider.from_server_info bytes).toOption
  let (sets, skipped_filters) := accepted_sets records (.prerelease allow_prerelease)
  some ⟨sets, base_url, skipped_filters⟩

/-- Installs the accepted set for one pair. -/
def install_pair (source target : String) : Fetching ProviderError InstalledModel := do
  let available ← provider.available
  match pairSet available.sets source target with
  | none => .throw (.err (.noSuchPair (source ++ "-" ++ target)))
  | some set => do
      let installed ← perform (.install set available.attachments_base)
      map_err id installed

/-- Compares installed pairs with the accepted remote sets. -/
def check_for_updates (host : ModelHost) (stores : Stores) :
    Fetching ProviderError (List remote_settings.UpdateInfo) := do
  let available ← provider.available
  let t ← perform .scan
  pure (stores.check_for_updates host t available.sets)

end RemoteSettingsProvider

/-! ## The registry -/

inductive RegistryError where
  | http (error : HttpError)
  | parse (message : String)
deriving DecidableEq, Repr

/-- `Registry::parse` is a parameter. -/
structure RegistryProvider where
  url : String
  parse : Bytes → Except String ModelRegistry

namespace RegistryProvider

variable (provider : RegistryProvider)

def refresh : Fetching RegistryError ModelRegistry := do
  let bytes ← http.cached_get .http provider.url "models"
  map_err .parse (provider.parse bytes)

/-- The cached registry, without touching the network. -/
def cached (read : CacheFile → Option Bytes) : Option ModelRegistry :=
  (read (.body "models")).bind fun bytes => (provider.parse bytes).toOption

end RegistryProvider

/-! ## Runs of `cached_get` -/

namespace http

/-- The files are read and the server is asked. -/
def revalidation (url name : String) (body etag : Option Bytes)
    (answer : Except HttpError FetchResult) : Fetched :=
  [⟨.read (.body name), body⟩, ⟨.read (.etag name), etag⟩, ⟨.get url (validator body etag), answer⟩]

/-- The files are written. -/
def storing (name : String) (bytes : Bytes) (etag : Option String) : Fetched :=
  [⟨.create_dir_all, ()⟩, ⟨.write (.body name) bytes, ()⟩,
    match etag with
    | some etag => ⟨.write (.etag name) (utf8 etag), ()⟩
    | none => ⟨.remove_file (.etag name), ()⟩]

/-- The runs of `cached_get`. -/
inductive CachedGet {ε : Type} (of : HttpError → ε) (url name : String) :
    Fetched → Except (Fault ε) Bytes → Prop
  | current (bytes : Bytes) (etag : Option Bytes) :
      CachedGet of url name (revalidation url name (some bytes) etag (.ok .notModified)) (.ok bytes)
  | unasked (etag : Option Bytes) :
      CachedGet of url name (revalidation url name none etag (.ok .notModified))
        (.error (.panic "etag was only sent with a cached body"))
  | stale (bytes : Bytes) (etag : Option Bytes) (error : HttpError) :
      CachedGet of url name (revalidation url name (some bytes) etag (.error error)) (.ok bytes)
  | failed (etag : Option Bytes) (error : HttpError) :
      CachedGet of url name (revalidation url name none etag (.error error))
        (.error (.err (of error)))
  | fetched (body etag : Option Bytes) (bytes : Bytes) (etag' : Option String) :
      CachedGet of url name
        (revalidation url name body etag (.ok (.fetched bytes etag')) ++ storing name bytes etag')
        (.ok bytes)

theorem runs_cached_get {ε : Type} {of : HttpError → ε} {url name : String} {h : Fetched}
    {result : Except (Fault ε) Bytes} (hrun : (cached_get of url name).Runs h result) :
    CachedGet of url name h result := by
  obtain ⟨body, h₁, rfl, hrun₁⟩ := Prog.runs_ask_bind.mp hrun
  obtain ⟨etag, h₂, rfl, hrun₂⟩ := Prog.runs_ask_bind.mp hrun₁
  obtain ⟨answer, h₃, rfl, hrun₃⟩ := Prog.runs_ask_bind.mp hrun₂
  match answer, body, hrun₃ with
  | .ok .notModified, some bytes, hend =>
      obtain ⟨rfl, rfl⟩ := Prog.runs_pure.mp hend
      exact .current bytes etag
  | .ok .notModified, none, hend =>
      obtain ⟨rfl, rfl⟩ := Prog.runs_throw.mp hend
      exact .unasked etag
  | .error error, some bytes, hend =>
      obtain ⟨rfl, rfl⟩ := Prog.runs_pure.mp hend
      exact .stale bytes etag error
  | .error error, none, hend =>
      obtain ⟨rfl, rfl⟩ := Prog.runs_throw.mp hend
      exact .failed etag error
  | .ok (.fetched bytes etag'), body, hstore =>
      obtain ⟨⟨⟩, h₄, rfl, hstore₁⟩ := Prog.runs_ask_bind.mp hstore
      obtain ⟨⟨⟩, h₅, rfl, hstore₂⟩ := Prog.runs_ask_bind.mp hstore₁
      cases etag' with
      | some etag' =>
          obtain ⟨⟨⟩, h₆, rfl, hend⟩ := Prog.runs_ask_bind.mp hstore₂
          obtain ⟨rfl, rfl⟩ := Prog.runs_pure.mp hend
          exact .fetched body etag bytes (some etag')
      | none =>
          obtain ⟨⟨⟩, h₆, rfl, hend⟩ := Prog.runs_ask_bind.mp hstore₂
          obtain ⟨rfl, rfl⟩ := Prog.runs_pure.mp hend
          exact .fetched body etag bytes none

end http

end Dragomand
