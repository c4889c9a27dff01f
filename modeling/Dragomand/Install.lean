import Dragomand.Machine
import Dragomand.Store

/-!
# Installing a model set

`RemoteSettingsProvider::install` as a machine. A step is one system call,
or the answer to one download; the states that runs visit are the points at
which install can stop, by an error, by being dropped at an await, or with
its process. `remove_dir_all` removes one entry at a time, in any order, and
`write_all` writes one piece at a time.

Every system call may fail. `exists` then says `false` (`missed`), and
`scan_model_dir` finds nothing (`faulty`); elsewhere the error is the
outcome.
-/

namespace Dragomand

open FileTree (IoError plainName)

def PROVIDER_ID : String := "mozilla-remote-settings"

/-! ## Errors and answers -/

inductive HttpError where
  | request (url message : String)
  | status (url : String) (status : Nat)
deriving DecidableEq, Repr

inductive FetchResult where
  | notModified
  | fetched (bytes : Bytes) (etag : Option String)
deriving DecidableEq, Repr

inductive ProviderError where
  | http (error : HttpError)
  | badResponse (url message : String)
  | verify (what message : String)
  | store (error : StoreError)
  | io (path : String) (source : IoError)
  | noSuchPair (pair : String)
deriving DecidableEq, Repr

/-! ## Downloads -/

def eq_ignore_ascii_case (a b : String) : Bool :=
  a.toList.map Char.toLower = b.toList.map Char.toLower

def verify (name stage : String) (size expected_size : Nat) (hash expected_hash : String) :
    Except ProviderError Unit :=
  if size ≠ expected_size then
    .error (.verify name
      (stage ++ " size " ++ toString size ++ " != expected " ++ toString expected_size))
  else if !eq_ignore_ascii_case hash expected_hash then
    .error (.verify name (stage ++ " sha256 mismatch"))
  else .ok ()

/-- The role of a file, unless it is skipped. -/
def FileType.role (download_lex : Bool) : FileType → Option String
  | .model => some "model"
  | .vocab => some "vocab"
  | .srcVocab => some "srcvocab"
  | .trgVocab => some "trgvocab"
  | .lex => if download_lex then some "lex" else none
  | .unknown => none

def ModelRecord.decompress (host : ModelHost) (record : ModelRecord) (bytes : Bytes) :
    Except ProviderError Bytes :=
  match host.decode_all bytes with
  | .error e => .error (.verify record.name ("zstd decompression failed: " ++ e))
  | .ok decompressed => .ok decompressed

/-- The content of a file, from what was downloaded for its record. -/
def ModelRecord.unpack (host : ModelHost) (record : ModelRecord) (bytes : Bytes) :
    Except ProviderError Bytes := do
  verify record.name "download" bytes.length record.attachment.size (sha256_hex host bytes)
    record.attachment.hash
  let decompressed ← record.decompress host bytes
  verify record.name "decompressed file" decompressed.length record.decompressed_size
    (sha256_hex host decompressed) record.decompressed_hash
  .ok decompressed

/-! ## The call -/

structure InstallCall where
  host : ModelHost
  stores : Stores
  set : ModelSet
  attachments_base : String
  download_lex : Bool

namespace InstallCall

variable (call : InstallCall)

def lock_path : PathBuf := PathBuf.join call.stores.user ".lock"

def pair_dir : PathBuf :=
  (PathBuf.join call.stores.user PROVIDER_ID).join (call.set.source ++ "-" ++ call.set.target)

def final_dir : PathBuf := call.pair_dir.join call.set.version.raw

def tmp_name : String :=
  ".tmp-" ++ call.set.version.raw ++ "-" ++ toString call.host.process_id

def tmp_dir : PathBuf := call.pair_dir.join call.tmp_name

/-- The records to download, with the roles of their files. -/
def wanted : List (String × ModelRecord) :=
  call.set.files.filterMap fun file =>
    (file.1.role call.download_lex).map fun role => (role, file.2)

def url (record : ModelRecord) : String := call.attachments_base ++ record.attachment.location

def manifest (files : List ManifestFile) (source_urls : List String) : Manifest where
  schema := SCHEMA_VERSION
  provider := PROVIDER_ID
  source := call.set.source
  target := call.set.target
  version := call.set.version.raw
  architecture := call.set.architecture
  license := some "MPL-2.0"
  source_urls := source_urls
  installed_at := call.host.now_rfc3339
  files := files

end InstallCall

def ModelRecord.entry (record : ModelRecord) (role : String) : ManifestFile :=
  ⟨record.name, role, record.decompressed_size, record.decompressed_hash⟩

/-! ## States -/

/-- The variables of the download loop. -/
structure Download where
  rest : List (String × ModelRecord)
  manifest_files : List ManifestFile
  source_urls : List String
deriving DecidableEq, Repr

/-- A file of the temporary directory; `after` is the loop after it. -/
inductive Output where
  | file (record : ModelRecord) (content : Bytes) (after : Download)
  | manifest (m : Manifest)
deriving DecidableEq, Repr

inductive Install.Pc where
  /-- `create_dir_all` of the user store -/
  | creatingUser
  /-- `File::create` of the lock file -/
  | opening
  | locking
  /-- `exists`, of the manifest, or of the temporary directory -/
  | probing (tmp : Bool)
  | checking
  /-- `remove_dir_all` -/
  | removing (tmp : Bool)
  /-- `create_dir_all` of the temporary directory -/
  | making
  | fetching (d : Download)
  | creating (o : Output)
  | writing (o : Output) (written : Nat)
  /-- `sync_all`, of the file, or of the directory after the manifest -/
  | syncing (o : Output)
  | renaming (m : Manifest)
  | syncingPair (m : Manifest)
  | done (m : InstalledModel) (downloaded : Bool)
  | failed (error : ProviderError)
deriving DecidableEq, Repr

structure Install where
  tree : FileTree Bytes
  pc : Install.Pc

def Install.init (tree : FileTree Bytes) : Install := ⟨tree, .creatingUser⟩

inductive InstallEvent where
  | proceed
  | fail (source : IoError)
  /-- `exists` fails to read the metadata -/
  | missed
  /-- `scan_model_dir` fails to read a file or its metadata -/
  | faulty
  | unlink (path : List String)
  | write (n : Nat)
  | fetched (result : Except HttpError FetchResult)
deriving DecidableEq

/-! ## Steps -/

def Output.name : Output → String
  | .file record _ _ => record.name
  | .manifest _ => MANIFEST_FILE

namespace InstallCall

variable (call : InstallCall)

def content : Output → Bytes
  | .file _ content _ => content
  | .manifest m => call.host.to_vec_pretty m

def path (o : Output) : PathBuf := call.tmp_dir.join o.name

/-- The directory that is probed and removed. -/
def target (tmp : Bool) : PathBuf := if tmp then call.tmp_dir else call.final_dir

/-- What a failed system call makes of the install. -/
def failure (source : IoError) : Install.Pc → Option ProviderError
  | .creatingUser => some (.store (.io call.stores.user.display source))
  | .opening | .locking => some (.store (.io call.lock_path.display source))
  | .removing tmp => some (.io (call.target tmp).display source)
  | .making => some (.io call.tmp_dir.display source)
  | .creating (.file record content after) | .writing (.file record content after) _
  | .syncing (.file record content after) =>
      some (.io (call.path (.file record content after)).display source)
  | .creating (.manifest _) | .writing (.manifest _) _ | .syncing (.manifest _) =>
      some (.io call.tmp_dir.display source)
  | .renaming _ => some (.io call.final_dir.display source)
  | .syncingPair _ => some (.io call.pair_dir.display source)
  | .probing _ | .checking | .fetching _ | .done _ _ | .failed _ => none

/-- One more directory of a path. -/
def make (t : FileTree Bytes) (path : PathBuf) (again made : Install.Pc) : Option Install :=
  match t.missing [] path with
  | .error _ => none
  | .ok none => some ⟨t, made⟩
  | .ok (some p) => (t.mkdir p).toOption.map fun t => ⟨t, again⟩

/-- The file at a path gets a content. -/
def put (t : FileTree Bytes) (path : PathBuf) (content : Bytes) : Option (FileTree Bytes) :=
  ((t.walk [] path).bind (t.put content)).toOption

def fetch (record : ModelRecord) (after : Download) :
    Except HttpError FetchResult → Install.Pc
  | .error e => .failed (.http e)
  | .ok .notModified =>
      .failed (.badResponse (call.url record) "unexpected 304 without validator")
  | .ok (.fetched bytes _) =>
      match record.unpack call.host bytes with
      | .error e => .failed e
      | .ok content => .creating (.file record content after)

def step (s : Install) : InstallEvent → Option Install
  | .fail source => (call.failure source s.pc).map fun e => ⟨s.tree, .failed e⟩
  | .missed =>
      match s.pc with
      | .probing false => some ⟨s.tree, .probing true⟩
      | .probing true => some ⟨s.tree, .making⟩
      | _ => none
  | .faulty =>
      match s.pc with
      -- damaged leftover: replace it
      | .checking => some ⟨s.tree, .removing false⟩
      | _ => none
  | .unlink p =>
      match s.pc with
      | .removing tmp =>
          match s.tree.walk [] (call.target tmp) with
          | .error _ => none
          | .ok dir =>
              if s.tree.isDir dir && decide (dir <:+ p) then
                (s.tree.remove p).toOption.map fun t =>
                  ⟨t, if p = dir then (if tmp then .making else .probing true)
                    else .removing tmp⟩
              else none
      | _ => none
  | .write n =>
      match s.pc with
      | .writing o written =>
          if 0 < n ∧ written + n ≤ (call.content o).length then
            (put s.tree (call.path o) ((call.content o).take (written + n))).map fun t =>
              ⟨t, .writing o (written + n)⟩
          else none
      | _ => none
  | .fetched result =>
      match s.pc with
      | .fetching ⟨(role, record) :: rest, files, urls⟩ =>
          some ⟨s.tree, call.fetch record
            ⟨rest, files ++ [record.entry role], urls ++ [call.url record]⟩ result⟩
      | _ => none
  | .proceed =>
      match s.pc with
      | .creatingUser => make s.tree call.stores.user .creatingUser .opening
      | .opening => (put s.tree call.lock_path []).map fun t => ⟨t, .locking⟩
      | .locking => some ⟨s.tree, .probing false⟩
      | .probing false =>
          if (s.tree.stat (call.final_dir.join MANIFEST_FILE)).toOption.isSome then
            some ⟨s.tree, .checking⟩
          else some ⟨s.tree, .probing true⟩
      | .probing true =>
          if (s.tree.stat call.tmp_dir).toOption.isSome then some ⟨s.tree, .removing true⟩
          else some ⟨s.tree, .making⟩
      | .checking =>
          match scan_model_dir call.host s.tree call.final_dir .user with
          | .ok m => some ⟨s.tree, .done m false⟩
          -- damaged leftover: replace it
          | .error _ => some ⟨s.tree, .removing false⟩
      | .making => make s.tree call.tmp_dir .making (.fetching ⟨call.wanted, [], []⟩)
      | .fetching ⟨[], files, urls⟩ =>
          some ⟨s.tree, .creating (.manifest (call.manifest files urls))⟩
      | .creating o => (put s.tree (call.path o) []).map fun t => ⟨t, .writing o 0⟩
      | .writing o written =>
          if written = (call.content o).length then some ⟨s.tree, .syncing o⟩ else none
      | .syncing (.file _ _ after) => some ⟨s.tree, .fetching after⟩
      | .syncing (.manifest m) => some ⟨s.tree, .renaming m⟩
      | .renaming m =>
          (((s.tree.walk [] call.tmp_dir).bind fun src =>
            (s.tree.walk [] call.final_dir).bind (s.tree.rename src)).toOption).map fun t =>
              ⟨t, .syncingPair m⟩
      | .syncingPair m =>
          some ⟨s.tree, .done ⟨.user, call.final_dir, call.set.version, m⟩ true⟩
      | .removing _ | .fetching ⟨_ :: _, _, _⟩ | .done _ _ | .failed _ => none

/-- The reads with which install looks at an existing model succeed. -/
def ReadsSucceed (_ : Install) (e : InstallEvent) : Prop := e ≠ .faulty

instance (s : Install) (e : InstallEvent) : Decidable (ReadsSucceed s e) := by
  unfold ReadsSucceed
  infer_instance

/-! ## What one step can do -/

inductive Transition (s : Install) : InstallEvent → Install → Prop
  | makeUser {p : List String} {t : FileTree Bytes} (hpc : s.pc = .creatingUser)
      (hmissing : s.tree.missing [] call.stores.user = .ok (some p))
      (ht : s.tree.mkdir p = .ok t) : Transition s .proceed ⟨t, .creatingUser⟩
  | userMade (hpc : s.pc = .creatingUser)
      (hmissing : s.tree.missing [] call.stores.user = .ok none) :
      Transition s .proceed ⟨s.tree, .opening⟩
  | lockFile {p : List String} {t : FileTree Bytes} (hpc : s.pc = .opening)
      (hwalk : s.tree.walk [] call.lock_path = .ok p) (ht : s.tree.put [] p = .ok t) :
      Transition s .proceed ⟨t, .locking⟩
  | locked (hpc : s.pc = .locking) : Transition s .proceed ⟨s.tree, .probing false⟩
  | found (hpc : s.pc = .probing false) : Transition s .proceed ⟨s.tree, .checking⟩
  | absent {e : InstallEvent} (hpc : s.pc = .probing false) :
      Transition s e ⟨s.tree, .probing true⟩
  | existing {m : InstalledModel} (hpc : s.pc = .checking)
      (hscan : scan_model_dir call.host s.tree call.final_dir .user = .ok m) :
      Transition s .proceed ⟨s.tree, .done m false⟩
  | damaged {e : InstallEvent} (hpc : s.pc = .checking)
      (hscan : e = .faulty ∨ ∃ problem,
        scan_model_dir call.host s.tree call.final_dir .user = .error problem) :
      Transition s e ⟨s.tree, .removing false⟩
  | tmpFound (hpc : s.pc = .probing true) : Transition s .proceed ⟨s.tree, .removing true⟩
  | tmpAbsent {e : InstallEvent} (hpc : s.pc = .probing true) : Transition s e ⟨s.tree, .making⟩
  | unlink {tmp : Bool} {dir p : List String} {t : FileTree Bytes} (hpc : s.pc = .removing tmp)
      (hwalk : s.tree.walk [] (call.target tmp) = .ok dir) (hbelow : dir <:+ p) (hne : p ≠ dir)
      (ht : s.tree.remove p = .ok t) : Transition s (.unlink p) ⟨t, .removing tmp⟩
  | removed {tmp : Bool} {dir : List String} {t : FileTree Bytes} (hpc : s.pc = .removing tmp)
      (hwalk : s.tree.walk [] (call.target tmp) = .ok dir) (ht : s.tree.remove dir = .ok t) :
      Transition s (.unlink dir) ⟨t, if tmp then .making else .probing true⟩
  | make {p : List String} {t : FileTree Bytes} (hpc : s.pc = .making)
      (hmissing : s.tree.missing [] call.tmp_dir = .ok (some p)) (ht : s.tree.mkdir p = .ok t) :
      Transition s .proceed ⟨t, .making⟩
  | made (hpc : s.pc = .making) (hmissing : s.tree.missing [] call.tmp_dir = .ok none) :
      Transition s .proceed ⟨s.tree, .fetching ⟨call.wanted, [], []⟩⟩
  | refused {d : Download} {result : Except HttpError FetchResult} {error : ProviderError}
      (hpc : s.pc = .fetching d) : Transition s (.fetched result) ⟨s.tree, .failed error⟩
  | unpacked {role : String} {record : ModelRecord} {rest : List (String × ModelRecord)}
      {files : List ManifestFile} {urls : List String} {bytes content : Bytes}
      {result : Except HttpError FetchResult}
      (hpc : s.pc = .fetching ⟨(role, record) :: rest, files, urls⟩)
      (hcontent : record.unpack call.host bytes = .ok content) :
      Transition s (.fetched result) ⟨s.tree, .creating (.file record content
        ⟨rest, files ++ [record.entry role], urls ++ [call.url record]⟩)⟩
  | assembled {files : List ManifestFile} {urls : List String}
      (hpc : s.pc = .fetching ⟨[], files, urls⟩) :
      Transition s .proceed ⟨s.tree, .creating (.manifest (call.manifest files urls))⟩
  | create {o : Output} {p : List String} {t : FileTree Bytes} (hpc : s.pc = .creating o)
      (hwalk : s.tree.walk [] (call.path o) = .ok p) (ht : s.tree.put [] p = .ok t) :
      Transition s .proceed ⟨t, .writing o 0⟩
  | write {o : Output} {written n : Nat} {p : List String} {t : FileTree Bytes}
      (hpc : s.pc = .writing o written) (hwalk : s.tree.walk [] (call.path o) = .ok p)
      (ht : s.tree.put ((call.content o).take (written + n)) p = .ok t) :
      Transition s (.write n) ⟨t, .writing o (written + n)⟩
  | wrote {o : Output} {written : Nat} (hpc : s.pc = .writing o written)
      (hall : written = (call.content o).length) : Transition s .proceed ⟨s.tree, .syncing o⟩
  | synced {record : ModelRecord} {content : Bytes} {after : Download}
      (hpc : s.pc = .syncing (.file record content after)) :
      Transition s .proceed ⟨s.tree, .fetching after⟩
  | stored {m : Manifest} (hpc : s.pc = .syncing (.manifest m)) :
      Transition s .proceed ⟨s.tree, .renaming m⟩
  | rename {m : Manifest} {src dst : List String} {t : FileTree Bytes} (hpc : s.pc = .renaming m)
      (hsrc : s.tree.walk [] call.tmp_dir = .ok src)
      (hdst : s.tree.walk [] call.final_dir = .ok dst) (ht : s.tree.rename src dst = .ok t) :
      Transition s .proceed ⟨t, .syncingPair m⟩
  | finish {m : Manifest} (hpc : s.pc = .syncingPair m) : Transition s .proceed
      ⟨s.tree, .done ⟨.user, call.final_dir, call.set.version, m⟩ true⟩
  | fail {source : IoError} {error : ProviderError} (herror : call.failure source s.pc = some error) :
      Transition s (.fail source) ⟨s.tree, .failed error⟩

variable {call} {s s' : Install} {e : InstallEvent}

theorem toOption_eq_some {ε α : Type} {x : Except ε α} {a : α} (h : x.toOption = some a) :
    x = .ok a := by
  cases x with
  | error e => cases h
  | ok b =>
      cases h
      rfl

theorem put_eq_some {t t' : FileTree Bytes} {path : PathBuf} {content : Bytes}
    (h : put t path content = some t') :
    ∃ p, t.walk [] path = .ok p ∧ t.put content p = .ok t' :=
  FileTree.bind_eq_ok.mp (toOption_eq_some h)

theorem make_cases {t : FileTree Bytes} {path : PathBuf} {again made : Install.Pc}
    (h : make t path again made = some s') :
    (t.missing [] path = .ok none ∧ s' = ⟨t, made⟩)
      ∨ ∃ p t', t.missing [] path = .ok (some p) ∧ t.mkdir p = .ok t' ∧ s' = ⟨t', again⟩ := by
  unfold make at h
  split at h
  · cases h
  · rename_i hmissing
    cases h
    exact Or.inl ⟨hmissing, rfl⟩
  · rename_i p hmissing
    obtain ⟨t', ht, rfl⟩ := Option.map_eq_some_iff.mp h
    exact Or.inr ⟨p, t', hmissing, toOption_eq_some ht, rfl⟩

theorem step_cases (h : call.step s e = some s') : call.Transition s e s' := by
  unfold step at h
  split at h
  · -- `fail`
    obtain ⟨error, herror, rfl⟩ := Option.map_eq_some_iff.mp h
    exact .fail herror
  · split at h
    · rename_i hpc
      cases h
      exact .absent hpc
    · rename_i hpc
      cases h
      exact .tmpAbsent hpc
    · cases h
  · split at h
    · rename_i hpc
      cases h
      exact .damaged hpc (Or.inl rfl)
    · cases h
  · -- `unlink`
    split at h
    · rename_i p _ tmp hpc
      split at h
      · cases h
      · rename_i dir hwalk
        split at h
        · rename_i hguard
          obtain ⟨t, ht, rfl⟩ := Option.map_eq_some_iff.mp h
          have hbelow := of_decide_eq_true (Bool.and_eq_true_iff.mp hguard).2
          by_cases hp : p = dir
          · subst hp
            rw [if_pos rfl]
            exact .removed hpc hwalk (toOption_eq_some ht)
          · rw [if_neg hp]
            exact .unlink hpc hwalk hbelow hp (toOption_eq_some ht)
        · cases h
    · cases h
  · -- `write`
    split at h
    · rename_i hpc
      split at h
      · obtain ⟨t, ht, rfl⟩ := Option.map_eq_some_iff.mp h
        obtain ⟨p, hwalk, ht⟩ := put_eq_some ht
        exact .write hpc hwalk ht
      · cases h
    · cases h
  · -- `fetched`
    split at h
    · rename_i hpc
      cases h
      unfold fetch
      split
      · exact .refused hpc
      · exact .refused hpc
      · split
        · exact .refused hpc
        · rename_i hcontent
          exact .unpacked hpc hcontent
    · cases h
  · split at h
    · rename_i hpc
      rcases make_cases h with ⟨hmissing, rfl⟩ | ⟨p, t, hmissing, ht, rfl⟩
      · exact .userMade hpc hmissing
      · exact .makeUser hpc hmissing ht
    · rename_i hpc
      obtain ⟨t, ht, rfl⟩ := Option.map_eq_some_iff.mp h
      obtain ⟨p, hwalk, ht⟩ := put_eq_some ht
      exact .lockFile hpc hwalk ht
    · rename_i hpc
      cases h
      exact .locked hpc
    · rename_i hpc
      split at h <;> cases h
      · exact .found hpc
      · exact .absent hpc
    · rename_i hpc
      split at h <;> cases h
      · exact .tmpFound hpc
      · exact .tmpAbsent hpc
    · rename_i hpc
      split at h <;> cases h
      · rename_i hscan
        exact .existing hpc hscan
      · rename_i problem hscan
        exact .damaged hpc (Or.inr ⟨problem, hscan⟩)
    · rename_i hpc
      rcases make_cases h with ⟨hmissing, rfl⟩ | ⟨p, t, hmissing, ht, rfl⟩
      · exact .made hpc hmissing
      · exact .make hpc hmissing ht
    · rename_i hpc
      cases h
      exact .assembled hpc
    · rename_i hpc
      obtain ⟨t, ht, rfl⟩ := Option.map_eq_some_iff.mp h
      obtain ⟨p, hwalk, ht⟩ := put_eq_some ht
      exact .create hpc hwalk ht
    · rename_i hpc
      split at h <;> cases h
      rename_i hall
      exact .wrote hpc hall
    · rename_i hpc
      cases h
      exact .synced hpc
    · rename_i hpc
      cases h
      exact .stored hpc
    · rename_i hpc
      obtain ⟨t, ht, rfl⟩ := Option.map_eq_some_iff.mp h
      obtain ⟨src, hsrc, ht⟩ := FileTree.bind_eq_ok.mp (toOption_eq_some ht)
      obtain ⟨dst, hdst, ht⟩ := FileTree.bind_eq_ok.mp ht
      exact .rename hpc hsrc hdst ht
    · rename_i hpc
      cases h
      exact .finish hpc
    all_goals cases h

end InstallCall

end Dragomand
