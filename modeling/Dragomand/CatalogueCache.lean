import Dragomand.CataloguePanics

/-!
# What a refresh leaves in the cache

`Cache` is the cache directory, and `Serves` relates it to the history of a
program: reads get what is there, and what is written is there afterwards, if
the file can be written. A document is written before it is parsed. So a
refresh that fails keeps what was cached, unless the server has sent a document
that does not parse and that replaces the cached one (`Cache.Spoiled`), or new
records come to stand next to a document that could not be replaced
(`RemoteSettingsProvider.Mixed`).
-/

namespace Dragomand

/-! ## The cache directory -/

inductive CacheContent where
  | absent
  | readable (bytes : Bytes)
  /-- something else: no file, or one that is neither read nor written -/
  | unreadable
deriving DecidableEq, Repr

/-- The directory, if it `makes` files, is there or can be made, and removes
them as well. `writable` is about a file that is there. -/
structure Cache where
  makes : Bool
  writable : CacheFile → Bool
  files : CacheFile → CacheContent

namespace Cache

def read (c : Cache) (file : CacheFile) : Option Bytes :=
  match c.files file with
  | .readable bytes => some bytes
  | .absent | .unreadable => none

/-- The file can be written. -/
def takes (c : Cache) (file : CacheFile) : Bool :=
  match c.files file with
  | .absent => c.makes
  | .readable _ => c.writable file
  | .unreadable => false

def write (c : Cache) (file : CacheFile) (bytes : Bytes) : Cache :=
  if c.takes file then
    { c with
      writable := Function.update c.writable file true
      files := Function.update c.files file (.readable bytes) }
  else c

def remove_file (c : Cache) (file : CacheFile) : Cache :=
  if c.makes && c.files file ≠ .unreadable then
    { c with files := Function.update c.files file .absent }
  else c

/-- The cache after one operation. -/
def next (c : Cache) : Sigma CacheOp.Answer → Cache
  | ⟨.write file bytes, _⟩ => c.write file bytes
  | ⟨.remove_file file, _⟩ => c.remove_file file
  | _ => c

def after (c : Cache) (h : Fetched) : Cache := h.foldl next c

/-- What the reads were given is what was in the cache. -/
def Serves : Cache → Fetched → Prop
  | _, [] => True
  | c, ⟨.read file, bytes⟩ :: h => bytes = c.read file ∧ c.Serves h
  | c, x :: h => (c.next x).Serves h

/-- The file is in `c'` as it is in `c`. -/
def Same (c c' : Cache) (file : CacheFile) : Prop :=
  c'.files file = c.files file ∧ c'.takes file = c.takes file

variable {c c' : Cache} {h h' : Fetched} {file file' : CacheFile} {bytes : Bytes}

theorem Same.read_eq (hsame : c.Same c' file) : c'.read file = c.read file := by
  unfold read
  rw [hsame.1]

theorem Same.trans {c'' : Cache} (hsame : c.Same c' file) (hsame' : c'.Same c'' file) :
    c.Same c'' file :=
  ⟨hsame'.1.trans hsame.1, hsame'.2.trans hsame.2⟩

theorem write_same (hne : file' ≠ file) : c.Same (c.write file bytes) file' := by
  unfold write
  split
  · simp [Same, takes, Function.update_of_ne hne]
  · exact ⟨rfl, rfl⟩

theorem remove_file_same (hne : file' ≠ file) : c.Same (c.remove_file file) file' := by
  unfold remove_file
  split
  · simp [Same, takes, Function.update_of_ne hne]
  · exact ⟨rfl, rfl⟩

theorem write_read : (c.write file bytes).read file
    = if c.takes file then some bytes else c.read file := by
  unfold write
  split
  · simp only [read, Function.update_self]
  · rfl

theorem after_append : c.after (h ++ h') = (c.after h).after h' := List.foldl_append ..

theorem serves_append : c.Serves (h ++ h') ↔ c.Serves h ∧ (c.after h).Serves h' := by
  induction h generalizing c with
  | nil => exact (iff_of_eq (true_and _)).symm
  | cons x h ih =>
      obtain ⟨op, answer⟩ := x
      cases op with
      | read file =>
          show _ ∧ c.Serves (h ++ h') ↔ (_ ∧ c.Serves h) ∧ (c.after h).Serves h'
          rw [ih, and_assoc]
      | get | create_dir_all | write | remove_file | prerelease | scan | install => exact ih

end Cache

/-! ## Fresh documents -/

/-- A body that the server has sent, with its address. -/
def freshOf : Sigma CacheOp.Answer → Option (String × Bytes)
  | ⟨.get url _, .ok (.fetched bytes _)⟩ => some (url, bytes)
  | _ => none

def fresh (h : Fetched) : List (String × Bytes) := h.filterMap freshOf

theorem fresh_append (h h' : Fetched) : fresh (h ++ h') = fresh h ++ fresh h' :=
  List.filterMap_append ..

section Runs

variable {ε α : Type} {of : HttpError → ε} {c : Cache} {url name : String} {h : Fetched}

/-- A call of `cached_get` with the cache `c`. -/
inductive http.CachedRun (c : Cache) (url name : String) (h : Fetched) :
    Except (Fault ε) Bytes → Prop
  /-- nothing new came, and the cache is as it was -/
  | old {result : Except (Fault ε) Bytes} (hafter : c.after h = c) (hfresh : fresh h = [])
      (hresult : result.toOption = c.read (.body name)) : CachedRun c url name h result
  | new {bytes : Bytes} (hfresh : fresh h = [(url, bytes)])
      (hread : (c.after h).read (.body name)
        = if c.takes (.body name) then some bytes else c.read (.body name))
      (hother : ∀ name', name' ≠ name → c.Same (c.after h) (.body name')) :
      CachedRun c url name h (.ok bytes)

theorem http.cachedRun {result : Except (Fault ε) Bytes}
    (hrun : (http.cached_get of url name).Runs h result) (hserves : c.Serves h) :
    http.CachedRun c url name h result := by
  cases http.runs_cached_get hrun with
  | current bytes etag => exact .old rfl rfl hserves.1
  | unasked etag => exact .old rfl rfl hserves.1
  | stale bytes etag error => exact .old rfl rfl hserves.1
  | failed etag error => exact .old rfl rfl hserves.1
  | fetched body etag bytes etag' =>
      -- the ETag is another file
      have hsame : ∀ name', (c.write (.body name) bytes).Same
          (c.after (http.revalidation url name body etag (.ok (.fetched bytes etag'))
            ++ http.storing name bytes etag')) (.body name') := by
        intro name'
        cases etag' with
        | some etag' => exact Cache.write_same (by simp)
        | none => exact Cache.remove_file_same (by simp)
      refine .new ?_ ?_ ?_
      · cases etag' <;> rfl
      · rw [(hsame name).read_eq, Cache.write_read]
      · intro name' hne
        exact (Cache.write_same (by simpa using hne)).trans (hsame name')

end Runs

/-! ## The provider -/

section Documents

variable {α : Type} {c : Cache} {url name : String} {parse : Bytes → Except String α} {h : Fetched}

/-- What a reader makes of a cached document. -/
def Cache.parsed (c : Cache) (name : String) (parse : Bytes → Except String α) : Option α :=
  (c.read (.body name)).bind fun bytes => (parse bytes).toOption

theorem Cache.Same.parsed_eq {c' : Cache} (hsame : c.Same c' (.body name)) :
    c'.parsed name parse = c.parsed name parse := by
  unfold Cache.parsed
  rw [hsame.read_eq]

/-- One document, with the cache `c`: a fresh one is written whether it
parses or not. -/
inductive DocumentRun (c : Cache) (url name : String) (parse : Bytes → Except String α)
    (h : Fetched) : Option α → Prop
  | old (hafter : c.after h = c) (hfresh : fresh h = []) :
      DocumentRun c url name parse h (c.parsed name parse)
  | new (bytes : Bytes) (hfresh : fresh h = [(url, bytes)])
      (hparsed : (c.after h).parsed name parse
        = if c.takes (.body name) then (parse bytes).toOption else c.parsed name parse)
      (hother : ∀ name', name' ≠ name → c.Same (c.after h) (.body name')) :
      DocumentRun c url name parse h (parse bytes).toOption

theorem DocumentRun.of_cachedRun {ε : Type} {result : Except (Fault ε) Bytes} {answer : Option α}
    (hrun : http.CachedRun c url name h result)
    (hanswer : answer = result.toOption.bind fun bytes => (parse bytes).toOption) :
    DocumentRun c url name parse h answer := by
  subst hanswer
  cases hrun with
  | old hafter hfresh hresult =>
      rw [hresult]
      exact .old hafter hfresh
  | @new bytes hfresh hread hother =>
      refine .new bytes hfresh ?_ hother
      unfold Cache.parsed
      rw [hread]
      split <;> rfl

/-- The rest of the cache is as it was. -/
theorem DocumentRun.frame {answer : Option α} (hrun : DocumentRun c url name parse h answer)
    {name' : String} (hne : name' ≠ name) : c.Same (c.after h) (.body name') := by
  cases hrun with
  | old hafter hfresh =>
      rw [hafter]
      exact ⟨rfl, rfl⟩
  | new bytes hfresh hparsed hother => exact hother name' hne

theorem DocumentRun.mem_fresh {answer : Option α} (hrun : DocumentRun c url name parse h answer)
    {url' : String} {bytes : Bytes} (hmem : (url', bytes) ∈ fresh h) :
    url' = url ∧ answer = (parse bytes).toOption := by
  cases hrun with
  | old hafter hfresh => simp [hfresh] at hmem
  | new bytes' hfresh hparsed hother =>
      rw [hfresh] at hmem
      cases List.mem_singleton.mp hmem
      exact ⟨rfl, rfl⟩

/-- An error comes of a fresh document, or of a request that failed. -/
theorem documentRun {ε : Type} {of : HttpError → ε} {f : String → ε}
    {result : Except (Fault ε) α}
    (hrun : (http.cached_get of url name >>= fun bytes => map_err f (parse bytes)).Runs h result)
    (hserves : c.Serves h) :
    DocumentRun c url name parse h result.toOption ∧ (fresh h ≠ [] → ¬ Panics result) := by
  rcases Prog.runs_bind.mp hrun with ⟨e, hfailed, rfl⟩ | ⟨h₁, h₂, bytes, rfl, hgot, hparse⟩
  · refine ⟨.of_cachedRun (http.cachedRun hfailed hserves) rfl, fun hne => ?_⟩
    cases http.runs_cached_get hfailed with
    | unasked etag => exact absurd rfl hne
    | failed etag error => exact not_panics_err
  · have hend : h₂ = [] ∧ ¬ Panics result ∧ result.toOption = (parse bytes).toOption := by
      cases hbytes : parse bytes with
      | ok a =>
          rw [hbytes] at hparse
          obtain ⟨rfl, rfl⟩ := Prog.runs_pure.mp hparse
          exact ⟨rfl, not_panics_ok, rfl⟩
      | error message =>
          rw [hbytes] at hparse
          obtain ⟨rfl, rfl⟩ := Prog.runs_throw.mp hparse
          exact ⟨rfl, not_panics_err, rfl⟩
    obtain ⟨rfl, hpanics, hresult⟩ := hend
    rw [List.append_nil] at hserves ⊢
    exact ⟨.of_cachedRun (http.cachedRun hgot hserves) hresult, fun _ => hpanics⟩

/-- The server has sent a document that does not parse, and it is written. -/
def Cache.Spoiled (c : Cache) (h : Fetched) (url name : String) (parse : Bytes → Except String α) :
    Prop :=
  ∃ bytes, (url, bytes) ∈ fresh h ∧ (parse bytes).toOption = none
    ∧ c.takes (.body name) = true

theorem Cache.not_spoiled (hmem : ∀ bytes, (url, bytes) ∉ fresh h) :
    ¬ c.Spoiled h url name parse := by
  rintro ⟨bytes, hsent, -⟩
  exact hmem bytes hsent

end Documents

theorem err_of_not_panics {ε α : Type} {e : Fault ε}
    (h : ¬ Panics (.error e : Except (Fault ε) α)) :
    ∃ error, e = .err error := by
  cases e with
  | err error => exact ⟨error, rfl⟩
  | panic message => exact absurd ⟨message, rfl⟩ h

/-- A call that fails leaves what a reader makes of the cache as it was. -/
def Keeps {ε α β : Type} (cached : (CacheFile → Option Bytes) → Option β) (c : Cache) (h : Fetched)
    (result : Except (Fault ε) α) : Prop :=
  (∃ e, result = .error (.err e)) → cached (c.after h).read = cached c.read

/-- The call has failed. -/
theorem keeps_error_iff {ε α β : Type} {cached : (CacheFile → Option Bytes) → Option β} {c : Cache}
    {h : Fetched} {e : Fault ε} (herr : ∃ error, e = .err error) :
    Keeps cached c h (.error e : Except (Fault ε) α) ↔ cached (c.after h).read = cached c.read := by
  obtain ⟨error, rfl⟩ := herr
  exact ⟨fun hkeeps => hkeeps ⟨error, rfl⟩, fun hkept _ => hkept⟩

namespace RemoteSettingsProvider

variable {provider : RemoteSettingsProvider} {c : Cache} {h : Fetched} {allow_prerelease : Bool}

/-- What a reader makes of the two documents. -/
def catalogue (allow_prerelease : Bool) (records : Option (List ModelRecord))
    (base_url : Option String) : Option remote_settings.Available := do
  let records ← records
  let base_url ← base_url
  let (sets, skipped_filters) := accepted_sets records (.prerelease allow_prerelease)
  some ⟨sets, base_url, skipped_filters⟩

/-- One of the two documents that the server has sent does not parse, and is
written. -/
def Malformed (provider : RemoteSettingsProvider) (c : Cache) (h : Fetched) : Prop :=
  c.Spoiled h provider.records_url "records" provider.from_records
    ∨ c.Spoiled h provider.server_url "server-info" provider.from_server_info

/-- The records that the server has sent are written, and its information,
which does not parse, is not: the old one is kept, with other records. -/
def Mixed (provider : RemoteSettingsProvider) (allow_prerelease : Bool) (c : Cache) (h : Fetched) :
    Prop :=
  (∃ bytes records, (provider.records_url, bytes) ∈ fresh h
      ∧ (provider.from_records bytes).toOption = some records ∧ c.takes (.body "records") = true
      ∧ (c.parsed "records" provider.from_records).map
          (accepted_sets · (.prerelease allow_prerelease))
        ≠ some (accepted_sets records (.prerelease allow_prerelease)))
    ∧ (∃ bytes, (provider.server_url, bytes) ∈ fresh h
      ∧ (provider.from_server_info bytes).toOption = none)
    ∧ c.takes (.body "server-info") = false
    ∧ (c.parsed "server-info" provider.from_server_info).isSome = true

theorem urls_ne : provider.records_url ≠ provider.server_url := by
  intro heq
  have hlength := congrArg String.length heq
  simp only [records_url, server_url, String.length_append] at hlength
  have hcollection : COLLECTION.length = 22 := by decide
  have hpath : "/buckets/main/collections/".length = 26 := by decide
  have hslash : "/".length = 1 := by decide
  omega

theorem available_cached_eq : provider.available_cached c.read allow_prerelease
    = catalogue allow_prerelease (c.parsed "records" provider.from_records)
      (c.parsed "server-info" provider.from_server_info) := rfl

@[simp] theorem catalogue_none_left {base_url : Option String} :
    catalogue allow_prerelease none base_url = none := rfl

@[simp] theorem catalogue_none_right {records : Option (List ModelRecord)} :
    catalogue allow_prerelease records none = none := by
  cases records <;> rfl

/-- New records make the same catalogue when the same sets are accepted. -/
theorem catalogue_eq_iff {records : List ModelRecord} {old : Option (List ModelRecord)}
    {base_url : Option String} :
    catalogue allow_prerelease (some records) base_url = catalogue allow_prerelease old base_url
      ↔ (base_url.isSome = true → old.map (accepted_sets · (.prerelease allow_prerelease))
        = some (accepted_sets records (.prerelease allow_prerelease))) := by
  cases base_url with
  | none => simp
  | some base_url =>
      cases old with
      | none => simp [catalogue]
      | some old =>
          simp only [catalogue, Option.bind_eq_bind, Option.bind_some, Option.some.injEq,
            Option.map_some, Option.isSome_some, forall_const, Prod.ext_iff,
            remote_settings.Available.mk.injEq]
          exact ⟨fun ⟨hsets, _, hskipped⟩ => ⟨hsets.symm, hskipped.symm⟩,
            fun ⟨hsets, hskipped⟩ => ⟨hsets.symm, trivial, hskipped.symm⟩⟩

theorem mixed_iff {bytes info : Bytes} {records : List ModelRecord}
    (hrecords : ∀ bytes', (provider.records_url, bytes') ∈ fresh h ↔ bytes' = bytes)
    (hparses : (provider.from_records bytes).toOption = some records)
    (hinfo : (provider.server_url, info) ∈ fresh h)
    (hbad : (provider.from_server_info info).toOption = none)
    (htakes : c.takes (.body "records") = true) (hnot : c.takes (.body "server-info") = false) :
    provider.Mixed allow_prerelease c h
      ↔ (c.parsed "server-info" provider.from_server_info).isSome = true
        ∧ (c.parsed "records" provider.from_records).map
            (accepted_sets · (.prerelease allow_prerelease))
          ≠ some (accepted_sets records (.prerelease allow_prerelease)) := by
  constructor
  · rintro ⟨⟨bytes', records', hsent, hparses', -, hne⟩, -, -, hsome⟩
    obtain rfl := (hrecords bytes').mp hsent
    obtain rfl := Option.some.inj (hparses'.symm.trans hparses)
    exact ⟨hsome, hne⟩
  · rintro ⟨hsome, hne⟩
    exact ⟨⟨bytes, records, (hrecords bytes).mpr rfl, hparses, htakes, hne⟩, ⟨info, hinfo, hbad⟩,
      hnot, hsome⟩

/-- The runs of `available`, with the cache `c`. -/
inductive AvailableRun (provider : RemoteSettingsProvider) (c : Cache) :
    Fetched → Except (Fault ProviderError) remote_settings.Available → Prop
  | noRecords {h : Fetched} {e : Fault ProviderError}
      (hrecords : DocumentRun c provider.records_url "records" provider.from_records h none)
      (herr : fresh h ≠ [] → ∃ error, e = .err error) : AvailableRun provider c h (.error e)
  | noInfo {h₁ h₂ : Fetched} {records : List ModelRecord} {e : Fault ProviderError}
      (hrecords : DocumentRun c provider.records_url "records" provider.from_records h₁
        (some records))
      (hinfo : DocumentRun (c.after h₁) provider.server_url "server-info"
        provider.from_server_info h₂ none)
      (herr : fresh h₂ ≠ [] → ∃ error, e = .err error) :
      AvailableRun provider c (h₁ ++ h₂) (.error e)
  | both {h₁ h₂ h₃ : Fetched} {records : List ModelRecord} {base_url : String}
      {available : remote_settings.Available}
      (hrecords : DocumentRun c provider.records_url "records" provider.from_records h₁
        (some records))
      (hinfo : DocumentRun (c.after h₁) provider.server_url "server-info"
        provider.from_server_info h₂ (some base_url)) (hrest : fresh h₃ = []) :
      AvailableRun provider c (h₁ ++ (h₂ ++ h₃)) (.ok available)

theorem runs_available {result : Except (Fault ProviderError) remote_settings.Available}
    (hrun : provider.available.Runs h result) (hserves : c.Serves h) :
    AvailableRun provider c h result := by
  rcases Prog.runs_bind.mp hrun with ⟨e, hfailed, rfl⟩ | ⟨h₁, h', records, rfl, hrecords, hrest⟩
  · obtain ⟨hdoc, hpanics⟩ := documentRun hfailed hserves
    exact .noRecords hdoc fun hne => err_of_not_panics (hpanics hne)
  obtain ⟨hserves₁, hserves'⟩ := Cache.serves_append.mp hserves
  obtain ⟨hdoc₁, -⟩ := documentRun hrecords hserves₁
  rcases Prog.runs_bind.mp hrest with ⟨e, hfailed, rfl⟩ | ⟨h₂, h₃, base_url, rfl, hinfo, hend⟩
  · obtain ⟨hdoc, hpanics⟩ := documentRun hfailed hserves'
    exact .noInfo hdoc₁ hdoc fun hne => err_of_not_panics (hpanics hne)
  obtain ⟨hserves₂, -⟩ := Cache.serves_append.mp hserves'
  obtain ⟨hdoc₂, -⟩ := documentRun hinfo hserves₂
  obtain ⟨allow_prerelease, h₄, rfl, hsets⟩ := Prog.runs_ask_bind.mp hend
  rw [asserted_sets_eq] at hsets
  obtain ⟨rfl, rfl⟩ := Prog.runs_pure.mp hsets
  exact .both hdoc₁ hdoc₂ rfl

/-- A call that ends at the records. -/
theorem keeps_of_noRecords {e : Fault ProviderError}
    (hrecords : DocumentRun c provider.records_url "records" provider.from_records h none)
    (herr : fresh h ≠ [] → ∃ error, e = .err error) :
    Keeps (provider.available_cached · allow_prerelease) c h
        (.error e : Except (Fault ProviderError) remote_settings.Available)
      ↔ (provider.available_cached c.read allow_prerelease = none ∨ ¬ provider.Malformed c h)
        ∧ ¬ provider.Mixed allow_prerelease c h := by
  have hnever : ∀ bytes, (provider.server_url, bytes) ∉ fresh h :=
    fun bytes hsent => urls_ne (hrecords.mem_fresh hsent).1.symm
  have hmixed : ¬ provider.Mixed allow_prerelease c h := by
    rintro ⟨-, ⟨bytes, hsent, -⟩, -⟩
    exact hnever bytes hsent
  have hinfo : (c.after h).parsed "server-info" provider.from_server_info = c.parsed _ _ :=
    (hrecords.frame (by decide)).parsed_eq
  rw [and_iff_left hmixed]
  generalize hanswer : (none : Option (List ModelRecord)) = answer at hrecords
  cases hrecords with
  | old hafter hfresh =>
      refine iff_of_true (fun _ => by rw [hafter]) (Or.inr ?_)
      rintro (hspoiled | hspoiled)
      · exact Cache.not_spoiled (by simp [hfresh]) hspoiled
      · exact Cache.not_spoiled hnever hspoiled
  | new bytes hfresh hparsed hother =>
      rw [keeps_error_iff (herr (by simp [hfresh])), available_cached_eq, available_cached_eq,
        hinfo, hparsed, ← hanswer]
      split
      · rename_i htakes
        have hspoiled : provider.Malformed c h :=
          Or.inl ⟨bytes, by simp [hfresh], hanswer.symm, htakes⟩
        rw [catalogue_none_left, or_iff_left (not_not.mpr hspoiled)]
        exact eq_comm
      · rename_i htakes
        refine iff_of_true rfl (Or.inr ?_)
        rintro (⟨_, -, -, hwritten⟩ | hspoiled)
        · exact htakes hwritten
        · exact Cache.not_spoiled hnever hspoiled

/-- The server's information does not parse, and is not written: what is
left of the call are the records. -/
theorem catalogue_after_records {h₁ h₂ : Fetched} {records : List ModelRecord} {bytes : Bytes}
    (hrecords : DocumentRun c provider.records_url "records" provider.from_records h₁
      (some records))
    (hfresh : fresh h₂ = [(provider.server_url, bytes)])
    (hbad : (provider.from_server_info bytes).toOption = none)
    (hnot : c.takes (.body "server-info") = false) :
    catalogue allow_prerelease ((c.after h₁).parsed "records" provider.from_records)
        (c.parsed "server-info" provider.from_server_info)
        = provider.available_cached c.read allow_prerelease
      ↔ ¬ provider.Mixed allow_prerelease c (h₁ ++ h₂) := by
  rw [available_cached_eq]
  have hsent : fresh (h₁ ++ h₂) = fresh h₁ ++ [(provider.server_url, bytes)] := by
    rw [fresh_append, hfresh]
  generalize hanswer : some records = answer at hrecords
  cases hrecords with
  | old hafter hfresh₁ =>
      refine iff_of_true (by rw [hafter]) ?_
      rintro ⟨⟨bytes', _, hmem, -⟩, -⟩
      rw [hsent, hfresh₁] at hmem
      exact urls_ne (congrArg Prod.fst (List.mem_singleton.mp hmem))
  | new bytes₁ hfresh₁ hparsed hother =>
      rw [hparsed]
      split
      · rename_i htakes
        have honly : ∀ bytes', (provider.records_url, bytes') ∈ fresh (h₁ ++ h₂)
            ↔ bytes' = bytes₁ := by
          simp [hsent, hfresh₁, urls_ne]
        rw [← hanswer, catalogue_eq_iff, mixed_iff honly hanswer.symm (by simp [hsent]) hbad htakes
          hnot, not_and, not_not]
      · rename_i htakes
        refine iff_of_true rfl ?_
        rintro ⟨⟨_, _, -, -, hwritten, -⟩, -⟩
        exact htakes hwritten

/-- A call that ends at the server's information. -/
theorem keeps_of_noInfo {h₁ h₂ : Fetched} {records : List ModelRecord} {e : Fault ProviderError}
    (hrecords : DocumentRun c provider.records_url "records" provider.from_records h₁
      (some records))
    (hinfo : DocumentRun (c.after h₁) provider.server_url "server-info"
      provider.from_server_info h₂ none)
    (herr : fresh h₂ ≠ [] → ∃ error, e = .err error) :
    Keeps (provider.available_cached · allow_prerelease) c (h₁ ++ h₂)
        (.error e : Except (Fault ProviderError) remote_settings.Available)
      ↔ (provider.available_cached c.read allow_prerelease = none
          ∨ ¬ provider.Malformed c (h₁ ++ h₂))
        ∧ ¬ provider.Mixed allow_prerelease c (h₁ ++ h₂) := by
  have hsame : c.Same (c.after h₁) (.body "server-info") := hrecords.frame (by decide)
  have hkept : (c.after (h₁ ++ h₂)).parsed "records" provider.from_records
      = (c.after h₁).parsed "records" provider.from_records := by
    rw [Cache.after_append, (hinfo.frame (by decide)).parsed_eq]
  generalize hanswer : (none : Option String) = answer at hinfo
  cases hinfo with
  | old hafter hfresh =>
      -- there was no usable one before
      have hnone : c.parsed "server-info" provider.from_server_info = none :=
        hsame.parsed_eq.symm.trans hanswer.symm
      have hbefore : provider.available_cached c.read allow_prerelease = none := by
        rw [available_cached_eq, hnone, catalogue_none_right]
      refine iff_of_true (fun _ => ?_) ⟨Or.inl hbefore, ?_⟩
      · show provider.available_cached _ _ = provider.available_cached _ _
        rw [hbefore, available_cached_eq, Cache.after_append, hafter, ← hanswer,
          catalogue_none_right]
      · rintro ⟨-, -, -, hsome⟩
        rw [hnone] at hsome
        cases hsome
  | new bytes hfresh hparsed hother =>
      have hsent : (provider.server_url, bytes) ∈ fresh (h₁ ++ h₂) := by
        simp [fresh_append, hfresh]
      rw [keeps_error_iff (herr (by simp [hfresh])), available_cached_eq, hkept,
        Cache.after_append, hparsed, hsame.parsed_eq, hsame.2, ← hanswer]
      split
      · rename_i htakes
        have hspoiled : provider.Malformed c (h₁ ++ h₂) :=
          Or.inr ⟨bytes, hsent, hanswer.symm, htakes⟩
        have hmixed : ¬ provider.Mixed allow_prerelease c (h₁ ++ h₂) := by
          rintro ⟨-, -, hnot, -⟩
          exact absurd htakes (by simp [hnot])
        rw [catalogue_none_right, and_iff_left hmixed, or_iff_left (not_not.mpr hspoiled)]
        exact eq_comm
      · rename_i htakes
        have hgood : ¬ provider.Malformed c (h₁ ++ h₂) := by
          rintro (⟨bytes', hmem, hbad, -⟩ | ⟨_, -, -, hwritten⟩)
          · rw [fresh_append, hfresh] at hmem
            rcases List.mem_append.mp hmem with hmem | hmem
            · cases (hrecords.mem_fresh hmem).2.trans hbad
            · exact urls_ne (congrArg Prod.fst (List.mem_singleton.mp hmem))
          · exact htakes hwritten
        rw [and_iff_right (Or.inr hgood)]
        exact catalogue_after_records hrecords hfresh hanswer.symm (by simpa using htakes)

/-- **A refresh that fails keeps the cached catalogue**, unless there was
one, and a document that does not parse is written, or only the records are. -/
theorem available_keeps_iff {result : Except (Fault ProviderError) remote_settings.Available}
    (hrun : provider.available.Runs h result) (hserves : c.Serves h) :
    Keeps (provider.available_cached · allow_prerelease) c h result
      ↔ (provider.available_cached c.read allow_prerelease = none ∨ ¬ provider.Malformed c h)
        ∧ ¬ provider.Mixed allow_prerelease c h := by
  cases runs_available hrun hserves with
  | noRecords hrecords herr => exact keeps_of_noRecords hrecords herr
  | noInfo hrecords hinfo herr => exact keeps_of_noInfo hrecords hinfo herr
  | @both h₁ h₂ h₃ records base_url _ hrecords hinfo hrest =>
      have hmem : ∀ {url bytes}, (url, bytes) ∈ fresh (h₁ ++ (h₂ ++ h₃)) →
          (url, bytes) ∈ fresh h₁ ∨ (url, bytes) ∈ fresh h₂ := by
        intro url bytes hsent
        rwa [fresh_append, fresh_append, hrest, List.append_nil, List.mem_append] at hsent
      have hparses : ∀ {bytes}, (provider.server_url, bytes) ∈ fresh (h₁ ++ (h₂ ++ h₃)) →
          (provider.from_server_info bytes).toOption ≠ none := by
        rintro bytes hsent hbad
        rcases hmem hsent with hsent | hsent
        · exact urls_ne (hrecords.mem_fresh hsent).1.symm
        · cases (hinfo.mem_fresh hsent).2.trans hbad
      refine iff_of_true nofun ⟨Or.inr ?_, ?_⟩
      · rintro (⟨bytes, hsent, hbad, -⟩ | ⟨bytes, hsent, hbad, -⟩)
        · rcases hmem hsent with hsent | hsent
          · cases (hrecords.mem_fresh hsent).2.trans hbad
          · exact urls_ne (hinfo.mem_fresh hsent).1
        · exact hparses hsent hbad
      · rintro ⟨-, ⟨bytes, hsent, hbad⟩, -⟩
        exact hparses hsent hbad

end RemoteSettingsProvider

/-! ## The registry -/

namespace RegistryProvider

variable {provider : RegistryProvider} {c : Cache} {h : Fetched}

theorem cached_eq : provider.cached c.read = c.parsed "models" provider.parse := rfl

theorem refresh_keeps_iff {result : Except (Fault RegistryError) ModelRegistry}
    (hrun : provider.refresh.Runs h result) (hserves : c.Serves h) :
    Keeps provider.cached c h result
      ↔ (provider.cached c.read = none ∨ ¬ c.Spoiled h provider.url "models" provider.parse) := by
  obtain ⟨hdoc, hpanics⟩ := documentRun hrun hserves
  generalize hanswer : result.toOption = answer at hdoc
  cases hdoc with
  | old hafter hfresh =>
      refine iff_of_true (fun _ => by rw [hafter]) (Or.inr ?_)
      exact Cache.not_spoiled (by simp [hfresh])
  | new bytes hfresh hparsed hother =>
      cases result with
      | ok registry =>
          refine iff_of_true nofun (Or.inr ?_)
          rintro ⟨bytes', hmem, hbad, -⟩
          rw [hfresh] at hmem
          cases List.mem_singleton.mp hmem
          cases hanswer.trans hbad
      | error e =>
          rw [keeps_error_iff (err_of_not_panics (hpanics (by simp [hfresh]))), cached_eq,
            cached_eq, hparsed, ← hanswer]
          split
          · rename_i htakes
            have hspoiled : c.Spoiled h provider.url "models" provider.parse :=
              ⟨bytes, by simp [hfresh], hanswer.symm, htakes⟩
            rw [or_iff_left (not_not.mpr hspoiled)]
            exact eq_comm
          · rename_i htakes
            refine iff_of_true rfl (Or.inr ?_)
            rintro ⟨_, -, -, hwritten⟩
            exact htakes hwritten

end RegistryProvider

/-! ## The theorem -/

/-- **A failed refresh keeps the cached metadata** exactly when there was
none, or every document that is sent and written parses, and new records are
not written next to a document that cannot be. -/
theorem failed_refresh_keeps_iff (provider : RemoteSettingsProvider) (registry : RegistryProvider)
    (allow_prerelease : Bool) (c : Cache) :
    (∀ h result, provider.available.Runs h result → c.Serves h →
      (Keeps (provider.available_cached · allow_prerelease) c h result
        ↔ (provider.available_cached c.read allow_prerelease = none ∨ ¬ provider.Malformed c h)
          ∧ ¬ provider.Mixed allow_prerelease c h))
    ∧ ∀ h result, registry.refresh.Runs h result → c.Serves h →
      (Keeps registry.cached c h result
        ↔ (registry.cached c.read = none
          ∨ ¬ c.Spoiled h registry.url "models" registry.parse)) :=
  ⟨fun _ _ hrun hserves => provider.available_keeps_iff hrun hserves,
    fun _ _ hrun hserves => registry.refresh_keeps_iff hrun hserves⟩

/-- Reads `[]` as no records, and nothing else. -/
def emptyProvider : RemoteSettingsProvider where
  server := "https://example.test/v1"
  from_records bytes := if bytes = utf8 "[]" then .ok [] else .error "expected value"
  from_server_info bytes := if bytes = utf8 "[]" then .ok "" else .error "expected value"

/-- Both documents are cached, without ETags. -/
def emptyCache : Cache where
  makes := true
  writable _ := true
  files
    | .body _ => .readable (utf8 "[]")
    | .etag _ => .absent

/-- The server answers with a page that does not parse. -/
def answeredWithPage : Fetched :=
  http.revalidation emptyProvider.records_url "records" (some (utf8 "[]")) none
    (.ok (.fetched (utf8 "<html>") none)) ++ http.storing "records" (utf8 "<html>") none

theorem runs_answeredWithPage : emptyProvider.available.Runs answeredWithPage
    (.error (.err (.badResponse emptyProvider.records_url "expected value"))) := by
  refine Prog.runs_bind.mpr (Or.inl ⟨_, Prog.runs_bind.mpr (Or.inr
    ⟨_, [], utf8 "<html>", (List.append_nil _).symm, ?_, ?_⟩), rfl⟩)
  · exact .cons (.cons (.cons (.cons (.cons (.cons .nil)))))
  · exact Prog.runs_throw.mpr ⟨rfl, rfl⟩

/-- The file of the records cannot be written. -/
def readOnlyCache : Cache := { emptyCache with writable := fun file => file ≠ .body "records" }

/-- There the page does no harm. -/
theorem failed_refresh_keeps_readOnly :
    emptyProvider.available_cached readOnlyCache.read false = some ⟨[], "", []⟩
      ∧ emptyProvider.available_cached (readOnlyCache.after answeredWithPage).read false
        = some ⟨[], "", []⟩ := by
  have hcached : emptyProvider.available_cached readOnlyCache.read false = some ⟨[], "", []⟩ := by
    decide
  have hkeeps := (failed_refresh_keeps_iff emptyProvider ⟨"", fun _ => .error ""⟩ false
    readOnlyCache).1 answeredWithPage _ runs_answeredWithPage ⟨rfl, rfl, trivial⟩
  refine ⟨hcached, (hkeeps.mpr ⟨Or.inr ?_, ?_⟩ ⟨_, rfl⟩).trans hcached⟩
  · rintro (⟨_, -, -, htakes⟩ | ⟨_, hsent, -⟩)
    · revert htakes
      decide
    · exact RemoteSettingsProvider.urls_ne (congrArg Prod.fst (List.mem_singleton.mp hsent)).symm
  · rintro ⟨⟨_, _, -, -, htakes, -⟩, -⟩
    revert htakes
    decide

/-- The server sends a document that does not parse, and the cached catalogue
is gone. -/
theorem failed_refresh_loses : ∃ h result,
    emptyProvider.available.Runs h result ∧ emptyCache.Serves h
      ∧ emptyProvider.available_cached emptyCache.read false = some ⟨[], "", []⟩
      ∧ emptyProvider.available_cached (emptyCache.after h).read false = none
      ∧ ¬ Keeps (emptyProvider.available_cached · false) emptyCache h result := by
  refine ⟨answeredWithPage, _, runs_answeredWithPage, ⟨rfl, rfl, trivial⟩, ?_, ?_, ?_⟩
  · decide
  · decide
  · intro hkept
    have heq := hkept ⟨_, rfl⟩
    revert heq
    decide

end Dragomand
