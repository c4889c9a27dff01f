import Dragomand.FileTree
import Dragomand.Manifest
import Dragomand.Records
import Dragomand.Workers

/-!
# Local model stores

The scan of the system stores and the user store, `resolve`, and `verify`.
A store is `<store>/<provider>/<pair>/<version>/` with a `manifest.json`;
`mem_scan` says so. The roots are given resolved, and what the file system
lists has no links.
-/

namespace Dragomand

open FileTree (Node IoError plainName)

abbrev Bytes := List UInt8

/-- What the crates and the system provide. -/
structure ModelHost where
  /-- `Sha256::digest` -/
  digest : Bytes → Bytes
  /-- `zstd::stream::decode_all` -/
  decode_all : Bytes → Except String Bytes
  /-- `serde_json` -/
  to_vec_pretty : Manifest → Bytes
  from_slice : Bytes → Except String Manifest
  /-- the text of an `io::Error` -/
  display : IoError → String
  /-- the text of `{:?}` of a string -/
  debug : String → String
  /-- the length a directory has in its metadata -/
  dir_len : List String → Nat
  process_id : Nat
  now_rfc3339 : String

/-! ## Errors -/

def PathBuf.display (path : PathBuf) : String := "/" ++ "/".intercalate path

inductive StoreError where
  | io (path : String) (source : IoError)
  | verify (message : String)
  | notInstalled (model : String)
deriving DecidableEq, Repr

inductive ManifestError where
  | io (path : String) (source : IoError)
  | parse (path : String) (message : String)
  | schema (path : String) (found : Nat)
deriving DecidableEq, Repr

def ManifestError.to_string (host : ModelHost) : ManifestError → String
  | .io path source => "cannot read " ++ path ++ ": " ++ host.display source
  | .parse path message => "invalid manifest " ++ path ++ ": " ++ message
  | .schema path found =>
      "unsupported manifest schema " ++ toString found ++ " in " ++ path ++ " (supported: "
        ++ toString SCHEMA_VERSION ++ ")"

/-! ## Hashes -/

/-- A digit of `{:x}`. -/
def hexDigit (n : Nat) : Char := if n < 10 then Char.ofNat (48 + n) else Char.ofNat (87 + n)

/-- `format!("{:x}", …)` of a digest. -/
def hex (bytes : Bytes) : String :=
  String.ofList (bytes.flatMap fun b => [hexDigit (b.toNat / 16), hexDigit (b.toNat % 16)])

def sha256_hex (host : ModelHost) (bytes : Bytes) : String := hex (host.digest bytes)

/-! ## Reading -/

section Read

variable (host : ModelHost) (t : FileTree Bytes)

/-- `metadata(path)?.len()`. -/
def metadata_len (path : PathBuf) : Except IoError Nat :=
  (t.stat path).map fun found => match found.2 with
    | .dir => host.dir_len found.1
    | .file content => content.length

def Manifest.load (dir : PathBuf) : Except ManifestError Manifest :=
  let path := dir.join MANIFEST_FILE
  match t.read path with
  | .error source => .error (.io path.display source)
  | .ok bytes =>
      match host.from_slice bytes with
      | .error message => .error (.parse path.display message)
      | .ok manifest =>
          if manifest.schema = SCHEMA_VERSION then .ok manifest
          else .error (.schema path.display manifest.schema)

/-- Only the size of the file is checked. -/
def checkFile (dir : PathBuf) (file : ManifestFile) : Except String Unit :=
  let path := PathBuf.join dir file.name
  match metadata_len host t path with
  | .error e => .error (path.display ++ ": " ++ host.display e)
  | .ok len =>
      if len = file.size then .ok ()
      else .error (path.display ++ ": size " ++ toString len ++ " != manifest "
        ++ toString file.size)

/-- The model of a version directory, or the problem with it. -/
def scan_model_dir (dir : PathBuf) (origin : Origin) : Except String InstalledModel :=
  match Manifest.load host t dir with
  | .error e => .error (e.to_string host)
  | .ok manifest =>
      match MozVersion.parse manifest.version with
      | .error e => .error (dir.display ++ ": " ++ e.to_string host.debug)
      | .ok version =>
          (manifest.files.forM (checkFile host t dir)).map fun _ => ⟨origin, dir, version, manifest⟩

/-- The subdirectories of a directory. -/
def subdirs (path : PathBuf) : Except IoError (List String) :=
  (t.readDir path).map fun names =>
    names.filter fun name => (t.stat (path ++ [name])).toOption.any fun found => found.2 matches .dir

/-- Names of unfinished installs. -/
def isTmp (name : String) : Bool := ".tmp-".toList.isPrefixOf name.toList

/-- Scans the subdirectories of a directory in turn. -/
def scan_entries (path : PathBuf) (problem : IoError → List (Except String InstalledModel))
    (scan : String → List (Except String InstalledModel)) : List (Except String InstalledModel) :=
  match subdirs t path with
  | .error e => problem e
  | .ok names => names.flatMap scan

/-- What the scan of one store finds, in the order in which it does. -/
def scan_store (root : PathBuf) (origin : Origin) : List (Except String InstalledModel) :=
  let problem := fun (path : PathBuf) (e : IoError) =>
    [.error (path.display ++ ": " ++ host.display e)]
  -- missing store directories are normal
  scan_entries t root (fun _ => []) fun provider =>
    scan_entries t (root ++ [provider]) (problem (root ++ [provider])) fun pair =>
      scan_entries t (root ++ [provider, pair]) (problem (root ++ [provider, pair])) fun version =>
        if isTmp version then []
        else [scan_model_dir host t (root ++ [provider, pair, version]) origin]

end Read

/-! ## Stores -/

/-- The roots are resolved: no component is `.`, `..` or empty. -/
structure Stores where
  system : List PathBuf
  user : PathBuf
  plain : ∀ root ∈ user :: system, ∀ name ∈ root, plainName name = true

def Stores.roots (stores : Stores) : List (Origin × PathBuf) :=
  (.user, stores.user) :: stores.system.map fun root => (.system, root)

/-- What `max_by` leaves: the last of the greatest. -/
def maxBy {α : Type*} (cmp : α → α → Ordering) : List α → Option α
  | [] => none
  | a :: rest => some (rest.foldl (fun best b => if cmp best b = .gt then best else b) a)

/-- The newer of two copies; on a version tie the system copy. -/
def InstalledModel.cmp : InstalledModel → InstalledModel → Ordering :=
  compareLex (compareOn InstalledModel.version) (compareOn fun m => decide (m.origin = .system))

section Stores

variable (host : ModelHost) (t : FileTree Bytes)

/-- The installed models, and the problems. -/
def Stores.scan (stores : Stores) : List InstalledModel × List String :=
  let outcomes := stores.roots.flatMap fun (origin, root) => scan_store host t root origin
  (outcomes.filterMap Except.toOption, outcomes.filterMap fun outcome => match outcome with
    | .error problem => some problem
    | .ok _ => none)

def Stores.resolve (stores : Stores) (source target : String) : Option InstalledModel :=
  let pair := source ++ "-" ++ target
  maxBy InstalledModel.cmp
    (((stores.scan host t).1.filter fun m => m.pair = pair).filter fun m => m.version.inWindow)

/-- Sizes and sha256 of every file against the manifest. -/
def Stores.verifyFile (directory : PathBuf) (file : ManifestFile) : Except StoreError Unit :=
  let path := PathBuf.join directory file.name
  match metadata_len host t path with
  | .error e => .error (.io path.display e)
  | .ok len =>
      if len ≠ file.size then
        .error (.verify (path.display ++ ": size " ++ toString len ++ " != manifest "
          ++ toString file.size))
      else
        match t.read path with
        | .error e => .error (.io path.display e)
        | .ok bytes =>
            if sha256_hex host bytes ≠ file.sha256 then
              .error (.verify (path.display ++ ": sha256 mismatch"))
            else .ok ()

def Stores.verify (model : InstalledModel) : Except StoreError Unit :=
  model.manifest.files.forM (Stores.verifyFile host t model.directory)

theorem Stores.verifyFile_iff {directory : PathBuf} {file : ManifestFile} {content : Bytes}
    (hlen : metadata_len host t (PathBuf.join directory file.name) = .ok file.size)
    (hread : t.read (PathBuf.join directory file.name) = .ok content) :
    Stores.verifyFile host t directory file = .ok () ↔ sha256_hex host content = file.sha256 := by
  unfold Stores.verifyFile
  simp only [hlen, hread, ne_eq, not_true_eq_false, if_false]
  by_cases heq : sha256_hex host content = file.sha256
  · simp [heq]
  · simp [heq]

end Stores

/-! ## What a scan lists -/

section Scan

variable {host : ModelHost} {t : FileTree Bytes}

theorem mem_subdirs {path : PathBuf} (hpath : ∀ name ∈ path, plainName name = true)
    {names : List String} (h : subdirs t path = .ok names) {name : String} :
    name ∈ names ↔ t.node (name :: path.reverse) = some .dir := by
  obtain ⟨entries, hentries, rfl⟩ := FileTree.map_eq_ok.mp h
  obtain ⟨⟨p, node⟩, hstat, hentries⟩ := FileTree.bind_eq_ok.mp hentries
  obtain ⟨hwalk, hnode⟩ := FileTree.stat_eq_ok hstat
  obtain ⟨rfl, -⟩ := FileTree.walk_eq_ok hpath hwalk
  rw [List.append_nil] at hnode hentries
  cases node with
  | file content => cases hentries
  | dir =>
      obtain rfl := Except.ok.inj hentries
      rw [List.mem_filter, FileTree.mem_names]
      have hpathOf : ∀ node', t.node (name :: path.reverse) = some node' →
          t.stat (path ++ [name]) = .ok (name :: path.reverse, node') := by
        intro node' hnode'
        have hname := t.plain name _ (by rw [hnode']; exact Option.some_ne_none _)
        have hall := FileTree.plain_snoc hpath hname
        have hnode'' : t.node (path ++ [name]).reverse = some node' := by simpa using hnode'
        simpa using FileTree.stat_plain hall hnode''
      constructor
      · rintro ⟨hsome, hdir⟩
        obtain ⟨node', hnode'⟩ := Option.ne_none_iff_exists'.mp hsome
        rw [hpathOf node' hnode'] at hdir
        cases node' with
        | dir => exact hnode'
        | file content => cases hdir
      · intro hdir
        rw [hdir, hpathOf _ hdir]
        exact ⟨Option.some_ne_none _, rfl⟩

theorem subdirs_of_dir {path : PathBuf} (hpath : ∀ name ∈ path, plainName name = true)
    (h : t.node path.reverse = some .dir) : ∃ names, subdirs t path = .ok names := by
  refine ⟨_, FileTree.map_eq_ok.mpr ⟨t.names path.reverse, ?_, rfl⟩⟩
  exact FileTree.bind_eq_ok.mpr ⟨_, FileTree.stat_plain hpath h, rfl⟩

theorem plain_append {path : PathBuf} (names : PathBuf) (hpath : ∀ name ∈ path, plainName name = true)
    (hnames : t.node (names.reverse ++ path.reverse) ≠ none) :
    ∀ name ∈ path ++ names, plainName name = true := by
  induction names using List.reverseRecOn with
  | nil => simpa using hpath
  | append_singleton names name ih =>
      rw [List.reverse_append, List.reverse_singleton, List.singleton_append,
        List.cons_append] at hnames
      have hparent := t.parent name _ hnames
      have hrest := ih (by rw [hparent]; exact Option.some_ne_none _)
      intro c hc
      rw [← List.append_assoc] at hc
      rcases List.mem_append.mp hc with hc | hc
      · exact hrest c hc
      · rw [List.mem_singleton.mp hc]
        exact t.plain name _ hnames

theorem ok_mem_scan_entries {path : PathBuf} (hpath : ∀ name ∈ path, plainName name = true)
    {problem : IoError → List (Except String InstalledModel)}
    {scan : String → List (Except String InstalledModel)} {m : InstalledModel}
    (hproblem : ∀ e, .ok m ∉ problem e) :
    .ok m ∈ scan_entries t path problem scan
      ↔ ∃ name, t.node (name :: path.reverse) = some .dir ∧ .ok m ∈ scan name := by
  unfold scan_entries
  split
  · rename_i e herror
    refine ⟨fun h => absurd h (hproblem e), fun ⟨name, hdir, _⟩ => ?_⟩
    have hparent := t.parent name _ (by rw [hdir]; exact Option.some_ne_none _)
    obtain ⟨names, hnames⟩ := subdirs_of_dir hpath hparent
    cases herror.symm.trans hnames
  · rename_i names hnames
    rw [List.mem_flatMap]
    simp only [mem_subdirs hpath hnames]

/-- A scan lists what the version directories of a store hold, but for
unfinished installs. -/
theorem mem_scan_store {root : PathBuf} (hroot : ∀ name ∈ root, plainName name = true)
    {origin : Origin} {m : InstalledModel} :
    .ok m ∈ scan_store host t root origin ↔ ∃ provider pair version,
      t.node (version :: pair :: provider :: root.reverse) = some .dir ∧ isTmp version = false
        ∧ scan_model_dir host t (root ++ [provider, pair, version]) origin = .ok m := by
  have hdir : ∀ {p : List String}, t.node p = some .dir → t.node p ≠ none :=
    fun h => by rw [h]; exact Option.some_ne_none _
  unfold scan_store
  dsimp only
  rw [ok_mem_scan_entries hroot (by simp)]
  constructor
  · rintro ⟨provider, hprovider, h⟩
    have hplain := plain_append [provider] hroot (hdir hprovider)
    rw [ok_mem_scan_entries hplain (by simp)] at h
    obtain ⟨pair, hpair, h⟩ := h
    rw [List.reverse_append, List.reverse_singleton, List.singleton_append] at hpair
    have hplain := plain_append [provider, pair] hroot (hdir hpair)
    rw [ok_mem_scan_entries hplain (by simp)] at h
    obtain ⟨version, hversion, h⟩ := h
    rw [List.reverse_append] at hversion
    split at h
    · cases h
    · rename_i htmp
      exact ⟨provider, pair, version, hversion, by simpa using htmp,
        (List.mem_singleton.mp h).symm⟩
  · rintro ⟨provider, pair, version, hversion, htmp, h⟩
    have hpair := t.parent _ _ (hdir hversion)
    have hprovider := t.parent _ _ (hdir hpair)
    refine ⟨provider, hprovider, ?_⟩
    rw [ok_mem_scan_entries (plain_append [provider] hroot (hdir hprovider)) (by simp)]
    refine ⟨pair, by simpa using hpair, ?_⟩
    rw [ok_mem_scan_entries (plain_append [provider, pair] hroot (hdir hpair))
      (by simp)]
    refine ⟨version, by simpa using hversion, ?_⟩
    rw [if_neg (by simp [htmp]), h]
    exact List.mem_singleton.mpr rfl

/-- The version directory `dir` of a store, from the root up, is scanned. -/
structure Stores.Scanned (stores : Stores) (t : FileTree Bytes) (origin : Origin)
    (dir : PathBuf) : Prop where
  place : ∃ root provider pair version, (origin, root) ∈ stores.roots
    ∧ dir = root ++ [provider, pair, version] ∧ isTmp version = false
  dir : t.node dir.reverse = some .dir

theorem Manifest.load_eq_ok {dir : PathBuf} {m : Manifest} :
    Manifest.load host t dir = .ok m ↔ ∃ bytes, t.read (dir.join MANIFEST_FILE) = .ok bytes
      ∧ host.from_slice bytes = .ok m ∧ m.schema = SCHEMA_VERSION := by
  constructor
  · intro h
    unfold Manifest.load at h
    dsimp only at h
    split at h
    · cases h
    · rename_i bytes hread
      split at h
      · cases h
      · rename_i manifest hjson
        split at h
        · rename_i hschema
          cases h
          exact ⟨bytes, hread, hjson, hschema⟩
        · cases h
  · rintro ⟨bytes, hread, hjson, hschema⟩
    unfold Manifest.load
    simp only [hread, hjson, hschema, if_true]

theorem checkFile_eq_ok {dir : PathBuf} {file : ManifestFile} :
    checkFile host t dir file = .ok ()
      ↔ metadata_len host t (PathBuf.join dir file.name) = .ok file.size := by
  unfold checkFile
  dsimp only
  constructor
  · intro h
    split at h
    · cases h
    · rename_i len hlen
      split at h
      · rename_i heq
        rw [hlen, heq]
      · cases h
  · intro h
    rw [h]
    exact if_pos rfl

theorem Stores.roots_plain {stores : Stores} {origin : Origin} {root : PathBuf}
    (h : (origin, root) ∈ stores.roots) : ∀ name ∈ root, plainName name = true := by
  rcases List.mem_cons.mp h with heq | hsystem
  · cases heq
    exact stores.plain _ (List.mem_cons_self ..)
  · obtain ⟨root', hroot', heq⟩ := List.mem_map.mp hsystem
    cases heq
    exact stores.plain _ (List.mem_cons_of_mem _ hroot')

theorem Stores.Scanned.plain {stores : Stores} {origin : Origin} {dir : PathBuf}
    (h : stores.Scanned t origin dir) : ∀ name ∈ dir, plainName name = true := by
  obtain ⟨⟨root, provider, pair, version, hroot, rfl, -⟩, hdir⟩ := h
  refine plain_append (t := t) _ (Stores.roots_plain hroot) ?_
  rw [← List.reverse_append, hdir]
  exact Option.some_ne_none _

theorem forM_eq_ok {ε α : Type} {f : α → Except ε Unit} {l : List α} :
    l.forM f = .ok () ↔ ∀ a ∈ l, f a = .ok () := by
  induction l with
  | nil => simp [pure, Except.pure]
  | cons a l ih =>
      show (f a).bind (fun _ => l.forM f) = .ok () ↔ _
      rw [FileTree.bind_eq_ok, List.forall_mem_cons, ← ih]
      exact ⟨fun ⟨_, ha, hl⟩ => ⟨ha, hl⟩, fun ⟨ha, hl⟩ => ⟨(), ha, hl⟩⟩

theorem scan_model_dir_eq_ok {dir : PathBuf} {origin : Origin} {m : InstalledModel} :
    scan_model_dir host t dir origin = .ok m ↔ m.origin = origin ∧ m.directory = dir
      ∧ Manifest.load host t dir = .ok m.manifest
      ∧ MozVersion.parse m.manifest.version = .ok m.version
      ∧ ∀ file ∈ m.manifest.files, checkFile host t dir file = .ok () := by
  constructor
  · intro h
    unfold scan_model_dir at h
    split at h
    · cases h
    · rename_i manifest hload
      split at h
      · cases h
      · rename_i version hversion
        obtain ⟨_, hfiles, rfl⟩ := FileTree.map_eq_ok.mp h
        exact ⟨rfl, rfl, hload, hversion, forM_eq_ok.mp hfiles⟩
  · rintro ⟨rfl, rfl, hload, hversion, hfiles⟩
    unfold scan_model_dir
    simp only [hload, hversion]
    exact FileTree.map_eq_ok.mpr ⟨(), forM_eq_ok.mpr hfiles, rfl⟩

theorem Stores.mem_scan {stores : Stores} {m : InstalledModel} :
    m ∈ (stores.scan host t).1 ↔ stores.Scanned t m.origin m.directory
      ∧ scan_model_dir host t m.directory m.origin = .ok m := by
  unfold Stores.scan
  dsimp only
  rw [List.mem_filterMap]
  constructor
  · rintro ⟨outcome, hmem, hsome⟩
    obtain ⟨⟨origin, root⟩, hroot, hmem⟩ := List.mem_flatMap.mp hmem
    cases outcome with
    | error problem => cases hsome
    | ok m' =>
        cases hsome
        obtain ⟨provider, pair, version, hdir, htmp, hscan⟩ :=
          (mem_scan_store (Stores.roots_plain hroot)).mp hmem
        obtain ⟨rfl, hdirectory, -⟩ := scan_model_dir_eq_ok.mp hscan
        rw [hdirectory]
        exact ⟨⟨⟨root, provider, pair, version, hroot, rfl, htmp⟩, by simpa using hdir⟩, hscan⟩
  · rintro ⟨⟨⟨root, provider, pair, version, hroot, hplace, htmp⟩, hdir⟩, hscan⟩
    rw [hplace] at hdir hscan
    refine ⟨.ok m, List.mem_flatMap.mpr ⟨(m.origin, root), hroot, ?_⟩, rfl⟩
    exact (mem_scan_store (Stores.roots_plain hroot)).mpr
      ⟨provider, pair, version, by simpa using hdir, htmp, hscan⟩

/-! ## What a scan depends on -/

/-- The name stays inside the directory it is joined to. -/
def insideName (name : String) : Bool :=
  !(components name).contains ".." && match components name with
    | "" :: absolute => absolute.isEmpty
    | _ => true

theorem join_insideName (dir : PathBuf) {name : String} (h : insideName name = true) :
    ∃ cs, PathBuf.join dir name = dir ++ cs ∧ ∀ c ∈ cs, c ≠ ".." := by
  simp only [insideName, Bool.and_eq_true, Bool.not_eq_true', List.contains_eq_mem,
    decide_eq_false_iff_not] at h
  obtain ⟨hdots, habsolute⟩ := h
  refine ⟨components name, ?_, fun c hc heq => hdots (heq ▸ hc)⟩
  unfold PathBuf.join
  split
  · rename_i absolute hname
    rw [hname] at habsolute ⊢
    have hempty : absolute.isEmpty = true := habsolute
    rw [if_pos hempty, List.isEmpty_iff.mp hempty]
  · rfl

section Congr

variable {t' : FileTree Bytes} {dir : PathBuf}

theorem walk_dir (hdir : ∀ name ∈ dir, plainName name = true) (ht : t.node dir.reverse ≠ none)
    {cs : List String} : t.walk [] (dir ++ cs) = t.walk dir.reverse cs := by
  rw [FileTree.walk_append, FileTree.walk_plain hdir (by simpa using ht), List.append_nil]
  rfl

/-- What is inside a directory is found through what is below it. -/
theorem stat_congr (hdir : ∀ name ∈ dir, plainName name = true)
    (ht : t.node dir.reverse ≠ none)
    (h : ∀ q, dir.reverse <:+ q → t.node q = t'.node q) {cs : List String}
    (hcs : ∀ c ∈ cs, c ≠ "..") : t.stat (dir ++ cs) = t'.stat (dir ++ cs) := by
  unfold FileTree.stat
  rw [walk_dir hdir ht, walk_dir hdir (h _ (List.suffix_refl _) ▸ ht),
    FileTree.walk_congr hcs (List.suffix_refl _) h]
  cases hp : t'.walk dir.reverse cs with
  | error e => rfl
  | ok p =>
      dsimp only [Except.bind]
      rw [h p (FileTree.walk_suffix hcs (List.suffix_refl _) hp)]

theorem load_congr (hdir : ∀ name ∈ dir, plainName name = true) (ht : t.node dir.reverse ≠ none)
    (h : ∀ q, dir.reverse <:+ q → t.node q = t'.node q) :
    Manifest.load host t dir = Manifest.load host t' dir := by
  have hstat : t.stat (dir.join MANIFEST_FILE) = t'.stat (dir.join MANIFEST_FILE) := by
    obtain ⟨cs, hjoin, hcs⟩ := join_insideName dir (show insideName MANIFEST_FILE = true by decide)
    rw [hjoin]
    exact stat_congr hdir ht h hcs
  unfold Manifest.load FileTree.read
  dsimp only
  rw [hstat]

theorem checkFile_congr (hdir : ∀ name ∈ dir, plainName name = true)
    (ht : t.node dir.reverse ≠ none) (h : ∀ q, dir.reverse <:+ q → t.node q = t'.node q)
    {file : ManifestFile} (hfile : insideName file.name = true) :
    checkFile host t dir file = checkFile host t' dir file := by
  obtain ⟨cs, hjoin, hcs⟩ := join_insideName dir hfile
  unfold checkFile metadata_len
  dsimp only
  rw [hjoin, stat_congr hdir ht h hcs]

/-- The manifest of a version directory, if it loads, names files inside. -/
def NamesInside (host : ModelHost) (t : FileTree Bytes) (dir : PathBuf) : Prop :=
  ∀ manifest, Manifest.load host t dir = .ok manifest →
    ∀ file ∈ manifest.files, insideName file.name = true

/-- The scan of a version directory looks at nothing else. -/
theorem scan_model_dir_congr (hdir : ∀ name ∈ dir, plainName name = true)
    (ht : t.node dir.reverse ≠ none) (h : ∀ q, dir.reverse <:+ q → t.node q = t'.node q)
    (hinside : NamesInside host t dir) {origin : Origin} {m : InstalledModel} :
    scan_model_dir host t dir origin = .ok m ↔ scan_model_dir host t' dir origin = .ok m := by
  rw [scan_model_dir_eq_ok, scan_model_dir_eq_ok, ← load_congr hdir ht h]
  refine and_congr_right fun _ => and_congr_right fun _ => and_congr_right fun hload =>
    and_congr_right fun _ => forall₂_congr fun file hfile => ?_
  rw [checkFile_congr hdir ht h (hinside _ hload file hfile)]

/-- A scan lists the same at a directory below which all is the same. -/
theorem Stores.mem_scan_congr {stores : Stores} {m : InstalledModel}
    (h : (∃ root provider pair version, (m.origin, root) ∈ stores.roots
        ∧ m.directory = root ++ [provider, pair, version] ∧ isTmp version = false) →
      ∀ q, m.directory.reverse <:+ q → t.node q = t'.node q)
    (hinside : stores.Scanned t m.origin m.directory → NamesInside host t m.directory) :
    m ∈ (stores.scan host t).1 ↔ m ∈ (stores.scan host t').1 := by
  have hscanned : stores.Scanned t m.origin m.directory
      ↔ stores.Scanned t' m.origin m.directory :=
    ⟨fun ⟨hplace, hdir⟩ => ⟨hplace, (h hplace _ (List.suffix_refl _)).symm.trans hdir⟩,
      fun ⟨hplace, hdir⟩ => ⟨hplace, (h hplace _ (List.suffix_refl _)).trans hdir⟩⟩
  rw [Stores.mem_scan, Stores.mem_scan, ← hscanned]
  refine and_congr_right fun hs => ?_
  have hnone : t.node m.directory.reverse ≠ none := by
    rw [hs.dir]
    exact Option.some_ne_none _
  exact scan_model_dir_congr hs.plain hnone (h hs.place) (hinside hs)

end Congr

section Shrink

variable {t' : FileTree Bytes} {dir : PathBuf}

theorem stat_shrink (hdir : ∀ name ∈ dir, plainName name = true) (ht : t.node dir.reverse ≠ none)
    (hsub : ∀ q, dir.reverse <:+ q → t.node q = none ∨ t.node q = t'.node q) {cs : List String}
    (hcs : ∀ c ∈ cs, c ≠ "..") {found : List String × Node Bytes}
    (h : t.stat (dir ++ cs) = .ok found) : t'.stat (dir ++ cs) = .ok found := by
  have hsame : ∀ {q}, dir.reverse <:+ q → t.node q ≠ none → t'.node q = t.node q :=
    fun hq hnode => ((hsub _ hq).resolve_left hnode).symm
  obtain ⟨p, node⟩ := found
  obtain ⟨hwalk, hnode⟩ := FileTree.stat_eq_ok h
  have ht' : t'.node dir.reverse ≠ none := by rwa [hsame (List.suffix_refl _) ht]
  rw [walk_dir hdir ht] at hwalk
  have hp := FileTree.walk_suffix hcs (List.suffix_refl _) hwalk
  refine FileTree.stat_of_walk ?_ ?_
  · rw [walk_dir hdir ht']
    exact FileTree.walk_mono hcs (List.suffix_refl _) hsub hwalk
  · rw [hsame hp (by rw [hnode]; exact Option.some_ne_none _), hnode]

/-- The manifest of a directory of which some is gone is the one that was
there. -/
theorem load_shrink (hdir : ∀ name ∈ dir, plainName name = true) (ht : t.node dir.reverse ≠ none)
    (hsub : ∀ q, dir.reverse <:+ q → t.node q = none ∨ t.node q = t'.node q) {m : Manifest}
    (h : Manifest.load host t dir = .ok m) : Manifest.load host t' dir = .ok m := by
  obtain ⟨cs, hjoin, hcs⟩ := join_insideName dir (show insideName MANIFEST_FILE = true by decide)
  obtain ⟨bytes, hread, hrest⟩ := Manifest.load_eq_ok.mp h
  obtain ⟨found, hstat, hbytes⟩ := FileTree.bind_eq_ok.mp hread
  rw [hjoin] at hstat
  exact Manifest.load_eq_ok.mpr ⟨bytes, FileTree.bind_eq_ok.mpr
    ⟨found, hjoin ▸ stat_shrink hdir ht hsub hcs hstat, hbytes⟩, hrest⟩

/-- A version directory of which some is gone has no model that was not
there. -/
theorem scan_model_dir_shrink (hdir : ∀ name ∈ dir, plainName name = true)
    (ht : t.node dir.reverse ≠ none)
    (hsub : ∀ q, dir.reverse <:+ q → t.node q = none ∨ t.node q = t'.node q)
    (hinside : NamesInside host t' dir) {origin : Origin} {m : InstalledModel}
    (h : scan_model_dir host t dir origin = .ok m) :
    scan_model_dir host t' dir origin = .ok m := by
  obtain ⟨horigin, hdirectory, hload, hversion, hfiles⟩ := scan_model_dir_eq_ok.mp h
  have hload' := load_shrink hdir ht hsub hload
  refine scan_model_dir_eq_ok.mpr ⟨horigin, hdirectory, hload', hversion, fun file hfile => ?_⟩
  obtain ⟨cs, hjoin, hcs⟩ := join_insideName dir (hinside _ hload' file hfile)
  obtain ⟨found, hstat, hlen⟩ := FileTree.map_eq_ok.mp (checkFile_eq_ok.mp (hfiles file hfile))
  rw [hjoin] at hstat
  exact checkFile_eq_ok.mpr (FileTree.map_eq_ok.mpr
    ⟨found, hjoin ▸ stat_shrink hdir ht hsub hcs hstat, hlen⟩)

end Shrink

end Scan

/-! ## The best copy -/

section Max

variable {α : Type} {cmp : α → α → Ordering} [Std.TransCmp cmp]

theorem foldl_max (l : List α) (a : α) :
    let best := l.foldl (fun best b => if cmp best b = .gt then best else b) a
    best ∈ a :: l ∧ ∀ b ∈ a :: l, (cmp b best).isLE = true := by
  induction l generalizing a with
  | nil => exact ⟨List.mem_singleton_self a, by simp [Std.ReflCmp.compare_self]⟩
  | cons b l ih =>
      -- the greater of the first two stands for both
      have hstep : ∃ c, (if cmp a b = .gt then a else b) = c ∧ (c = a ∨ c = b)
          ∧ (cmp a c).isLE = true ∧ (cmp b c).isLE = true := by
        split
        · rename_i hgt
          refine ⟨a, rfl, Or.inl rfl, by simp [Std.ReflCmp.compare_self], ?_⟩
          rw [@Std.OrientedCmp.eq_swap _ cmp _, hgt]
          rfl
        · rename_i hle
          refine ⟨b, rfl, Or.inr rfl, ?_, by simp [Std.ReflCmp.compare_self]⟩
          exact Ordering.isLE_iff_ne_gt.mpr hle
      obtain ⟨c, hc, hmem, ha, hb⟩ := hstep
      obtain ⟨hbest, hmax⟩ := ih c
      dsimp only
      rw [List.foldl_cons, hc]
      refine ⟨?_, fun x hx => ?_⟩
      · rcases List.mem_cons.mp hbest with heq | hrest
        · rw [heq]
          rcases hmem with rfl | rfl <;> simp
        · exact List.mem_cons_of_mem _ (List.mem_cons_of_mem _ hrest)
      · have hcbest := hmax c (List.mem_cons_self ..)
        rcases List.mem_cons.mp hx with rfl | hx
        · exact Std.TransCmp.isLE_trans ha hcbest
        · rcases List.mem_cons.mp hx with rfl | hx
          · exact Std.TransCmp.isLE_trans hb hcbest
          · exact hmax x (List.mem_cons_of_mem _ hx)

theorem maxBy_eq_some {l : List α} {best : α} (h : maxBy cmp l = some best) :
    best ∈ l ∧ ∀ b ∈ l, (cmp b best).isLE = true := by
  cases l with
  | nil => cases h
  | cons a l =>
      obtain rfl := Option.some.inj h
      exact foldl_max l a

end Max

instance : Std.TransCmp InstalledModel.cmp :=
  inferInstanceAs (Std.TransCmp (compareLex (compareOn InstalledModel.version)
    (compareOn fun m : InstalledModel => decide (m.origin = .system))))

section Resolve

variable {host : ModelHost} {t : FileTree Bytes} {stores : Stores} {source target : String}

theorem Stores.resolve_eq_some {best : InstalledModel}
    (h : stores.resolve host t source target = some best) :
    best ∈ (stores.scan host t).1 ∧ best.pair = source ++ "-" ++ target
      ∧ best.version.inWindow = true ∧ ∀ m ∈ (stores.scan host t).1,
        m.pair = source ++ "-" ++ target → m.version.inWindow = true →
        (m.version.cmp best.version).isLE = true := by
  obtain ⟨hmem, hmax⟩ := maxBy_eq_some h
  simp only [List.mem_filter, decide_eq_true_eq] at hmem hmax
  refine ⟨hmem.1.1, hmem.1.2, hmem.2, fun m hm hpair hwindow => ?_⟩
  have hle := hmax m ⟨⟨hm, hpair⟩, hwindow⟩
  unfold InstalledModel.cmp compareLex at hle
  cases hcmp : m.version.cmp best.version with
  | lt => rfl
  | eq => rfl
  | gt =>
      have hgt : compareOn InstalledModel.version m best = .gt := hcmp
      rw [hgt] at hle
      cases hle

theorem Stores.resolve_isSome {m : InstalledModel} (hm : m ∈ (stores.scan host t).1)
    (hpair : m.pair = source ++ "-" ++ target) (hwindow : m.version.inWindow = true) :
    ∃ best, stores.resolve host t source target = some best := by
  have hmem : m ∈ ((stores.scan host t).1.filter fun m => m.pair = source ++ "-" ++ target).filter
      fun m => m.version.inWindow := by
    simp [hm, hpair, hwindow]
  unfold Stores.resolve
  dsimp only
  cases hl : ((stores.scan host t).1.filter fun m => m.pair = source ++ "-" ++ target).filter
      fun m => m.version.inWindow with
  | nil =>
      rw [hl] at hmem
      cases hmem
  | cons a l => exact ⟨_, rfl⟩

/-- What the stores answer to the daemon. -/
def Stores.disk (stores : Stores) (host : ModelHost) (t : FileTree Bytes) : Disk where
  resolve := stores.resolve host t
  pair _ _ _ h := (Stores.resolve_eq_some h).2.1

end Resolve

end Dragomand
