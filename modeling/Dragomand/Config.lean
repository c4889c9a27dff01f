import Dragomand.FileTree
import Dragomand.Overrides
import Dragomand.Service

/-!
# The configuration file and SetConfig

`config.toml` is read when the daemon starts and changed by `SetConfig`:
the values of the call are checked against `KEYS`, the file is rewritten,
and the configuration in memory is changed. A document is the list of its
top-level keys, which the toml crates read and print as they are.
-/

namespace Dragomand

open Overrides

/-! ## Settable keys -/

/-- The values a call may pass, as far as `check` tells them apart. -/
inductive Value where
  | u8 (n : UInt8)
  | u16 (n : UInt16)
  | u32 (n : UInt32)
  | u64 (n : UInt64)
  | i16 (n : Int16)
  | i32 (n : Int32)
  | i64 (n : Int64)
  | bool (b : Bool)
  /-- a variant in the variant of the map -/
  | value (inner : Value)
  /-- strings, floats, arrays and the rest -/
  | other (signature : String)
deriving DecidableEq

inductive Kind where
  | number (min max : Nat)
  | bool
deriving DecidableEq, Repr

/-- A settable key, its D-Bus type, and the accepted range for numbers. -/
structure config.Key where
  name : String
  kind : Kind
deriving DecidableEq, Repr

def KEYS : List config.Key :=
  [ { name := "memory_budget_mb", kind := .number 64 (2 ^ 20) },
    { name := "keep_warm", kind := .number 0 16 },
    { name := "keep_warm_seconds", kind := .number 0 86400 },
    { name := "idle_exit_seconds", kind := .number 5 86400 },
    { name := "network", kind := .bool },
    { name := "allow_prerelease", kind := .bool } ]

/-- A value checked against its key. -/
inductive Setting where
  | number (n : Nat)
  | bool (b : Bool)
deriving DecidableEq, Repr

/-- `u64::try_from` of a signed number. -/
def nonNegative (n : Int) : Option Nat :=
  if 0 ≤ n then some n.toNat else none

/-- Any unsigned or non-negative integer D-Bus type. -/
def as_number : Value → Option Nat
  | .u8 n => some n.toNat
  | .u16 n => some n.toNat
  | .u32 n => some n.toNat
  | .u64 n => some n.toNat
  | .i16 n => nonNegative n.toInt
  | .i32 n => nonNegative n.toInt
  | .i64 n => nonNegative n.toInt
  | .bool _ | .value _ | .other _ => none

/-- `downcast_ref::<bool>`, which looks into one more variant. -/
def downcast_bool : Value → Option Bool
  | .bool b => some b
  | .value (.bool b) => some b
  | _ => none

namespace Config

/-- The turn of one change in `check`. -/
def checkChange (host : Host) (name : String) (value : Value) : Except String Setting :=
  match KEYS.find? (fun k => k.name = name) with
  | none => .error ("unknown setting " ++ host.debug name)
  | some key =>
      match key.kind with
      | .bool =>
          match downcast_bool value with
          | none => .error (name ++ " must be a boolean")
          | some b => .ok (.bool b)
      | .number min max =>
          match as_number value with
          | none => .error (name ++ " must be an integer")
          | some n =>
              if min ≤ n ∧ n ≤ max then .ok (.number n)
              else .error (name ++ " must be between " ++ toString min ++ " and " ++ toString max)

/-- Validates every change first, so a bad key or value changes nothing.
The changes come in the order in which the map is gone through. -/
def check (host : Host) : List (String × Value) → Except String (List (String × Setting))
  | [] => .ok []
  | (name, value) :: changes => do
      let setting ← checkChange host name value
      let checked ← check host changes
      .ok ((name, setting) :: checked)

/-- The turn of one change in `apply`; `none` is its `unreachable!`. -/
def set (config : Config) (name : String) (setting : Setting) : Option Config :=
  match name, setting with
  | "memory_budget_mb", .number n => some { config with memory_budget_mb := n }
  | "keep_warm", .number n => some { config with keep_warm := n }
  | "keep_warm_seconds", .number n => some { config with keep_warm_seconds := n }
  | "idle_exit_seconds", .number n => some { config with idle_exit_seconds := n }
  | "network", .bool b => some { config with network := b }
  | "allow_prerelease", .bool b => some { config with allow_prerelease := b }
  | _, _ => none

/-- Applies changes from `check`. -/
def apply (config : Config) (changes : List (String × Setting)) : Option Config :=
  changes.foldlM (fun config change => config.set change.1 change.2) config

/-- Every key with its current value: numbers as `t` (`u` for
`keep_warm`), switches as `b`. -/
def to_values (config : Config) : List (String × Value) :=
  [ ("memory_budget_mb", .u64 (UInt64.ofNat config.memory_budget_mb)),
    ("keep_warm", .u32 (UInt32.ofNat config.keep_warm)),
    ("keep_warm_seconds", .u64 (UInt64.ofNat config.keep_warm_seconds)),
    ("idle_exit_seconds", .u64 (UInt64.ofNat config.idle_exit_seconds)),
    ("network", .bool config.network),
    ("allow_prerelease", .bool config.allow_prerelease) ]

end Config

/-! ## The document -/

/-- The value of a top-level key of a document. -/
inductive TomlValue where
  | integer (n : Int)
  | boolean (b : Bool)
  /-- strings, floats, dates, arrays and tables -/
  | other (text : String)
deriving DecidableEq, Repr

/-- `i64::try_from(n).unwrap_or(i64::MAX)` for a number. -/
def Setting.toToml : Setting → TomlValue
  | .number n => .integer (min n (2 ^ 63 - 1) : Nat)
  | .bool b => .boolean b

/-- A top-level key, with the comments and blank lines before it. -/
structure Item where
  decor : String
  name : String
  value : TomlValue
deriving DecidableEq, Repr

/-- A document has a key once. -/
structure Document where
  items : List Item
  trailing : String
  nodup : (items.map Item.name).Nodup
deriving DecidableEq

namespace Document

def empty : Document where
  items := []
  trailing := ""
  nodup := List.nodup_nil

/-- The values of the keys. -/
def entries (document : Document) : List (String × TomlValue) :=
  document.items.map fun item => (item.name, item.value)

/-- The items after `document[name] = value`: the value is replaced where
the key is, and a new key comes last. -/
def setItems (items : List Item) (name : String) (value : TomlValue) : List Item :=
  if name ∈ items.map Item.name then
    items.map fun item => if item.name = name then { item with value } else item
  else items ++ [{ decor := "", name, value }]

theorem names_setItems {items : List Item} {name : String} {value : TomlValue} :
    (setItems items name value).map Item.name
      = if name ∈ items.map Item.name then items.map Item.name
        else items.map Item.name ++ [name] := by
  rw [setItems]
  split
  · rw [List.map_map]
    refine List.map_congr_left fun item _ => ?_
    rw [Function.comp_apply]
    split <;> rfl
  · rw [List.map_append]
    rfl

theorem nodup_setItems {items : List Item} (h : (items.map Item.name).Nodup) (name : String)
    (value : TomlValue) : ((setItems items name value).map Item.name).Nodup := by
  rw [names_setItems]
  split
  · exact h
  · rename_i hnot
    exact h.append (List.nodup_singleton _) (List.disjoint_singleton.mpr hnot)

def set (document : Document) (name : String) (value : TomlValue) : Document where
  items := setItems document.items name value
  trailing := document.trailing
  nodup := nodup_setItems document.nodup name value

/-- The document with the changed keys set. -/
def edited (document : Document) (changes : List (String × Setting)) : Document :=
  changes.foldl (fun document change => document.set change.1 change.2.toToml) document

end Document

/-- What is in the file: a document, or a text that is none, with what the
toml crates say of it. -/
inductive Text where
  | document (document : Document)
  | malformed (text message : String)
deriving DecidableEq

/-! ## Loading -/

/-- Why `load` fails. The texts of the last two are the toml crate's. -/
inductive LoadError where
  | read (message : String)
  | parse (message : String)
  | unknown_field (name : String)
  | invalid_type (name : String)
deriving DecidableEq, Repr

inductive ReadError where
  | notFound
  | other (message : String)
deriving DecidableEq, Repr

namespace Config

/-- Deserialises a field of type `u64` or `usize`. -/
def unsigned (name : String) : TomlValue → Except LoadError Nat
  | .integer n => if 0 ≤ n ∧ n < 2 ^ 64 then .ok n.toNat else .error (.invalid_type name)
  | .boolean _ | .other _ => .error (.invalid_type name)

def switch (name : String) : TomlValue → Except LoadError Bool
  | .boolean b => .ok b
  | .integer _ | .other _ => .error (.invalid_type name)

/-- Deserialises one entry; `deny_unknown_fields`. -/
def visit (config : Config) (entry : String × TomlValue) : Except LoadError Config :=
  match entry.1 with
  | "memory_budget_mb" => do
      let n ← unsigned entry.1 entry.2
      .ok { config with memory_budget_mb := n }
  | "keep_warm" => do
      let n ← unsigned entry.1 entry.2
      .ok { config with keep_warm := n }
  | "keep_warm_seconds" => do
      let n ← unsigned entry.1 entry.2
      .ok { config with keep_warm_seconds := n }
  | "idle_exit_seconds" => do
      let n ← unsigned entry.1 entry.2
      .ok { config with idle_exit_seconds := n }
  | "network" => do
      let b ← switch entry.1 entry.2
      .ok { config with network := b }
  | "allow_prerelease" => do
      let b ← switch entry.1 entry.2
      .ok { config with allow_prerelease := b }
  | name => .error (.unknown_field name)

/-- `toml::from_str`: a field that the document lacks has its default. -/
def from_str : Text → Except LoadError Config
  | .malformed _ message => .error (.parse message)
  | .document document => document.entries.foldlM visit Config.default

/-- Loads the config file, or the defaults when it does not exist. -/
def load : Except ReadError Text → Except LoadError Config
  | .ok text => from_str text
  | .error .notFound => .ok Config.default
  | .error (.other message) => .error (.read message)

end Config

/-! ## Saving -/

/-- The path of the file: the directory and the file's name in it. -/
structure ConfigPath where
  directory : String
  name : String
deriving DecidableEq, Repr

def ConfigPath.display (path : ConfigPath) : String := path.directory ++ "/" ++ path.name

/-- The file, and the temporary file next to it: `.config.toml.` and the
process's id, one name for all calls. -/
structure ConfigFiles where
  file : Option Text
  temporary : Option Text
deriving DecidableEq

/-- What goes wrong in one call: the errors of the operations that fail,
what a failed `write` leaves of the temporary file, and whether
`remove_file` works. -/
structure SaveIo where
  read : Option String
  create_dir_all : Option String
  write : Option (String × Option Text)
  rename : Option String
  remove_file : Bool
  /-- what `toml_edit` says of an integer that it cannot hold -/
  overflow : String
deriving DecidableEq

/-- Nothing goes wrong. -/
def SaveIo.fine : SaveIo where
  read := none
  create_dir_all := none
  write := none
  rename := none
  remove_file := true
  overflow := ""

/-- `std::fs::read_to_string` of the file. -/
def SaveIo.read_to_string (io : SaveIo) (file : Option Text) : Except ReadError Text :=
  match io.read, file with
  | some message, _ => .error (.other message)
  | none, none => .error .notFound
  | none, some text => .ok text

namespace Config

/-- `parse` of the text read; `toml_edit` has 64-bit signed integers. -/
def parse (io : SaveIo) (existing : Text) : Except String Document :=
  match existing with
  | .malformed _ message => .error message
  | .document document =>
      if document.entries.all fun entry => match entry.2 with
        | .integer n => -2 ^ 63 ≤ n ∧ n < 2 ^ 63
        | .boolean _ | .other _ => true
      then .ok document
      else .error io.overflow

/-- The text to edit: an absent file is an empty one. -/
def existingText (path : ConfigPath) : Except ReadError Text → Except String Text
  | .ok text => .ok text
  | .error .notFound => .ok (.document Document.empty)
  | .error (.other message) => .error (path.display ++ ": " ++ message)

/-- The first half of `save`: the document of the file, with the changed
keys set. -/
def edit (io : SaveIo) (path : ConfigPath) (existing : Except ReadError Text)
    (changes : List (String × Setting)) : Except String Document := do
  let existing ← existingText path existing
  match parse io existing with
  | .error message => .error (path.display ++ ": " ++ message)
  | .ok document => .ok (document.edited changes)

/-- Removes the temporary file, if that works. -/
def removeTemporary (io : SaveIo) (files : ConfigFiles) : ConfigFiles :=
  if io.remove_file then { files with temporary := none } else files

/-- The document goes to the temporary file. -/
def writeTemporary (io : SaveIo) (path : ConfigPath) (files : ConfigFiles) (document : Document) :
    ConfigFiles × Except String Unit :=
  match io.create_dir_all, io.write with
  | some message, _ => (files, .error (path.directory ++ ": " ++ message))
  | none, some (message, left) =>
      (removeTemporary io { files with temporary := left },
        .error (path.display ++ ": " ++ message))
  | none, none => ({ files with temporary := some (.document document) }, .ok ())

/-- The temporary file, if it is there, takes the place of the file. -/
def renameTemporary (io : SaveIo) (path : ConfigPath) (files : ConfigFiles) :
    ConfigFiles × Except String Unit :=
  match io.rename, files.temporary with
  | none, some text => ({ file := some text, temporary := none }, .ok ())
  | none, none =>
      (files, .error (path.display ++ ": " ++ "No such file or directory (os error 2)"))
  | some message, _ => (removeTemporary io files, .error (path.display ++ ": " ++ message))

/-- The second half of `save`. -/
def replace (io : SaveIo) (path : ConfigPath) (files : ConfigFiles) (document : Document) :
    ConfigFiles × Except String Unit :=
  match writeTemporary io path files document with
  | (files, .error message) => (files, .error message)
  | (files, .ok ()) => renameTemporary io path files

/-- Writes the changed keys into the file at `path`, keeping everything
else in it and replacing it atomically. -/
def save (io : SaveIo) (path : ConfigPath) (files : ConfigFiles)
    (changes : List (String × Setting)) : ConfigFiles × Except String Unit :=
  match edit io path (io.read_to_string files.file) changes with
  | .error message => (files, .error message)
  | .ok document => replace io path files document

end Config

/-! ## SetConfig -/

/-- What `SetConfig` has to do with: the configuration in memory and in
the file, the provider's flag, the budgets that `enforce_budget` was
called with and the `ConfigChanged` signals sent. -/
structure ConfigState where
  config : Config
  config_path : Option ConfigPath
  files : ConfigFiles
  allow_prerelease : Bool
  enforced : List Nat
  signals : List (List (String × Value))
deriving DecidableEq

/-- A daemon that has loaded its configuration. -/
def ConfigState.start (config : Config) (config_path : Option ConfigPath) (files : ConfigFiles) :
    ConfigState where
  config
  config_path
  files
  allow_prerelease := config.allow_prerelease
  enforced := []
  signals := []

/-- The configuration that a daemon started now would have. -/
def ConfigState.loaded (state : ConfigState) : Except LoadError Config :=
  Config.load (SaveIo.fine.read_to_string state.files.file)

/-- What comes after the file is written. -/
def ConfigState.takeOver (state : ConfigState) (config : Config) : ConfigState :=
  { state with
    config
    allow_prerelease := config.allow_prerelease
    enforced := state.enforced ++ [config.memory_budget_mb]
    signals := state.signals ++ [config.to_values] }

/-- One call on its own; `none` is a panic. -/
def set_config (host : Host) (io : SaveIo) (state : ConfigState)
    (changes : List (String × Value)) : Option (ConfigState × Except Error Unit) :=
  match Config.check host changes with
  | .error message => some (state, .error (.invalidArgument message))
  | .ok checked =>
      let (files, saved) := match state.config_path with
        | some path => Config.save io path state.files checked
        | none => (state.files, .ok ())
      let state := { state with files }
      match saved with
      | .error message => some (state, .error (.engineFailure message))
      | .ok () => do
          let config ← state.config.apply checked
          some (state.takeOver config, .ok ())

def get_config (state : ConfigState) : List (String × Value) := state.config.to_values

/-! ## What a configuration says of a key -/

/-- The value of the key, in the form in which `check` returns it. -/
def Config.get (config : Config) : String → Option Setting
  | "memory_budget_mb" => some (.number config.memory_budget_mb)
  | "keep_warm" => some (.number config.keep_warm)
  | "keep_warm_seconds" => some (.number config.keep_warm_seconds)
  | "idle_exit_seconds" => some (.number config.idle_exit_seconds)
  | "network" => some (.bool config.network)
  | "allow_prerelease" => some (.bool config.allow_prerelease)
  | _ => none

/-- The setting is of the key's type. -/
def Setting.fits (name : String) : Setting → Bool
  | .number _ =>
      ["memory_budget_mb", "keep_warm", "keep_warm_seconds", "idle_exit_seconds"].contains name
  | .bool _ => ["network", "allow_prerelease"].contains name

/-- The changes, as values of the keys of `Config.get`. -/
def assignments (changes : List (String × Setting)) : List (String × Option Setting) :=
  changes.map fun change => (change.1, some change.2)

namespace Config

variable {config config' : Config} {name : String} {setting : Setting}

theorem get_injective (h : config.get = config'.get) : config = config' := by
  have h₁ := congrFun h "memory_budget_mb"
  have h₂ := congrFun h "keep_warm"
  have h₃ := congrFun h "keep_warm_seconds"
  have h₄ := congrFun h "idle_exit_seconds"
  have h₅ := congrFun h "network"
  have h₆ := congrFun h "allow_prerelease"
  simp only [get, Option.some.injEq, Setting.number.injEq, Setting.bool.injEq] at h₁ h₂ h₃ h₄ h₅ h₆
  cases config
  cases config'
  simp_all

theorem get_set (h : config.set name setting = some config') :
    config'.get = Function.update config.get name (some setting) := by
  funext key
  unfold set at h
  split at h <;> first
    | cases h
      rw [Function.update_apply]
      unfold get
      split <;> simp_all
    | cases h

theorem exists_set (config : Config) (h : setting.fits name = true) :
    ∃ config', config.set name setting = some config' := by
  cases setting with
  | number n =>
      simp only [Setting.fits, List.contains_eq_mem, List.mem_cons, List.not_mem_nil, or_false,
        decide_eq_true_eq] at h
      rcases h with rfl | rfl | rfl | rfl <;> exact ⟨_, rfl⟩
  | bool b =>
      simp only [Setting.fits, List.contains_eq_mem, List.mem_cons, List.not_mem_nil, or_false,
        decide_eq_true_eq] at h
      rcases h with rfl | rfl <;> exact ⟨_, rfl⟩

theorem fits_of_set (h : config.set name setting = some config') : setting.fits name = true := by
  unfold set at h
  split at h <;> first | rfl | cases h

end Config

/-! ## Applying changes -/

namespace Config

variable {config config' : Config} {changes : List (String × Setting)}

theorem apply_cons {name : String} {setting : Setting} :
    config.apply ((name, setting) :: changes)
      = (config.set name setting).bind fun config => config.apply changes := by
  rw [apply, List.foldlM_cons]
  rfl

/-- `apply` meets its `unreachable!` when a setting is not of its key's
type, and overrides the keys otherwise. -/
theorem apply_eq_some : config.apply changes = some config'
    ↔ (∀ change ∈ changes, change.2.fits change.1 = true)
      ∧ config'.get = override config.get (assignments changes) := by
  induction changes generalizing config with
  | nil =>
      constructor
      · intro h
        cases h
        exact ⟨fun _ h => absurd h List.not_mem_nil, rfl⟩
      · rintro ⟨-, h⟩
        rw [get_injective h]
        rfl
  | cons change rest ih =>
      obtain ⟨name, setting⟩ := change
      rw [apply_cons, Option.bind_eq_some_iff, List.forall_mem_cons]
      constructor
      · rintro ⟨middle, hset, hrest⟩
        obtain ⟨hfits, hget⟩ := ih.mp hrest
        refine ⟨⟨fits_of_set hset, hfits⟩, ?_⟩
        rw [hget, get_set hset]
        rfl
      · rintro ⟨⟨hfits, hrest⟩, hget⟩
        obtain ⟨middle, hset⟩ := exists_set config hfits
        refine ⟨middle, hset, ih.mpr ⟨hrest, ?_⟩⟩
        rw [hget, get_set hset]
        rfl

theorem exists_apply (config : Config) (h : ∀ change ∈ changes, change.2.fits change.1 = true) :
    ∃ config', config.apply changes = some config' := by
  induction changes generalizing config with
  | nil => exact ⟨config, rfl⟩
  | cons change rest ih =>
      obtain ⟨hfits, hrest⟩ := List.forall_mem_cons.mp h
      obtain ⟨middle, hset⟩ := exists_set config hfits
      obtain ⟨config', happly⟩ := ih middle hrest
      exact ⟨config', by rw [apply_cons, hset]; exact happly⟩

theorem apply_append {more : List (String × Setting)} :
    config.apply (changes ++ more) = (config.apply changes).bind fun c => c.apply more :=
  List.foldlM_append

end Config

/-! ## Checked changes -/

/-- Each change has been checked. -/
def Checked (host : Host) (changes : List (String × Value)) (checked : List (String × Setting)) :
    Prop :=
  List.Forall₂ (fun change setting => setting.1 = change.1
    ∧ Config.checkChange host change.1 change.2 = .ok setting.2) changes checked

/-- A number fits the file's integers. -/
def Setting.Small : Setting → Prop
  | .number n => n < 2 ^ 63
  | .bool _ => True

/-- A number that `check` lets through. -/
def Setting.inRange (name : String) : Setting → Prop
  | .number n => ∀ key ∈ KEYS, key.name = name →
      ∀ min max, key.kind = .number min max → min ≤ n ∧ n ≤ max
  | .bool _ => True

namespace Config

variable {host : Host} {name : String} {value : Value} {setting : Setting}
  {changes changes' : List (String × Value)} {checked : List (String × Setting)}

theorem check_eq_ok : check host changes = .ok checked ↔ Checked host changes checked := by
  induction changes generalizing checked with
  | nil =>
      rw [check, Checked, List.forall₂_nil_left_iff]
      exact ⟨fun h => by cases h; rfl, fun h => by rw [h]⟩
  | cons change rest ih =>
      obtain ⟨name, value⟩ := change
      rw [check, Checked, List.forall₂_cons_left_iff]
      constructor
      · intro h
        obtain ⟨setting, hsetting, h⟩ := FileTree.bind_eq_ok.mp h
        obtain ⟨others, hothers, h⟩ := FileTree.bind_eq_ok.mp h
        cases h
        exact ⟨_, _, ⟨rfl, hsetting⟩, ih.mp hothers, rfl⟩
      · rintro ⟨⟨_, setting⟩, others, ⟨rfl, hsetting⟩, hothers, rfl⟩
        exact FileTree.bind_eq_ok.mpr ⟨setting, hsetting,
          FileTree.bind_eq_ok.mpr ⟨others, ih.mpr hothers, rfl⟩⟩

end Config

/-! ## What a document says of a key -/

namespace Document

variable {document : Document} {items : List Item} {name key : String} {value : TomlValue}

/-- The value of the key. -/
def get (document : Document) (name : String) : Option TomlValue :=
  document.entries.lookup name

theorem lookup_replaced :
    ((items.map fun item => if item.name = name then { item with value } else item).map
        fun item => (item.name, item.value)).lookup key
      = if key = name ∧ name ∈ items.map Item.name then some value
        else (items.map fun item => (item.name, item.value)).lookup key := by
  induction items with
  | nil => simp
  | cons item rest ih =>
      simp only [List.map_cons, List.lookup_cons, ih, List.mem_cons]
      by_cases hkey : key = item.name
      · subst hkey
        by_cases hname : item.name = name
        · simp [hname]
        · simp [hname]
      · have hkey' : (key == (if item.name = name then { item with value } else item).name)
            = false := by
          split <;> exact beq_eq_false_iff_ne.mpr hkey
        rw [hkey', beq_eq_false_iff_ne.mpr hkey]
        by_cases hname : key = name
        · have hne : ¬name = item.name := fun h => hkey (hname.trans h)
          simp [hname, hne]
        · simp [hname]

theorem lookup_eq_none (h : name ∉ items.map Item.name) :
    (items.map fun item => (item.name, item.value)).lookup name = none := by
  rw [List.lookup_eq_none_iff]
  intro entry hentry
  obtain ⟨item, hitem, rfl⟩ := List.mem_map.mp hentry
  refine bne_iff_ne.mpr fun heq : name = item.name => h ?_
  rw [heq]
  exact List.mem_map_of_mem hitem

theorem get_set : (document.set name value).get = Function.update document.get name (some value) := by
  funext key
  rw [Function.update_apply]
  show ((setItems document.items name value).map _).lookup key = _
  rw [setItems]
  split
  · rename_i hmem
    rw [lookup_replaced]
    simp only [hmem, and_true]
    rfl
  · rename_i hnot
    rw [List.map_append, List.lookup_append]
    by_cases hkey : key = name
    · subst hkey
      rw [lookup_eq_none hnot, if_pos rfl]
      simp
    · rw [if_neg hkey, List.map_singleton, List.lookup_cons, beq_eq_false_iff_ne.mpr hkey]
      exact Option.or_none

end Document

/-! ## Loading a document -/

/-- The value of a key, in the form in which `check` returns it: what
deserialising the key's field makes of it. -/
def TomlValue.toSetting (name : String) : TomlValue → Option Setting
  | .integer n =>
      if 0 ≤ n ∧ n < 2 ^ 64 ∧ (Setting.number n.toNat).fits name = true then
        some (.number n.toNat)
      else none
  | .boolean b => if (Setting.bool b).fits name = true then some (.bool b) else none
  | .other _ => none

namespace Config

variable {config config' : Config} {name : String} {setting : Setting} {value : TomlValue}

/-- A key is a number or a switch. -/
theorem not_fits_bool {n : Nat} {b : Bool} (h : (Setting.number n).fits name = true) :
    ¬(Setting.bool b).fits name = true := by
  simp only [Setting.fits, List.contains_eq_mem, List.mem_cons, List.not_mem_nil, or_false,
    decide_eq_true_eq] at h ⊢
  rcases h with rfl | rfl | rfl | rfl <;> decide

theorem toSetting_eq_number {n : Nat} : value.toSetting name = some (.number n)
    ↔ value = .integer n ∧ n < 2 ^ 64 ∧ (Setting.number n).fits name = true := by
  cases value with
  | integer m =>
      rw [TomlValue.toSetting, TomlValue.integer.injEq]
      constructor
      · intro h
        split at h
        · rename_i hm
          cases h
          have hm' : (m.toNat : Int) = m := Int.toNat_of_nonneg hm.1
          exact ⟨hm'.symm, by omega, hm.2.2⟩
        · cases h
      · rintro ⟨rfl, hlt, hfits⟩
        rw [if_pos ⟨by omega, by omega, hfits⟩]
        rfl
  | boolean b => simp [TomlValue.toSetting]
  | other text => simp [TomlValue.toSetting]

theorem toSetting_eq_bool {b : Bool} : value.toSetting name = some (.bool b)
    ↔ value = .boolean b ∧ (Setting.bool b).fits name = true := by
  cases value with
  | integer m => simp [TomlValue.toSetting]
  | boolean b' =>
      rw [TomlValue.toSetting, TomlValue.boolean.injEq]
      constructor
      · intro h
        split at h
        · rename_i hfits
          cases h
          exact ⟨rfl, hfits⟩
        · cases h
      · rintro ⟨rfl, hfits⟩
        rw [if_pos hfits]
  | other text => simp [TomlValue.toSetting]

theorem fits_of_toSetting (h : value.toSetting name = some setting) :
    setting.fits name = true := by
  cases setting with
  | number n => exact (toSetting_eq_number.mp h).2.2
  | bool b => exact (toSetting_eq_bool.mp h).2

theorem unsigned_eq_ok {n : Nat} :
    unsigned name value = .ok n ↔ value = .integer n ∧ n < 2 ^ 64 := by
  cases value with
  | integer m =>
      rw [unsigned, TomlValue.integer.injEq]
      constructor
      · intro h
        split at h
        · rename_i hm
          cases h
          exact ⟨(Int.toNat_of_nonneg hm.1).symm, by omega⟩
        · cases h
      · rintro ⟨rfl, hlt⟩
        rw [if_pos ⟨by omega, by omega⟩]
        rfl
  | boolean b => simp [unsigned]
  | other text => simp [unsigned]

theorem switch_eq_ok {b : Bool} : switch name value = .ok b ↔ value = .boolean b := by
  cases value <;> simp [switch]

/-- Deserialising a field of a number. -/
theorem visit_number {f : Nat → Config} (hset : ∀ n, config.set name (.number n) = some (f n)) :
    (do let n ← unsigned name value; Except.ok (f n)) = .ok config'
      ↔ ∃ setting, value.toSetting name = some setting
        ∧ config.set name setting = some config' := by
  constructor
  · intro h
    obtain ⟨n, hn, h⟩ := FileTree.bind_eq_ok.mp h
    cases h
    obtain ⟨hvalue, hlt⟩ := unsigned_eq_ok.mp hn
    exact ⟨.number n, toSetting_eq_number.mpr ⟨hvalue, hlt, fits_of_set (hset n)⟩, hset n⟩
  · rintro ⟨setting, hsetting, h⟩
    cases setting with
    | number n =>
        obtain ⟨hvalue, hlt, -⟩ := toSetting_eq_number.mp hsetting
        refine FileTree.bind_eq_ok.mpr ⟨n, unsigned_eq_ok.mpr ⟨hvalue, hlt⟩, ?_⟩
        rw [hset, Option.some.injEq] at h
        rw [h]
    | bool b => exact absurd (fits_of_set h) (not_fits_bool (fits_of_set (hset 0)))

/-- Deserialising a field of a switch. -/
theorem visit_switch {f : Bool → Config} (hset : ∀ b, config.set name (.bool b) = some (f b)) :
    (do let b ← switch name value; Except.ok (f b)) = .ok config'
      ↔ ∃ setting, value.toSetting name = some setting
        ∧ config.set name setting = some config' := by
  constructor
  · intro h
    obtain ⟨b, hb, h⟩ := FileTree.bind_eq_ok.mp h
    cases h
    exact ⟨.bool b, toSetting_eq_bool.mpr ⟨switch_eq_ok.mp hb, fits_of_set (hset b)⟩, hset b⟩
  · rintro ⟨setting, hsetting, h⟩
    cases setting with
    | number n => exact absurd (fits_of_set (hset true)) (not_fits_bool (fits_of_set h))
    | bool b =>
        refine FileTree.bind_eq_ok.mpr ⟨b, switch_eq_ok.mpr (toSetting_eq_bool.mp hsetting).1, ?_⟩
        rw [hset, Option.some.injEq] at h
        rw [h]

/-- Visiting an entry sets its key. -/
theorem visit_eq_ok : visit config (name, value) = .ok config'
    ↔ ∃ setting, value.toSetting name = some setting ∧ config.set name setting = some config' := by
  unfold visit
  split
  · rename_i hname
    exact visit_number fun _ => by rw [hname]; rfl
  · rename_i hname
    exact visit_number fun _ => by rw [hname]; rfl
  · rename_i hname
    exact visit_number fun _ => by rw [hname]; rfl
  · rename_i hname
    exact visit_number fun _ => by rw [hname]; rfl
  · rename_i hname
    exact visit_switch fun _ => by rw [hname]; rfl
  · rename_i hname
    exact visit_switch fun _ => by rw [hname]; rfl
  · constructor
    · intro h
      cases h
    rintro ⟨setting, -, h⟩
    have hfits := fits_of_set h
    cases setting <;> simp_all [Setting.fits]

/-- The values that the entries give the keys; the others are as they were. -/
theorem visits_eq_ok {entries : List (String × TomlValue)} (h : (entries.map Prod.fst).Nodup) :
    entries.foldlM visit config = .ok config' ↔ ∀ name, match entries.lookup name with
      | none => config'.get name = config.get name
      | some value => ∃ setting, value.toSetting name = some setting
          ∧ config'.get name = some setting := by
  induction entries generalizing config with
  | nil =>
      constructor
      · intro h name
        cases h
        rfl
      · intro h
        rw [get_injective (funext h)]
        rfl
  | cons entry rest ih =>
      obtain ⟨key, value⟩ := entry
      obtain ⟨hnot, hrest⟩ := List.nodup_cons.mp h
      have hnone : rest.lookup key = none := by
        rw [List.lookup_eq_none_iff]
        intro entry hentry
        exact bne_iff_ne.mpr fun heq => hnot (List.mem_map.mpr ⟨entry, hentry, heq.symm⟩)
      rw [List.foldlM_cons]
      constructor
      · intro h name
        obtain ⟨middle, hvisit, h⟩ := FileTree.bind_eq_ok.mp h
        obtain ⟨setting, hsetting, hset⟩ := visit_eq_ok.mp hvisit
        have hname := (ih hrest).mp h name
        by_cases hkey : name = key
        · subst hkey
          rw [hnone] at hname
          rw [List.lookup_cons, beq_self_eq_true]
          exact ⟨setting, hsetting, hname.trans (by rw [get_set hset, Function.update_self])⟩
        · rw [List.lookup_cons, beq_eq_false_iff_ne.mpr hkey]
          split at hname
          · rename_i heq
            simp only [heq]
            rw [hname, get_set hset, Function.update_of_ne hkey]
          · rename_i heq
            simp only [heq]
            exact hname
      · intro hall
        have hkey := hall key
        rw [List.lookup_cons, beq_self_eq_true] at hkey
        obtain ⟨setting, hsetting, hget⟩ := hkey
        obtain ⟨middle, hset⟩ := exists_set config (fits_of_toSetting hsetting)
        refine FileTree.bind_eq_ok.mpr
          ⟨middle, visit_eq_ok.mpr ⟨setting, hsetting, hset⟩, (ih hrest).mpr fun name => ?_⟩
        by_cases hkey : name = key
        · subst hkey
          rw [hnone, get_set hset, Function.update_self]
          exact hget
        · have hname := hall name
          rw [List.lookup_cons, beq_eq_false_iff_ne.mpr hkey] at hname
          rw [get_set hset, Function.update_of_ne hkey]
          exact hname

/-- A document is loaded exactly if every key in it can be; the others
have their defaults. -/
theorem from_str_eq_ok {document : Document} :
    from_str (.document document) = .ok config ↔ ∀ name, match document.get name with
      | none => config.get name = Config.default.get name
      | some value => ∃ setting, value.toSetting name = some setting
          ∧ config.get name = some setting := by
  refine visits_eq_ok ?_
  rw [Document.entries, List.map_map]
  exact document.nodup

theorem toSetting_toToml (hsmall : setting.Small) (hfits : setting.fits name = true) :
    setting.toToml.toSetting name = some setting := by
  cases setting with
  | number n =>
      have hn : n < 2 ^ 63 := hsmall
      rw [Setting.toToml, Nat.min_eq_left (by omega)]
      exact toSetting_eq_number.mpr ⟨rfl, by omega, hfits⟩
  | bool b => exact toSetting_eq_bool.mpr ⟨rfl, hfits⟩

/-- Loading after a key of the document is set. -/
theorem from_str_set {document : Document} (hload : from_str (.document document) = .ok config)
    (hset : config.set name setting = some config') (hsmall : setting.Small) :
    from_str (.document (document.set name setting.toToml)) = .ok config' := by
  rw [from_str_eq_ok] at hload ⊢
  intro key
  rw [Document.get_set, get_set hset]
  by_cases hkey : key = name
  · subst hkey
    rw [Function.update_self, Function.update_self]
    exact ⟨setting, toSetting_toToml hsmall (fits_of_set hset), rfl⟩
  · rw [Function.update_of_ne hkey, Function.update_of_ne hkey]
    exact hload key

end Config

end Dragomand
