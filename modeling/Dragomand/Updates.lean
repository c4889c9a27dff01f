import Dragomand.Installed

/-!
# Updates and language pairs

What is made of the accepted sets: the updates that `check_for_updates`
reports, the set that `install_pair` installs, and the rows of
`ListLanguagePairs`. All three are given the sets; `Available` has the same
ones whether it comes from the server or from the cache.
-/

namespace Dragomand

open SortedMap (alter Sorted)

/-! ## Updates -/

/-- As the provider reports it. -/
structure remote_settings.UpdateInfo where
  source : String
  target : String
  installed : MozVersion
  available : MozVersion
deriving DecidableEq, Repr

section Updates

variable (host : ModelHost) (t : FileTree Bytes) (stores : Stores) (sets : List ModelSet)

/-- A set, if it is newer than what is installed. -/
def Stores.update (set : ModelSet) : Option remote_settings.UpdateInfo :=
  match stores.first_installed host t set.pair with
  | none => none
  | some best =>
      if set.version.cmp best.version = .gt then
        some ⟨set.source, set.target, best.version, set.version⟩
      else none

def Stores.check_for_updates : List remote_settings.UpdateInfo := sets.filterMap (stores.update host t)

/-- The set that `install_pair` installs. -/
def pairSet (source target : String) : Option ModelSet :=
  sets.find? fun s => s.source = source && s.target = target && s.variant = none

/-- The models that `RemovePair` removes. -/
def Stores.removed (source target : String) : List InstalledModel :=
  (stores.scan host t).1.filter fun m => m.pair = source ++ "-" ++ target && m.origin = .user

end Updates

/-! ## Language pairs -/

/-- What the registry says about one model file. -/
structure ModelQuality where
  release_status : Option String
  comet : Option Float
deriving Repr

/-- `registry::Registry`. -/
structure ModelRegistry where
  by_model_hash : String → Option ModelQuality

def ModelRegistry.quality (registry : ModelRegistry) (model_sha256 : String) : Option ModelQuality :=
  registry.by_model_hash (String.ofList (model_sha256.toList.map Char.toLower))

/-- A row of `ListLanguagePairs`; the keys it lacks are `none`. -/
structure Row where
  source : String
  target : String
  installed_version : Option String
  origin : Option String
  architecture : Option String
  size : Option Nat
  release_status : Option String
  quality : Option Float
  available_version : Option String
deriving Repr

def Row.ofPair (source target : String) : Row :=
  ⟨source, target, none, none, none, none, none, none, none⟩

/-- Quality metadata for a model file into a pair row. -/
def annotate (row : Row) (registry : Option ModelRegistry) (model_sha256 : Option String) : Row :=
  match registry.bind fun registry => model_sha256.bind registry.quality with
  | none => row
  | some quality =>
      { row with
        release_status := quality.release_status <|> row.release_status
        quality := quality.comet <|> row.quality }

def Origin.text : Origin → String
  | .system => "system"
  | .user => "user"

section Rows

variable (registry : Option ModelRegistry)

def InstalledModel.row (best : InstalledModel) : Row :=
  annotate
    { Row.ofPair best.manifest.source best.manifest.target with
      installed_version := some best.version.raw
      origin := some best.origin.text
      architecture := best.manifest.architecture
      -- the sum of `u64`s wraps
      size := some ((best.manifest.files.map ManifestFile.size).sum % 2 ^ 64) }
    registry ((best.manifest.files.find? fun f => f.role = "model").map ManifestFile.sha256)

/-- A row with an available set entered. -/
def ModelSet.enter (set : ModelSet) (row : Option Row) : Row :=
  let row := row.getD (Row.ofPair set.source set.target)
  let row := { row with
    available_version := some set.version.raw
    architecture := row.architecture <|> set.architecture }
  -- not installed: describe the model an install would fetch
  if row.installed_version.isSome then row
  else
    annotate row registry ((set.files.find? fun file => file.1 = .model).map fun file =>
      file.2.decompressed_hash)

/-- The rows of the installed pairs. -/
def installedRows (installed : List (String × List InstalledModel)) : List (String × Row) :=
  (installed.filterMap fun entry => entry.2.head?.map fun best => (entry.1, best)).foldl
    (fun rows entry => alter compare entry.1 (fun _ => entry.2.row registry) rows) []

variable (host : ModelHost) (t : FileTree Bytes) (stores : Stores)
  (available : Option (List ModelSet))

def Stores.language_rows : List (String × Row) :=
  (available.getD []).foldl (fun rows set => alter compare set.pair (set.enter registry) rows)
    (installedRows registry (stores.installed_by_pair host t))

def Stores.list_language_pairs : List Row :=
  (stores.language_rows registry host t available).map Prod.snd

end Rows

/-! ## What the rows say -/

/-- The row is about the copy; the sets may have given it the version that
is available, and an architecture. -/
def Row.Describes (row : Row) (registry : Option ModelRegistry) (m : InstalledModel) : Prop :=
  { row with architecture := none, available_version := none }
    = { m.row registry with architecture := none, available_version := none }

theorem annotate_installed_version (row : Row) (registry : Option ModelRegistry)
    (model_sha256 : Option String) :
    (annotate row registry model_sha256).installed_version = row.installed_version := by
  unfold annotate
  split <;> rfl

theorem annotate_source (row : Row) (registry : Option ModelRegistry)
    (model_sha256 : Option String) : (annotate row registry model_sha256).source = row.source := by
  unfold annotate
  split <;> rfl

theorem annotate_target (row : Row) (registry : Option ModelRegistry)
    (model_sha256 : Option String) : (annotate row registry model_sha256).target = row.target := by
  unfold annotate
  split <;> rfl

theorem annotate_available_version (row : Row) (registry : Option ModelRegistry)
    (model_sha256 : Option String) :
    (annotate row registry model_sha256).available_version = row.available_version := by
  unfold annotate
  split <;> rfl

section Rows

variable {registry : Option ModelRegistry} {host : ModelHost} {t : FileTree Bytes} {stores : Stores}
  {available : Option (List ModelSet)} {pair : String} {best : InstalledModel}

theorem InstalledModel.row_source (m : InstalledModel) :
    (m.row registry).source = m.manifest.source :=
  annotate_source ..

theorem InstalledModel.row_target (m : InstalledModel) :
    (m.row registry).target = m.manifest.target :=
  annotate_target ..

theorem InstalledModel.row_available_version (m : InstalledModel) :
    (m.row registry).available_version = none :=
  annotate_available_version ..

theorem InstalledModel.row_installed_version (m : InstalledModel) :
    (m.row registry).installed_version = some m.version.raw :=
  annotate_installed_version ..

theorem Stores.sorted_installed : Sorted compare (stores.installed_by_pair host t) := by
  refine List.pairwise_map.mpr ?_
  exact SortedMap.sorted_group (stores.scan host t).1

theorem ModelSet.enter_describes {set : ModelSet} {row : Row} (h : row.Describes registry best) :
    (set.enter registry (some row)).Describes registry best := by
  have hversion : row.installed_version = some best.version.raw := by
    have heq := congrArg Row.installed_version h
    exact heq.trans best.row_installed_version
  unfold ModelSet.enter
  dsimp only [Option.getD_some]
  rw [if_pos (by rw [hversion]; rfl)]
  exact h

/-- Entering sets does not change the copy a row is about. -/
theorem foldl_enter_describes (sets : List ModelSet) {row : Row}
    (h : row.Describes registry best) : ∃ row',
      sets.foldl (fun row set => some (set.enter registry row)) (some row) = some row'
        ∧ row'.Describes registry best := by
  induction sets generalizing row with
  | nil => exact ⟨row, rfl, h⟩
  | cons set sets ih => exact ih (ModelSet.enter_describes h)

/-- Entering sets does not make a row one of an installed model. -/
theorem foldl_enter_none (sets : List ModelSet) {old : Option Row}
    (hold : ∀ row ∈ old, row.installed_version = none) :
    ∀ row ∈ sets.foldl (fun row set => some (set.enter registry row)) old,
      row.installed_version = none := by
  induction sets generalizing old with
  | nil => exact hold
  | cons set sets ih =>
      refine ih fun row hrow => ?_
      obtain rfl := Option.mem_some_iff.mp hrow
      have hnone : (old.getD (Row.ofPair set.source set.target)).installed_version = none := by
        cases old with
        | none => rfl
        | some row => exact hold row rfl
      unfold ModelSet.enter
      dsimp only
      rw [if_neg (by rw [hnone]; exact Bool.false_ne_true), annotate_installed_version]
      exact hnone

theorem sorted_firsts {installed : List (String × List InstalledModel)}
    (h : Sorted compare installed) :
    Sorted compare (installed.filterMap fun entry =>
      entry.2.head?.map fun best => (entry.1, best)) := by
  refine List.pairwise_filterMap.mpr (h.imp fun {a b} hab x hx y hy => ?_)
  obtain ⟨_, -, rfl⟩ := Option.map_eq_some_iff.mp hx
  obtain ⟨_, -, rfl⟩ := Option.map_eq_some_iff.mp hy
  exact hab

/-- The installed models that have rows. -/
theorem get_firsts {installed : List (String × List InstalledModel)}
    (h : Sorted compare installed) :
    SortedMap.get compare (installed.filterMap fun entry =>
        entry.2.head?.map fun best => (entry.1, best)) pair
      = (SortedMap.get compare installed pair).bind List.head? := by
  have hsorted : Sorted compare (installed.filterMap fun entry =>
      entry.2.head?.map fun best => (entry.1, best)) := sorted_firsts h
  cases hget : (SortedMap.get compare installed pair).bind List.head? with
  | some best =>
      obtain ⟨versions, hversions, hbest⟩ := Option.bind_eq_some_iff.mp hget
      obtain ⟨⟨name, versions⟩, hfound, rfl⟩ := Option.map_eq_some_iff.mp hversions
      have hname : compare pair name = .eq := by simpa using List.find?_some hfound
      refine hsorted.get_of_mem (show (name, _) ∈ _ from List.mem_filterMap.mpr
        ⟨_, List.mem_of_find?_eq_some hfound, ?_⟩) hname
      rw [hbest]
      rfl
  | none =>
      refine SortedMap.get_eq_none fun e he heq => ?_
      obtain ⟨⟨name, versions⟩, hmem, hsome⟩ := List.mem_filterMap.mp he
      obtain ⟨best, hbest, rfl⟩ := Option.map_eq_some_iff.mp hsome
      rw [h.get_of_mem hmem heq, Option.bind_some, hbest] at hget
      cases hget

theorem sorted_installedRows :
    Sorted compare (installedRows registry (stores.installed_by_pair host t)) :=
  SortedMap.sorted_foldl_alter _ .nil

theorem get_installedRows :
    SortedMap.get compare (installedRows registry (stores.installed_by_pair host t)) pair
      = (stores.first_installed host t pair).map (InstalledModel.row registry) := by
  unfold installedRows
  rw [Sorted.get_foldl_alter _ .nil,
    (sorted_firsts Stores.sorted_installed).foldl_filter, get_firsts Stores.sorted_installed]
  exact Option.or_none

/-- The row of a name: that of its first installed model, with the sets of
the name entered in turn. -/
theorem Stores.get_language_rows :
    SortedMap.get compare (stores.language_rows registry host t available) pair
      = ((available.getD []).filter fun set => set.pair = pair).foldl
          (fun row set => some (set.enter registry row))
          ((stores.first_installed host t pair).map (InstalledModel.row registry)) := by
  have hfilter : (available.getD []).filter (fun set => compare set.pair pair = .eq)
      = (available.getD []).filter fun set => set.pair = pair :=
    List.filter_congr fun set _ => by simp only [Std.LawfulEqCmp.compare_eq_iff_eq]
  unfold Stores.language_rows
  rw [Sorted.get_foldl_alter _ sorted_installedRows, hfilter, get_installedRows]

end Rows

end Dragomand
