import Mathlib.Data.List.Perm.Basic
import Mathlib.Logic.Function.Basic
import Dragomand.Updates

/-!
# Annotations and the order of the registry

`Registry::parse` takes the lists of the pairs in the order that a hash map
gives them and enters every model under the hash of its file, over what
stands there. So the last entry counts, and the last one of a list is that
list's (`insertAll_append`): the annotations do not depend on the order if
and only if lists that have a hash in common agree on its last entry
(`insertAll_flatMap_iff`).
-/

namespace Dragomand

/-! ## Inserts that overwrite -/

section Inserts

variable {κ ν : Type*} [DecidableEq κ]

/-- The map after the entries have been inserted in turn. -/
def insertAll (map : κ → Option ν) (entries : List (κ × ν)) : κ → Option ν :=
  entries.foldl (fun map entry => Function.update map entry.1 (some entry.2)) map

variable {map : κ → Option ν} {entries entries' : List (κ × ν)} {key : κ}

theorem insertAll_append :
    insertAll map (entries ++ entries') = insertAll (insertAll map entries) entries' :=
  List.foldl_append ..

/-- The last entry of a key counts. -/
theorem insertAll_apply : insertAll map entries key
    = ((entries.filter fun entry => decide (entry.1 = key)).getLast?.map Prod.snd).or (map key) := by
  induction entries using List.reverseRecOn with
  | nil => rfl
  | append_singleton entries entry ih =>
      rw [insertAll_append, List.filter_append]
      show Function.update (insertAll map entries) entry.1 (some entry.2) key = _
      by_cases hkey : entry.1 = key
      · rw [List.filter_singleton, decide_eq_true hkey, ← hkey, Function.update_self]
        simp
      · rw [List.filter_singleton, decide_eq_false hkey, Function.update_of_ne (Ne.symm hkey), ih]
        simp

theorem insertAll_or : insertAll map entries key
    = (insertAll (fun _ => none) entries key).or (map key) := by
  rw [insertAll_apply, insertAll_apply, Option.or_none]

section Blocks

variable {α : Type*} {blocks : List α} {f : α → List (κ × ν)} {value : ν}

theorem insertAll_flatMap_concat {block : α} :
    insertAll (fun _ => none) ((blocks ++ [block]).flatMap f) key
      = (insertAll (fun _ => none) (f block) key).or
        (insertAll (fun _ => none) (blocks.flatMap f) key) := by
  rw [List.flatMap_append, List.flatMap_singleton, insertAll_append, insertAll_or]

/-- A value comes from one of the blocks. -/
theorem exists_of_insertAll_flatMap
    (h : insertAll (fun _ => none) (blocks.flatMap f) key = some value) :
    ∃ block ∈ blocks, insertAll (fun _ => none) (f block) key = some value := by
  induction blocks using List.reverseRecOn with
  | nil => cases h
  | append_singleton blocks block ih =>
      rw [insertAll_flatMap_concat, Option.or_eq_some_iff] at h
      rcases h with h | ⟨-, h⟩
      · exact ⟨block, List.mem_append_right _ (List.mem_singleton_self _), h⟩
      · obtain ⟨block', hmem, hvalue⟩ := ih h
        exact ⟨block', List.mem_append_left _ hmem, hvalue⟩

/-- A block that has the key leaves it with some value. -/
theorem isSome_insertAll_flatMap {block : α} (hblock : block ∈ blocks)
    (h : (insertAll (fun _ => none) (f block) key).isSome = true) :
    (insertAll (fun _ => none) (blocks.flatMap f) key).isSome = true := by
  induction blocks using List.reverseRecOn with
  | nil => cases hblock
  | append_singleton blocks last ih =>
      rw [insertAll_flatMap_concat, Option.isSome_or, Bool.or_eq_true]
      rcases List.mem_append.mp hblock with hmem | hmem
      · exact Or.inr (ih hmem)
      · exact Or.inl (List.mem_singleton.mp hmem ▸ h)

/-- The order of blocks of entries does not matter for a key if and only if
the blocks that have the key agree on its value. -/
theorem insertAll_flatMap_iff :
    (∀ order order' : List α, order.Perm blocks → order'.Perm blocks →
      insertAll (fun _ => none) (order.flatMap f) key
        = insertAll (fun _ => none) (order'.flatMap f) key)
    ↔ ∀ block ∈ blocks, ∀ block' ∈ blocks, ∀ value value',
      insertAll (fun _ => none) (f block) key = some value →
      insertAll (fun _ => none) (f block') key = some value' → value = value' := by
  constructor
  · intro h
    -- a block that comes last gives the key its value
    have hlast : ∀ block ∈ blocks, ∀ value, insertAll (fun _ => none) (f block) key = some value →
        ∃ order : List α, order.Perm blocks
          ∧ insertAll (fun _ => none) (order.flatMap f) key = some value := by
      intro block hblock value hvalue
      obtain ⟨front, back, rfl⟩ := List.append_of_mem hblock
      refine ⟨(front ++ back) ++ [block], ?_, ?_⟩
      · exact (List.perm_append_singleton block _).trans List.perm_middle.symm
      · rw [insertAll_flatMap_concat, hvalue]
        rfl
    intro block hblock block' hblock' value value' hvalue hvalue'
    obtain ⟨order, hperm, horder⟩ := hlast block hblock value hvalue
    obtain ⟨order', hperm', horder'⟩ := hlast block' hblock' value' hvalue'
    rw [← Option.some.injEq, ← horder, ← horder']
    exact h order order' hperm hperm'
  · intro hagree
    have hle : ∀ order order' : List α, order.Perm blocks → order'.Perm blocks → ∀ value,
        insertAll (fun _ => none) (order.flatMap f) key = some value →
        insertAll (fun _ => none) (order'.flatMap f) key = some value := by
      intro order order' hperm hperm' value hvalue
      obtain ⟨block, hblock, hhas⟩ := exists_of_insertAll_flatMap hvalue
      have hmem := hperm.mem_iff.mp hblock
      obtain ⟨value', hvalue'⟩ := Option.isSome_iff_exists.mp (isSome_insertAll_flatMap
        (hperm'.mem_iff.mpr hmem) (Option.isSome_iff_exists.mpr ⟨value, hhas⟩))
      obtain ⟨block', hblock', hhas'⟩ := exists_of_insertAll_flatMap hvalue'
      rw [hvalue', hagree block hmem block' (hperm'.mem_iff.mp hblock') value value' hhas hhas']
    intro order order' hperm hperm'
    exact Option.ext fun value => ⟨hle order order' hperm hperm' value,
      hle order' order hperm' hperm value⟩

end Blocks

end Inserts

/-! ## The registry -/

structure RegistryModelFile where
  uncompressed_hash : Option String

structure RegistryFiles where
  model : Option RegistryModelFile

structure RegistryEntry where
  release_status : Option String
  files : RegistryFiles
  metrics : List (String × List (String × Float))

/-- `models` of the registry's file: a map, so every pair has one list. -/
structure RegistryFile where
  models : List (String × List RegistryEntry)
  nodup : (models.map Prod.fst).Nodup

def to_ascii_lowercase (text : String) : String := String.ofList (text.toList.map Char.toLower)

def RegistryEntry.comet (entry : RegistryEntry) : Option Float :=
  ((entry.metrics.lookup "flores200-plus").bind fun m => m.lookup "comet22").filter Float.isFinite

/-- The hash of the model's file, if it has one. -/
def RegistryEntry.hash (entry : RegistryEntry) : Option String :=
  entry.files.model.bind RegistryModelFile.uncompressed_hash

def RegistryEntry.quality (entry : RegistryEntry) : ModelQuality :=
  ⟨entry.release_status, entry.comet⟩

/-- One turn of the loop of `parse`. -/
def RegistryEntry.insert (by_model_hash : String → Option ModelQuality) (entry : RegistryEntry) :
    String → Option ModelQuality :=
  match entry.hash with
  | none => by_model_hash
  | some hash => Function.update by_model_hash (to_ascii_lowercase hash) (some entry.quality)

/-- `Registry::parse`, of the models in the order in which the map gives
them. -/
def ModelRegistry.parse (models : List (String × List RegistryEntry)) : ModelRegistry where
  by_model_hash := (models.flatMap Prod.snd).foldl RegistryEntry.insert fun _ => none

/-- The entry is for the model file. -/
def RegistryEntry.lists (entry : RegistryEntry) (hash : String) : Bool :=
  entry.hash.map to_ascii_lowercase = some (to_ascii_lowercase hash)

/-- What a list says of a model file: what its last entry for the file says. -/
def lastQuality (entries : List RegistryEntry) (hash : String) : Option ModelQuality :=
  (entries.filter (·.lists hash)).getLast?.map RegistryEntry.quality

/-- Lists that have a model file in common say the same of it. -/
def RegistryFile.Agrees (file : RegistryFile) : Prop :=
  ∀ p ∈ file.models, ∀ p' ∈ file.models, ∀ hash quality quality',
    lastQuality p.2 hash = some quality → lastQuality p'.2 hash = some quality' →
    quality = quality'

/-! ## The last entries -/

/-- What the entry is inserted under, if it is. -/
def RegistryEntry.keyed (entry : RegistryEntry) : Option (String × ModelQuality) :=
  entry.hash.map fun hash => (to_ascii_lowercase hash, entry.quality)

theorem foldl_insert (map : String → Option ModelQuality) (entries : List RegistryEntry) :
    entries.foldl RegistryEntry.insert map = insertAll map (entries.filterMap RegistryEntry.keyed) := by
  induction entries generalizing map with
  | nil => rfl
  | cons entry entries ih =>
      rw [List.foldl_cons, ih]
      unfold RegistryEntry.insert
      cases hhash : entry.hash with
      | none => rw [List.filterMap_cons_none (by rw [RegistryEntry.keyed, hhash]; rfl)]
      | some hash =>
          have hkeyed : entry.keyed = some (to_ascii_lowercase hash, entry.quality) := by
            rw [RegistryEntry.keyed, hhash]
            rfl
          rw [List.filterMap_cons_some hkeyed]
          rfl

theorem insertAll_keyed (entries : List RegistryEntry) (hash : String) :
    insertAll (fun _ => none) (entries.filterMap RegistryEntry.keyed) (to_ascii_lowercase hash)
      = lastQuality entries hash := by
  have hfilter : ((entries.filterMap RegistryEntry.keyed).filter fun entry =>
      decide (entry.1 = to_ascii_lowercase hash)).map Prod.snd
        = (entries.filter (·.lists hash)).map RegistryEntry.quality := by
    induction entries with
    | nil => rfl
    | cons entry entries ih =>
        cases hhash : entry.hash with
        | none =>
            have hlists : entry.lists hash = false := by simp [RegistryEntry.lists, hhash]
            rw [List.filterMap_cons_none (by rw [RegistryEntry.keyed, hhash]; rfl), ih,
              List.filter_cons_of_neg (by simp [hlists])]
        | some hash' =>
            have hkeyed : entry.keyed = some (to_ascii_lowercase hash', entry.quality) := by
              rw [RegistryEntry.keyed, hhash]
              rfl
            have hlists : entry.lists hash
                = decide (to_ascii_lowercase hash' = to_ascii_lowercase hash) := by
              simp [RegistryEntry.lists, hhash]
            rw [List.filterMap_cons_some hkeyed, List.filter_cons, List.filter_cons, hlists]
            split
            · rw [List.map_cons, List.map_cons, ih]
            · exact ih
  rw [insertAll_apply, Option.or_none, lastQuality, ← List.getLast?_map, ← List.getLast?_map,
    hfilter]

theorem quality_parse (models : List (String × List RegistryEntry)) (hash : String) :
    (ModelRegistry.parse models).quality hash
      = insertAll (fun _ => none) (models.flatMap fun p => p.2.filterMap RegistryEntry.keyed)
        (to_ascii_lowercase hash) := by
  show (models.flatMap Prod.snd).foldl RegistryEntry.insert (fun _ => none) _ = _
  rw [foldl_insert, List.filterMap_flatMap]
  rfl

/-- **Annotations do not depend on the order of the map** if and only if the
lists of the pairs agree on the model files that they have in common. -/
theorem annotations_order_iff (file : RegistryFile) :
    (∀ order order' : List (String × List RegistryEntry), order.Perm file.models →
      order'.Perm file.models → ∀ hash,
      (ModelRegistry.parse order).quality hash = (ModelRegistry.parse order').quality hash)
    ↔ file.Agrees := by
  have hkey := fun hash => @insertAll_flatMap_iff String ModelQuality _ (to_ascii_lowercase hash) _
    file.models fun p => p.2.filterMap RegistryEntry.keyed
  simp only [insertAll_keyed] at hkey
  constructor
  · intro h p hp p' hp' hash
    refine (hkey hash).mp (fun order order' hperm hperm' => ?_) p hp p' hp'
    rw [← quality_parse, ← quality_parse]
    exact h order order' hperm hperm' hash
  · intro hagree order order' hperm hperm' hash
    rw [quality_parse, quality_parse]
    exact (hkey hash).mpr (fun p hp p' hp' => hagree p hp p' hp' hash) order order' hperm hperm'

/-- A model that two pairs list, released for one of them only. -/
def sharedModel : RegistryFile where
  models := [("bg-en", [⟨some "Release", ⟨some ⟨some "ABC123"⟩⟩, []⟩]),
    ("bg-en-tiny", [⟨none, ⟨some ⟨some "abc123"⟩⟩, []⟩])]
  nodup := by decide

/-- It is released or not, by the order of the map. -/
theorem annotations_depend_on_order :
    ∃ order order' : List (String × List RegistryEntry), order.Perm sharedModel.models
      ∧ order'.Perm sharedModel.models
      ∧ ((ModelRegistry.parse order).quality "abc123").map ModelQuality.release_status
        = some (some "Release")
      ∧ ((ModelRegistry.parse order').quality "abc123").map ModelQuality.release_status
        = some none := by
  refine ⟨sharedModel.models.reverse, sharedModel.models, List.reverse_perm _, .refl _, ?_, ?_⟩
  · rfl
  · rfl

end Dragomand
