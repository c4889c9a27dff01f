import Dragomand.Config
import Dragomand.Daemon

/-!
# One SetConfig call

A call that fails leaves the configuration in memory and the file as they
were. One that succeeds sets its keys in both (`Outcome.replaced`,
`Outcome.loaded`), in whatever order the map is gone through (`apply_perm`).
-/

namespace Dragomand

open Overrides

/-! ## What `check` lets through -/

variable {host : Host} {name : String} {value : Value} {setting : Setting}
  {changes changes' : List (String × Value)} {checked checked' : List (String × Setting)}

theorem checkChange_cases (h : Config.checkChange host name value = .ok setting) :
    ∃ key ∈ KEYS, key.name = name
      ∧ ((∃ min max n, key.kind = .number min max ∧ as_number value = some n
          ∧ min ≤ n ∧ n ≤ max ∧ setting = .number n)
        ∨ ∃ b, key.kind = .bool ∧ downcast_bool value = some b ∧ setting = .bool b) := by
  unfold Config.checkChange at h
  split at h
  · cases h
  · rename_i key hfind
    refine ⟨key, List.mem_of_find?_eq_some hfind, by simpa using List.find?_some hfind, ?_⟩
    split at h
    · rename_i hkind
      split at h
      · cases h
      · rename_i b hb
        cases h
        exact Or.inr ⟨b, hkind, hb, rfl⟩
    · rename_i min max hkind
      split at h
      · cases h
      · rename_i n hn
        split at h
        · rename_i hrange
          cases h
          exact Or.inl ⟨min, max, n, hkind, hn, hrange.1, hrange.2, rfl⟩
        · cases h

/-- The keys of `KEYS` are the fields of `Config`, with their types. -/
theorem fits_of_mem_keys {key : config.Key} (h : key ∈ KEYS) :
    match key.kind with
    | .number _ max => (∀ n, (Setting.number n).fits key.name = true) ∧ max < 2 ^ 63
    | .bool => ∀ b, (Setting.bool b).fits key.name = true := by
  simp only [KEYS, List.mem_cons, List.not_mem_nil, or_false] at h
  rcases h with rfl | rfl | rfl | rfl | rfl | rfl
  · exact ⟨fun _ => rfl, by decide⟩
  · exact ⟨fun _ => rfl, by decide⟩
  · exact ⟨fun _ => rfl, by decide⟩
  · exact ⟨fun _ => rfl, by decide⟩
  · exact fun _ => rfl
  · exact fun _ => rfl

theorem fits_of_checkChange (h : Config.checkChange host name value = .ok setting) :
    setting.fits name = true ∧ setting.Small := by
  obtain ⟨key, hmem, rfl, ⟨min, max, n, hkind, -, -, hmax, rfl⟩ | ⟨b, hkind, -, rfl⟩⟩ :=
    checkChange_cases h
  · have hfits := fits_of_mem_keys hmem
    rw [hkind] at hfits
    exact ⟨hfits.1 n, Nat.lt_of_le_of_lt hmax hfits.2⟩
  · have hfits := fits_of_mem_keys hmem
    rw [hkind] at hfits
    exact ⟨hfits b, trivial⟩

theorem Checked.fits (h : Checked host changes checked) :
    ∀ change ∈ checked, change.2.fits change.1 = true ∧ change.2.Small := by
  intro change hmem
  obtain ⟨i, hi, rfl⟩ := List.mem_iff_getElem.mp hmem
  obtain ⟨hname, hcheck⟩ := h.get (by rw [h.length_eq]; exact hi) hi
  simp only [List.get_eq_getElem] at hname hcheck
  rw [hname]
  exact fits_of_checkChange hcheck

theorem Checked.names (h : Checked host changes checked) :
    checked.map Prod.fst = changes.map Prod.fst := by
  induction h with
  | nil => rfl
  | cons hhead _ ih => rw [List.map_cons, List.map_cons, hhead.1, ih]

theorem assignments_names : (assignments checked).map Prod.fst = checked.map Prod.fst := by
  rw [assignments, List.map_map]
  rfl

theorem Checked.consistent (h : Checked host changes checked)
    (hkeys : (changes.map Prod.fst).Nodup) : Consistent (assignments checked) := by
  refine consistent_of_nodup ?_
  rw [assignments_names, h.names]
  exact hkeys

/-- The order of the map is the order of what `check` returns. -/
theorem Checked.perm (h : Checked host changes checked) (hperm : changes.Perm changes') :
    ∃ checked', Checked host changes' checked' ∧ checked.Perm checked' := by
  obtain ⟨checked', h', hperm'⟩ := List.perm_comp_forall₂ hperm.symm h
  exact ⟨checked', h', hperm'.symm⟩

theorem apply_perm {config config' : Config} (hperm : checked.Perm checked')
    (hconsistent : Consistent (assignments checked))
    (h : config.apply checked = some config') : config.apply checked' = some config' := by
  rw [Config.apply_eq_some] at h ⊢
  refine ⟨fun change hmem => h.1 change (hperm.mem_iff.mpr hmem), ?_⟩
  rw [h.2]
  exact override_perm hconsistent (hperm.map _)

/-! ## Saving -/

variable {io : SaveIo} {path : ConfigPath} {files files' : ConfigFiles} {document : Document}
  {existing : Except ReadError Text} {message : String}

theorem file_removeTemporary : (Config.removeTemporary io files).file = files.file := by
  unfold Config.removeTemporary
  split <;> rfl

theorem writeTemporary_cases :
    (∃ files' message, Config.writeTemporary io path files document = (files', .error message)
      ∧ files'.file = files.file)
    ∨ Config.writeTemporary io path files document
      = ({ files with temporary := some (.document document) }, .ok ()) := by
  unfold Config.writeTemporary
  split
  · exact Or.inl ⟨_, _, rfl, rfl⟩
  · exact Or.inl ⟨_, _, rfl, file_removeTemporary⟩
  · exact Or.inr rfl

theorem renameTemporary_cases :
    (∃ files' message, Config.renameTemporary io path files = (files', .error message)
      ∧ files'.file = files.file)
    ∨ ∃ text, files.temporary = some text
      ∧ Config.renameTemporary io path files
        = ({ file := some text, temporary := none }, .ok ()) := by
  unfold Config.renameTemporary
  split
  · exact Or.inr ⟨_, ‹_›, rfl⟩
  · exact Or.inl ⟨_, _, rfl, rfl⟩
  · exact Or.inl ⟨_, _, rfl, file_removeTemporary⟩

theorem replace_cases :
    (∃ files' message, Config.replace io path files document = (files', .error message)
      ∧ files'.file = files.file)
    ∨ Config.replace io path files document
      = ({ file := some (.document document), temporary := none }, .ok ()) := by
  unfold Config.replace
  rcases @writeTemporary_cases io path files document with ⟨files', message, hwrite, hfile⟩ | hwrite
  · rw [hwrite]
    exact Or.inl ⟨files', message, rfl, hfile⟩
  · rw [hwrite]
    rcases @renameTemporary_cases io path { files with temporary := some (.document document) }
      with hrename | ⟨text, htext, hrename⟩
    · exact Or.inl hrename
    · cases htext
      exact Or.inr hrename

/-- The file is as it was, or it is the edited document. -/
theorem save_cases :
    (∃ files' message, Config.save io path files checked = (files', .error message)
      ∧ files'.file = files.file)
    ∨ ∃ document, Config.edit io path (io.read_to_string files.file) checked = .ok document
      ∧ Config.save io path files checked
        = ({ file := some (.document document), temporary := none }, .ok ()) := by
  unfold Config.save
  split
  · exact Or.inl ⟨_, _, rfl, rfl⟩
  · rename_i document hedit
    rcases @replace_cases io path files document with herror | hok
    · exact Or.inl herror
    · exact Or.inr ⟨document, hedit, hok⟩

theorem edit_of_parse {text : Text} {base : Document}
    (htext : Config.existingText path existing = .ok text)
    (hparse : Config.parse io text = .ok base) (changes : List (String × Setting)) :
    Config.edit io path existing changes = .ok (base.edited changes) := by
  refine FileTree.bind_eq_ok.mpr ⟨text, htext, ?_⟩
  rw [hparse]

/-- What is edited: the document of the file, or an empty one. -/
theorem edit_eq_ok (h : Config.edit io path existing checked = .ok document) :
    ∃ base, (existing = .ok (.document base) ∨ existing = .error .notFound ∧ base = Document.empty)
      ∧ ∀ changes, Config.edit io path existing changes = .ok (base.edited changes) := by
  unfold Config.edit at h
  obtain ⟨text, htext, h⟩ := FileTree.bind_eq_ok.mp h
  split at h
  · cases h
  · rename_i base hparse
    have hbase : text = .document base := by
      unfold Config.parse at hparse
      split at hparse
      · cases hparse
      · split at hparse
        · cases hparse
          rfl
        · cases hparse
    subst hbase
    refine ⟨base, ?_, fun changes => ?_⟩
    · unfold Config.existingText at htext
      split at htext
      · cases htext
        exact Or.inl rfl
      · cases htext
        exact Or.inr ⟨rfl, rfl⟩
      · cases htext
    · exact edit_of_parse htext hparse changes

theorem replace_snd {document' : Document}
    (h : (Config.replace io path files document).2 = .ok ()) :
    (Config.replace io path files document').2 = .ok () := by
  revert h
  unfold Config.replace Config.writeTemporary
  cases io.create_dir_all with
  | some message => exact fun h => nomatch h
  | none =>
      cases io.write with
      | some failure => exact fun h => nomatch h
      | none =>
          show (Config.renameTemporary io path _).2 = _ → (Config.renameTemporary io path _).2 = _
          unfold Config.renameTemporary
          cases io.rename with
          | some message => exact fun h => nomatch h
          | none => exact fun _ => rfl

/-- Whether the changes can be saved does not depend on what they are. -/
theorem save_snd (h : (Config.save io path files checked).2 = .ok ()) :
    (Config.save io path files checked').2 = .ok () := by
  unfold Config.save at h ⊢
  split at h
  · cases h
  · rename_i document hedit
    obtain ⟨base, -, hbase⟩ := edit_eq_ok hedit
    rw [hbase checked']
    exact replace_snd h

theorem loads_edited {config config' : Config} {base : Document}
    (hload : Config.from_str (.document base) = .ok config)
    (happly : config.apply checked = some config') (hsmall : ∀ change ∈ checked, change.2.Small) :
    Config.from_str (.document (base.edited checked)) = .ok config' := by
  induction checked generalizing base config with
  | nil =>
      cases happly
      exact hload
  | cons change rest ih =>
      obtain ⟨name, setting⟩ := change
      rw [Config.apply_cons, Option.bind_eq_some_iff] at happly
      obtain ⟨middle, hset, hrest⟩ := happly
      obtain ⟨hhead, htail⟩ := List.forall_mem_cons.mp hsmall
      exact ih (Config.from_str_set hload hset hhead) hrest htail

/-- A file that loads to a configuration loads to the changed one once the
changes are saved. -/
theorem loaded_of_edit {config config' : Config} (hload : Config.load existing = .ok config)
    (hedit : Config.edit io path existing checked = .ok document)
    (happly : config.apply checked = some config') (hsmall : ∀ change ∈ checked, change.2.Small) :
    Config.from_str (.document document) = .ok config' := by
  obtain ⟨base, hexisting, hdocument⟩ := edit_eq_ok hedit
  rw [hdocument] at hedit
  cases hedit
  refine loads_edited ?_ happly hsmall
  rcases hexisting with rfl | ⟨rfl, rfl⟩
  · exact hload
  · exact hload

/-! ## The call -/

variable {state state' : ConfigState} {result : Except Error Unit}

/-- What a call comes to: it is refused, its changes cannot be saved, or it
takes them over. -/
inductive Outcome (host : Host) (io : SaveIo) (state : ConfigState)
    (changes : List (String × Value)) : ConfigState → Except Error Unit → Prop
  | refused {message : String} (h : Config.check host changes = .error message) :
      Outcome host io state changes state (.error (.invalidArgument message))
  | unsaved {checked : List (String × Setting)} {path : ConfigPath} {files : ConfigFiles}
      {message : String} (h : Checked host changes checked)
      (hpath : state.config_path = some path)
      (hsave : (Config.save io path state.files checked).2 = .error message)
      (hfile : files.file = state.files.file) :
      Outcome host io state changes { state with files } (.error (.engineFailure message))
  | changed {checked : List (String × Setting)} {files : ConfigFiles} {config : Config}
      (h : Checked host changes checked) (happly : state.config.apply checked = some config)
      (hsave : match state.config_path with
        | none => files = state.files
        | some path => ∃ document,
            Config.edit io path (io.read_to_string state.files.file) checked = .ok document
              ∧ files = { file := some (.document document), temporary := none }
              ∧ (Config.save io path state.files checked).2 = .ok ()) :
      Outcome host io state changes ({ state with files }.takeOver config) (.ok ())

/-- A call never meets the `unreachable!` of `apply`. -/
theorem set_config_outcome (host : Host) (io : SaveIo) (state : ConfigState)
    (changes : List (String × Value)) :
    ∃ state' result, set_config host io state changes = some (state', result)
      ∧ Outcome host io state changes state' result := by
  unfold set_config
  cases hcheck : Config.check host changes with
  | error message => exact ⟨_, _, rfl, .refused hcheck⟩
  | ok checked =>
      have h := Config.check_eq_ok.mp hcheck
      obtain ⟨old, config_path, files, allow_prerelease, enforced, signals⟩ := state
      obtain ⟨config, happly⟩ := old.exists_apply fun change hmem => (h.fits change hmem).1
      cases config_path with
      | none =>
          simp only [happly]
          exact ⟨_, _, rfl, .changed h happly rfl⟩
      | some path =>
          rcases @save_cases checked io path files
            with ⟨files', message, hsave, hfile⟩ | ⟨document, hedit, hsave⟩
          · simp only [hsave]
            exact ⟨_, _, rfl, .unsaved h rfl (congrArg Prod.snd hsave) hfile⟩
          · simp only [hsave, happly]
            exact ⟨_, _, rfl, .changed h happly ⟨document, hedit, rfl, congrArg Prod.snd hsave⟩⟩

/-- The old configuration with the given keys replaced. -/
def Replaced (host : Host) (changes : List (String × Value)) (config config' : Config) : Prop :=
  ∀ name, match changes.lookup name with
    | none => config'.get name = config.get name
    | some value => ∃ setting, Config.checkChange host name value = .ok setting
        ∧ config'.get name = some setting

theorem Checked.mem (h : Checked host changes checked) (hmem : (name, value) ∈ changes) :
    ∃ setting, Config.checkChange host name value = .ok setting ∧ (name, setting) ∈ checked := by
  obtain ⟨i, hi, heq⟩ := List.mem_iff_getElem.mp hmem
  have hi' : i < checked.length := h.length_eq ▸ hi
  obtain ⟨hname, hcheck⟩ := h.get hi hi'
  simp only [List.get_eq_getElem, heq] at hname hcheck
  refine ⟨_, hcheck, ?_⟩
  rw [← hname]
  exact List.getElem_mem hi'

theorem replaced_of_apply {config config' : Config} (h : Checked host changes checked)
    (hkeys : (changes.map Prod.fst).Nodup) (happly : config.apply checked = some config') :
    Replaced host changes config config' := by
  intro name
  rw [(Config.apply_eq_some.mp happly).2]
  split
  · rename_i hlookup
    refine override_of_not_mem ?_
    rw [assignments_names, h.names]
    intro hmem
    obtain ⟨⟨_, value⟩, hchange, rfl⟩ := List.mem_map.mp hmem
    exact absurd (List.lookup_eq_none_iff.mp hlookup _ hchange) (by simp)
  · rename_i value hlookup
    obtain ⟨before, after, rfl, -⟩ := List.lookup_eq_some_iff.mp hlookup
    obtain ⟨setting, hcheck, hmem⟩ := h.mem (List.mem_append_right _ (List.mem_cons_self ..))
    exact ⟨setting, hcheck, override_of_mem (h.consistent hkeys) (List.mem_map.mpr ⟨_, hmem, rfl⟩)⟩

/-! ## All or nothing -/

section Call

variable {state'' : ConfigState} {result' : Except Error Unit}

theorem Outcome.unchanged (h : Outcome host io state changes state' result) {e : Error}
    (hresult : result = .error e) :
    state'.config = state.config ∧ state'.files.file = state.files.file := by
  cases h with
  | refused _ => exact ⟨rfl, rfl⟩
  | unsaved _ _ _ hfile => exact ⟨rfl, hfile⟩
  | changed _ _ _ => cases hresult

theorem Outcome.config_path (h : Outcome host io state changes state' result) :
    state'.config_path = state.config_path := by
  cases h with
  | refused _ => rfl
  | unsaved _ _ _ _ => rfl
  | changed _ _ _ => rfl

theorem loaded_congr (h : state'.files.file = state.files.file) : state'.loaded = state.loaded := by
  rw [ConfigState.loaded, ConfigState.loaded, h]

theorem Outcome.replaced (h : Outcome host io state changes state' (.ok ()))
    (hkeys : (changes.map Prod.fst).Nodup) :
    Replaced host changes state.config state'.config := by
  cases h with
  | changed hchecked happly _ => exact replaced_of_apply hchecked hkeys happly

theorem SaveIo.read_to_string_cases (io : SaveIo) (file : Option Text) :
    (∃ message, io.read_to_string file = .error (.other message))
      ∨ io.read_to_string file = SaveIo.fine.read_to_string file := by
  unfold read_to_string
  cases io.read with
  | some message => exact Or.inl ⟨message, rfl⟩
  | none => cases file <;> exact Or.inr rfl

/-- What is read of the file is what the file has. -/
theorem load_of_loaded {config : Config} (hload : state.loaded = .ok config)
    (hedit : Config.edit io path (io.read_to_string state.files.file) checked = .ok document) :
    Config.load (io.read_to_string state.files.file) = .ok config := by
  obtain ⟨base, hexisting, -⟩ := edit_eq_ok hedit
  rcases io.read_to_string_cases state.files.file with ⟨message, hread⟩ | hread
  · rw [hread] at hexisting
    rcases hexisting with h | ⟨h, -⟩ <;> cases h
  · rw [hread]
    exact hload

theorem Outcome.loaded (h : Outcome host io state changes state' (.ok ()))
    (hpath : state.config_path = some path) (hload : state.loaded = .ok state.config) :
    state'.loaded = .ok state'.config := by
  cases h with
  | changed hchecked happly hsave =>
      rw [hpath] at hsave
      obtain ⟨document, hedit, rfl, -⟩ := hsave
      exact loaded_of_edit (load_of_loaded hload hedit) hedit happly
        fun change hmem => (hchecked.fits change hmem).2

/-- Two orders of one map come to the same. -/
theorem Outcome.isOk_perm (h : Outcome host io state changes state' result)
    (h' : Outcome host io state changes' state'' result') (hperm : changes.Perm changes')
    (hok : result = .ok ()) : result' = .ok () := by
  cases h with
  | refused _ => cases hok
  | unsaved _ _ _ _ => cases hok
  | changed hchecked _ hsave =>
      obtain ⟨checked', hchecked', -⟩ := hchecked.perm hperm
      cases h' with
      | refused hcheck =>
          rw [Config.check_eq_ok.mpr hchecked'] at hcheck
          cases hcheck
      | unsaved _ hpath hunsaved _ =>
          rw [hpath] at hsave
          obtain ⟨document, -, -, hsaved⟩ := hsave
          rw [save_snd hsaved] at hunsaved
          cases hunsaved
      | changed _ _ _ => rfl

theorem Outcome.config_perm (h : Outcome host io state changes state' (.ok ()))
    (h' : Outcome host io state changes' state'' (.ok ())) (hperm : changes.Perm changes')
    (hkeys : (changes.map Prod.fst).Nodup) : state''.config = state'.config := by
  cases h with
  | changed hchecked happly _ =>
      cases h' with
      | changed hchecked' happly' _ =>
          obtain ⟨checked'', hchecked'', hperm'⟩ := hchecked.perm hperm
          have heq := Config.check_eq_ok.mpr hchecked''
          rw [Config.check_eq_ok.mpr hchecked'] at heq
          cases heq
          have happly'' := apply_perm hperm' (hchecked.consistent hkeys) happly
          rw [happly'] at happly''
          exact Option.some.inj happly''

end Call

/-- A call that fails leaves the configuration and the file as they were.
One that succeeds, on a file that loads to the configuration, replaces the
given keys in both. The order of the map does not matter. -/
theorem set_config_all_or_nothing (host : Host) (io : SaveIo) (state : ConfigState)
    (path : ConfigPath) (hpath : state.config_path = some path)
    (changes : List (String × Value)) (hkeys : (changes.map Prod.fst).Nodup) :
    ∃ state' result, set_config host io state changes = some (state', result)
      ∧ (∀ e, result = .error e →
          state'.config = state.config ∧ state'.files.file = state.files.file)
      ∧ (result = .ok () → state.loaded = .ok state.config →
          Replaced host changes state.config state'.config
          ∧ state'.loaded = .ok state'.config)
      ∧ ∀ changes', changes.Perm changes' →
          ∃ state'' result', set_config host io state changes' = some (state'', result')
            ∧ (result' = .ok () ↔ result = .ok ())
            ∧ state''.config = state'.config
            ∧ (state.loaded = .ok state.config → state''.loaded = state'.loaded) := by
  obtain ⟨state', result, hcall, h⟩ := set_config_outcome host io state changes
  refine ⟨state', result, hcall, fun e he => h.unchanged he, ?_, fun changes' hperm => ?_⟩
  · rintro rfl hload
    exact ⟨h.replaced hkeys, h.loaded hpath hload⟩
  · obtain ⟨state'', result', hcall', h'⟩ := set_config_outcome host io state changes'
    have hok : result' = .ok () ↔ result = .ok () :=
      ⟨h'.isOk_perm h hperm.symm, h.isOk_perm h' hperm⟩
    refine ⟨state'', result', hcall', hok, ?_⟩
    cases hresult : result with
    | ok _ =>
        obtain rfl := hok.mpr hresult
        subst hresult
        have hconfig := h.config_perm h' hperm hkeys
        exact ⟨hconfig, fun hload => by rw [h'.loaded hpath hload, h.loaded hpath hload, hconfig]⟩
    | error e =>
        obtain ⟨hconfig, hfile⟩ := h.unchanged hresult
        obtain ⟨e', he'⟩ : ∃ e', result' = .error e' := by
          cases result' with
          | ok _ => rw [hok.mp rfl] at hresult; cases hresult
          | error e' => exact ⟨e', rfl⟩
        obtain ⟨hconfig', hfile'⟩ := h'.unchanged he'
        exact ⟨hconfig'.trans hconfig.symm,
          fun _ => (loaded_congr hfile').trans (loaded_congr hfile).symm⟩

/-- The daemon of a user without a configuration file. -/
def freshState : ConfigState :=
  .start Config.default (some ⟨"/home/user/.config/dragomand", "config.toml"⟩) ⟨none, none⟩

def twoChanges : List (String × Value) := [("network", .bool false), ("memory_budget_mb", .u32 300)]

theorem set_config_two_keys :
    ∃ state', set_config echoHost .fine freshState twoChanges = some (state', .ok ())
      ∧ state'.loaded = .ok state'.config
      ∧ state'.config = { Config.default with network := false, memory_budget_mb := 300 } := by
  obtain ⟨state', result, hcall, -, hok, -⟩ :=
    set_config_all_or_nothing echoHost .fine freshState _ rfl twoChanges (by decide)
  have hresult : (set_config echoHost .fine freshState twoChanges).map
      (fun r => (r.2, r.1.config))
        = some (.ok (), { Config.default with network := false, memory_budget_mb := 300 }) := rfl
  rw [hcall, Option.map_some, Option.some.injEq, Prod.mk.injEq] at hresult
  obtain ⟨rfl, hconfig⟩ := hresult
  exact ⟨state', hcall, (hok rfl rfl).2, hconfig⟩

end Dragomand
