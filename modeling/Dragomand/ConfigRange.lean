import Dragomand.Machine
import Dragomand.SetConfig

/-!
# GetConfig and SetConfig

`check` has a range for every number, `load` has none, and `to_values`
gives `keep_warm` 32 bits. What `GetConfig` returns can be passed back
without a change exactly if the numbers are in their ranges
(`roundTrips_of_sound`, `inRange_of_roundTrips`), and `SetConfig` keeps them
there (`sound_step`), so that it comes down to the file that the daemon has
loaded.
-/

namespace Dragomand

open Overrides

/-- The numbers are in the ranges of `KEYS`. -/
def Config.InRange (config : Config) : Prop :=
  ∀ key ∈ KEYS, ∀ min max n, key.kind = .number min max →
    config.get key.name = some (.number n) → min ≤ n ∧ n ≤ max

/-- No number in the file is outside the range of its key. -/
def FileInRange (file : Option Text) : Prop :=
  ∀ document, file = some (.document document) → ∀ key ∈ KEYS, ∀ min max n,
    key.kind = .number min max → document.get key.name = some (.integer n) → (min : Int) ≤ n ∧ n ≤ max

/-- What `GetConfig` returns, in whatever order, is accepted by `SetConfig`
and changes nothing. -/
def ConfigState.RoundTrips (host : Host) (state : ConfigState) : Prop :=
  ∀ changes, (get_config state).Perm changes → ∃ state',
    set_config host .fine state changes = some (state', .ok ()) ∧ state'.config = state.config

/-- A call, with the map in the order in which it is gone through and what
goes wrong. -/
structure SetConfigCall where
  io : SaveIo
  changes : List (String × Value)
  nodup : (changes.map Prod.fst).Nodup

def ConfigState.step (host : Host) (state : ConfigState) (call : SetConfigCall) :
    Option ConfigState :=
  (set_config host call.io state call.changes).map Prod.fst

/-! ## What `to_values` loses -/

variable {host : Host} {c : Config} {name : String} {value : Value} {setting : Setting}
  {state state' : ConfigState}

theorem find_of_mem_keys :
    ∀ key ∈ KEYS, KEYS.find? (fun k => k.name = key.name) = some key := by decide

theorem checkChange_number {key : config.Key} {min max n : Nat} (hkey : key ∈ KEYS)
    (hkind : key.kind = .number min max) (hn : as_number value = some n) (hmin : min ≤ n)
    (hmax : n ≤ max) : Config.checkChange host key.name value = .ok (.number n) := by
  rw [Config.checkChange, find_of_mem_keys key hkey]
  simp only [hkind, hn, hmin, hmax, and_self, ↓reduceIte]

theorem checkChange_bool {key : config.Key} {b : Bool} (hkey : key ∈ KEYS)
    (hkind : key.kind = .bool) : Config.checkChange host key.name (.bool b) = .ok (.bool b) := by
  rw [Config.checkChange, find_of_mem_keys key hkey]
  simp only [hkind, downcast_bool]

/-- The numbers of `KEYS` fit 32 bits. -/
theorem max_lt_of_mem_keys : ∀ key ∈ KEYS, ∀ min max, key.kind = .number min max →
    max < 2 ^ 32 := by
  intro key hmem min max hkind
  simp only [KEYS, List.mem_cons, List.not_mem_nil, or_false] at hmem
  rcases hmem with rfl | rfl | rfl | rfl | rfl | rfl <;> cases hkind <;> decide

/-- The value of a number is its value in 32 or 64 bits. -/
theorem value_of_number {key : config.Key} {min max n : Nat} (hkey : key ∈ KEYS)
    (hkind : key.kind = .number min max) (hn : c.get key.name = some (.number n)) :
    (key.name, .u64 (UInt64.ofNat n)) ∈ c.to_values
      ∨ (key.name, .u32 (UInt32.ofNat n)) ∈ c.to_values := by
  simp only [KEYS, List.mem_cons, List.not_mem_nil, or_false] at hkey
  rcases hkey with rfl | rfl | rfl | rfl | rfl | rfl <;> cases hkind <;> cases hn <;>
    simp [Config.to_values]

/-- Every value is the value of a key. -/
theorem key_of_mem_to_values (hmem : (name, value) ∈ c.to_values) :
    ∃ key ∈ KEYS, key.name = name
      ∧ ((∃ min max n, key.kind = .number min max ∧ c.get name = some (.number n)
          ∧ (value = .u64 (UInt64.ofNat n) ∨ value = .u32 (UInt32.ofNat n)))
        ∨ ∃ b, key.kind = .bool ∧ c.get name = some (.bool b) ∧ value = .bool b) := by
  simp only [Config.to_values, List.mem_cons, List.not_mem_nil, or_false, Prod.mk.injEq] at hmem
  rcases hmem with ⟨rfl, rfl⟩ | ⟨rfl, rfl⟩ | ⟨rfl, rfl⟩ | ⟨rfl, rfl⟩ | ⟨rfl, rfl⟩ | ⟨rfl, rfl⟩
  · exact ⟨_, List.mem_cons_self .., rfl, Or.inl ⟨_, _, _, rfl, rfl, Or.inl rfl⟩⟩
  · exact ⟨{ name := "keep_warm", kind := .number 0 16 }, by decide, rfl,
      Or.inl ⟨_, _, _, rfl, rfl, Or.inr rfl⟩⟩
  · exact ⟨{ name := "keep_warm_seconds", kind := .number 0 86400 }, by decide, rfl,
      Or.inl ⟨_, _, _, rfl, rfl, Or.inl rfl⟩⟩
  · exact ⟨{ name := "idle_exit_seconds", kind := .number 5 86400 }, by decide, rfl,
      Or.inl ⟨_, _, _, rfl, rfl, Or.inl rfl⟩⟩
  · exact ⟨{ name := "network", kind := .bool }, by decide, rfl, Or.inr ⟨_, rfl, rfl, rfl⟩⟩
  · exact ⟨{ name := "allow_prerelease", kind := .bool }, by decide, rfl,
      Or.inr ⟨_, rfl, rfl, rfl⟩⟩

/-- In their ranges the numbers come through `to_values` as they are. -/
theorem checkChange_to_values (h : c.InRange) (hmem : (name, value) ∈ c.to_values) :
    ∃ setting, Config.checkChange host name value = .ok setting
      ∧ c.get name = some setting := by
  obtain ⟨key, hkey, rfl, ⟨min, max, n, hkind, hget, hvalue⟩ | ⟨b, hkind, hget, rfl⟩⟩ :=
    key_of_mem_to_values hmem
  · obtain ⟨hmin, hmax⟩ := h key hkey min max n hkind hget
    have hlt := Nat.lt_of_le_of_lt hmax (max_lt_of_mem_keys key hkey min max hkind)
    refine ⟨.number n, checkChange_number hkey hkind ?_ hmin hmax, hget⟩
    rcases hvalue with rfl | rfl
    · rw [as_number, UInt64.toNat_ofNat_of_lt' (hlt.trans (by decide))]
    · rw [as_number, UInt32.toNat_ofNat_of_lt' hlt]
  · exact ⟨.bool b, checkChange_bool hkey hkind, hget⟩


/-! ## Sound states -/

/-- The numbers are in their ranges, and the file has them too. -/
structure ConfigState.Sound (state : ConfigState) : Prop where
  inRange : state.config.InRange
  loaded : state.config_path ≠ none → state.loaded = .ok state.config

variable {changes : List (String × Value)} {checked : List (String × Setting)}

theorem exists_checked (h : ∀ change ∈ changes, ∃ setting,
      Config.checkChange host change.1 change.2 = .ok setting ∧ c.get change.1 = some setting) :
    ∃ checked, Checked host changes checked ∧ ∀ change ∈ checked, c.get change.1 = some change.2 := by
  induction changes with
  | nil => exact ⟨[], .nil, fun _ h => absurd h List.not_mem_nil⟩
  | cons change rest ih =>
      obtain ⟨⟨setting, hcheck, hget⟩, hrest⟩ := List.forall_mem_cons.mp h
      obtain ⟨checked, hchecked, hagree⟩ := ih hrest
      exact ⟨(change.1, setting) :: checked, .cons ⟨rfl, hcheck⟩ hchecked,
        List.forall_mem_cons.mpr ⟨hget, hagree⟩⟩

theorem Document.get_of_mem {document : Document} {value : TomlValue}
    (h : (name, value) ∈ document.entries) : document.get name = some value := by
  have hnodup : (document.entries.map Prod.fst).Nodup := by
    rw [entries, List.map_map]
    exact document.nodup
  obtain ⟨before, after, heq⟩ := List.append_of_mem h
  rw [heq, List.map_append, List.map_cons] at hnodup
  refine List.lookup_eq_some_iff.mpr ⟨before, after, heq, fun entry hentry => ?_⟩
  refine bne_iff_ne.mpr fun hname => ?_
  exact List.disjoint_of_nodup_append hnodup (List.mem_map_of_mem hentry)
    (hname ▸ List.mem_cons_self ..)

theorem key_of_fits {n : Nat} (h : (Setting.number n).fits name = true) :
    ∃ key ∈ KEYS, key.name = name ∧ ∃ min max, key.kind = .number min max := by
  simp only [Setting.fits, List.contains_eq_mem, List.mem_cons, List.not_mem_nil, or_false,
    decide_eq_true_eq] at h
  rcases h with rfl | rfl | rfl | rfl
  · exact ⟨{ name := "memory_budget_mb", kind := .number 64 (2 ^ 20) }, by decide, rfl, _, _, rfl⟩
  · exact ⟨{ name := "keep_warm", kind := .number 0 16 }, by decide, rfl, _, _, rfl⟩
  · exact ⟨{ name := "keep_warm_seconds", kind := .number 0 86400 }, by decide, rfl, _, _, rfl⟩
  · exact ⟨{ name := "idle_exit_seconds", kind := .number 5 86400 }, by decide, rfl, _, _, rfl⟩

/-- `toml_edit` reads a document whose numbers are in their ranges. -/
theorem parse_of_load {io : SaveIo} {document : Document}
    (hload : Config.from_str (.document document) = .ok c) (h : c.InRange) :
    Config.parse io (.document document) = .ok document := by
  rw [Config.parse, if_pos]
  refine List.all_eq_true.mpr fun entry hentry => ?_
  obtain ⟨name, value⟩ := entry
  cases value with
  | integer n =>
      have hget := Config.from_str_eq_ok.mp hload name
      rw [Document.get_of_mem hentry] at hget
      obtain ⟨setting, hsetting, hc⟩ := hget
      cases setting with
      | number m =>
          obtain ⟨hn, -, hfits⟩ := Config.toSetting_eq_number.mp hsetting
          cases hn
          obtain ⟨key, hkey, rfl, min, max, hkind⟩ := key_of_fits hfits
          have hmax := (h key hkey min max m hkind hc).2
          have hlt := max_lt_of_mem_keys key hkey min max hkind
          exact decide_eq_true (by omega)
      | bool b => cases (Config.toSetting_eq_bool.mp hsetting).1
  | boolean b => rfl
  | other text => rfl

/-- With nothing going wrong, the changes of a sound state are saved. -/
theorem save_fine (hload : state.loaded = .ok c) (h : c.InRange) (path : ConfigPath)
    (checked : List (String × Setting)) :
    (Config.save .fine path state.files checked).2 = .ok () := by
  unfold ConfigState.loaded at hload
  have hedit : ∃ document,
      Config.edit .fine path (SaveIo.fine.read_to_string state.files.file) checked = .ok document := by
    cases hfile : state.files.file with
    | none => exact ⟨_, rfl⟩
    | some text =>
        cases text with
        | malformed text message =>
            rw [hfile] at hload
            cases hload
        | document document =>
            rw [hfile] at hload
            exact ⟨_, edit_of_parse rfl (parse_of_load hload h) checked⟩
  obtain ⟨document, hedit⟩ := hedit
  rw [Config.save, hedit]
  rfl

theorem roundTrips_of_sound (h : state.Sound) : state.RoundTrips host := by
  intro changes hperm
  obtain ⟨checked, hchecked, hagree⟩ := @exists_checked host state.config changes fun change hmem =>
    checkChange_to_values h.inRange (hperm.mem_iff.mpr hmem)
  obtain ⟨state', result, hcall, houtcome⟩ := set_config_outcome host .fine state changes
  cases houtcome with
  | refused hcheck =>
      rw [Config.check_eq_ok.mpr hchecked] at hcheck
      cases hcheck
  | unsaved _ hpath hsave _ =>
      rw [save_fine (h.loaded (by rw [hpath]; exact Option.some_ne_none _)) h.inRange] at hsave
      cases hsave
  | changed hchecked' happly _ =>
      refine ⟨_, hcall, Config.get_injective ?_⟩
      have heq := Config.check_eq_ok.mpr hchecked'
      rw [Config.check_eq_ok.mpr hchecked] at heq
      cases heq
      rw [ConfigState.takeOver, (Config.apply_eq_some.mp happly).2]
      refine override_of_agree fun name setting hmem => ?_
      obtain ⟨change, hchange, heq⟩ := List.mem_map.mp hmem
      cases heq
      exact hagree change hchange

theorem inRange_of_checkChange {key : config.Key} {min max n : Nat}
    (hcheck : Config.checkChange host key.name value = .ok (.number n)) (hkey : key ∈ KEYS)
    (hkind : key.kind = .number min max) : min ≤ n ∧ n ≤ max := by
  obtain ⟨key', hkey', hname, ⟨min', max', n', hkind', -, hmin, hmax, hn⟩ | ⟨_, _, _, hn⟩⟩ :=
    checkChange_cases hcheck
  · cases hn
    have heq := find_of_mem_keys key' hkey'
    rw [hname, find_of_mem_keys key hkey] at heq
    cases heq
    rw [hkind] at hkind'
    cases hkind'
    exact ⟨hmin, hmax⟩
  · cases hn

/-- What comes back as it was is in its range. -/
theorem inRange_of_roundTrips (h : state.RoundTrips host) : state.config.InRange := by
  intro key hkey min max n hkind hget
  obtain ⟨state', hcall, hconfig⟩ := h _ (List.Perm.refl _)
  obtain ⟨state'', result, hcall', houtcome⟩ :=
    set_config_outcome host .fine state (get_config state)
  rw [hcall] at hcall'
  cases hcall'
  cases houtcome with
  | changed hchecked happly _ =>
      have hmem : ∃ value, (key.name, value) ∈ get_config state := by
        rcases value_of_number hkey hkind hget with h | h <;> exact ⟨_, h⟩
      obtain ⟨value, hmem⟩ := hmem
      obtain ⟨setting, hcheck, hsetting⟩ := hchecked.mem hmem
      have hnodup : ((get_config state).map Prod.fst).Nodup :=
        show (KEYS.map fun key => key.name).Nodup by decide
      have hget' : state.config.get key.name = some setting := by
        rw [← hconfig, ConfigState.takeOver, (Config.apply_eq_some.mp happly).2]
        exact override_of_mem (hchecked.consistent hnodup) (List.mem_map.mpr ⟨_, hsetting, rfl⟩)
      rw [hget] at hget'
      cases hget'
      exact inRange_of_checkChange hcheck hkey hkind

/-! ## Whole runs -/

theorem default_inRange : Config.default.InRange := by
  intro key hkey min max n hkind hget
  simp only [KEYS, List.mem_cons, List.not_mem_nil, or_false] at hkey
  rcases hkey with rfl | rfl | rfl | rfl | rfl | rfl <;> cases hkind <;> cases hget <;> decide

/-- The numbers that a file is loaded with are the numbers in it. -/
theorem fileInRange_iff {file : Option Text}
    (hload : Config.load (SaveIo.fine.read_to_string file) = .ok c) :
    FileInRange file ↔ c.InRange := by
  cases file with
  | none =>
      cases hload
      exact ⟨fun _ => default_inRange, fun _ document h => nomatch h⟩
  | some text =>
      cases text with
      | malformed text message => cases hload
      | document document =>
          have hreads := Config.from_str_eq_ok.mp hload
          constructor
          · intro h key hkey min max n hkind hget
            have hname := hreads key.name
            cases hvalue : document.get key.name with
            | none =>
                rw [hvalue] at hname
                exact default_inRange key hkey min max n hkind (hname ▸ hget)
            | some value =>
                rw [hvalue] at hname
                obtain ⟨setting, hsetting, hc⟩ := hname
                rw [hget] at hc
                cases hc
                obtain ⟨rfl, -, -⟩ := Config.toSetting_eq_number.mp hsetting
                have hrange := h document rfl key hkey min max n hkind hvalue
                omega
          · rintro h _ ⟨⟩ key hkey min max n hkind hvalue
            have hname := hreads key.name
            rw [hvalue] at hname
            obtain ⟨setting, hsetting, hc⟩ := hname
            cases setting with
            | number m =>
                obtain ⟨hn, -, -⟩ := Config.toSetting_eq_number.mp hsetting
                cases hn
                have hrange := h key hkey min max m hkind hc
                omega
            | bool b => cases (Config.toSetting_eq_bool.mp hsetting).1

theorem Replaced.inRange {c' : Config} (h : Replaced host changes c c') (hc : c.InRange) :
    c'.InRange := by
  intro key hkey min max n hkind hget
  have hname := h key.name
  cases hlookup : changes.lookup key.name with
  | none =>
      rw [hlookup] at hname
      exact hc key hkey min max n hkind (hname ▸ hget)
  | some value =>
      rw [hlookup] at hname
      obtain ⟨setting, hcheck, hsetting⟩ := hname
      rw [hget] at hsetting
      cases hsetting
      exact inRange_of_checkChange hcheck hkey hkind

theorem sound_step {call : SetConfigCall} (hs : state.step host call = some state')
    (h : state.Sound) : state'.Sound := by
  obtain ⟨state'', result, hcall, houtcome⟩ :=
    set_config_outcome host call.io state call.changes
  rw [ConfigState.step, hcall] at hs
  cases hs
  cases result with
  | error e =>
      obtain ⟨hconfig, hfile⟩ := houtcome.unchanged rfl
      refine ⟨hconfig ▸ h.inRange, fun hpath => ?_⟩
      rw [loaded_congr hfile, hconfig]
      exact h.loaded (houtcome.config_path ▸ hpath)
  | ok _ =>
      refine ⟨(houtcome.replaced call.nodup).inRange h.inRange, fun hpath => ?_⟩
      rw [houtcome.config_path] at hpath
      obtain ⟨path, hpath'⟩ := Option.ne_none_iff_exists'.mp hpath
      exact houtcome.loaded hpath' (h.loaded hpath)

/-- In every state of a daemon that has loaded the file, what `GetConfig`
returns can be passed back, exactly if the file's numbers are in range. -/
theorem get_set_inverse (host : Host) (config : Config) (config_path : Option ConfigPath)
    (files : ConfigFiles)
    (hload : Config.load (SaveIo.fine.read_to_string files.file) = .ok config) :
    (∀ state, Machine.Reach (ConfigState.step host) Machine.anyStep
        (ConfigState.start config config_path files) state → state.RoundTrips host)
      ↔ FileInRange files.file := by
  rw [fileInRange_iff hload]
  constructor
  · exact fun h => inRange_of_roundTrips (h _ .init)
  · intro hrange state hreach
    have hsound : state.Sound := by
      refine hreach.invariant ⟨hrange, fun _ => hload⟩ ?_
      exact fun _ _ _ _ _ hs h => sound_step hs h
    exact roundTrips_of_sound hsound

/-- A file with one line. -/
def keepWarmFile (n : Int) : Option Text :=
  some (.document ⟨[⟨"# more routes\n", "keep_warm", .integer n⟩], "", List.nodup_singleton _⟩)

/-- A daemon that has loaded `keep_warm = n`. -/
def keepWarmState (n : Nat) : ConfigState :=
  .start { Config.default with keep_warm := n }
    (some ⟨"/home/user/.config/dragomand", "config.toml"⟩) ⟨keepWarmFile n, none⟩

theorem get_set_keep_warm :
    (∀ state, Machine.Reach (ConfigState.step echoHost) Machine.anyStep (keepWarmState 3) state →
        state.RoundTrips echoHost)
      ↔ FileInRange (keepWarmFile 3) :=
  get_set_inverse echoHost { Config.default with keep_warm := 3 } _ _ rfl

/-- The daemon starts with `keep_warm = 4294967299`, and `GetConfig` returns
3 for it. -/
theorem keep_warm_loses_bits :
    Config.load (SaveIo.fine.read_to_string (keepWarmFile 4294967299))
        = .ok (keepWarmState 4294967299).config
      ∧ ¬∀ state, Machine.Reach (ConfigState.step echoHost) Machine.anyStep
          (keepWarmState 4294967299) state → state.RoundTrips echoHost := by
  refine ⟨rfl, fun h => ?_⟩
  obtain ⟨state', hcall, hconfig⟩ := h _ .init _ (List.Perm.refl _)
  have hcall' : (set_config echoHost .fine (keepWarmState 4294967299)
      (get_config (keepWarmState 4294967299))).map (fun r => r.1.config.keep_warm) = some 3 := rfl
  rw [hcall, Option.map_some, hconfig] at hcall'
  exact absurd hcall' (by decide)

end Dragomand
