import Dragomand.InstallInside
import Dragomand.RouteLegs

/-!
# What is listed while an install runs

An install takes one step at a time, and others change the stores in
between. In stores whose content is as installs write it (`Stores.Orderly`)
a step keeps that, and keeps every listed model of another pair
(`listed_step`); and when an install returns, whether it has downloaded the
model or has found one in its place, its pair is found (`finds_of_done`).
-/

namespace Dragomand

open FileTree (Node plainName)

/-! ## Orderly stores -/

/-- The directory has the names of the pair and of the version. -/
def InstalledModel.InPlace (m : InstalledModel) : Prop :=
  [m.pair, m.manifest.version] <:+ m.directory

instance (m : InstalledModel) : Decidable m.InPlace := by
  unfold InstalledModel.InPlace
  infer_instance

/-- Every model directory's manifest names the pair and the version of its
path. -/
def Stores.PathsNamed (stores : Stores) (host : ModelHost) (t : FileTree Bytes) : Prop :=
  ∀ m ∈ (stores.scan host t).1, m.InPlace

/-- The stores are as installs leave them. -/
structure Stores.Orderly (stores : Stores) (host : ModelHost) (t : FileTree Bytes) : Prop where
  named : stores.PathsNamed host t
  inside : stores.NamesInside host t

section Finds

variable {host : ModelHost} {t : FileTree Bytes} {stores : Stores} {key : Key}

/-- A pair is found when a model of it is listed that the engine supports. -/
theorem Stores.finds_iff : (stores.disk host t).Finds key
    ↔ ∃ m ∈ (stores.scan host t).1, m.pair = key.1 ++ "-" ++ key.2 ∧ m.version.inWindow = true := by
  constructor
  · intro h
    obtain ⟨best, hbest⟩ := Option.isSome_iff_exists.mp h
    obtain ⟨hlisted, hpair, hwindow, -⟩ := Stores.resolve_eq_some hbest
    exact ⟨best, hlisted, hpair, hwindow⟩
  · rintro ⟨m, hlisted, hpair, hwindow⟩
    exact Option.isSome_iff_exists.mpr (Stores.resolve_isSome hlisted hpair hwindow)

/-- Pairs of one text are found together. -/
theorem Stores.finds_congr {key' : Key} (h : key.1 ++ "-" ++ key.2 = key'.1 ++ "-" ++ key'.2) :
    (stores.disk host t).Finds key ↔ (stores.disk host t).Finds key' := by
  rw [Stores.finds_iff, Stores.finds_iff, h]

theorem Stores.finds_mono {t' : FileTree Bytes}
    (hlisted : ∀ m ∈ (stores.scan host t).1, m ∈ (stores.scan host t').1)
    (h : (stores.disk host t).Finds key) : (stores.disk host t').Finds key := by
  obtain ⟨m, hm, hfits⟩ := Stores.finds_iff.mp h
  exact Stores.finds_iff.mpr ⟨m, hlisted m hm, hfits⟩

end Finds

namespace InstallCall

variable {call : InstallCall}

theorem final_dir_of_plain (h : plainName call.set.pair = true) :
    call.final_dir = call.stores.user ++ [PROVIDER_ID] ++ [call.set.pair, call.set.version.raw] := by
  have hprovider : plainName PROVIDER_ID = true := by decide
  rw [final_dir_eq]
  show (PathBuf.join call.stores.user PROVIDER_ID).join call.set.pair ++ [call.set.version.raw] = _
  rw [join_plain hprovider, join_plain h, List.append_assoc]
  rfl

/-- A model that is listed in the version directory of the install has its
pair and its version. -/
theorem names_of_inPlace (hplain : plainName call.set.pair = true) {m : InstalledModel}
    (hplace : m.InPlace) (hdirectory : m.directory = call.final_dir) :
    m.pair = call.set.pair ∧ m.manifest.version = call.set.version.raw := by
  obtain ⟨above, habove⟩ := hplace
  rw [hdirectory, final_dir_of_plain hplain] at habove
  obtain ⟨-, heq⟩ := List.append_inj' habove rfl
  simpa using heq

/-! ## One step -/

section Step

variable {s s' : Install} {e : InstallEvent}

/-- At a directory that a scan visits after the step, nothing is new, or it
is the one of the install, complete. -/
theorem scanned_step (hl : call.Located) (hn : call.NamesStay) (hapart : call.stores.SystemApart)
    (h : call.Transition s e s') (hf : call.FromSet s.pc) (hw : call.Written s'.tree s'.pc)
    {origin : Origin} {dir : PathBuf} (hscanned : call.stores.Scanned s'.tree origin dir) :
    (∀ q, dir.reverse <:+ q → s'.tree.node q = none ∨ s'.tree.node q = s.tree.node q)
      ∨ (origin = .user ∧ dir = call.final_dir ∧ call.Placed s'.tree call.installed) := by
  have hu := untouched_step hl.inside (hn.own hl.pair_plain) h hf (Untouched.refl s.tree)
  by_cases hfinal : origin = .user ∧ dir = call.final_dir
  · obtain ⟨rfl, rfl⟩ := hfinal
    rw [final_dir_reverse]
    by_cases hremoving : s.pc = .removing false
    · refine Or.inl fun q _ => ?_
      cases h with
      | unlink hpc hwalk hbelow hne ht | removed hpc hwalk ht =>
          obtain ⟨-, -, -, hnode⟩ := FileTree.remove_eq_ok ht
          rw [hnode, Function.update_apply]
          split
          · exact Or.inl rfl
          · exact Or.inr rfl
      | fail herror => exact Or.inr rfl
      | makeUser hpc | userMade hpc | lockFile hpc | locked hpc | found hpc | absent hpc
      | existing hpc | damaged hpc | tmpFound hpc | tmpAbsent hpc | make hpc | made hpc
      | refused hpc | unpacked hpc | assembled hpc | create hpc | write hpc | wrote hpc
      | synced hpc | stored hpc | rename hpc | finish hpc => cases hpc.symm.trans hremoving
    by_cases hrenaming : ∃ m, s.pc = .renaming m
    · obtain ⟨m, hrenaming⟩ := hrenaming
      cases h with
      | rename hpc hsrc hdst ht =>
          have hplaced : call.Placed _ _ := hw
          rw [hplaced.installed] at hplaced
          exact Or.inr ⟨rfl, rfl, hplaced⟩
      | fail herror => exact Or.inl fun _ _ => Or.inr rfl
      | makeUser hpc | userMade hpc | lockFile hpc | locked hpc | found hpc | absent hpc
      | existing hpc | damaged hpc | tmpFound hpc | tmpAbsent hpc | unlink hpc | removed hpc
      | make hpc | made hpc | refused hpc | unpacked hpc | assembled hpc | create hpc | write hpc
      | wrote hpc | synced hpc | stored hpc | finish hpc => cases hpc.symm.trans hrenaming
    · have hkept := kept_step hl hn h hf hremoving fun m hm => hrenaming ⟨m, hm⟩
      exact Or.inl fun q hq => Or.inr (hkept q hq)
  · refine Or.inl fun q hq => Or.inr ?_
    obtain ⟨⟨root, provider, pair, version, hroot, rfl, htmp⟩, -⟩ := hscanned
    exact hu.scanned hl hapart hroot htmp hfinal hq

/-- **A step keeps the stores orderly.** -/
theorem orderly_step (hplain : plainName call.set.pair = true) (hn : call.PlainNames)
    (hapart : call.stores.SystemApart)
    (hjson : call.host.from_slice (call.host.to_vec_pretty call.installed) = .ok call.installed)
    (h : call.Transition s e s') (hf : call.FromSet s.pc) (hw : call.Written s'.tree s'.pc)
    (ho : call.stores.Orderly call.host s.tree) : call.stores.Orderly call.host s'.tree := by
  have hl := located_of_plain hplain
  have hstep := fun {origin : Origin} {dir : PathBuf} =>
    @scanned_step call s s' e hl hn.stay hapart h hf hw origin dir
  -- what is left of a directory that was visited before
  have hold : ∀ {origin : Origin} {dir : PathBuf}, call.stores.Scanned s'.tree origin dir →
      (∀ q, dir.reverse <:+ q → s'.tree.node q = none ∨ s'.tree.node q = s.tree.node q) →
      s'.tree.node dir.reverse ≠ none ∧ call.stores.Scanned s.tree origin dir := by
    intro origin dir hscanned hshrunk
    have hnone : s'.tree.node dir.reverse ≠ none := by
      rw [hscanned.dir]
      exact Option.some_ne_none _
    refine ⟨hnone, hscanned.place, ?_⟩
    rw [← (hshrunk _ (List.suffix_refl _)).resolve_left hnone, hscanned.dir]
  constructor
  · intro m hm
    obtain ⟨hscanned, hscan⟩ := Stores.mem_scan.mp hm
    rcases hstep hscanned with hshrunk | ⟨horigin, hdirectory, hplaced⟩
    · obtain ⟨hnone, hscanned'⟩ := hold hscanned hshrunk
      exact ho.named m (Stores.mem_scan.mpr ⟨hscanned', scan_model_dir_shrink hscanned.plain hnone
        hshrunk (ho.inside _ _ hscanned') hscan⟩)
    · rw [horigin, hdirectory] at hscan
      cases (hplaced.scan hl hn.fits hjson).symm.trans hscan
      refine ⟨call.stores.user ++ [PROVIDER_ID], ?_⟩
      exact (final_dir_of_plain hplain).symm
  · intro origin dir hscanned manifest hload
    rcases hstep hscanned with hshrunk | ⟨-, rfl, hplaced⟩
    · obtain ⟨hnone, hscanned'⟩ := hold hscanned hshrunk
      exact ho.inside _ _ hscanned' manifest (load_shrink hscanned.plain hnone hshrunk hload)
    · obtain ⟨-, -, hload', -⟩ := scan_model_dir_eq_ok.mp (hplaced.scan hl hn.fits hjson)
      cases hload'.symm.trans hload
      intro file hfile
      obtain ⟨f, hmem, rfl⟩ := List.mem_map.mp hfile
      obtain ⟨file_type, hmem⟩ := mem_wanted hmem
      exact insideName_of_plain (hn.plain _ hmem)

/-- **A step keeps the models of other pairs.** -/
theorem listed_step (hplain : plainName call.set.pair = true) (hn : call.NamesStay)
    (hapart : call.stores.SystemApart) (h : call.Transition s e s') (hf : call.FromSet s.pc)
    (ho : call.stores.Orderly call.host s.tree) {m : InstalledModel}
    (hm : m ∈ (call.stores.scan call.host s.tree).1) (hpair : m.pair ≠ call.set.pair) :
    m ∈ (call.stores.scan call.host s'.tree).1 := by
  have hl := located_of_plain hplain
  have hu := untouched_step hl.inside (hn.own hl.pair_plain) h hf (Untouched.refl s.tree)
  refine (hu.scan_iff hl hapart ho.inside fun hfinal => ?_).mpr hm
  exact hpair (names_of_inPlace hplain (ho.named m hm) hfinal.2).1

/-- The pair of the install is found when it returns. -/
theorem finds_of_done (hplain : plainName call.set.pair = true) (hn : call.PlainNames)
    (hjson : call.host.from_slice (call.host.to_vec_pretty call.installed) = .ok call.installed)
    (hwindow : call.set.version.inWindow = true) (h : call.Transition s e s')
    (hw : call.Written s.tree s.pc) (ho : call.stores.Orderly call.host s.tree)
    {m : InstalledModel} {downloaded : Bool} (hpc : s'.pc = .done m downloaded) :
    (call.stores.disk call.host s'.tree).Finds (call.set.source, call.set.target) := by
  have hl := located_of_plain hplain
  have hlisted : ∀ {m : InstalledModel},
      scan_model_dir call.host s.tree call.final_dir .user = .ok m →
      m ∈ (call.stores.scan call.host s.tree).1 := by
    intro m hscan
    obtain ⟨horigin, hdirectory, -⟩ := scan_model_dir_eq_ok.mp hscan
    refine Stores.mem_scan.mpr ?_
    rw [horigin, hdirectory]
    exact ⟨hl.scanned (hl.dir_of_scan hscan), hscan⟩
  cases h with
  | finish hsyncing =>
      rw [hsyncing] at hw
      have hplaced : call.Placed s.tree _ := hw
      exact Stores.finds_iff.mpr ⟨call.model, hlisted (hplaced.scan hl hn.fits hjson), rfl, hwindow⟩
  | existing hchecking hscan =>
      -- a model in this place has the version of the set
      obtain ⟨-, hdirectory, -, hversion, -⟩ := scan_model_dir_eq_ok.mp hscan
      obtain ⟨hpair, hraw⟩ := names_of_inPlace hplain (ho.named _ (hlisted hscan)) hdirectory
      rw [hraw, MozVersion.parse_raw] at hversion
      refine Stores.finds_iff.mpr ⟨_, hlisted hscan, hpair, ?_⟩
      rw [← Except.ok.inj hversion]
      exact hwindow
  | @removed tmp => cases tmp <;> cases hpc
  | makeUser | userMade | lockFile | locked | found | absent | damaged | tmpFound | tmpAbsent
  | unlink | make | made | refused | unpacked | assembled | create | write | wrote | synced
  | stored | rename | fail => cases hpc

end Step

end InstallCall

end Dragomand
