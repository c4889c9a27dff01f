import Dragomand.InstallFiles

/-!
# Installed models and the store's checks

The provider compares hashes without regard to case, `Stores::verify`
compares them as they are, and the manifest has the hash as the record
writes it. So a model just installed passes the checks of the store exactly
when its records write their hashes as `{:x}` does, in lower case, and its
directory is one that a scan visits.
-/

namespace Dragomand

open FileTree (plainName)

/-! ## Lower case -/

/-- No capital ASCII letters. -/
def lowerCase (text : String) : Bool := text.toList.map Char.toLower = text.toList

theorem hexDigit_toLower : ∀ n < 16, (hexDigit n).toLower = hexDigit n := by decide

theorem lowerCase_hex (bytes : Bytes) : lowerCase (hex bytes) = true := by
  refine decide_eq_true ((List.map_congr_left fun c hc => ?_).trans (List.map_id _))
  rw [hex, String.toList_ofList] at hc
  obtain ⟨b, -, hc⟩ := List.mem_flatMap.mp hc
  have hb : b.toNat < 256 := b.toNat_lt
  simp only [List.mem_cons, List.not_mem_nil, or_false] at hc
  rcases hc with rfl | rfl
  · exact hexDigit_toLower _ (by omega)
  · exact hexDigit_toLower _ (by omega)

/-- A hash in lower case is equal to a digest if it is without regard to
case. -/
theorem eq_of_eq_ignore_ascii_case {bytes : Bytes} {hash : String}
    (h : eq_ignore_ascii_case (hex bytes) hash = true) (hlower : lowerCase hash = true) :
    hex bytes = hash := by
  have heq := of_decide_eq_true h
  rw [of_decide_eq_true (lowerCase_hex bytes), of_decide_eq_true hlower] at heq
  exact String.toList_inj.mp heq

/-! ## The checks -/

namespace InstallCall

/-- What the store says of an installed model. -/
structure PassesChecks (call : InstallCall) (t : FileTree Bytes) (m : InstalledModel) : Prop where
  listed : m ∈ (call.stores.scan call.host t).1
  resolves : ∃ best, call.stores.resolve call.host t call.set.source call.set.target = some best
    ∧ (m.version.cmp best.version).isLE = true
  verifies : Stores.verify call.host t m = .ok ()

variable {call : InstallCall} {s : Install} {t t₀ : FileTree Bytes} {m : InstalledModel}
  {ok : Install → InstallEvent → Prop}

/-- A model that install returns after a download is at the final
directory. -/
theorem directory_of_done (h : Machine.Reach call.step ok (Install.init t₀) s)
    (hpc : s.pc = .done m true) : m.origin = .user ∧ m.directory = call.final_dir := by
  cases h with
  | init => cases hpc
  | tail _ _ hs =>
      cases step_cases hs with
      | @removed tmp => cases tmp <;> cases hpc
      | finish =>
          cases hpc
          exact ⟨rfl, rfl⟩
      | makeUser | userMade | lockFile | locked | found | absent | existing | damaged
      | tmpFound | tmpAbsent | unlink | make | made | refused | unpacked | assembled | create
      | write | wrote | synced | stored | rename | fail => cases hpc

/-- One that it returns without is what it found there. -/
theorem model_of_existing (h : Machine.Reach call.step ok (Install.init t₀) s)
    (hpc : s.pc = .done m false) :
    scan_model_dir call.host s.tree call.final_dir .user = .ok m := by
  cases h with
  | init => cases hpc
  | tail _ _ hs =>
      cases step_cases hs with
      | @removed tmp => cases tmp <;> cases hpc
      | existing hchecking hscan =>
          cases hpc
          exact hscan
      | makeUser | userMade | lockFile | locked | found | absent | damaged | tmpFound | tmpAbsent
      | unlink | make | made | refused | unpacked | assembled | create | write | wrote | synced
      | stored | rename | finish | fail => cases hpc

theorem located_of_listed (hlisted : m ∈ (call.stores.scan call.host t).1)
    (horigin : m.origin = .user) (hdirectory : m.directory = call.final_dir) : call.Located := by
  obtain ⟨⟨⟨root, provider, pair, version, hroot, hplace, -⟩, hdir⟩, -⟩ :=
    Stores.mem_scan.mp hlisted
  rw [horigin] at hroot
  have huser : root = call.stores.user := by
    rcases List.mem_cons.mp hroot with heq | hsystem
    · exact (Prod.mk.inj heq).2
    · obtain ⟨root', -, heq⟩ := List.mem_map.mp hsystem
      cases heq
  rw [hplace, huser, List.reverse_append] at hdir
  have hversion : t.node (version :: pair :: provider :: call.stores.user.reverse) ≠ none := by
    rw [show t.node (version :: pair :: provider :: call.stores.user.reverse) = _ from hdir]
    exact Option.some_ne_none _
  have hpair := t.parent _ _ hversion
  have hprovider := t.parent pair _ (by rw [hpair]; exact Option.some_ne_none _)
  refine ⟨provider, pair, t.plain _ _ (by rw [hprovider]; exact Option.some_ne_none _),
    t.plain _ _ (by rw [hpair]; exact Option.some_ne_none _), ?_⟩
  have heq : call.pair_dir ++ [call.set.version.raw]
      = (call.stores.user ++ [provider, pair]) ++ [version] := by
    rw [← final_dir_eq, ← hdirectory, hplace, huser, List.append_assoc]
    rfl
  exact (List.append_inj' heq rfl).1

/-- The file of a record is read as it was written. -/
theorem Placed.verifyFile (hl : call.Located) (hn : call.PlainNames) {manifest : Manifest}
    (hp : call.Placed t manifest) {f : String × ModelRecord} (hf : f ∈ call.wanted) :
    Stores.verifyFile call.host t call.final_dir (f.2.entry f.1) = .ok ()
      ↔ lowerCase f.2.decompressed_hash = true := by
  obtain ⟨file_type, hmem⟩ := mem_wanted hf
  obtain ⟨content, hnode, hlength, hhash⟩ := hp.files f hf
  have hstat := Placed.stat hl (hn.plain _ hmem) hnode
  have hlen : metadata_len call.host t (PathBuf.join call.final_dir f.2.name)
      = .ok f.2.decompressed_size :=
    FileTree.map_eq_ok.mpr ⟨_, hstat, hlength⟩
  have hread : t.read (PathBuf.join call.final_dir f.2.name) = .ok content :=
    FileTree.bind_eq_ok.mpr ⟨_, hstat, rfl⟩
  rw [@Stores.verifyFile_iff _ _ _ (f.2.entry f.1) _ hlen hread]
  constructor
  · intro heq
    have hlower := lowerCase_hex (call.host.digest content)
    rwa [show hex (call.host.digest content) = f.2.decompressed_hash from heq] at hlower
  · exact fun hlower => eq_of_eq_ignore_ascii_case hhash hlower

/-- **An installed model passes the checks of the store** exactly when the
records downloaded for it write their hashes in lower case, and its
directory is two levels below the user store. -/
theorem install_passes_checks_iff {records : List ModelRecord} {env : FilterEnv}
    (haccepted : call.set ∈ (accepted_sets records env).1) (hn : call.PlainNames)
    (hjson : call.host.from_slice (call.host.to_vec_pretty call.installed) = .ok call.installed)
    (h : Machine.Reach call.step Machine.anyStep (Install.init t₀) s)
    (hpc : s.pc = .done m true) :
    call.PassesChecks s.tree m
      ↔ call.Located ∧ ∀ f ∈ call.wanted, lowerCase f.2.decompressed_hash = true := by
  have hplaced : ∀ hl : call.Located, m = call.model ∧ call.Placed s.tree m.manifest := by
    intro hl
    have hw := written_of_reach hl hn.fits h
    rw [hpc] at hw
    exact hw
  have hverify : ∀ hl : call.Located, Stores.verify call.host s.tree m = .ok ()
      ↔ ∀ f ∈ call.wanted, lowerCase f.2.decompressed_hash = true := by
    intro hl
    obtain ⟨rfl, hp⟩ := hplaced hl
    unfold Stores.verify
    rw [forM_eq_ok]
    show (∀ file ∈ call.wanted.map fun f => f.2.entry f.1, _) ↔ _
    rw [List.forall_mem_map]
    exact forall₂_congr fun f hf => hp.verifyFile hl hn hf
  constructor
  · intro hpass
    obtain ⟨horigin, hdirectory⟩ := directory_of_done h hpc
    have hl := located_of_listed hpass.listed horigin hdirectory
    exact ⟨hl, (hverify hl).mp hpass.verifies⟩
  · rintro ⟨hl, hlower⟩
    obtain ⟨rfl, hp⟩ := hplaced hl
    have hlisted : call.model ∈ (call.stores.scan call.host s.tree).1 :=
      Stores.mem_scan.mpr ⟨hl.scanned hp.dir, hp.scan hl hn.fits hjson⟩
    have hwindow := accepted_sets_inWindow haccepted
    obtain ⟨best, hbest⟩ := @Stores.resolve_isSome _ _ _ call.set.source
      call.set.target _ hlisted rfl hwindow
    obtain ⟨-, -, -, hmax⟩ := Stores.resolve_eq_some hbest
    exact ⟨hlisted, ⟨best, hbest, hmax _ hlisted rfl hwindow⟩, (hverify hl).mpr hlower⟩

theorem install_passes_checks_lower : ∃ s : Install,
    (catalogueCall hashA).PassesChecks s.tree (catalogueCall hashA).model := by
  obtain ⟨s, hreach, hpc⟩ := catalogue_installs
  have hl : (catalogueCall hashA).Located := located_of_plain (by decide)
  refine ⟨s, (install_passes_checks_iff (catalogue_accepted _ (by simp))
    (catalogue_names _) (catalogue_reads _)
    (hreach.mono fun _ _ _ => trivial) hpc).mpr ⟨hl, ?_⟩⟩
  decide

/-- With a hash in capitals, which the provider accepts, the store finds the
model corrupt. -/
theorem install_fails_checks : ∃ s, Machine.Reach (catalogueCall hashCapitalA).step
      Machine.anyStep (Install.init FileTree.empty) s
    ∧ s.pc = .done (catalogueCall hashCapitalA).model true
    ∧ (catalogueCall hashCapitalA).set
      ∈ (accepted_sets (catalogue hashCapitalA) (.prerelease false)).1
    ∧ (catalogueCall hashCapitalA).PlainNames
    ∧ ¬ (catalogueCall hashCapitalA).PassesChecks s.tree (catalogueCall hashCapitalA).model := by
  obtain ⟨s, hreach, hpc⟩ := catalogue_installs_capital
  have hl : (catalogueCall hashCapitalA).Located := located_of_plain (by decide)
  have hn := catalogue_names hashCapitalA
  refine ⟨s, hreach.mono fun _ _ _ => trivial, hpc, catalogue_accepted _ (by simp), hn, fun hpass => ?_⟩
  have hw := written_of_reach hl hn.fits hreach
  rw [hpc] at hw
  obtain ⟨-, hp⟩ := hw
  have hmodel : ("model", catalogueRecord "model.bin" .model hashCapitalA frameHashA)
      ∈ (catalogueCall hashCapitalA).wanted := List.mem_cons_self ..
  have hfile := forM_eq_ok.mp hpass.verifies _
    (List.mem_map.mpr ⟨_, hmodel, rfl⟩)
  have hlower := (hp.verifyFile hl hn hmodel).mp hfile
  exact absurd hlower (by decide)

end InstallCall

end Dragomand
