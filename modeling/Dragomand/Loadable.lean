import Dragomand.Accepted
import Dragomand.InstallAtomic
import Dragomand.InstallVerify
import Dragomand.ModelConfig
import Dragomand.Workers

/-!
# Accepted sets can be loaded

The acceptance rule asks for file types, the manifest has roles, `model_spec`
looks roles up, and the adapter checks pointers. `ModelSpec.Names` relates
the last to the first: each path that the engine is given is that of the
file which the accepted set has a record for.

An install that finds a model in the version directory returns that one. It
can be loaded when its manifest has the files that install writes.
-/

namespace Dragomand

open FileTree (plainName)

/-! ## The adapter -/

/-- A null pointer is `none`. -/
structure dg_model_files where
  model_path : Option PathBuf
  vocab_path : Option PathBuf
  src_vocab_path : Option PathBuf
  trg_vocab_path : Option PathBuf
deriving DecidableEq, Repr

/-- What `Engine::load` hands over. -/
def ModelSpec.c_files (spec : ModelSpec) : dg_model_files :=
  ⟨some spec.model, spec.vocab, spec.src_vocab, spec.trg_vocab⟩

/-- The model and the two vocabularies of the configuration, or the error
stored. -/
def dg_model_load (files : dg_model_files) : Except String (PathBuf × PathBuf × PathBuf) :=
  match files.model_path with
  | none => .error "dg_model_load: engine and files.model_path are required"
  | some model =>
      match files.vocab_path, files.src_vocab_path, files.trg_vocab_path with
      | some vocab, _, _ => .ok (model, vocab, vocab)
      | none, some src, some trg => .ok (model, src, trg)
      | none, _, _ =>
          .error "dg_model_load: need vocab_path, or src_vocab_path and trg_vocab_path"

theorem dg_model_load_isOk {spec : ModelSpec}
    (h : spec.vocab.isSome ∨ (spec.src_vocab.isSome ∧ spec.trg_vocab.isSome)) :
    (dg_model_load spec.c_files).isOk = true := by
  obtain ⟨model, vocab, src, trg⟩ := spec
  cases vocab with
  | some vocab => rfl
  | none =>
      obtain ⟨hsrc, htrg⟩ := h.resolve_left (by simp)
      obtain ⟨src, rfl⟩ := Option.isSome_iff_exists.mp hsrc
      obtain ⟨trg, rfl⟩ := Option.isSome_iff_exists.mp htrg
      rfl

/-- The C strings that `bytes` makes of the paths, without a shortlist. -/
def dg_model_files.strings (bytes : PathBuf → Bytes) (files : dg_model_files) :
    adapter.dg_model_files where
  model_path := files.model_path.map bytes
  vocab_path := files.vocab_path.map bytes
  src_vocab_path := files.src_vocab_path.map bytes
  trg_vocab_path := files.trg_vocab_path.map bytes
  shortlist_path := none

/-- The configuration is written for these paths, and refused with the same
error. -/
theorem dg_model_load_config (bytes : PathBuf → Bytes) (files : dg_model_files)
    (config_yaml : Option Bytes) :
    ((files.strings bytes).config config_yaml).map (fun _ => (files.strings bytes).paths)
      = (dg_model_load files).map fun paths =>
        [bytes paths.1, bytes paths.2.1, bytes paths.2.2] := by
  obtain ⟨model, vocab, src, trg⟩ := files
  cases model with
  | none => rfl
  | some model =>
      cases vocab with
      | some vocab => rfl
      | none => cases src <;> cases trg <;> rfl

/-! ## Roles and file types -/

/-- The record of a file type. -/
def ModelSet.record (set : ModelSet) (file_type : FileType) : Option ModelRecord :=
  (set.files.find? fun file => file.1 = file_type).map Prod.snd

theorem role_injective {download_lex : Bool} {a b : FileType} {role : String}
    (ha : a.role download_lex = some role) (hb : b.role download_lex = some role) : a = b := by
  have heq := ha.trans hb.symm
  cases download_lex <;> cases a <;> cases b <;> simp [FileType.role] at ha hb heq ⊢

/-- A set that is accepted has the files that its group needs. -/
theorem record_isSome {records : List ModelRecord} {env : FilterEnv} {set : ModelSet}
    (haccepted : set ∈ (accepted_sets records env).1) :
    (set.record .model).isSome ∧ ((set.record .vocab).isSome
      ∨ ((set.record .srcVocab).isSome ∧ (set.record .trgVocab).isSome)) := by
  have hnewest := newest_of_mem haccepted
  have hpresent : ∀ file_type, Present records env set.key file_type →
      (set.record file_type).isSome := by
    rintro file_type ⟨record, hrecord, hel, hkey, rfl⟩
    obtain ⟨file, hfile, htype⟩ := hnewest.all record hrecord hel hkey
    rw [ModelSet.record, Option.isSome_map, List.find?_isSome]
    exact ⟨file, hfile, decide_eq_true htype⟩
  obtain ⟨hmodel, hvocab⟩ := hnewest.complete
  refine ⟨hpresent _ hmodel, hvocab.imp (hpresent _) ?_⟩
  exact fun hboth => ⟨hpresent _ hboth.1, hpresent _ hboth.2⟩

namespace InstallCall

variable {call : InstallCall}

/-- The call, with the shortlists or without. -/
def withLex (call : InstallCall) (download_lex : Bool) : InstallCall :=
  { call with download_lex := download_lex }

/-- The files that a manifest of the set lists. -/
def entries (call : InstallCall) : List ManifestFile := call.wanted.map fun f => f.2.entry f.1

/-- The file with the role of a type is that of its record. -/
theorem find_entries {file_type : FileType} {role : String}
    (hrole : file_type.role call.download_lex = some role) :
    call.entries.find? (fun f => f.role = role)
      = (call.set.record file_type).map fun record => record.entry role := by
  unfold entries wanted ModelSet.record
  induction call.set.files with
  | nil => rfl
  | cons file files ih =>
      by_cases htype : file.1 = file_type
      · rw [← htype] at hrole
        rw [List.filterMap_cons, hrole, Option.map_some, List.map_cons,
          List.find?_cons_of_pos (by simp [ModelRecord.entry]),
          List.find?_cons_of_pos (by simp [htype])]
        rfl
      · rw [List.find?_cons_of_neg (by simpa using htype), ← ih, List.filterMap_cons]
        cases hother : file.1.role call.download_lex with
        | none => rfl
        | some other =>
            have hne : other ≠ role := by
              rintro rfl
              exact htype (role_injective hother hrole)
            simp [ModelRecord.entry, hne]

/-- The place of the file of a type. -/
def place (call : InstallCall) (file_type : FileType) : Option PathBuf :=
  (call.set.record file_type).map fun record => PathBuf.join call.final_dir record.name

/-- What the engine is given for the model: a path for each file of the set
that it uses, and enough of them. -/
structure Names (call : InstallCall) (m : InstalledModel) (spec : ModelSpec) : Prop where
  built : model_spec m = .ok spec
  loads : (dg_model_load spec.c_files).isOk = true
  model : some spec.model = call.place .model
  vocab : spec.vocab = call.place .vocab
  src_vocab : spec.src_vocab = call.place .srcVocab
  trg_vocab : spec.trg_vocab = call.place .trgVocab

theorem file_path_of_entries {m : InstalledModel} (hdirectory : m.directory = call.final_dir)
    {download_lex : Bool} (hfiles : m.manifest.files = (call.withLex download_lex).entries)
    {file_type : FileType} {role : String} (hrole : file_type.role download_lex = some role) :
    m.file_path role = call.place file_type := by
  unfold InstalledModel.file_path Manifest.file
  rw [hfiles, hdirectory, (call.withLex download_lex).find_entries hrole, Option.map_map]
  rfl

/-- Whatever installed it: a manifest with the files of an accepted set. -/
theorem names_of_entries {records : List ModelRecord} {env : FilterEnv}
    (haccepted : call.set ∈ (accepted_sets records env).1) {m : InstalledModel}
    (hdirectory : m.directory = call.final_dir) {download_lex : Bool}
    (hfiles : m.manifest.files = (call.withLex download_lex).entries) :
    ∃ spec, call.Names m spec := by
  obtain ⟨hmodel, hvocab⟩ := record_isSome haccepted
  obtain ⟨record, hrecord⟩ := Option.isSome_iff_exists.mp hmodel
  have hplace : call.place .model = some (PathBuf.join call.final_dir record.name) := by
    rw [place, hrecord]
    rfl
  have hpath := fun {file_type : FileType} {role : String} =>
    @file_path_of_entries call m hdirectory download_lex hfiles file_type role
  refine ⟨⟨PathBuf.join call.final_dir record.name, call.place .vocab, call.place .srcVocab,
    call.place .trgVocab⟩, ?_, ?_, hplace.symm, rfl, rfl, rfl⟩
  · unfold model_spec
    rw [@hpath .model _ rfl, hplace, @hpath .vocab _ rfl, @hpath .srcVocab _ rfl,
      @hpath .trgVocab _ rfl]
  · refine dg_model_load_isOk ?_
    simpa only [place, Option.isSome_map] using hvocab

/-! ## After an install -/

section Runs

variable {s : Install} {t₀ t : FileTree Bytes} {m : InstalledModel} {downloaded : Bool}

/-- What the provider accepted for the records is in the files. -/
def HasFiles (call : InstallCall) (t : FileTree Bytes) : Prop :=
  ∀ file_type record role, file_type.role call.download_lex = some role →
    call.set.record file_type = some record →
    ∃ content, t.read (PathBuf.join call.final_dir record.name) = .ok content
      ∧ Verified call.host record content

theorem hasFiles_of_placed (hl : call.Located) (hn : call.PlainNames)
    (hp : call.Placed s.tree m.manifest) (hkept : call.Kept s.tree t) : call.HasFiles t := by
  intro file_type record role hrole hrecord
  obtain ⟨file, hfind, rfl⟩ := Option.map_eq_some_iff.mp hrecord
  have hfile := List.mem_of_find?_eq_some hfind
  obtain rfl : file.1 = file_type := by simpa using List.find?_some hfind
  have hwanted : (role, file.2) ∈ call.wanted :=
    List.mem_filterMap.mpr ⟨file, hfile, by rw [hrole, Option.map_some]⟩
  obtain ⟨content, hnode, hverified⟩ := hp.files _ hwanted
  rw [← hkept _ (List.suffix_cons ..)] at hnode
  have hstat := Placed.stat hl (hn.plain _ hfile) hnode
  exact ⟨content, FileTree.bind_eq_ok.mpr ⟨_, hstat, rfl⟩, hverified⟩

/-- A scan of the version directory finds the model that install returned,
as long as the directory is as install left it. -/
theorem scan_of_done (hl : call.Located) (hn : call.PlainNames)
    (hjson : call.host.from_slice (call.host.to_vec_pretty call.installed) = .ok call.installed)
    (h : Machine.Reach call.step Machine.anyStep (Install.init t₀) s)
    (hpc : s.pc = .done m downloaded) {download_lex : Bool}
    (hfiles : m.manifest.files = (call.withLex download_lex).entries)
    (hkept : call.Kept s.tree t) :
    scan_model_dir call.host t call.final_dir .user = .ok m := by
  have hscan : scan_model_dir call.host s.tree call.final_dir .user = .ok m := by
    cases downloaded with
    | false => exact model_of_existing h hpc
    | true =>
        have hw := written_of_reach hl hn.fits h
        rw [hpc] at hw
        obtain ⟨rfl, hp⟩ := hw
        exact hp.scan hl hn.fits hjson
  have hdir : s.tree.node call.final_dir.reverse ≠ none := by
    rw [final_dir_reverse, hl.dir_of_scan hscan]
    exact Option.some_ne_none _
  refine (scan_model_dir_congr hl.pair_plain.final_plain hdir (fun q hq => ?_) ?_).mp hscan
  · rw [final_dir_reverse] at hq
    exact (hkept q hq).symm
  · intro manifest hload file hfile
    obtain ⟨-, -, hload', -⟩ := scan_model_dir_eq_ok.mp hscan
    obtain rfl := Except.ok.inj (hload.symm.trans hload')
    rw [hfiles] at hfile
    obtain ⟨f, hf, rfl⟩ := List.mem_map.mp hfile
    obtain ⟨file_type, hmem⟩ := mem_wanted hf
    exact insideName_of_plain (hn.plain _ hmem)

/-- **An accepted set that is installed can be loaded.** A later scan finds
the model that install returned, and the engine gets the files that were
downloaded for the records of their types. A model that install has found and
not downloaded is the one in the version directory. -/
theorem accepted_loadable {records : List ModelRecord} {env : FilterEnv}
    (haccepted : call.set ∈ (accepted_sets records env).1) (hn : call.PlainNames)
    (hjson : call.host.from_slice (call.host.to_vec_pretty call.installed) = .ok call.installed)
    (h : Machine.Reach call.step Machine.anyStep (Install.init t₀) s)
    (hpc : s.pc = .done m downloaded) (hkept : call.Kept s.tree t) :
    (downloaded = false → scan_model_dir call.host s.tree call.final_dir .user = .ok m)
      ∧ ((downloaded = false →
          ∃ download_lex, m.manifest.files = (call.withLex download_lex).entries) →
        (call.Located → m ∈ (call.stores.scan call.host t).1)
          ∧ ∀ m' ∈ (call.stores.scan call.host t).1, m'.origin = .user →
            m'.directory = call.final_dir → m' = m ∧ (∃ spec, call.Names m' spec)
              ∧ (downloaded = true → call.HasFiles t)) := by
  refine ⟨fun hfound => ?_, fun hfiles => ?_⟩
  · subst hfound
    exact model_of_existing h hpc
  have hentries : call.Located →
      ∃ download_lex, m.manifest.files = (call.withLex download_lex).entries := by
    intro hl
    cases downloaded with
    | false => exact hfiles rfl
    | true =>
        have hw := written_of_reach hl hn.fits h
        rw [hpc] at hw
        obtain ⟨rfl, -⟩ := hw
        exact ⟨call.download_lex, rfl⟩
  have hscan : ∀ hl : call.Located, scan_model_dir call.host t call.final_dir .user = .ok m := by
    intro hl
    obtain ⟨download_lex, hentries⟩ := hentries hl
    exact scan_of_done hl hn hjson h hpc hentries hkept
  refine ⟨fun hl => ?_, fun m' hm' horigin hdirectory => ?_⟩
  · obtain ⟨horigin, hdirectory, -⟩ := scan_model_dir_eq_ok.mp (hscan hl)
    refine Stores.mem_scan.mpr ?_
    rw [horigin, hdirectory]
    exact ⟨hl.scanned (hl.dir_of_scan (hscan hl)), hscan hl⟩
  · have hl := located_of_listed hm' horigin hdirectory
    have hscan' := (Stores.mem_scan.mp hm').2
    rw [horigin, hdirectory] at hscan'
    obtain rfl := Except.ok.inj (hscan'.symm.trans (hscan hl))
    obtain ⟨download_lex, hentries⟩ := hentries hl
    refine ⟨rfl, names_of_entries haccepted hdirectory hentries, ?_⟩
    rintro rfl
    have hw := written_of_reach hl hn.fits h
    rw [hpc] at hw
    exact hasFiles_of_placed hl hn hw.2 hkept

/-- The model of the small catalogue. -/
theorem accepted_loadable_catalogue : ∃ s : Install,
    (catalogueCall hashA).model ∈ ((catalogueCall hashA).stores.scan (catalogueCall hashA).host
        s.tree).1
      ∧ (∃ spec, (catalogueCall hashA).Names (catalogueCall hashA).model spec)
      ∧ (catalogueCall hashA).HasFiles s.tree := by
  obtain ⟨s, hreach, hpc⟩ := catalogue_installs
  have hl : (catalogueCall hashA).Located := located_of_plain (by decide)
  obtain ⟨hlisted, hloads⟩ := accepted_loadable (t := s.tree) (catalogue_accepted _ (by simp))
    (catalogue_names _) (catalogue_reads _) (hreach.mono fun _ _ _ => trivial) hpc
    (fun _ _ => rfl) |>.2 nofun
  obtain ⟨-, hspec, hfiles⟩ := hloads _ (hlisted hl) rfl rfl
  exact ⟨s, hlisted hl, hspec, hfiles rfl⟩

/-- A model without a vocabulary is in the version directory: install returns
it, and the engine refuses it. -/
theorem accepted_not_loadable : ∃ s m,
    sameCall.set ∈ (accepted_sets (pairCatalogue "bg" "en") (.prerelease false)).1
      ∧ Machine.Reach sameCall.step Machine.anyStep (Install.init sameTree) s
      ∧ s.pc = .done m false ∧ m ∈ (sameCall.stores.scan sameCall.host s.tree).1
      ∧ m.origin = .user ∧ m.directory = sameCall.final_dir
      ∧ ¬ ∃ spec, sameCall.Names m spec := by
  obtain ⟨s, hreach, hs⟩ := Machine.exists_reach_of_run sameCall.step Machine.anyStep
    (Install.init sameTree) (List.replicate 5 .proceed)
    (fun s => decide (s.pc = .done ⟨.user, sameCall.final_dir, sameCall.set.version, sameOld⟩ false
      ∧ ⟨.user, sameCall.final_dir, sameCall.set.version, sameOld⟩
        ∈ (sameCall.stores.scan sameCall.host s.tree).1))
    (by decide +kernel)
  obtain ⟨hpc, hlisted⟩ := of_decide_eq_true hs
  refine ⟨s, _, by decide +kernel, hreach, hpc, hlisted, rfl, rfl, ?_⟩
  rintro ⟨spec, hspec⟩
  obtain rfl := Except.ok.inj (hspec.built.symm.trans
    (show model_spec _ = .ok ⟨["u", PROVIDER_ID, "bg-en", "3.0", "model.bin"], none, none, none⟩
      from rfl))
  exact absurd hspec.loads (by decide)

end Runs

end InstallCall

end Dragomand
