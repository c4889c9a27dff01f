import Dragomand.Install

/-!
# What install writes

The places install works at, when the directory of the pair is two levels
below the user store (`Located`), and what it has put there: the files
written so far are what their records promise (`Written`), and so is the
model that the renaming puts in place (`Placed`). Both hold in every run,
whatever the server answers and whatever fails.
-/

namespace Dragomand

open FileTree (Node plainName)

/-! ## Names -/

theorem plainName_of_chars {name : String}
    (hne : name ≠ "" ∧ name ≠ "." ∧ name ≠ "..")
    (hchars : ∀ c ∈ name.toList, c.isAlphanum = true ∨ c = '.' ∨ c = '-') :
    plainName name = true := by
  have hall : (name.toList.all fun c => decide (c ≠ '/') && decide (c.toNat ≠ 0)) = true := by
    refine List.all_eq_true.mpr fun c hc => ?_
    have hchar : ∀ c', (c'.isAlphanum = true ∨ c' = '.' ∨ c' = '-') = False → c ≠ c' := by
      rintro c' hnot rfl
      exact hnot ▸ hchars c hc
    have hslash : c ≠ '/' := hchar '/' (eq_false (by decide))
    have hzero : c.toNat ≠ 0 := by
      intro hzero
      refine hchar (Char.ofNat 0) (eq_false (by decide)) ?_
      rw [← hzero, Char.ofNat_toNat]
    simp [hslash, hzero]
  simp only [plainName, Bool.and_eq_true, decide_eq_true_eq]
  exact ⟨⟨⟨hne.1, hne.2.1⟩, hne.2.2⟩, hall⟩

theorem components_plain {name : String} (h : plainName name = true) :
    components name = [name] := by
  simp only [plainName, Bool.and_eq_true, decide_eq_true_eq, List.all_eq_true] at h
  have hslash : '/' ∉ name.toList := fun hmem => (h.2 _ hmem).1 rfl
  rw [components, List.splitOn_eq_singleton hslash, List.map_singleton, String.ofList_toList]

theorem join_plain {path : PathBuf} {name : String} (h : plainName name = true) :
    PathBuf.join path name = path ++ [name] := by
  unfold PathBuf.join
  rw [components_plain h]
  split
  · rename_i absolute heq
    exact absurd (List.cons.inj heq).1 (FileTree.plainName_ne h).1
  · rfl

theorem walk_join {t : FileTree Bytes} {path p : PathBuf} {name : String}
    (hpath : ∀ c ∈ path, plainName c = true) (hname : plainName name = true)
    (h : t.walk [] (PathBuf.join path name) = .ok p) : p = name :: path.reverse := by
  rw [join_plain hname] at h
  rw [(FileTree.walk_eq_ok (FileTree.plain_snoc hpath hname) h).1, List.append_nil,
    List.reverse_append]
  rfl

theorem stat_join {t : FileTree Bytes} {path : PathBuf} {name : String} {node : Node Bytes}
    (hpath : ∀ c ∈ path, plainName c = true) (hname : plainName name = true)
    (hnode : t.node (name :: path.reverse) = some node) :
    t.stat (PathBuf.join path name) = .ok (name :: path.reverse, node) := by
  have hrev : (path ++ [name]).reverse = name :: path.reverse := by
    rw [List.reverse_append]
    rfl
  have hstat := FileTree.stat_plain (FileTree.plain_snoc hpath hname) (hrev ▸ hnode)
  rwa [hrev, ← join_plain hname] at hstat

theorem MozVersion.plainName_raw (v : MozVersion) : plainName v.raw = true := by
  obtain ⟨c, rest, hraw, hdigit⟩ := v.raw_head
  refine plainName_of_chars ⟨?_, ?_, ?_⟩ fun c hc => ?_
  · intro h
    rw [h] at hraw
    cases hraw
  · intro h
    rw [h] at hraw
    cases hraw
    cases hdigit
  · intro h
    rw [h] at hraw
    cases hraw
    cases hdigit
  · rcases v.raw_chars hc with hdot | halpha
    · exact Or.inr (Or.inl hdot)
    · exact Or.inl halpha

theorem MozVersion.isTmp_raw (v : MozVersion) : isTmp v.raw = false := by
  obtain ⟨c, rest, hraw, hdigit⟩ := v.raw_head
  unfold isTmp
  rw [hraw]
  by_contra h
  have hprefix := List.isPrefixOf_iff_prefix.mp (Bool.not_eq_false _ ▸ h)
  have hdot : c = '.' := ((List.cons_prefix_cons.mp hprefix).1).symm
  rw [hdot] at hdigit
  cases hdigit

namespace InstallCall

variable {call : InstallCall}

theorem tmp_name_toList : call.tmp_name.toList
    = ".tmp-".toList ++ call.set.version.raw.toList ++ "-".toList
      ++ (toString call.host.process_id).toList := by
  simp only [tmp_name, String.toList_append]

theorem plainName_tmp_name : plainName call.tmp_name = true := by
  have hlong : 5 ≤ call.tmp_name.toList.length := by
    rw [tmp_name_toList]
    simp only [List.length_append]
    have : ".tmp-".toList.length = 5 := rfl
    omega
  refine plainName_of_chars ⟨?_, ?_, ?_⟩ fun c hc => ?_
  · intro h
    rw [h] at hlong
    cases hlong
  · intro h
    rw [h] at hlong
    exact absurd hlong (by decide)
  · intro h
    rw [h] at hlong
    exact absurd hlong (by decide)
  · rw [tmp_name_toList] at hc
    simp only [List.mem_append] at hc
    rcases hc with ((hc | hc) | hc) | hc
    · have htmp : ".tmp-".toList.all (fun c => c.isAlphanum || c = '.' || c = '-') = true := by
        decide
      simpa [or_assoc] using List.all_eq_true.mp htmp c hc
    · rcases call.set.version.raw_chars hc with hdot | halpha
      · exact Or.inr (Or.inl hdot)
      · exact Or.inl halpha
    · exact Or.inr (Or.inr (List.mem_singleton.mp hc))
    · have hdigit : c.isDigit = true := by
        have hdigits : c ∈ Nat.toDigits 10 call.host.process_id := by
          simpa [toString, Nat.repr] using hc
        exact Nat.isDigit_of_mem_toDigits (by decide) (by decide) hdigits
      exact Or.inl (by simp [Char.isAlphanum, hdigit])

theorem isTmp_tmp_name : isTmp call.tmp_name = true := by
  unfold isTmp
  rw [tmp_name_toList, List.isPrefixOf_iff_prefix, List.append_assoc, List.append_assoc]
  exact List.prefix_append ..

/-! ## Places -/

variable (call) in
/-- The directory of the pair is two levels below the user store. -/
def Located : Prop :=
  ∃ provider pair, plainName provider = true ∧ plainName pair = true
    ∧ call.pair_dir = call.stores.user ++ [provider, pair]

variable (call) in
/-- The names on the way to the directory of the pair are those of
directories. -/
def PairPlain : Prop := ∀ name ∈ call.pair_dir, plainName name = true

variable (call) in
def pairAt : List String := call.pair_dir.reverse

variable (call) in
def finalAt : List String := call.set.version.raw :: call.pairAt

variable (call) in
def tmpAt : List String := call.tmp_name :: call.pairAt

variable (call) in
def lockAt : List String := ".lock" :: call.stores.user.reverse

/-- It is, when the pair has the name of a file. -/
theorem located_of_plain (h : plainName call.set.pair = true) : call.Located := by
  have hprovider : plainName PROVIDER_ID = true := by decide
  refine ⟨PROVIDER_ID, call.set.pair, hprovider, h, ?_⟩
  show (PathBuf.join call.stores.user PROVIDER_ID).join call.set.pair = _
  rw [join_plain hprovider, join_plain h, List.append_assoc]
  rfl

theorem user_plain : ∀ name ∈ call.stores.user, plainName name = true :=
  call.stores.plain _ (List.mem_cons_self ..)

theorem Located.pair_plain (hl : call.Located) : call.PairPlain := by
  obtain ⟨provider, pair, hprovider, hpair, heq⟩ := hl
  intro name hname
  rw [heq] at hname
  rcases List.mem_append.mp hname with huser | hname
  · exact user_plain name huser
  · simp only [List.mem_cons, List.not_mem_nil, or_false] at hname
    rcases hname with rfl | rfl
    · exact hprovider
    · exact hpair

theorem PairPlain.below_plain (hp : call.PairPlain) {name : String} (hname : plainName name = true) :
    ∀ c ∈ call.pair_dir ++ [name], plainName c = true :=
  FileTree.plain_snoc hp hname

theorem final_dir_eq : call.final_dir = call.pair_dir ++ [call.set.version.raw] :=
  join_plain call.set.version.plainName_raw

theorem tmp_dir_eq : call.tmp_dir = call.pair_dir ++ [call.tmp_name] :=
  join_plain plainName_tmp_name

theorem final_dir_reverse : call.final_dir.reverse = call.finalAt := by
  rw [final_dir_eq, List.reverse_append]
  rfl

theorem tmp_dir_reverse : call.tmp_dir.reverse = call.tmpAt := by
  rw [tmp_dir_eq, List.reverse_append]
  rfl

theorem PairPlain.final_plain (hp : call.PairPlain) :
    ∀ name ∈ call.final_dir, plainName name = true := by
  rw [final_dir_eq]
  exact hp.below_plain call.set.version.plainName_raw

theorem PairPlain.tmp_plain (hp : call.PairPlain) : ∀ name ∈ call.tmp_dir, plainName name = true := by
  rw [tmp_dir_eq]
  exact hp.below_plain plainName_tmp_name

theorem finalAt_ne_tmpAt : call.finalAt ≠ call.tmpAt := by
  intro h
  have hraw := call.set.version.isTmp_raw
  rw [(List.cons.inj h).1, isTmp_tmp_name] at hraw
  cases hraw

section Walks

variable {t : FileTree Bytes} {p : List String}

theorem PairPlain.walk_final (hp : call.PairPlain) (h : t.walk [] call.final_dir = .ok p) :
    p = call.finalAt := by
  rw [(FileTree.walk_eq_ok hp.final_plain h).1, List.append_nil, final_dir_reverse]

theorem PairPlain.walk_tmp (hp : call.PairPlain) (h : t.walk [] call.tmp_dir = .ok p) :
    p = call.tmpAt := by
  rw [(FileTree.walk_eq_ok hp.tmp_plain h).1, List.append_nil, tmp_dir_reverse]

theorem PairPlain.walk_path (hp : call.PairPlain) {o : Output} (ho : plainName o.name = true)
    (h : t.walk [] (call.path o) = .ok p) : p = o.name :: call.tmpAt := by
  rw [walk_join hp.tmp_plain ho h, tmp_dir_reverse]

theorem walk_lock (h : t.walk [] call.lock_path = .ok p) : p = call.lockAt :=
  walk_join user_plain (by decide) h

end Walks

/-! ## The files written so far -/

/-- The content is what the provider accepted for the record. -/
def Verified (host : ModelHost) (record : ModelRecord) (content : Bytes) : Prop :=
  content.length = record.decompressed_size
    ∧ eq_ignore_ascii_case (sha256_hex host content) record.decompressed_hash = true

theorem verify_eq_ok {name stage : String} {size expected_size : Nat}
    {hash expected_hash : String}
    (h : verify name stage size expected_size hash expected_hash = .ok ()) :
    size = expected_size ∧ eq_ignore_ascii_case hash expected_hash = true := by
  unfold verify at h
  split at h
  · cases h
  · rename_i hsize
    split at h
    · cases h
    · rename_i hhash
      exact ⟨not_not.mp hsize, by simpa using hhash⟩

theorem verified_of_unpack {host : ModelHost} {record : ModelRecord} {bytes content : Bytes}
    (h : record.unpack host bytes = .ok content) : Verified host record content := by
  obtain ⟨_, -, h⟩ := FileTree.bind_eq_ok.mp h
  obtain ⟨decompressed, -, h⟩ := FileTree.bind_eq_ok.mp h
  obtain ⟨_, hverify, h⟩ := FileTree.bind_eq_ok.mp h
  obtain rfl := Except.ok.inj h
  exact verify_eq_ok hverify

/-- The manifest of a complete download. -/
def installed (call : InstallCall) : Manifest :=
  call.manifest (call.wanted.map fun f => f.2.entry f.1) (call.wanted.map fun f => call.url f.2)

/-- The loop has finished with these files. -/
structure Finished (call : InstallCall) (d : Download) (files : List (String × ModelRecord)) :
    Prop where
  wanted : call.wanted = files ++ d.rest
  manifest_files : d.manifest_files = files.map fun f => f.2.entry f.1
  source_urls : d.source_urls = files.map fun f => call.url f.2

/-- The directory holds files for these records. -/
def Holds (call : InstallCall) (t : FileTree Bytes) (dir : List String)
    (files : List (String × ModelRecord)) : Prop :=
  ∀ f ∈ files, ∃ content, t.node (f.2.name :: dir) = some (.file content)
    ∧ Verified call.host f.2 content

/-- Those that are not of this name. -/
def others (name : String) (files : List (String × ModelRecord)) : List (String × ModelRecord) :=
  files.filter fun f => f.2.name ≠ name

/-- What there is to write, with what was written before. -/
def Sound (call : InstallCall) (t : FileTree Bytes) : Output → Prop
  | .file record content after => ∃ files role,
      call.Finished after (files ++ [(role, record)])
        ∧ call.Holds t call.tmpAt (others record.name files) ∧ Verified call.host record content
  | .manifest m => m = call.installed ∧ call.Holds t call.tmpAt (others MANIFEST_FILE call.wanted)

/-- The model is complete at its place. -/
structure Placed (call : InstallCall) (t : FileTree Bytes) (m : Manifest) : Prop where
  dir : t.node call.finalAt = some .dir
  installed : m = call.installed
  manifest : t.node (MANIFEST_FILE :: call.finalAt)
    = some (.file (call.host.to_vec_pretty call.installed))
  files : call.Holds t call.finalAt call.wanted

def Written (call : InstallCall) (t : FileTree Bytes) : Install.Pc → Prop
  | .fetching d => ∃ files, call.Finished d files ∧ call.Holds t call.tmpAt files
  | .creating o => call.Sound t o
  | .writing o written => call.Sound t o
      ∧ t.node (o.name :: call.tmpAt) = some (.file ((call.content o).take written))
  | .syncing o => call.Sound t o
      ∧ t.node (o.name :: call.tmpAt) = some (.file (call.content o))
  | .renaming m => call.Sound t (.manifest m)
      ∧ t.node (MANIFEST_FILE :: call.tmpAt) = some (.file (call.host.to_vec_pretty m))
  | .syncingPair m => call.Placed t m
  | .done m true => m = ⟨.user, call.final_dir, call.set.version, call.installed⟩
      ∧ call.Placed t m.manifest
  | _ => True

/-- The names of the files are names in one directory, and files of one name
are one file. -/
structure Fits (call : InstallCall) : Prop where
  plain : ∀ f ∈ call.wanted, plainName f.2.name = true
  agree : ∀ f ∈ call.wanted, ∀ f' ∈ call.wanted, f.2.name = f'.2.name →
    f.2.decompressed_size = f'.2.decompressed_size
      ∧ eq_ignore_ascii_case f.2.decompressed_hash f'.2.decompressed_hash = true
  manifest : ∀ f ∈ call.wanted, f.2.name = MANIFEST_FILE →
    Verified call.host f.2 (call.host.to_vec_pretty call.installed)

/-- The files of the set have names of their own. -/
structure PlainNames (call : InstallCall) : Prop where
  nodup : (call.set.files.map fun f => f.2.name).Nodup
  plain : ∀ f ∈ call.set.files, plainName f.2.name = true
  notManifest : ∀ f ∈ call.set.files, f.2.name ≠ MANIFEST_FILE

theorem mem_wanted {f : String × ModelRecord} (h : f ∈ call.wanted) :
    ∃ file_type, (file_type, f.2) ∈ call.set.files := by
  obtain ⟨file, hmem, hrole⟩ := List.mem_filterMap.mp h
  obtain ⟨role, -, rfl⟩ := Option.map_eq_some_iff.mp hrole
  exact ⟨file.1, hmem⟩

theorem wanted_names_sublist :
    (call.wanted.map fun f => f.2.name).Sublist (call.set.files.map fun f => f.2.name) := by
  unfold wanted
  induction call.set.files with
  | nil => exact List.Sublist.slnil
  | cons f files ih =>
      rw [List.filterMap_cons]
      cases hrole : f.1.role call.download_lex with
      | none => exact ih.cons _
      | some role => exact ih.cons_cons _

section Step

variable {s s' : Install} {e : InstallEvent} {t t' : FileTree Bytes}

theorem eq_ignore_ascii_case_iff {a b : String} :
    eq_ignore_ascii_case a b = true ↔ a.toList.map Char.toLower = b.toList.map Char.toLower :=
  decide_eq_true_iff

theorem PlainNames.fits (hn : call.PlainNames) : call.Fits where
  plain f hf := by
    obtain ⟨file_type, hmem⟩ := mem_wanted hf
    exact hn.plain _ hmem
  agree f hf f' hf' hname := by
    have hnodup := wanted_names_sublist.nodup hn.nodup
    rw [List.inj_on_of_nodup_map hnodup hf hf' hname]
    exact ⟨rfl, eq_ignore_ascii_case_iff.mpr rfl⟩
  manifest f hf hname := by
    obtain ⟨file_type, hmem⟩ := mem_wanted hf
    exact absurd hname (hn.notManifest _ hmem)

theorem Fits.output_plain (hn : call.Fits) {o : Output} (ho : call.Sound t o) :
    plainName o.name = true := by
  cases o with
  | file record content after =>
      obtain ⟨files, role, hfinished, -, -⟩ := ho
      exact hn.plain (role, record) (by rw [hfinished.wanted]; simp)
  | manifest m => show plainName MANIFEST_FILE = true; decide

theorem mem_others {name : String} {files : List (String × ModelRecord)} {f : String × ModelRecord} :
    f ∈ others name files ↔ f ∈ files ∧ f.2.name ≠ name := by
  unfold others
  rw [List.mem_filter, decide_eq_true_eq]

theorem Holds.others {dir : List String} {files : List (String × ModelRecord)}
    (hh : call.Holds t dir files) (name : String) : call.Holds t dir (others name files) :=
  fun f hf => hh f (mem_others.mp hf).1

/-- The file of a record is one of another record of its name. -/
theorem Fits.verified (hn : call.Fits) {f f' : String × ModelRecord} (hf : f ∈ call.wanted)
    (hf' : f' ∈ call.wanted) (hname : f.2.name = f'.2.name) {content : Bytes}
    (h : Verified call.host f'.2 content) : Verified call.host f.2 content := by
  obtain ⟨hsize, hhash⟩ := hn.agree f hf f' hf' hname
  refine ⟨h.1.trans hsize.symm, eq_ignore_ascii_case_iff.mpr ?_⟩
  exact (eq_ignore_ascii_case_iff.mp h.2).trans (eq_ignore_ascii_case_iff.mp hhash).symm

theorem Holds.put {p : List String} {content : Bytes} {dir : List String} {name : String}
    {files : List (String × ModelRecord)} (hh : call.Holds t dir files) (hp : p = name :: dir)
    (hname : ∀ f ∈ files, f.2.name ≠ name) (ht : t.put content p = .ok t') :
    call.Holds t' dir files := by
  intro f hf
  obtain ⟨content', hnode, hverified⟩ := hh f hf
  obtain ⟨-, -, hnode'⟩ := FileTree.put_eq_ok ht
  refine ⟨content', ?_, hverified⟩
  rw [hnode', Function.update_of_ne, hnode]
  rw [hp]
  exact fun heq => hname f hf (List.cons.inj heq).1

/-- Writing one file leaves the others. -/
theorem Sound.put {o : Output} (ho : call.Sound t o) {content : Bytes}
    {p : List String} (hp : p = o.name :: call.tmpAt) (ht : t.put content p = .ok t') :
    call.Sound t' o ∧ t'.node p = some (.file content) := by
  obtain ⟨-, -, hnode'⟩ := FileTree.put_eq_ok ht
  refine ⟨?_, by rw [hnode', Function.update_self]⟩
  cases o with
  | file record content' after =>
      obtain ⟨files, role, hfinished, hholds, hverified⟩ := ho
      exact ⟨files, role, hfinished, hholds.put hp (fun f hf => (mem_others.mp hf).2) ht, hverified⟩
  | manifest m => exact ⟨ho.1, ho.2.put hp (fun f hf => (mem_others.mp hf).2) ht⟩

theorem written_step (hl : call.Located) (hn : call.Fits) (h : call.Transition s e s')
    (hw : call.Written s.tree s.pc) : call.Written s'.tree s'.pc := by
  cases h with
  | makeUser | userMade | lockFile | locked | found | absent | existing | damaged | tmpFound
  | tmpAbsent | unlink | make | refused | fail => trivial
  | @removed tmp => cases tmp <;> trivial
  | made => exact ⟨[], ⟨rfl, rfl, rfl⟩, by simp [Holds]⟩
  | @unpacked role record rest files urls bytes content result hpc hcontent =>
      rw [hpc] at hw
      obtain ⟨finished, hfinished, hholds⟩ := hw
      refine ⟨finished, role, ⟨?_, ?_, ?_⟩, hholds.others _, verified_of_unpack hcontent⟩
      · rw [hfinished.wanted, List.append_assoc]
        rfl
      · have hfiles : files = _ := hfinished.manifest_files
        simp [hfiles]
      · have hurls : urls = _ := hfinished.source_urls
        simp [hurls]
  | @assembled files urls hpc =>
      rw [hpc] at hw
      obtain ⟨finished, hfinished, hholds⟩ := hw
      have hwanted : call.wanted = finished := by
        rw [hfinished.wanted]
        exact List.append_nil _
      rw [← hwanted] at hholds
      refine ⟨?_, hholds.others _⟩
      have hfiles : files = _ := hfinished.manifest_files
      have hurls : urls = _ := hfinished.source_urls
      rw [hfiles, hurls, ← hwanted]
      rfl
  | create hpc hwalk ht =>
      rw [hpc] at hw
      have hp := hl.pair_plain.walk_path (hn.output_plain hw) hwalk
      obtain ⟨hsound, hnode⟩ := Sound.put hw hp ht
      exact ⟨hsound, by rw [← hp, hnode]; rfl⟩
  | write hpc hwalk ht =>
      rw [hpc] at hw
      have hp := hl.pair_plain.walk_path (hn.output_plain hw.1) hwalk
      obtain ⟨hsound, hnode⟩ := Sound.put hw.1 hp ht
      exact ⟨hsound, by rw [← hp, hnode]⟩
  | wrote hpc hall =>
      rw [hpc] at hw
      obtain ⟨hsound, hnode⟩ := hw
      rw [hall, List.take_length] at hnode
      exact ⟨hsound, hnode⟩
  | @synced record content after hpc =>
      rw [hpc] at hw
      obtain ⟨⟨files, role, hfinished, hholds, hverified⟩, hnode⟩ := hw
      refine ⟨_, hfinished, fun f hf => ?_⟩
      by_cases hname : f.2.name = record.name
      · -- it is the file that was written last
        have hmem : ∀ f ∈ files ++ [(role, record)], f ∈ call.wanted := by
          intro f hf
          rw [hfinished.wanted]
          exact List.mem_append_left _ hf
        refine ⟨content, by rw [hname]; exact hnode, ?_⟩
        exact hn.verified (hmem f hf) (hmem (role, record) (by simp)) hname hverified
      · rcases List.mem_append.mp hf with hf | hf
        · exact hholds f (mem_others.mpr ⟨hf, hname⟩)
        · rw [List.mem_singleton.mp hf] at hname
          exact absurd rfl hname
  | stored hpc =>
      rw [hpc] at hw
      exact hw
  | rename hpc hsrc hdst ht =>
      rw [hpc] at hw
      obtain ⟨⟨hm, hholds⟩, hmanifest⟩ := hw
      obtain rfl := hl.pair_plain.walk_tmp hsrc
      obtain rfl := hl.pair_plain.walk_final hdst
      obtain ⟨hdir, -, -, hmoved, -, -⟩ := FileTree.rename_eq_ok ht finalAt_ne_tmpAt.symm
      rw [hm] at hmanifest
      refine ⟨(hmoved []).trans hdir, hm, (hmoved [MANIFEST_FILE]).trans hmanifest, fun f hf => ?_⟩
      by_cases hname : f.2.name = MANIFEST_FILE
      · refine ⟨_, ?_, hn.manifest f hf hname⟩
        rw [hname]
        exact (hmoved [MANIFEST_FILE]).trans hmanifest
      · obtain ⟨content, hnode, hverified⟩ := hholds f (mem_others.mpr ⟨hf, hname⟩)
        exact ⟨content, (hmoved [f.2.name]).trans hnode, hverified⟩
  | finish hpc =>
      rw [hpc] at hw
      exact ⟨by rw [hw.installed], hw⟩

theorem written_of_reach {ok : Install → InstallEvent → Prop} (hl : call.Located)
    (hn : call.Fits) {t₀ : FileTree Bytes}
    (h : Machine.Reach call.step ok (Install.init t₀) s) : call.Written s.tree s.pc := by
  refine @Machine.Reach.invariant _ _ _ _ _ _ (fun s => call.Written s.tree s.pc) h ?_ ?_
  · trivial
  · exact fun _ _ _ _ _ hs hw => written_step hl hn (step_cases hs) hw

end Step

/-! ## What is in place -/

section Placed

variable {t : FileTree Bytes} {m : Manifest}

/-- The model a complete install puts in place. -/
def model (call : InstallCall) : InstalledModel :=
  ⟨.user, call.final_dir, call.set.version, call.installed⟩

theorem Placed.stat (hl : call.Located) {name : String}
    (hname : plainName name = true) {content : Bytes}
    (hnode : t.node (name :: call.finalAt) = some (.file content)) :
    t.stat (PathBuf.join call.final_dir name) = .ok (name :: call.finalAt, .file content) := by
  rw [← final_dir_reverse] at hnode ⊢
  exact stat_join hl.pair_plain.final_plain hname hnode

/-- A complete model passes the scan, if its manifest reads back. -/
theorem Placed.scan (hl : call.Located) (hn : call.Fits)
    (hjson : call.host.from_slice (call.host.to_vec_pretty call.installed) = .ok call.installed)
    (hp : call.Placed t m) :
    scan_model_dir call.host t call.final_dir .user = .ok call.model := by
  refine scan_model_dir_eq_ok.mpr ⟨rfl, rfl, ?_, MozVersion.parse_raw _, ?_⟩
  · have hstat := Placed.stat hl (show plainName MANIFEST_FILE = true by decide) hp.manifest
    have hread : t.read (call.final_dir.join MANIFEST_FILE)
        = .ok (call.host.to_vec_pretty call.installed) :=
      FileTree.bind_eq_ok.mpr ⟨_, hstat, rfl⟩
    exact Manifest.load_eq_ok.mpr ⟨_, hread, hjson, rfl⟩
  · intro file hfile
    obtain ⟨f, hf, rfl⟩ := List.mem_map.mp hfile
    obtain ⟨content, hnode, hverified⟩ := hp.files f hf
    have hstat := Placed.stat hl (hn.plain f hf) hnode
    exact checkFile_eq_ok.mpr (FileTree.map_eq_ok.mpr ⟨_, hstat, hverified.1⟩)

/-- The place of the model is one that a scan visits. -/
theorem Located.scanned (hl : call.Located) (hdir : t.node call.finalAt = some .dir) :
    call.stores.Scanned t .user call.final_dir := by
  obtain ⟨provider, pair, -, -, heq⟩ := hl
  refine ⟨⟨call.stores.user, provider, pair, call.set.version.raw, List.mem_cons_self .., ?_,
    call.set.version.isTmp_raw⟩, by rw [final_dir_reverse, hdir]⟩
  rw [final_dir_eq, heq, List.append_assoc]
  rfl

end Placed

end InstallCall

/-! ## A small catalogue

A model of one byte and a vocabulary of one byte, as frames of one raw
block. -/

/-- `to_vec_pretty`, of texts that need no escapes. -/
def prettyManifest (m : Manifest) : Bytes :=
  let quoted := fun text : String => ['"'] ++ text.toList ++ ['"']
  let optional := fun text : Option String => (text.map quoted).getD "null".toList
  let array := fun items : List (List Char) =>
    if items.isEmpty then "[]".toList
    else "[\n    ".toList ++ ",\n    ".toList.intercalate items ++ "\n  ]".toList
  let object := fun (indent : String) (fields : List (String × List Char)) =>
    ['\x7b', '\n'] ++ ",\n".toList.intercalate (fields.map fun field =>
      indent.toList ++ "  ".toList ++ quoted field.1 ++ ": ".toList ++ field.2)
      ++ ['\n'] ++ indent.toList ++ ['\x7d']
  let file := fun f : ManifestFile => object "    " [("name", quoted f.name),
    ("role", quoted f.role), ("size", (toString f.size).toList), ("sha256", quoted f.sha256)]
  let text := object "" [("schema", (toString m.schema).toList), ("provider", quoted m.provider),
    ("source", quoted m.source), ("target", quoted m.target), ("version", quoted m.version),
    ("architecture", optional m.architecture), ("license", optional m.license),
    ("source_urls", array (m.source_urls.map quoted)), ("installed_at", quoted m.installed_at),
    ("files", array (m.files.map file))]
  text.map fun c => UInt8.ofNat c.toNat

def hashA : String := "ca978112ca1bbdcafac231b39a23dc4da786eff8147c4e72b9807785afee48bb"

/-- The same hash, in capitals. -/
def hashCapitalA : String := "CA978112CA1BBDCAFAC231B39A23DC4DA786EFF8147C4E72B9807785AFEE48BB"

def hashB : String := "3e23e8160039594a33894f6564e1b1348bbd7a0088d42c4acb73eeaed59c009d"

def frameHashA : String := "47091afb1c226843b9e819d75ed9684f42073994761521e3f57b1697ce5b09c7"

def frameHashB : String := "f07c4ac58035e5ead279978711882f9bfbcb64bc91dd8e7fb3765b8e8cac957f"

def unhex : List Char → Bytes
  | a :: b :: rest =>
      let digit := fun c : Char => if c.isDigit then c.toNat - 48 else c.toNat - 87
      UInt8.ofNat (16 * digit a + digit b) :: unhex rest
  | _ => []

def frame (byte : UInt8) : Bytes := [0x28, 0xb5, 0x2f, 0xfd, 0x20, 1, 9, 0, 0, byte]

def catalogueRecord (name : String) (file_type : FileType) (hash : String) (frameHash : String) :
    ModelRecord :=
  ⟨name, name, "bg", "en", "3.0", file_type, none, none, none, ⟨frameHash, 10, name, none⟩, hash, 1,
    none⟩

/-- The hash of the model's content is given. -/
def catalogue (hash : String) : List ModelRecord :=
  [catalogueRecord "model.bin" .model hash frameHashA,
    catalogueRecord "vocab.spm" .vocab hashB frameHashB]

def catalogueManifest (hash : String) : Manifest :=
  ⟨1, PROVIDER_ID, "bg", "en", "3.0", none, some "MPL-2.0",
    ["https://example.test/model.bin", "https://example.test/vocab.spm"], "2026-01-01T00:00:00Z",
    [⟨"model.bin", "model", 1, hash⟩, ⟨"vocab.spm", "vocab", 1, hashB⟩]⟩

def catalogueHost (hash : String) : ModelHost where
  digest bytes := unhex (
    if bytes = [97] then hashA else if bytes = [98] then hashB
    else if bytes = frame 97 then frameHashA else if bytes = frame 98 then frameHashB
    else "").toList
  decode_all bytes :=
    if bytes = frame 97 then .ok [97] else if bytes = frame 98 then .ok [98]
    else .error "unknown frame descriptor"
  to_vec_pretty := prettyManifest
  from_slice bytes :=
    if bytes = prettyManifest (catalogueManifest hash) then .ok (catalogueManifest hash)
    else .error "expected value at line 1 column 1"
  display e := match e with
    | .notFound => "No such file or directory (os error 2)"
    | .notADirectory => "Not a directory (os error 20)"
    | .isADirectory => "Is a directory (os error 21)"
    | .alreadyExists => "File exists (os error 17)"
    | .directoryNotEmpty => "Directory not empty (os error 39)"
    | .invalidInput => "Invalid argument (os error 22)"
    | .other message => message
  debug text := "\"" ++ text ++ "\""
  dir_len _ := 4096
  process_id := 7
  now_rfc3339 := "2026-01-01T00:00:00Z"

def catalogueSet (hash : String) : ModelSet where
  source := "bg"
  target := "en"
  variant := none
  version := ⟨"3.0", _, parseParts_3_0⟩
  architecture := none
  files := (catalogue hash).map fun record => (record.file_type, record)

/-- The installation of the set into the user store `/u`. -/
def catalogueCall (hash : String) : InstallCall where
  host := catalogueHost hash
  stores := ⟨[], ["u"], by decide⟩
  set := catalogueSet hash
  attachments_base := "https://example.test/"
  download_lex := false

/-- The server answers with the frame, and its file of one byte is
written. -/
def download (byte : UInt8) : List InstallEvent :=
  [.fetched (.ok (.fetched (frame byte) none)), .proceed, .write 1, .proceed, .proceed]

/-- From the first system call to the last. -/
def catalogueRun (hash : String) : List InstallEvent :=
  List.replicate 10 .proceed ++ download 97 ++ download 98 ++ [.proceed, .proceed,
    .write (prettyManifest (catalogueManifest hash)).length] ++ List.replicate 4 .proceed

/-- The server answers as the catalogue says, and nothing fails. -/
def catalogueInstalls (hash : String) : Prop :=
  ∃ s, Machine.Reach (catalogueCall hash).step InstallCall.ReadsSucceed
      (Install.init FileTree.empty) s
    ∧ s.pc = .done (catalogueCall hash).model true

theorem catalogueInstalls_of_run {hash : String}
    (h : (Machine.run (catalogueCall hash).step InstallCall.ReadsSucceed
      (Install.init FileTree.empty) (catalogueRun hash)).any
      (fun s => decide (s.pc = .done (catalogueCall hash).model true)) = true) :
    catalogueInstalls hash := by
  obtain ⟨s, hreach, hs⟩ := Machine.exists_reach_of_run _ _ _ _ _ h
  exact ⟨s, hreach, of_decide_eq_true hs⟩

theorem catalogue_installs : catalogueInstalls hashA :=
  catalogueInstalls_of_run (by decide +kernel)

theorem catalogue_installs_capital : catalogueInstalls hashCapitalA :=
  catalogueInstalls_of_run (by decide +kernel)

theorem catalogue_names (hash : String) : (catalogueCall hash).PlainNames where
  nodup := by simp [catalogueCall, catalogueSet, catalogue, catalogueRecord]
  plain := by simp [catalogueCall, catalogueSet, catalogue, catalogueRecord]; decide
  notManifest := by simp [catalogueCall, catalogueSet, catalogue, catalogueRecord, MANIFEST_FILE]

theorem catalogue_accepted : ∀ hash ∈ [hashA, hashCapitalA],
    catalogueSet hash ∈ (accepted_sets (catalogue hash) (.prerelease false)).1 := by
  decide +kernel

theorem catalogue_reads (hash : String) :
    (catalogueCall hash).host.from_slice
      ((catalogueCall hash).host.to_vec_pretty (catalogueCall hash).installed)
        = .ok (catalogueCall hash).installed := by
  simp only [catalogueCall, catalogueHost]
  exact if_pos rfl

end Dragomand
