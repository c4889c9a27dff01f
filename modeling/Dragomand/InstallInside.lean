import Dragomand.InstallAtomic
import Dragomand.InstalledCopy
import Dragomand.Service

/-!
# Install stays inside

Version and pair are checked, the names of the files are not. When the name
of every file, joined to the temporary directory, leads into it, or into the
version directory, install changes files there only, in
`<user store>/<provider>/<source>-<target>`. The daemon asks for pairs that
`check_langs` accepts, which name one directory.
-/

namespace Dragomand

open FileTree (Node plainName)
open InstallCall (plant)

theorem join_relative {path : PathBuf} {name : String}
    (h : ∀ c ∈ components name, plainName c = true) :
    PathBuf.join path name = path ++ components name := by
  unfold PathBuf.join
  split
  · rename_i absolute heq
    have hempty := h "" (by rw [heq]; exact List.mem_cons_self ..)
    exact absurd rfl (FileTree.plainName_ne hempty).1
  · rfl

/-! ## Pairs -/

section Pairs

variable {source target : String}

theorem valid_lang_chars {tag : String} (h : valid_lang tag = true) :
    ∀ c ∈ tag.toList, c.isAlphanum = true ∨ c = '-' := by
  unfold valid_lang at h
  simp only [Bool.and_eq_true, decide_eq_true_eq, List.all_eq_true, Bool.or_eq_true,
    beq_iff_eq] at h
  exact h.1.1.2

/-- A pair that the daemon accepts names one directory. -/
theorem plainName_of_check_langs {host : Host} (h : check_langs host source target = .ok ()) :
    plainName (source ++ "-" ++ target) = true := by
  unfold check_langs at h
  split at h
  · cases h
  · rename_i hvalid
    simp only [Bool.or_eq_true, Bool.not_eq_true', decide_eq_true_eq, not_or,
      Bool.not_eq_false] at hvalid
    have hsource := valid_lang_chars hvalid.1.1
    have htarget := valid_lang_chars hvalid.1.2
    have hother : ∀ name : String, '-' ∉ name.toList → source ++ "-" ++ target ≠ name := by
      rintro name hname rfl
      exact hname (by simp)
    refine plainName_of_chars
      ⟨hother "" (by decide), hother "." (by decide), hother ".." (by decide)⟩ fun c hc => ?_
    simp only [String.toList_append, List.mem_append] at hc
    rcases hc with (hc | hc) | hc
    · exact (hsource c hc).imp_right Or.inr
    · exact Or.inr (Or.inr (List.mem_singleton.mp hc))
    · exact (htarget c hc).imp_right Or.inr

end Pairs

namespace InstallCall

variable {call : InstallCall}

theorem pair_dir_eq (h : ∀ c ∈ components call.set.pair, plainName c = true) :
    call.pair_dir = call.stores.user ++ PROVIDER_ID :: components call.set.pair := by
  have hprovider : plainName PROVIDER_ID = true := by decide
  show (PathBuf.join call.stores.user PROVIDER_ID).join call.set.pair = _
  rw [join_relative h, join_plain hprovider, List.append_assoc]
  rfl

theorem inside_of_components (h : ∀ c ∈ components call.set.pair, plainName c = true) :
    call.Inside := by
  have hdir := pair_dir_eq h
  refine ⟨fun name hname => ?_, ?_⟩
  · rw [hdir] at hname
    rcases List.mem_append.mp hname with huser | hname
    · exact user_plain name huser
    · rcases List.mem_cons.mp hname with rfl | hname
      · decide
      · exact h name hname
  · unfold pairAt
    rw [hdir, List.reverse_append]
    exact List.suffix_append ..

/-- **Install stays inside**: at every point of every run, and from each point
to the next, when the text of the pair is a path of plain names and the names
of the files lead to places of the install's own. -/
theorem install_inside {ok : Install → InstallEvent → Prop} {t₀ : FileTree Bytes} {s : Install}
    (hpair : ∀ c ∈ components call.set.pair, plainName c = true) (hnames : call.NamesOwn)
    (h : Machine.Reach call.step ok (Install.init t₀) s) :
    call.pair_dir = call.stores.user ++ PROVIDER_ID :: components call.set.pair
      ∧ call.Untouched t₀ s.tree
      ∧ ∀ e s', call.step s e = some s' → call.Untouched s.tree s'.tree := by
  have hinside := inside_of_components hpair
  refine ⟨pair_dir_eq hpair, untouched_of_reach hinside hnames h, fun e s' hs => ?_⟩
  exact untouched_step hinside hnames (step_cases hs) (fromSet_of_reach h) (Untouched.refl _)

theorem components_of_check_langs {host : Host} {source target : String}
    (h : check_langs host source target = .ok ()) :
    ∀ c ∈ components (source ++ "-" ++ target), plainName c = true := by
  have hplain := plainName_of_check_langs h
  rw [components_plain hplain]
  intro c hc
  rwa [List.mem_singleton.mp hc]

theorem install_inside_catalogue : ∃ s : Install,
    s.pc = .done (catalogueCall hashA).model true
      ∧ (catalogueCall hashA).Untouched FileTree.empty s.tree := by
  obtain ⟨s, hreach, hdone⟩ := catalogue_installs
  have hpair : ∀ c ∈ components (catalogueCall hashA).set.pair, plainName c = true :=
    @components_of_check_langs ⟨fun _ _ _ _ => [], fun _ => "", id, Char.isAlphanum, 1⟩ _ _
      (if_neg (by decide))
  exact ⟨s, hdone, (install_inside hpair ((catalogue_names hashA).stay.own
    (located_of_plain (by decide)).pair_plain) hreach).2.1⟩

/-! ## Names that lead elsewhere -/

/-- The catalogue, with a name for the file of the model. -/
def strayCatalogue (name : String) : List ModelRecord :=
  [catalogueRecord name .model hashA frameHashA,
    catalogueRecord "vocab.spm" .vocab hashB frameHashB]

def strayCall (name : String) : InstallCall :=
  { catalogueCall hashA with
    host := oldHost (oldManifest "bg" "en" "3.1" [⟨"model.bin", "model", 1, hashA⟩])
    set := { catalogueSet hashA with
      files := (strayCatalogue name).map fun record => (record.file_type, record) } }

/-- A model of version 3.1, and a directory elsewhere. -/
def strayTree : FileTree Bytes :=
  let m := oldManifest "bg" "en" "3.1" [⟨"model.bin", "model", 1, hashA⟩]
  plant (copyNodes "u" "bg-en" m
    ++ [("model.bin" :: (copyDir "u" "bg-en" "3.1").reverse, some [97]), (["v"], none)])

/-- Up to the file of the model. -/
def strayRun : List InstallEvent :=
  List.replicate 7 .proceed ++ [.fetched (.ok (.fetched (frame 97) none)), .proceed]

/-- An install of an accepted set changes a file that is not its own. -/
def Strays (name : String) (p : List String) : Prop :=
  (strayCall name).set ∈ (accepted_sets (strayCatalogue name) (.prerelease false)).1
    ∧ ¬ (strayCall name).Own p
    ∧ ∃ s, Machine.Reach (strayCall name).step ReadsSucceed (Install.init strayTree) s
      ∧ s.tree.node p ≠ strayTree.node p ∧ s.tree.node p = some (.file [])

instance (p : List String) : Decidable (call.Own p) := by
  unfold Own
  infer_instance

theorem strays_of_run {name : String} {p : List String}
    (hset : (strayCall name).set ∈ (accepted_sets (strayCatalogue name) (.prerelease false)).1)
    (hown : ¬ (strayCall name).Own p)
    (h : (Machine.run (strayCall name).step ReadsSucceed (Install.init strayTree) strayRun).any
      (fun s => decide (s.tree.node p ≠ strayTree.node p ∧ s.tree.node p = some (.file [])))
        = true) : Strays name p := by
  obtain ⟨s, hreach, hs⟩ := Machine.exists_reach_of_run _ _ _ _ _ h
  exact ⟨hset, hown, s, hreach, of_decide_eq_true hs⟩

/-- The name of a file can lead to another installed version, or out of the
store; and a pair that is an absolute path is elsewhere altogether. -/
theorem install_not_inside :
    Strays "../3.1/model.bin" ["model.bin", "3.1", "bg-en", PROVIDER_ID, "u"]
      ∧ Strays "/v/model.bin" ["model.bin", "v"]
      ∧ ({ strayCall "model.bin" with
          set := { catalogueSet hashA with source := "/v/x" } } : InstallCall).pair_dir
        = ["v", "x-en"] :=
  ⟨strays_of_run (by decide +kernel) (by decide +kernel) (by decide +kernel),
    strays_of_run (by decide +kernel) (by decide +kernel) (by decide +kernel), by decide +kernel⟩

end InstallCall

end Dragomand
