import Dragomand.InstallAtomic
import Dragomand.InstallVerify
import Dragomand.Volume

/-!
# Installs and power loss

The install on a volume: what its steps change, and what they sync. A model
it has downloaded need not survive a power loss, since its manifest is
written and never synced. A model that it finds does, where it would have
survived one when the install got its lock.
-/

namespace Dragomand

open FileTree (Node plainName)

/-- An install, with what a power loss may leave. -/
structure DurableInstall where
  volume : Volume Bytes
  pc : Install.Pc

def DurableInstall.install (s : DurableInstall) : Install := ⟨s.volume.tree, s.pc⟩

def DurableInstall.init (v : Volume.Mounted Bytes) : DurableInstall := ⟨v.1, .creatingUser⟩

namespace InstallCall

variable (call : InstallCall)

/-- What the renaming moves. -/
def moved (s : DurableInstall) : InstallEvent → Option (List String × List String)
  | .proceed =>
      match s.pc with
      | .renaming _ => (s.volume.tree.walk [] call.tmp_dir).toOption.bind fun src =>
          (s.volume.tree.walk [] call.final_dir).toOption.map fun dst => (src, dst)
      | _ => none
  | _ => none

/-- The path that `write_fsync` or `fsync_dir` syncs. -/
def syncPath : Install.Pc → Option PathBuf
  | .syncing (.file record content after) => some (call.path (.file record content after))
  | .syncing (.manifest _) => some call.tmp_dir
  | .syncingPair _ => some call.pair_dir
  | _ => none

def synced (s : DurableInstall) : InstallEvent → Option (List String)
  | .proceed => (call.syncPath s.pc).bind fun path =>
      (s.volume.tree.stat path).toOption.map Prod.fst
  | _ => none

/-- The volume after a step that leaves the tree `t`. -/
def after (s : DurableInstall) (e : InstallEvent) (t : FileTree Bytes) : Volume Bytes :=
  let volume := s.volume.change t (call.moved s e)
  match call.synced s e with
  | none => volume
  | some p => volume.sync p

def durableStep (s : DurableInstall) (e : InstallEvent) : Option DurableInstall :=
  (call.step s.install e).map fun s' => ⟨call.after s e s'.tree, s'.pc⟩

/-- Whatever a power loss leaves of it, the model is listed. -/
def Durable (s : DurableInstall) (m : InstalledModel) : Prop :=
  ∀ r, s.volume.Recovers r → m ∈ (call.stores.scan call.host r).1

/-- And all of its directory is found. -/
def Intact (s : DurableInstall) (m : InstalledModel) : Prop :=
  ∀ r, s.volume.Recovers r → ∀ q, m.directory.reverse <:+ q →
    r.node q = s.volume.tree.node q

def Survives (s : DurableInstall) (m : InstalledModel) : Prop := call.Durable s m ∧ Intact s m

/-- A model is listed at the place of the set. -/
def Present (t : FileTree Bytes) : Prop :=
  ∃ m ∈ (call.stores.scan call.host t).1, m.origin = .user ∧ m.directory = call.final_dir

/-- The install has the lock, and there is a model at the place of the set
that would survive a power loss now. -/
def Stands (s : DurableInstall) : Prop :=
  s.pc = .probing false ∧ ∃ m, call.Survives s m ∧ m.origin = .user ∧ m.directory = call.final_dir

variable {call} {s s' : DurableInstall} {e : InstallEvent} {v : Volume.Mounted Bytes}
  {t₀ : FileTree Bytes} {ok : Install → InstallEvent → Prop}

/-! ## Both machines -/

@[simp] theorem after_tree (t : FileTree Bytes) : (call.after s e t).tree = t := by
  unfold after
  dsimp only
  split <;> rfl

theorem durableStep_cases (h : call.durableStep s e = some s') :
    call.step s.install e = some s'.install
      ∧ s'.volume = call.after s e s'.install.tree := by
  obtain ⟨i, hi, rfl⟩ := Option.map_eq_some_iff.mp h
  have htree : (call.after s e i.tree).tree = i.tree := after_tree _
  refine ⟨hi.trans ?_, ?_⟩
  · unfold DurableInstall.install
    dsimp only
    rw [htree]
  · unfold DurableInstall.install
    dsimp only
    rw [htree]

theorem install_of_reach {s₀ : DurableInstall}
    (h : Machine.Reach call.durableStep (fun s e => ok s.install e) s₀ s) :
    Machine.Reach call.step ok s₀.install s.install :=
  @Machine.Reach.project _ _ _ _ _ _ _ _ _ _ DurableInstall.install
    (fun _ _ _ _ (hok : ok _ _) hs => .one hok (durableStep_cases hs).1) h

theorem exists_durable (s₀ : DurableInstall) {i : Install}
    (h : Machine.Reach call.step ok s₀.install i) :
    ∃ s, Machine.Reach call.durableStep (fun s e => ok s.install e) s₀ s ∧ s.install = i := by
  induction h with
  | init => exact ⟨_, .init, rfl⟩
  | @tail i e i' _ hok hs ih =>
      obtain ⟨s, hreach, rfl⟩ := ih
      have hstep : call.durableStep s e = some ⟨call.after s e i'.tree, i'.pc⟩ := by
        unfold durableStep
        rw [hs]
        rfl
      refine ⟨_, .tail hreach hok hstep, ?_⟩
      have hi := (durableStep_cases hstep).1
      rw [hs] at hi
      exact (Option.some.inj hi).symm

/-! ## What a step does to the volume -/

/-- A path that is not synced. -/
theorem after_of_not (hmoved : call.moved s e = none) (hpath : call.syncPath s.pc = none)
    (t : FileTree Bytes) : call.after s e t = s.volume.change t none := by
  have hsynced : call.synced s e = none := by
    unfold synced
    rw [hpath]
    cases e <;> rfl
  unfold after
  rw [hmoved, hsynced]

theorem synced_node {p : List String} (h : call.synced s e = some p) :
    ∃ path, call.syncPath s.pc = some path ∧ s.volume.tree.walk [] path = .ok p
      ∧ s.volume.tree.node p ≠ none := by
  unfold synced at h
  split at h
  · obtain ⟨path, hpath, h⟩ := Option.bind_eq_some_iff.mp h
    obtain ⟨found, hfound, rfl⟩ := Option.map_eq_some_iff.mp h
    obtain ⟨hwalk, hnode⟩ := FileTree.stat_eq_ok (toOption_eq_some hfound)
    exact ⟨path, hpath, hwalk, by rw [hnode]; exact Option.some_ne_none _⟩
  · cases h

theorem moved_of_ne (h : ∀ m, s.pc ≠ .renaming m) : call.moved s e = none := by
  unfold moved
  split
  · split
    · rename_i m hpc
      exact absurd hpc (h m)
    · rfl
  · rfl

theorem moved_of_walks {m : Manifest} {src dst : List String} (hpc : s.pc = .renaming m)
    (hsrc : s.volume.tree.walk [] call.tmp_dir = .ok src)
    (hdst : s.volume.tree.walk [] call.final_dir = .ok dst) :
    call.moved s .proceed = some (src, dst) := by
  unfold moved
  dsimp only
  rw [hpc, hsrc, hdst]
  rfl

theorem after_of_sync {path : PathBuf} (hmoved : call.moved s .proceed = none)
    (hpath : call.syncPath s.pc = some path) (hplain : ∀ name ∈ path, plainName name = true)
    (hnode : s.volume.tree.node path.reverse ≠ none) (t : FileTree Bytes) :
    call.after s .proceed t = (s.volume.change t none).sync path.reverse := by
  obtain ⟨node, hsome⟩ := Option.ne_none_iff_exists'.mp hnode
  have hsynced : call.synced s .proceed = some path.reverse := by
    unfold synced
    dsimp only
    rw [hpath, Option.bind_some, FileTree.stat_plain hplain hsome]
    rfl
  unfold after
  rw [hmoved, hsynced]

theorem walk_tmp_ne_final {t : FileTree Bytes} {src dst : List String}
    (hsrc : t.walk [] call.tmp_dir = .ok src) (hdst : t.walk [] call.final_dir = .ok dst) :
    src ≠ dst := by
  have hlast : ∀ {name : String}, plainName name = true →
      FileTree.locate [] (call.pair_dir ++ [name]) = name :: FileTree.locate [] call.pair_dir := by
    intro name hname
    rw [FileTree.locate_append, FileTree.locate_plain (by simpa using hname)]
    rfl
  intro heq
  rw [FileTree.walk_eq_locate hsrc, FileTree.walk_eq_locate hdst, tmp_dir_eq, final_dir_eq,
    hlast plainName_tmp_name, hlast call.set.version.plainName_raw] at heq
  have hraw := call.set.version.isTmp_raw
  rw [← (List.cons.inj heq).1, isTmp_tmp_name] at hraw
  cases hraw

theorem follows_of_step {i : Install} (h : call.Transition s.install e i) :
    Volume.Follows s.volume.tree i.tree (call.moved s e) := by
  cases h with
  | rename hpc hsrc hdst ht =>
      rw [moved_of_walks hpc hsrc hdst]
      obtain ⟨-, -, -, hbelow, hother, hgone⟩ :=
        FileTree.rename_eq_ok ht (walk_tmp_ne_final hsrc hdst)
      refine ⟨hbelow, fun p hp hnode => ?_⟩
      have hsrc' : ¬ _ <:+ p := fun hsrc' => hnode (hgone p hp hsrc')
      exact ⟨hother p hp hsrc' ▸ hnode, hsrc'⟩
  | fail => trivial
  | unlink | removed | refused | unpacked | write => trivial
  | makeUser hpc | userMade hpc | lockFile hpc | locked hpc | found hpc | absent hpc
  | existing hpc | damaged hpc | tmpFound hpc | tmpAbsent hpc | make hpc | made hpc
  | assembled hpc | create hpc | wrote hpc | synced hpc | stored hpc | finish hpc =>
      rw [moved_of_ne fun m hm => by cases hm.symm.trans hpc]
      trivial

/-- What is synced is there, and nothing changes with it. -/
theorem tree_of_synced {i : Install} {p : List String} (h : call.Transition s.install e i)
    (hp : call.synced s e = some p) :
    i.tree = s.volume.tree ∧ call.moved s e = none ∧ s.volume.tree.node p ≠ none := by
  obtain ⟨path, hpath, -, hnode⟩ := synced_node hp
  have hnot : ∀ {pc : Install.Pc}, s.pc = pc → call.syncPath pc = none → False := by
    rintro pc rfl hnone
    cases hpath.symm.trans hnone
  cases h with
  | synced hpc | stored hpc | finish hpc =>
      exact ⟨rfl, moved_of_ne (fun m hm => by cases hm.symm.trans hpc), hnode⟩
  | makeUser hpc | userMade hpc | lockFile hpc | locked hpc | found hpc | absent hpc
  | existing hpc | damaged hpc | tmpFound hpc | tmpAbsent hpc | make hpc | made hpc
  | assembled hpc | create hpc | wrote hpc | unlink hpc | removed hpc | refused hpc
  | unpacked hpc | write hpc | rename hpc => exact (hnot hpc rfl).elim
  | fail => cases hp

theorem sane_of_reach {ok : DurableInstall → InstallEvent → Prop}
    (h : Machine.Reach call.durableStep ok (DurableInstall.init v) s) : s.volume.Sane := by
  refine @Machine.Reach.invariant _ _ _ _ _ _ (fun s => s.volume.Sane) h ?_ ?_
  · exact v.2
  · intro s e s' _ _ hs hsane
    obtain ⟨hstep, hvolume⟩ := durableStep_cases hs
    have hchange := hsane.change (follows_of_step (step_cases hstep))
    rw [hvolume]
    unfold after
    dsimp only
    split
    · exact hchange
    · rename_i p hp
      obtain ⟨htree, -, hnode⟩ := tree_of_synced (step_cases hstep) hp
      exact hchange.sync (by rwa [← htree] at hnode)

/-! ## The manifest that is downloaded -/

variable (call) in
/-- The manifest of the download may be found empty. -/
def Pending (s : DurableInstall) : Prop :=
  match s.pc with
  | .writing (.manifest _) _ | .syncing (.manifest _) | .renaming _ =>
      s.volume.MayHold (MANIFEST_FILE :: call.tmpAt) []
  | .syncingPair _ | .done _ true => s.volume.MayHold (MANIFEST_FILE :: call.finalAt) []
  | _ => True

theorem pending_step (hl : call.Located) (hsane : s.volume.Sane)
    (h : call.durableStep s e = some s') (hp : call.Pending s) : call.Pending s' := by
  obtain ⟨hstep, hvolume⟩ := durableStep_cases h
  have hmanifest : plainName (Output.manifest call.installed).name = true := by
    show plainName MANIFEST_FILE = true
    decide
  generalize hi : s'.install = i at hstep hvolume
  have hpc' : s'.pc = i.pc := by rw [← hi]; rfl
  have hafter : ∀ {pc : Install.Pc}, s.pc = pc → call.syncPath pc = none →
      (∀ m, pc ≠ .renaming m) → s'.volume = s.volume.change i.tree none := by
    rintro pc rfl hpath hnot
    rw [hvolume, after_of_not (moved_of_ne hnot) hpath]
  unfold Pending at hp ⊢
  rw [hpc']
  cases step_cases hstep with
  | makeUser | userMade | lockFile | locked | found | absent | existing | damaged | tmpFound
  | tmpAbsent | unlink | make | made | refused | unpacked | assembled | synced | fail => trivial
  | @removed tmp => cases tmp <;> trivial
  | @create o p t hpc hwalk ht =>
      cases o with
      | file record content after => trivial
      | manifest m =>
          obtain rfl := hl.pair_plain.walk_path hmanifest hwalk
          rw [hafter hpc rfl (by simp)]
          exact Volume.MayHold.put ht
  | @write o written n p t hpc hwalk ht =>
      cases o with
      | file record content after => trivial
      | manifest m =>
          obtain rfl := hl.pair_plain.walk_path hmanifest hwalk
          rw [hafter hpc rfl (by simp)]
          rw [show s.pc = _ from hpc] at hp
          refine hp.change ((call.content (.manifest m)).take (written + n)) ?_
          rw [(FileTree.put_eq_ok ht).2.2]
          exact Function.update_self ..
  | @wrote o written hpc hall =>
      cases o with
      | file record content after => trivial
      | manifest m =>
          rw [hafter hpc rfl (by simp)]
          rw [show s.pc = _ from hpc] at hp
          exact hp.kept
  | stored hpc =>
      rw [show s.pc = _ from hpc] at hp
      have hdir := s.volume.tree.parent _ _ hp.node
      rw [hvolume, after_of_sync (moved_of_ne fun m hm => by cases hm.symm.trans hpc)
        (by rw [show s.pc = _ from hpc]; rfl) hl.pair_plain.tmp_plain
        (by rw [tmp_dir_reverse]; exact ne_of_eq_of_ne hdir (Option.some_ne_none _)),
        tmp_dir_reverse]
      exact hp.kept.sync (hsane.change trivial) (ne_of_eq_of_ne hdir (Option.some_ne_none _))
        (by simp)
  | rename hpc hsrc hdst ht =>
      rw [show s.pc = _ from hpc] at hp
      have hmoved := moved_of_walks hpc hsrc hdst
      obtain rfl := hl.pair_plain.walk_tmp hsrc
      obtain rfl := hl.pair_plain.walk_final hdst
      obtain ⟨-, -, -, hbelow, -⟩ := FileTree.rename_eq_ok ht finalAt_ne_tmpAt.symm
      have hafter : ∀ t, call.after s .proceed t
          = s.volume.change t (some (call.tmpAt, call.finalAt)) := by
        intro t
        have hsynced : call.synced s .proceed = none := by
          unfold synced
          dsimp only
          rw [show s.pc = _ from hpc]
          rfl
        unfold after
        rw [hmoved, hsynced]
      rw [hvolume, hafter]
      exact hp.move [MANIFEST_FILE] rfl (hbelow [MANIFEST_FILE])
  | finish hpc =>
      rw [show s.pc = _ from hpc] at hp
      have hfinal := s.volume.tree.parent _ _ hp.node
      have hdir : s.volume.tree.node call.pair_dir.reverse ≠ none :=
        ne_of_eq_of_ne (s.volume.tree.parent _ _ (ne_of_eq_of_ne hfinal (Option.some_ne_none _)))
          (Option.some_ne_none _)
      rw [hvolume, after_of_sync (moved_of_ne fun m hm => by cases hm.symm.trans hpc)
        (by rw [show s.pc = _ from hpc]; rfl) hl.pair_plain hdir]
      refine hp.kept.sync (hsane.change trivial) hdir fun heq => ?_
      have hlength := congrArg List.length heq
      simp only [finalAt, pairAt, List.length_cons] at hlength
      omega

theorem pending_of_reach {ok : DurableInstall → InstallEvent → Prop} (hl : call.Located)
    (h : Machine.Reach call.durableStep ok (DurableInstall.init v) s) : call.Pending s := by
  refine @Machine.Reach.invariant _ _ _ _ _ _ (fun s => call.Pending s) h ?_ ?_
  · trivial
  · exact fun _ _ _ hpre _ hs hp => pending_step hl (sane_of_reach hpre) hs hp

/-- A model that was downloaded may be lost. -/
theorem not_durable_of_downloaded {m : InstalledModel}
    (hempty : ∀ manifest, call.host.from_slice [] ≠ .ok manifest)
    (h : Machine.Reach call.durableStep (fun s e => ok s.install e) (DurableInstall.init v) s)
    (hpc : s.pc = .done m true) : ¬ call.Durable s m := by
  intro hdurable
  have hsane := sane_of_reach h
  have hinstall : Machine.Reach call.step ok (Install.init v.1.tree) s.install := install_of_reach h
  obtain ⟨horigin, hdirectory⟩ := directory_of_done hinstall hpc
  have hl := located_of_listed (hdurable _ (hsane.recovers fun _ => Or.inl rfl)) horigin hdirectory
  have hpending := pending_of_reach hl h
  unfold Pending at hpending
  rw [hpc] at hpending
  obtain ⟨r, hr, hmanifest⟩ := hpending.exists_recovers hsane
  have hscan := (Stores.mem_scan.mp (hdurable r hr)).2
  rw [horigin, hdirectory] at hscan
  obtain ⟨-, -, hload, -⟩ := scan_model_dir_eq_ok.mp hscan
  obtain ⟨bytes, hread, hjson, -⟩ := Manifest.load_eq_ok.mp hload
  obtain ⟨found, hstat, hbytes⟩ := FileTree.bind_eq_ok.mp hread
  rw [Placed.stat hl (by decide) hmanifest] at hstat
  cases hstat
  cases hbytes
  exact hempty _ hjson

/-! ## The model that was there -/

/-- What install does to look for an existing model succeeds. -/
def LooksSucceed (_ : Install) (e : InstallEvent) : Prop := e ≠ .missed ∧ e ≠ .faulty

instance (i : Install) (e : InstallEvent) : Decidable (LooksSucceed i e) := by
  unfold LooksSucceed
  infer_instance

/-- The install has not got to a download. -/
def Looking : Install.Pc → Prop
  | .creatingUser | .opening | .locking | .probing false | .checking | .done _ false => True
  | _ => False

/-- It has the lock, and has not got to a download. -/
def Locked : Install.Pc → Prop
  | .probing false | .checking | .done _ false => True
  | _ => False

variable (call) in
theorem Looking.path {pc : Install.Pc} (h : Looking pc) :
    call.syncPath pc = none ∧ ∀ m, pc ≠ .renaming m := by
  cases pc with
  | creatingUser | opening | locking | probing | checking | done => exact ⟨rfl, by simp⟩
  | removing | making | fetching | creating | writing | syncing | «renaming» | syncingPair
  | failed => exact h.elim

theorem Locked.looking {pc : Install.Pc} (h : Locked pc) : Looking pc := by
  unfold Locked at h
  split at h
  · trivial
  · trivial
  · trivial
  · exact h.elim

/-- What a run has found by looking is as it was when it got the lock. -/
structure Same (s₀ s : DurableInstall) : Prop where
  tree : s.volume.tree = s₀.volume.tree
  recovers : ∀ r, s.volume.Recovers r ↔ s₀.volume.Recovers r

theorem Same.survives {s₀ : DurableInstall} (h : Same s₀ s) {m : InstalledModel} :
    call.Survives s m ↔ call.Survives s₀ m := by
  unfold Survives Durable Intact
  simp only [h.recovers, h.tree]

theorem Same.step {s₀ : DurableInstall} (h : Same s₀ s) (hsane : s.volume.Sane)
    (hlooking : Looking s.pc) (hvolume : s'.volume = call.after s e s.volume.tree) :
    Same s₀ s' := by
  have hafter : s'.volume = s.volume.change s.volume.tree none := by
    rw [hvolume, after_of_not (moved_of_ne (hlooking.path call).2) (hlooking.path call).1]
  refine ⟨?_, fun r => ?_⟩
  · rw [hafter]
    exact h.tree
  · rw [hafter]
    exact hsane.recovers_kept.trans (h.recovers r)

/-- A step to where the install has the lock, and looks. -/
theorem locked_step {i i' : Install} (h : call.Transition i e i') (hlocked : Locked i'.pc) :
    i'.pc = .probing false ∨ (Locked i.pc ∧ i'.tree = i.tree ∧ LooksSucceed i e) := by
  cases h with
  | locked hpc => exact Or.inl rfl
  | found hpc | existing hpc =>
      refine Or.inr ⟨?_, rfl, nofun, nofun⟩
      rw [hpc]
      trivial
  | @removed tmp => cases tmp <;> exact hlocked.elim
  | makeUser | userMade | lockFile | absent | damaged | tmpFound | tmpAbsent | unlink | make | made
  | refused | unpacked | assembled | create | write | wrote | synced | stored | rename | finish
  | fail => exact hlocked.elim

/-- When it got the lock, all was as what it finds by looking. -/
theorem same_of_locked (h : Machine.Reach call.durableStep Machine.anyStep (DurableInstall.init v) s) :
    Locked s.pc → ∃ s₀, Machine.Reach call.durableStep Machine.anyStep (DurableInstall.init v) s₀
      ∧ s₀.pc = .probing false
      ∧ Machine.Reach call.durableStep (fun s e => LooksSucceed s.install e) s₀ s ∧ Same s₀ s := by
  induction h with
  | init => exact fun hlocked => hlocked.elim
  | @tail s e s' hpre hok hs ih =>
      intro hlocked
      obtain ⟨hstep, hvolume⟩ := durableStep_cases hs
      rcases locked_step (step_cases hstep) hlocked with hpc | ⟨hbefore, htree, hlooks⟩
      · exact ⟨s', .tail hpre hok hs, hpc, .init, rfl, fun _ => Iff.rfl⟩
      · obtain ⟨s₀, hreach, hpc, hlooked, hsame⟩ := ih hbefore
        refine ⟨s₀, hreach, hpc, .tail hlooked hlooks hs, ?_⟩
        exact hsame.step (sane_of_reach hpre) (Locked.looking hbefore) (htree ▸ hvolume)

/-- A model that survives was there before, and would have survived then. -/
theorem stands_of_survives {m : InstalledModel} {d : Bool}
    (hempty : ∀ manifest, call.host.from_slice [] ≠ .ok manifest)
    (h : Machine.Reach call.durableStep Machine.anyStep (DurableInstall.init v) s)
    (hpc : s.pc = .done m d) (hsurvives : call.Survives s m) :
    ∃ s₀, Machine.Reach call.durableStep Machine.anyStep (DurableInstall.init v) s₀ ∧ call.Stands s₀
      ∧ Machine.Reach call.durableStep (fun s e => LooksSucceed s.install e) s₀ s := by
  cases d with
  | true =>
      exact absurd hsurvives.1
        (@not_durable_of_downloaded _ _ _ Machine.anyStep _ hempty h hpc)
  | false =>
      obtain ⟨s₀, hreach, hpc₀, hlooked, hsame⟩ := same_of_locked h (by rw [hpc]; trivial)
      have hinstall : Machine.Reach call.step Machine.anyStep (Install.init v.1.tree) s.install :=
        @install_of_reach _ _ Machine.anyStep _ h
      obtain ⟨horigin, hdirectory, -⟩ := scan_model_dir_eq_ok.mp (model_of_existing hinstall hpc)
      exact ⟨s₀, hreach, ⟨hpc₀, m, hsame.survives.mp hsurvives, horigin, hdirectory⟩, hlooked⟩

/-- `exists` finds the manifest. -/
theorem pc_of_probing {i i' : Install} {m : InstalledModel} (hl : call.Located)
    (hm : scan_model_dir call.host i.tree call.final_dir .user = .ok m)
    (hpc : i.pc = .probing false) (hs : call.step i e = some i') (he : e ≠ .missed) :
    i' = ⟨i.tree, .checking⟩ := by
  obtain ⟨node, hnode⟩ := Option.ne_none_iff_exists'.mp (hl.manifest_of_scan hm)
  rw [← final_dir_reverse] at hnode
  have hstat := stat_join hl.pair_plain.final_plain (by decide) hnode
  cases e with
  | proceed =>
      unfold step at hs
      simp only [hpc, hstat] at hs
      exact (Option.some.inj hs).symm
  | missed => exact absurd rfl he
  | fail | faulty | unlink | write | fetched =>
      simp [step, failure, hpc] at hs

/-- With a model at its place, an install whose looks succeed goes on to find
it. -/
theorem locked_of_looks {i i' : Install} {m : InstalledModel} (hl : call.Located)
    (hm : scan_model_dir call.host i.tree call.final_dir .user = .ok m)
    (hlocked : Locked i.pc) (hs : call.step i e = some i') (hok : LooksSucceed i e) :
    i'.tree = i.tree ∧ (Locked i'.pc ∨ ∃ error, i'.pc = .failed error) := by
  cases step_cases hs with
  | found | existing => exact ⟨rfl, Or.inl trivial⟩
  | absent hpc =>
      cases pc_of_probing hl hm hpc hs hok.1
  | damaged hpc hdamaged =>
      rcases hdamaged with hfaulty | ⟨problem, hproblem⟩
      · exact absurd hfaulty hok.2
      · cases hproblem.symm.trans hm
  | fail => exact ⟨rfl, Or.inr ⟨_, rfl⟩⟩
  | makeUser hpc | userMade hpc | lockFile hpc | locked hpc | tmpFound hpc | tmpAbsent hpc
  | unlink hpc | removed hpc | make hpc | made hpc | refused hpc | unpacked hpc | assembled hpc
  | create hpc | write hpc | wrote hpc | synced hpc | stored hpc | rename hpc | finish hpc =>
      rw [hpc] at hlocked
      exact hlocked.elim

/-- What is held when the install gets the lock is found, and survives. -/
theorem survives_of_stands {s₀ : DurableInstall} {m : InstalledModel} {d : Bool}
    (hreach : Machine.Reach call.durableStep Machine.anyStep (DurableInstall.init v) s₀)
    (hstands : call.Stands s₀)
    (hlooked : Machine.Reach call.durableStep (fun s e => LooksSucceed s.install e) s₀ s)
    (hpc : s.pc = .done m d) : call.Survives s m := by
  obtain ⟨hpc₀, m₀, hsurvives, horigin, hdirectory⟩ := hstands
  have hlisted := hsurvives.1 _ ((sane_of_reach hreach).recovers fun _ => Or.inl rfl)
  have hl := located_of_listed hlisted horigin hdirectory
  have hm := (Stores.mem_scan.mp hlisted).2
  rw [horigin, hdirectory] at hm
  have hfinds : (Locked s.pc ∨ ∃ error, s.pc = .failed error) ∧ Same s₀ s := by
    refine @Machine.Reach.invariant _ _ _ _ _ _
      (fun s => (Locked s.pc ∨ ∃ error, s.pc = .failed error) ∧ Same s₀ s) hlooked ?_ ?_
    · refine ⟨Or.inl ?_, rfl, fun _ => Iff.rfl⟩
      rw [hpc₀]
      trivial
    · rintro s e s' hpre hok hs ⟨hlocked | ⟨error, hfailed⟩, hsame⟩
      · obtain ⟨hstep, hvolume⟩ := durableStep_cases hs
        obtain ⟨htree, hpc'⟩ := locked_of_looks hl (hsame.tree.symm ▸ hm) hlocked hstep hok
        have hsane := sane_of_reach (hreach.trans (hpre.mono fun _ _ _ => trivial))
        rw [htree] at hvolume
        exact ⟨hpc', hsame.step hsane (Locked.looking hlocked) hvolume⟩
      · -- an install that has failed makes no more steps
        have hpc : s.install.pc = .failed error := hfailed
        obtain ⟨hstep, -⟩ := durableStep_cases hs
        cases e <;> simp [step, failure, hpc] at hstep
  obtain ⟨hlocked, hsame⟩ := hfinds
  obtain rfl : d = false := by
    cases d with
    | false => rfl
    | true =>
        rw [hpc] at hlocked
        rcases hlocked with hlocked | ⟨error, herror⟩
        · exact hlocked.elim
        · cases herror
  have hinstall : Machine.Reach call.step Machine.anyStep (Install.init v.1.tree) s.install :=
    @install_of_reach _ _ Machine.anyStep _ (hreach.trans (hlooked.mono fun _ _ _ => trivial))
  have hfound := model_of_existing hinstall hpc
  obtain rfl : m₀ = m := Except.ok.inj ((hsame.tree.symm ▸ hm).symm.trans hfound)
  exact hsame.survives.mpr hsurvives

/-! ## A synced volume -/

/-- The install is on the way to its lock. -/
def Entering : Install.Pc → Prop
  | .creatingUser | .opening | .locking | .probing false => True
  | _ => False

theorem Entering.looking {pc : Install.Pc} (h : Entering pc) : Looking pc := by
  unfold Entering at h
  split at h
  · trivial
  · trivial
  · trivial
  · trivial
  · exact h.elim

/-- Nothing but the lock file has changed. -/
structure Finds (call : InstallCall) (t₀ : FileTree Bytes) (s : DurableInstall) : Prop where
  settled : s.volume.Settled t₀ call.lockAt
  lock : s.pc = .creatingUser ∨ s.pc = .opening
    ∨ ∃ content, s.volume.tree.node call.lockAt = some (.file content)

section Finds

variable {m : InstalledModel}

theorem Located.lock_length (hl : call.Located) : call.lockAt.length < call.finalAt.length := by
  obtain ⟨provider, pair, -, -, heq⟩ := hl
  simp only [finalAt, pairAt, lockAt, heq, List.length_cons, List.length_reverse,
    List.length_append]
  omega

theorem Located.lock_ne (hl : call.Located) {q : List String} (hq : call.finalAt <:+ q) :
    q ≠ call.lockAt := by
  rintro rfl
  exact absurd hq.length_le (Nat.not_le_of_lt hl.lock_length)

theorem Finds.kept (hf : call.Finds t₀ s) (hl : call.Located) {q : List String}
    (hq : call.finalAt <:+ q) : s.volume.tree.node q = t₀.node q :=
  hf.settled.tree q (hl.lock_ne hq)

theorem Located.user_suffix (hl : call.Located) : call.stores.user.reverse <:+ call.finalAt :=
  hl.inside.below.trans (List.suffix_cons ..)

theorem finds_step (hl : call.Located)
    (hm : scan_model_dir call.host t₀ call.final_dir .user = .ok m)
    (h : call.durableStep s e = some s') (hentering : Entering s'.pc)
    (hf : Entering s.pc → call.Finds t₀ s) : call.Finds t₀ s' := by
  obtain ⟨hstep, hvolume⟩ := durableStep_cases h
  generalize hi : s'.install = i at hstep hvolume
  have hpc' : s'.pc = i.pc := by rw [← hi]; rfl
  have htree : s'.volume.tree = i.tree := by rw [← hi]; rfl
  have hsettled : Entering s.pc → (∀ p, p ≠ call.lockAt → i.tree.node p = s.volume.tree.node p) →
      s'.volume.Settled t₀ call.lockAt := by
    intro hbefore hsame
    have hlooking := hbefore.looking
    rw [hvolume, after_of_not (moved_of_ne (hlooking.path call).2) (hlooking.path call).1]
    exact (hf hbefore).settled.change hsame
  rw [hpc'] at hentering
  cases step_cases hstep with
  | @makeUser p t hpc hmissing ht =>
      -- the model is below the directory
      have hf := hf (by rw [show s.pc = _ from hpc]; trivial)
      obtain ⟨hnone, hbelow, -⟩ := FileTree.missing_eq_some user_plain hmissing
      rw [List.append_nil] at hbelow
      obtain ⟨q, hq⟩ := hbelow.trans hl.user_suffix
      have hfinal : s.volume.tree.node (q ++ p) ≠ none := by
        rw [hq, hf.kept hl (List.suffix_refl _)]
        exact ne_of_eq_of_ne (hl.dir_of_scan hm) (Option.some_ne_none _)
      by_cases hnil : q = []
      · rw [hnil, List.nil_append] at hfinal
        exact absurd hnone hfinal
      · exact absurd ((s.volume.tree.node_of_append hnil hfinal).symm.trans hnone) (by simp)
  | userMade hpc hmissing =>
      have hbefore : Entering s.pc := by rw [show s.pc = _ from hpc]; trivial
      exact ⟨hsettled hbefore fun _ _ => rfl, Or.inr (Or.inl hpc')⟩
  | lockFile hpc hwalk ht =>
      have hbefore : Entering s.pc := by rw [show s.pc = _ from hpc]; trivial
      obtain rfl := walk_lock hwalk
      obtain ⟨-, -, hnode⟩ := FileTree.put_eq_ok ht
      refine ⟨hsettled hbefore fun p hp => ?_, Or.inr (Or.inr ⟨[], ?_⟩)⟩
      · show _ = s.install.tree.node p
        rw [hnode, Function.update_of_ne hp]
      · rw [htree, hnode, Function.update_self]
  | locked hpc =>
      have hpc : s.pc = .locking := hpc
      have hbefore : Entering s.pc := by rw [hpc]; trivial
      refine ⟨hsettled hbefore fun _ _ => rfl, Or.inr (Or.inr ?_)⟩
      rw [htree]
      rcases (hf hbefore).lock with hcreating | hopening | hfile
      · cases hcreating.symm.trans hpc
      · cases hopening.symm.trans hpc
      · exact hfile
  | @removed tmp => cases tmp <;> exact hentering.elim
  | found | absent | existing | damaged | tmpFound | tmpAbsent | unlink | make | made | refused
  | unpacked | assembled | create | write | wrote | synced | stored | rename | finish | fail =>
      exact hentering.elim

theorem finds_of_reach (hl : call.Located)
    (hm : scan_model_dir call.host t₀ call.final_dir .user = .ok m)
    (h : Machine.Reach call.durableStep Machine.anyStep (DurableInstall.init (.clean t₀)) s) :
    Entering s.pc → call.Finds t₀ s := by
  induction h with
  | init => exact fun _ => ⟨Volume.settled_clean t₀ _, Or.inl rfl⟩
  | tail _ _ hs ih => exact fun hentering => finds_step hl hm hs hentering ih

/-- What is there when all is synced is held when the install gets the lock. -/
theorem stands_of_present (hpresent : call.Present t₀)
    (hinside : NamesInside call.host t₀ call.final_dir)
    (h : Machine.Reach call.durableStep Machine.anyStep (DurableInstall.init (.clean t₀)) s)
    (hpc : s.pc = .probing false) : call.Stands s := by
  obtain ⟨m, hlisted, horigin, hdirectory⟩ := hpresent
  have hl := located_of_listed hlisted horigin hdirectory
  have hm := (Stores.mem_scan.mp hlisted).2
  rw [horigin, hdirectory] at hm
  have hf := finds_of_reach hl hm h (by rw [hpc]; trivial)
  have hfile : ∃ content, s.volume.tree.node call.lockAt = some (.file content) := by
    rcases hf.lock with hlock | hlock | hfile
    · cases hpc.symm.trans hlock
    · cases hpc.symm.trans hlock
    · exact hfile
  -- the lock is a file, so the model is not below it
  have hfinal : s.volume.tree.node call.finalAt ≠ none :=
    ne_of_eq_of_ne ((hf.kept hl (List.suffix_refl _)).trans (hl.dir_of_scan hm))
      (Option.some_ne_none _)
  have hnot : ¬ call.lockAt <:+ call.finalAt := by
    rintro ⟨rest, hrest⟩
    obtain ⟨content, hfile⟩ := hfile
    have hne : rest ≠ [] := by
      rintro rfl
      exact hl.lock_ne (List.suffix_refl _) hrest.symm
    rw [← hrest] at hfinal
    cases hfile.symm.trans (s.volume.tree.node_of_append hne hfinal)
  have hsame : ∀ r, s.volume.Recovers r → ∀ q, call.finalAt <:+ q → r.node q = t₀.node q :=
    fun r hr q hq => hf.settled.recovers (by simp [lockAt]) hr q fun hlock =>
      hnot (List.suffix_of_suffix_length_le hlock hq hl.lock_length.le)
  refine ⟨hpc, m, ⟨fun r hr => ?_, fun r hr q hq => ?_⟩, horigin, hdirectory⟩
  · refine (Stores.mem_scan_congr (fun _ q hq => ?_) fun _ => ?_).mp hlisted
    · rw [hdirectory, final_dir_reverse] at hq
      exact (hsame r hr q hq).symm
    · rwa [hdirectory]
  · rw [hdirectory, final_dir_reverse] at hq
    rw [hsame r hr q hq, hf.kept hl hq]

end Finds

/-- **What an install returns survives a power loss** exactly where a model of
the set was there when the install got the lock, would have survived one then,
and was found: the manifest of a download is not synced. -/
theorem install_durable {m : InstalledModel} {d : Bool}
    (hempty : ∀ manifest, call.host.from_slice [] ≠ .ok manifest)
    (h : Machine.Reach call.durableStep Machine.anyStep (DurableInstall.init v) s)
    (hpc : s.pc = .done m d) :
    call.Survives s m
      ↔ ∃ s₀, Machine.Reach call.durableStep Machine.anyStep (DurableInstall.init v) s₀
        ∧ call.Stands s₀
        ∧ Machine.Reach call.durableStep (fun s e => LooksSucceed s.install e) s₀ s :=
  ⟨stands_of_survives hempty h hpc,
    fun ⟨_, hreach, hstands, hlooked⟩ => survives_of_stands hreach hstands hlooked hpc⟩

theorem prettyManifest_ne_nil (m : Manifest) : prettyManifest m ≠ [] := List.cons_ne_nil _ _

/-- The model of the set was there. -/
theorem install_durable_present : ∃ s m, s.pc = .done m false ∧ sameCall.Survives s m := by
  have hempty : ∀ manifest, sameCall.host.from_slice [] ≠ .ok manifest := by
    intro manifest
    show (if [] = prettyManifest sameOld then Except.ok sameOld else .error _) ≠ _
    rw [if_neg (prettyManifest_ne_nil _).symm]
    exact nofun
  have hrun : (Machine.run sameCall.step LooksSucceed (Install.init sameTree)
      (List.replicate 5 .proceed)).any (fun i => decide (i.pc = .done
        ⟨.user, sameCall.final_dir, sameCall.set.version, sameOld⟩ false)) = true := by
    decide +kernel
  obtain ⟨i, hreach, hdone⟩ := Machine.exists_reach_of_run _ _ _ _ _ hrun
  obtain ⟨s, hlooks, rfl⟩ := exists_durable (DurableInstall.init (.clean sameTree)) hreach
  have hpc : s.pc = _ := of_decide_eq_true hdone
  have hs : Machine.Reach sameCall.durableStep Machine.anyStep _ s :=
    hlooks.mono fun _ _ _ => trivial
  obtain ⟨s₀, hreach₀, hpc₀, hlooked, -⟩ := same_of_locked hs (by rw [hpc]; trivial)
  refine ⟨s, _, hpc, (install_durable hempty hs hpc).mpr ⟨s₀, hreach₀, ?_, hlooked⟩⟩
  refine stands_of_present
    ⟨⟨.user, sameCall.final_dir, sameCall.set.version, sameOld⟩, ?_, rfl, rfl⟩ ?_ hreach₀ hpc₀
  · decide +kernel
  · intro manifest hload
    have hsame : Manifest.load sameCall.host sameTree sameCall.final_dir = .ok sameOld :=
      toOption_eq_some (by decide +kernel)
    cases hsame.symm.trans hload
    decide

/-- The installation of the set of the small catalogue, from nothing. -/
theorem install_not_durable : ∃ s,
    Machine.Reach (catalogueCall hashA).durableStep Machine.anyStep
        (DurableInstall.init (.clean FileTree.empty)) s
      ∧ s.pc = .done (catalogueCall hashA).model true
      ∧ (catalogueCall hashA).set ∈ (accepted_sets (catalogue hashA) (.prerelease false)).1
      ∧ ∃ r, s.volume.Recovers r
        ∧ (catalogueCall hashA).model
          ∉ ((catalogueCall hashA).stores.scan (catalogueCall hashA).host r).1 := by
  obtain ⟨i, hreach, hdone⟩ := catalogue_installs
  obtain ⟨s, hs, rfl⟩ := exists_durable (DurableInstall.init (.clean FileTree.empty)) hreach
  have hempty : ∀ manifest, (catalogueCall hashA).host.from_slice [] ≠ .ok manifest := by
    intro manifest
    show (if [] = prettyManifest (catalogueManifest hashA) then
      Except.ok (catalogueManifest hashA) else .error _) ≠ _
    rw [if_neg (prettyManifest_ne_nil _).symm]
    exact nofun
  have hnot := not_durable_of_downloaded hempty hs hdone
  obtain ⟨r, hr⟩ := not_forall.mp hnot
  obtain ⟨hrecovers, hscan⟩ := Classical.not_imp.mp hr
  exact ⟨s, hs.mono fun _ _ _ => trivial, hdone, catalogue_accepted _ (by simp), r, hrecovers,
    hscan⟩

end InstallCall

end Dragomand
