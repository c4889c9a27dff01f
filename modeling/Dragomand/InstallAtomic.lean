import Dragomand.InstallFrame

/-!
# Installation is atomic

At every point at which install can stop, a scan of the stores lists the
models it listed before, or those and the new one, complete. The version
directory of the install is as it was, or what is left of a directory in
which no model was listed, or complete (`FinalState`); everything else that
a scan visits is untouched.

The reads with which install looks at an existing model have to succeed:
what it cannot read it takes for damaged, and removes before it downloads.
-/

namespace Dragomand

open FileTree (Node plainName)

/-- No system store is inside the user store, or around it. -/
def Stores.SystemApart (stores : Stores) : Prop :=
  ∀ root ∈ stores.system, ¬ root <+: stores.user ∧ ¬ stores.user <+: root

/-- The manifests a scan loads name files inside their directories. -/
def Stores.NamesInside (stores : Stores) (host : ModelHost) (t : FileTree Bytes) : Prop :=
  ∀ origin dir, stores.Scanned t origin dir → Dragomand.NamesInside host t dir

namespace InstallCall

variable {call : InstallCall}

/-! ## The version directory -/

section Final

variable {t₀ t t' : FileTree Bytes}

/-- What is below the version directory is the same. -/
def Kept (call : InstallCall) (t t' : FileTree Bytes) : Prop :=
  ∀ q, call.finalAt <:+ q → t'.node q = t.node q

/-- What is left of it is the same. -/
def Shrunk (call : InstallCall) (t t' : FileTree Bytes) : Prop :=
  ∀ q, call.finalAt <:+ q → t'.node q = none ∨ t'.node q = t.node q

/-- It has no model a scan would list. -/
def Unlisted (call : InstallCall) (t : FileTree Bytes) : Prop :=
  ∀ m, scan_model_dir call.host t call.final_dir .user ≠ .ok m

theorem Kept.trans {t'' : FileTree Bytes} (h : call.Kept t t') (h' : call.Kept t' t'') :
    call.Kept t t'' :=
  fun q hq => (h' q hq).trans (h q hq)

theorem Shrunk.trans_kept {t'' : FileTree Bytes} (h : call.Shrunk t t') (h' : call.Kept t' t'') :
    call.Shrunk t t'' := by
  intro q hq
  rw [h' q hq]
  exact h q hq

theorem Kept.of_update {p : List String} {node : Option (Node Bytes)}
    (hp : ¬ call.finalAt <:+ p) (ht : t'.node = Function.update t.node p node) :
    call.Kept t t' := by
  intro q hq
  have hne : q ≠ p := fun heq => hp (heq ▸ hq)
  rw [ht, Function.update_of_ne hne]

theorem Shrunk.remove {p : List String} (h : call.Shrunk t t')  {t'' : FileTree Bytes}
    (ht : t''.node = Function.update t'.node p none) : call.Shrunk t t'' := by
  intro q hq
  by_cases heq : q = p
  · rw [ht, heq, Function.update_self]
    exact Or.inl rfl
  · rw [ht, Function.update_of_ne heq]
    exact h q hq

/-- A directory with a model has a manifest. -/
theorem Located.manifest_of_scan (hl : call.Located) {m : InstalledModel}
    (h : scan_model_dir call.host t call.final_dir .user = .ok m) :
    t.node (MANIFEST_FILE :: call.finalAt) ≠ none := by
  obtain ⟨-, -, hload, -⟩ := scan_model_dir_eq_ok.mp h
  obtain ⟨bytes, hread, -⟩ := Manifest.load_eq_ok.mp hload
  obtain ⟨⟨p, node⟩, hstat, -⟩ := FileTree.bind_eq_ok.mp hread
  obtain ⟨hwalk, hnode⟩ := FileTree.stat_eq_ok hstat
  have hp := walk_join hl.pair_plain.final_plain (by decide) hwalk
  rw [final_dir_reverse] at hp
  rw [← hp, hnode]
  exact Option.some_ne_none _

theorem Located.dir_of_scan (hl : call.Located) {m : InstalledModel}
    (h : scan_model_dir call.host t call.final_dir .user = .ok m) :
    t.node call.finalAt = some .dir :=
  t.parent _ _ (hl.manifest_of_scan h)

/-- A damaged directory was damaged from the start. -/
theorem Located.unlisted_of_kept (hl : call.Located)
    (hinside : call.stores.NamesInside call.host t₀) (hk : call.Kept t₀ t)
    (h : call.Unlisted t) : call.Unlisted t₀ := by
  intro m hm
  have hdir := hl.dir_of_scan hm
  have hnone : t₀.node call.final_dir.reverse ≠ none := by
    rw [final_dir_reverse, hdir]
    exact Option.some_ne_none _
  refine h m ((scan_model_dir_congr hl.pair_plain.final_plain hnone (fun q hq => ?_)
    (hinside _ _ (hl.scanned hdir))).mp hm)
  rw [final_dir_reverse] at hq
  exact (hk q hq).symm

/-- What is left of a directory without a model has no model. -/
theorem Located.unlisted_of_shrunk (hl : call.Located)
    (hinside : call.stores.NamesInside call.host t₀) (hs : call.Shrunk t₀ t)
    (h : call.Unlisted t₀) : call.Unlisted t := by
  intro m hm
  have hdir := hl.dir_of_scan hm
  have hnone : t.node call.finalAt ≠ none := by
    rw [hdir]
    exact Option.some_ne_none _
  have hdir₀ : t₀.node call.finalAt = some .dir := by
    rw [← (hs _ (List.suffix_refl _)).resolve_left hnone, hdir]
  refine h m (scan_model_dir_shrink hl.pair_plain.final_plain (by rwa [final_dir_reverse])
    (fun q hq => ?_)
    (hinside _ _ (hl.scanned hdir₀)) hm)
  rw [final_dir_reverse] at hq
  exact hs q hq

end Final

/-! ## What a step does to it -/

/-- What the version directory can be when install stops. -/
inductive FinalState (call : InstallCall) (t₀ t : FileTree Bytes) : Prop
  | kept (h : call.Kept t₀ t)
  | shrunk (hunlisted : call.Unlisted t₀) (h : call.Shrunk t₀ t)
  | placed (hunlisted : call.Unlisted t₀) (h : call.Placed t call.installed)

/-- What it is at each place in the program. -/
def FinalAt (call : InstallCall) (t₀ t : FileTree Bytes) : Install.Pc → Prop
  | .creatingUser | .opening | .locking | .probing false | .checking | .done _ false =>
      call.Kept t₀ t
  | .removing false => call.Unlisted t₀ ∧ call.Shrunk t₀ t
  | .probing true | .removing true | .making | .fetching _ | .creating _ | .writing _ _
  | .syncing _ | .renaming _ => call.Kept t₀ t ∨ (call.Unlisted t₀ ∧ call.Shrunk t₀ t)
  | .syncingPair _ | .done _ true => call.Unlisted t₀ ∧ call.Placed t call.installed
  | .failed _ => call.FinalState t₀ t

section Step

variable {s s' : Install} {e : InstallEvent} {t₀ : FileTree Bytes}

theorem FinalAt.state {t : FileTree Bytes} {pc : Install.Pc} (h : call.FinalAt t₀ t pc) :
    call.FinalState t₀ t := by
  have hor : call.Kept t₀ t ∨ (call.Unlisted t₀ ∧ call.Shrunk t₀ t) → call.FinalState t₀ t := by
    rintro (hk | ⟨hu, hs⟩)
    · exact .kept hk
    · exact .shrunk hu hs
  cases pc with
  | creatingUser | opening | locking | checking => exact .kept h
  | probing tmp =>
      cases tmp with
      | false => exact .kept h
      | true => exact hor h
  | removing tmp =>
      cases tmp with
      | false => exact .shrunk h.1 h.2
      | true => exact hor h
  | syncingPair => exact .placed h.1 h.2
  | done m downloaded =>
      cases downloaded with
      | false => exact .kept h
      | true => exact .placed h.1 h.2
  | failed => exact h
  | _ => exact hor h

/-- Steps elsewhere leave the version directory. -/
theorem kept_step (hl : call.Located) (hn : call.NamesStay) (h : call.Transition s e s')
    (hf : call.FromSet s.pc) (hremoving : s.pc ≠ .removing false)
    (hrenaming : ∀ m, s.pc ≠ .renaming m) : call.Kept s.tree s'.tree := by
  have hlength : call.finalAt.length = call.stores.user.length + 3 := by
    obtain ⟨provider, pair, -, -, heq⟩ := hl
    simp [finalAt, pairAt, heq]
  have hshort : ∀ {p : List String}, p.length < call.stores.user.length + 3 →
      ¬ call.finalAt <:+ p := fun hp h => absurd h.length_le (by omega)
  have htmp : ∀ {p : List String}, call.tmpAt <:+ p → ¬ call.finalAt <:+ p := by
    intro p hp hfinal
    have hsuffix := List.suffix_of_suffix_length_le hfinal hp (by simp [finalAt, tmpAt])
    exact finalAt_ne_tmpAt (hsuffix.eq_of_length (by simp [finalAt, tmpAt]))
  cases h with
  | userMade | locked | found | absent | existing | damaged | tmpFound | tmpAbsent | made
  | refused | unpacked | assembled | wrote | synced | stored | finish | fail =>
      exact fun _ _ => rfl
  | makeUser hpc hmissing ht =>
      obtain ⟨-, hbelow, -⟩ := FileTree.missing_eq_some user_plain hmissing
      obtain ⟨-, -, hnode⟩ := FileTree.mkdir_eq_ok ht
      have hle := hbelow.length_le
      simp only [List.append_nil, List.length_reverse] at hle
      exact .of_update (hshort (by omega)) hnode
  | lockFile hpc hwalk ht =>
      obtain ⟨-, -, hnode⟩ := FileTree.put_eq_ok ht
      refine .of_update (hshort ?_) hnode
      rw [walk_lock hwalk]
      simp [lockAt]
  | @unlink tmp dir p t hpc hwalk hbelow hne ht =>
      obtain ⟨-, -, -, hnode⟩ := FileTree.remove_eq_ok ht
      cases tmp with
      | false => exact absurd hpc hremoving
      | true => exact .of_update (htmp (hl.pair_plain.walk_tmp hwalk ▸ hbelow)) hnode
  | @removed tmp dir t hpc hwalk ht =>
      obtain ⟨-, -, -, hnode⟩ := FileTree.remove_eq_ok ht
      cases tmp with
      | false => exact absurd hpc hremoving
      | true => exact .of_update (htmp (hl.pair_plain.walk_tmp hwalk ▸ List.suffix_refl _)) hnode
  | make hpc hmissing ht =>
      obtain ⟨-, hbelow, -⟩ := FileTree.missing_eq_some hl.pair_plain.tmp_plain hmissing
      obtain ⟨-, -, hnode⟩ := FileTree.mkdir_eq_ok ht
      rw [List.append_nil, tmp_dir_reverse] at hbelow
      refine .of_update (fun hfinal => ?_) hnode
      exact htmp (List.suffix_refl _) (hfinal.trans hbelow)
  | create hpc hwalk ht =>
      rw [hpc] at hf
      obtain ⟨-, -, hnode⟩ := FileTree.put_eq_ok ht
      exact .of_update (htmp (hl.pair_plain.path_below hn hf hwalk)) hnode
  | write hpc hwalk ht =>
      rw [hpc] at hf
      obtain ⟨-, -, hnode⟩ := FileTree.put_eq_ok ht
      exact .of_update (htmp (hl.pair_plain.path_below hn hf hwalk)) hnode
  | rename hpc => exact absurd hpc (hrenaming _)

theorem PlainNames.stay (hn : call.PlainNames) : call.NamesStay := by
  intro f hf
  obtain ⟨file_type, hmem⟩ := mem_wanted hf
  exact insideName_of_plain (hn.plain _ hmem)

theorem finalAt_step (hl : call.Located) (hn : call.NamesStay)
    (hinside : call.stores.NamesInside call.host t₀) (hok : ReadsSucceed s e)
    (h : call.Transition s e s') (hf : call.FromSet s.pc) (hw : call.Written s'.tree s'.pc)
    (hi : call.FinalAt t₀ s.tree s.pc) : call.FinalAt t₀ s'.tree s'.pc := by
  by_cases hremoving : s.pc = .removing false
  · -- what is removed was damaged
    rw [hremoving] at hi
    obtain ⟨hu, hs⟩ := hi
    cases h with
    | unlink hpc hwalk hbelow hne ht =>
        cases hpc.symm.trans hremoving
        obtain ⟨-, -, -, hnode⟩ := FileTree.remove_eq_ok ht
        exact ⟨hu, hs.remove hnode⟩
    | removed hpc hwalk ht =>
        cases hpc.symm.trans hremoving
        obtain ⟨-, -, -, hnode⟩ := FileTree.remove_eq_ok ht
        exact Or.inr ⟨hu, hs.remove hnode⟩
    | fail herror => exact .shrunk hu hs
    | makeUser hpc | userMade hpc | lockFile hpc | locked hpc | found hpc | absent hpc
    | existing hpc | damaged hpc | tmpFound hpc | tmpAbsent hpc | make hpc | made hpc
    | refused hpc | unpacked hpc | assembled hpc | create hpc | write hpc | wrote hpc | synced hpc
    | stored hpc | rename hpc | finish hpc => cases hpc.symm.trans hremoving
  by_cases hrenaming : ∃ m, s.pc = .renaming m
  · obtain ⟨m, hrenaming⟩ := hrenaming
    rw [hrenaming] at hi
    cases h with
    | rename hpc hsrc hdst ht =>
        obtain rfl := hl.pair_plain.walk_tmp hsrc
        obtain rfl := hl.pair_plain.walk_final hdst
        obtain ⟨-, hempty, -⟩ := FileTree.rename_eq_ok ht finalAt_ne_tmpAt.symm
        refine ⟨?_, by rw [← hw.installed]; exact hw⟩
        rcases hi with hk | ⟨hu, -⟩
        · -- a directory that the renaming replaces is empty
          intro m' hscan
          refine hl.manifest_of_scan hscan ?_
          rw [← hk _ (List.suffix_cons ..)]
          exact hempty [MANIFEST_FILE] (by simp)
        · exact hu
    | fail herror => exact @FinalAt.state _ _ _ (.renaming m) hi
    | makeUser hpc | userMade hpc | lockFile hpc | locked hpc | found hpc | absent hpc
    | existing hpc | damaged hpc | tmpFound hpc | tmpAbsent hpc | unlink hpc | removed hpc
    | make hpc | made hpc | refused hpc | unpacked hpc | assembled hpc | create hpc | write hpc
    | wrote hpc | synced hpc | stored hpc | finish hpc => cases hpc.symm.trans hrenaming
  have hkept := kept_step hl hn h hf hremoving fun m hm => hrenaming ⟨m, hm⟩
  have hor : ∀ {t t' : FileTree Bytes}, call.Kept t t' →
      call.Kept t₀ t ∨ (call.Unlisted t₀ ∧ call.Shrunk t₀ t) →
      call.Kept t₀ t' ∨ (call.Unlisted t₀ ∧ call.Shrunk t₀ t') := by
    rintro t t' hkept (hk | ⟨hu, hs⟩)
    · exact Or.inl (hk.trans hkept)
    · exact Or.inr ⟨hu, hs.trans_kept hkept⟩
  cases h with
  | makeUser hpc | userMade hpc | lockFile hpc | locked hpc | found hpc | existing hpc =>
      rw [hpc] at hi
      exact Kept.trans hi hkept
  | absent hpc =>
      rw [hpc] at hi
      exact Or.inl hi
  | damaged hpc hscan =>
      rw [hpc] at hi
      obtain ⟨problem, hproblem⟩ := hscan.resolve_left hok
      refine ⟨hl.unlisted_of_kept hinside hi fun m hm => ?_, fun q hq => Or.inr (hi q hq)⟩
      cases hproblem.symm.trans hm
  | tmpFound hpc | tmpAbsent hpc | make hpc | made hpc | unpacked hpc | assembled hpc
  | create hpc | write hpc | wrote hpc | synced hpc | stored hpc =>
      rw [hpc] at hi
      exact hor hkept hi
  | refused hpc =>
      rw [hpc] at hi
      exact @FinalAt.state _ _ _ .making hi
  | @unlink tmp dir p t hpc =>
      cases tmp with
      | false => exact absurd hpc hremoving
      | true =>
          rw [hpc] at hi
          exact hor hkept hi
  | @removed tmp dir t hpc =>
      cases tmp with
      | false => exact absurd hpc hremoving
      | true =>
          rw [hpc] at hi
          exact hor hkept hi
  | rename hpc => exact absurd ⟨_, hpc⟩ hrenaming
  | finish hpc =>
      rw [hpc] at hi
      exact hi
  | fail herror => exact hi.state

theorem finalState_of_reach (hl : call.Located) (hn : call.PlainNames)
    (hinside : call.stores.NamesInside call.host t₀)
    (h : Machine.Reach call.step ReadsSucceed (Install.init t₀) s) :
    call.FinalState t₀ s.tree := by
  have hfinal : call.FinalAt t₀ s.tree s.pc := by
    refine @Machine.Reach.invariant _ _ _ _ _ _ (fun s => call.FinalAt t₀ s.tree s.pc) h ?_ ?_
    · exact fun _ _ => rfl
    · intro s e s' hpre hok hs hi
      have hw := written_of_reach hl hn.fits (hpre.tail hok hs)
      exact finalAt_step hl hn.stay hinside hok (step_cases hs) (fromSet_of_reach hpre) hw hi
  exact hfinal.state

end Step

/-! ## The scan -/

section Scan

variable {t₀ t : FileTree Bytes}

/-- What a scan visits elsewhere is untouched. -/
theorem Untouched.scanned (hl : call.Located) (hapart : call.stores.SystemApart)
    (hu : call.Untouched t₀ t) {origin : Origin} {root : PathBuf}
    {provider pair version : String} (hroot : (origin, root) ∈ call.stores.roots)
    (htmp : isTmp version = false)
    (hother : ¬ (origin = .user ∧ root ++ [provider, pair, version] = call.final_dir))
    {q : List String} (hq : (root ++ [provider, pair, version]).reverse <:+ q) :
    t.node q = t₀.node q := by
  obtain ⟨provider', pair', -, -, hpair⟩ := id hl
  have hpairAt : call.pairAt = pair' :: provider' :: call.stores.user.reverse := by
    unfold pairAt
    rw [hpair, List.reverse_append]
    rfl
  have hdir : (root ++ [provider, pair, version]).reverse
      = version :: pair :: provider :: root.reverse := by
    rw [List.reverse_append]
    rfl
  rw [hdir] at hq
  have hrootq : root.reverse <:+ q :=
    ((((List.suffix_cons ..).trans (List.suffix_cons ..)).trans (List.suffix_cons ..)).trans hq)
  have hcase : ∀ {z : List String}, call.stores.user.reverse <:+ z → z <:+ q ∨ q <:+ z →
      origin = .user ∧ root = call.stores.user := by
    intro z huser hz
    rcases List.mem_cons.mp hroot with heq | hsystem
    · exact ⟨(Prod.mk.inj heq).1, (Prod.mk.inj heq).2⟩
    · obtain ⟨root', hroot', heq⟩ := List.mem_map.mp hsystem
      obtain ⟨-, rfl⟩ := Prod.mk.inj heq
      obtain ⟨hin, hout⟩ := hapart root' hroot'
      have hboth : ∃ l, root'.reverse <:+ l ∧ call.stores.user.reverse <:+ l := by
        rcases hz with hz | hz
        · exact ⟨q, hrootq, huser.trans hz⟩
        · exact ⟨z, hrootq.trans hz, huser⟩
      obtain ⟨l, hroot, huser⟩ := hboth
      rcases List.suffix_or_suffix_of_suffix hroot huser with hs | hs
      · exact absurd (List.reverse_suffix.mp hs) hin
      · exact absurd (List.reverse_suffix.mp hs) hout
  have huserPair : call.stores.user.reverse <:+ call.pairAt := hl.inside.below
  -- two paths of one length with a common end are equal
  have hsame : ∀ {name : String}, name :: call.pairAt <:+ q → origin = .user
      ∧ version = name ∧ pair = pair' ∧ provider = provider' ∧ root = call.stores.user := by
    intro name hz
    obtain ⟨horigin, rfl⟩ := hcase (huserPair.trans (List.suffix_cons ..)) (Or.inl hz)
    rw [hpairAt] at hz
    have heq := (List.suffix_of_suffix_length_le hq hz (by simp)).eq_of_length (by simp)
    simp only [List.cons.injEq, and_true] at heq
    exact ⟨horigin, heq.1, heq.2.1, heq.2.2, rfl⟩
  have hown : ¬ call.Own q := by
    rintro (hz | hz | rfl)
    · obtain ⟨horigin, hversion, hpair', hprovider, hroot'⟩ := hsame hz
      refine hother ⟨horigin, ?_⟩
      rw [final_dir_eq, hpair, hroot', hprovider, hpair', hversion, List.append_assoc]
      rfl
    · obtain ⟨-, hversion, -⟩ := hsame hz
      rw [hversion, isTmp_tmp_name] at htmp
      cases htmp
    · obtain ⟨-, rfl⟩ := hcase (z := call.lockAt) (List.suffix_cons ..) (Or.inl (List.suffix_refl _))
      have hle := hq.length_le
      simp only [lockAt, List.length_cons, List.length_reverse] at hle
      omega
  rcases hu q hown with hnode | ⟨-, -, habove⟩
  · exact hnode
  · obtain ⟨-, rfl⟩ := hcase huserPair (Or.inr habove)
    have hle := hq.length_le.trans habove.length_le
    simp only [hpairAt, List.length_cons, List.length_reverse] at hle
    omega

/-- What a scan lists elsewhere is what it listed before. -/
theorem Untouched.scan_iff (hl : call.Located) (hapart : call.stores.SystemApart)
    (hinside : call.stores.NamesInside call.host t₀) (hu : call.Untouched t₀ t)
    {m : InstalledModel} (hother : ¬ (m.origin = .user ∧ m.directory = call.final_dir)) :
    m ∈ (call.stores.scan call.host t).1 ↔ m ∈ (call.stores.scan call.host t₀).1 := by
  refine (Stores.mem_scan_congr (fun hplace q hq => ?_) (hinside _ _)).symm
  obtain ⟨root, provider, pair, version, hroot, hdirectory, htmp⟩ := hplace
  rw [hdirectory] at hother hq
  exact (hu.scanned hl hapart hroot htmp hother hq).symm

/-- A scan after an install, against that before it. -/
inductive ScanOutcome (call : InstallCall) (t₀ t : FileTree Bytes) : Prop
  | unchanged (h : ∀ m, m ∈ (call.stores.scan call.host t).1
      ↔ m ∈ (call.stores.scan call.host t₀).1)
  | installed (hnew : call.model ∉ (call.stores.scan call.host t₀).1)
      (h : ∀ m, m ∈ (call.stores.scan call.host t).1
        ↔ m ∈ (call.stores.scan call.host t₀).1 ∨ m = call.model)
      (hcomplete : call.Placed t call.installed)

theorem scan_at_final {m : InstalledModel} (horigin : m.origin = .user)
    (hdirectory : m.directory = call.final_dir) (hu : call.Unlisted t) :
    m ∉ (call.stores.scan call.host t).1 := by
  intro hm
  have hscan := (Stores.mem_scan.mp hm).2
  rw [horigin, hdirectory] at hscan
  exact hu m hscan

theorem FinalState.outcome (hl : call.Located) (hn : call.PlainNames)
    (hapart : call.stores.SystemApart) (hinside : call.stores.NamesInside call.host t₀)
    (hjson : call.host.from_slice (call.host.to_vec_pretty call.installed) = .ok call.installed)
    (hu : call.Untouched t₀ t) (hf : call.FinalState t₀ t) : call.ScanOutcome t₀ t := by
  cases hf with
  | kept hk =>
      refine .unchanged fun m => ?_
      by_cases hother : m.origin = .user ∧ m.directory = call.final_dir
      · refine (Stores.mem_scan_congr (fun _ q hq => ?_) (hinside _ _)).symm
        rw [hother.2, final_dir_reverse] at hq
        exact (hk q hq).symm
      · exact hu.scan_iff hl hapart hinside hother
  | shrunk hunlisted hs =>
      refine .unchanged fun m => ?_
      by_cases hother : m.origin = .user ∧ m.directory = call.final_dir
      · obtain ⟨horigin, hdirectory⟩ := hother
        exact iff_of_false
          (scan_at_final horigin hdirectory (hl.unlisted_of_shrunk hinside hs hunlisted))
          (scan_at_final horigin hdirectory hunlisted)
      · exact hu.scan_iff hl hapart hinside hother
  | placed hunlisted hp =>
      have hscan := hp.scan hl hn.fits hjson
      refine .installed (scan_at_final rfl rfl hunlisted) (fun m => ?_) hp
      by_cases hother : m.origin = .user ∧ m.directory = call.final_dir
      · obtain ⟨horigin, hdirectory⟩ := hother
        constructor
        · intro hm
          have hm := (Stores.mem_scan.mp hm).2
          rw [horigin, hdirectory, hscan] at hm
          exact Or.inr (Except.ok.inj hm).symm
        · rintro (hm | rfl)
          · exact absurd hm (scan_at_final horigin hdirectory hunlisted)
          · exact Stores.mem_scan.mpr ⟨hl.scanned hp.dir, hscan⟩
      · rw [hu.scan_iff hl hapart hinside hother]
        refine (or_iff_left ?_).symm
        rintro rfl
        exact hother ⟨rfl, rfl⟩

end Scan

/-- **Installation is atomic.** Wherever install stops, a scan lists what it
listed before, or that and the new model, complete; and nothing else has
changed. -/
theorem install_atomic {t₀ : FileTree Bytes} {s : Install} (hl : call.Located)
    (hn : call.PlainNames) (hapart : call.stores.SystemApart)
    (hinside : call.stores.NamesInside call.host t₀)
    (hjson : call.host.from_slice (call.host.to_vec_pretty call.installed) = .ok call.installed)
    (h : Machine.Reach call.step ReadsSucceed (Install.init t₀) s) :
    call.ScanOutcome t₀ s.tree ∧ call.Untouched t₀ s.tree := by
  have hu := untouched_of_reach hl.inside (hn.stay.own hl.pair_plain) h
  have hf := finalState_of_reach hl hn hinside h
  exact ⟨hf.outcome hl hn hapart hinside hjson hu, hu⟩

theorem install_atomic_empty : ∃ s : Install,
    (catalogueCall hashA).ScanOutcome FileTree.empty s.tree
      ∧ (catalogueCall hashA).Untouched FileTree.empty s.tree := by
  obtain ⟨s, hreach, -⟩ := catalogue_installs
  refine ⟨s, install_atomic (located_of_plain (by decide)) (catalogue_names _) (by simp
    [Stores.SystemApart, catalogueCall]) ?_ (catalogue_reads _) hreach⟩
  -- nothing is scanned yet
  rintro origin dir ⟨⟨root, provider, pair, version, -, rfl, -⟩, hdir⟩
  simp [FileTree.empty] at hdir

/-! ## What it needs

A store with one listed model, and an install of the set of the small
catalogue that makes it unlisted. -/

/-- Makes the directories and files in turn. -/
def plant (nodes : List (List String × Option Bytes)) : FileTree Bytes :=
  nodes.foldl (fun t node => ((match node.2 with
    | none => t.mkdir node.1
    | some content => t.put content node.1).toOption).getD t) FileTree.empty

/-- A model that was there before. -/
def oldManifest (source target version : String) (files : List ManifestFile) : Manifest :=
  ⟨1, PROVIDER_ID, source, target, version, none, none, [], "2025-01-01T00:00:00Z", files⟩

def oldHost (old : Manifest) : ModelHost where
  digest := (catalogueHost hashA).digest
  decode_all := (catalogueHost hashA).decode_all
  to_vec_pretty := prettyManifest
  from_slice bytes :=
    if bytes = prettyManifest old then .ok old
    else .error "EOF while parsing a value at line 1 column 0"
  display := (catalogueHost hashA).display
  debug text := "\"" ++ text ++ "\""
  dir_len _ := 4096
  process_id := 7
  now_rfc3339 := "2026-01-01T00:00:00Z"

theorem oldHost_from_slice (old : Manifest) :
    (oldHost old).from_slice (prettyManifest old) = .ok old := by
  simp only [oldHost, if_true]

/-- The catalogue, for another pair. -/
def pairCatalogue (source target : String) : List ModelRecord :=
  (catalogue hashA).map fun record =>
    { record with source_language := source, target_language := target }

def oldCall (old : Manifest) (source target : String) (system : List PathBuf)
    (hplain : ∀ root ∈ ["u"] :: system, ∀ name ∈ root, plainName name = true) : InstallCall where
  host := oldHost old
  stores := ⟨system, ["u"], hplain⟩
  set := { catalogueSet hashA with
    source := source
    target := target
    files := (pairCatalogue source target).map fun record => (record.file_type, record) }
  attachments_base := "https://example.test/"
  download_lex := false

/-- The install of an accepted set with plain names drops a listed model. -/
def Drops (call : InstallCall) (ok : Install → InstallEvent → Prop) (t₀ : FileTree Bytes)
    (m : InstalledModel) : Prop :=
  call.set ∈ (accepted_sets (pairCatalogue call.set.source call.set.target)
      (.prerelease false)).1
    ∧ ((call.set.files.map fun f => f.2.name) = ["model.bin", "vocab.spm"])
    ∧ m ∈ (call.stores.scan call.host t₀).1
    ∧ ∃ s, Machine.Reach call.step ok (Install.init t₀) s
      ∧ m ∉ (call.stores.scan call.host s.tree).1

theorem drops_of_run {call : InstallCall} {ok : Install → InstallEvent → Prop}
    [∀ s e, Decidable (ok s e)] {t₀ : FileTree Bytes} {m : InstalledModel}
    (hset : call.set ∈ (accepted_sets (pairCatalogue call.set.source call.set.target)
      (.prerelease false)).1)
    (hnames : (call.set.files.map fun f => f.2.name) = ["model.bin", "vocab.spm"])
    (hlisted : m ∈ (call.stores.scan call.host t₀).1) (es : List InstallEvent)
    (h : (Machine.run call.step ok (Install.init t₀) es).any
      (fun s => decide (m ∉ (call.stores.scan call.host s.tree).1)) = true) :
    Drops call ok t₀ m := by
  obtain ⟨s, hreach, hs⟩ := Machine.exists_reach_of_run _ _ _ _ _ h
  exact ⟨hset, hnames, hlisted, s, hreach, of_decide_eq_true hs⟩

/-- Up to the first file that is removed. -/
def dropRun (look : InstallEvent) (file : List String) : List InstallEvent :=
  List.replicate 4 .proceed ++ [look, .unlink file]

def version2 : MozVersion := ⟨"2.0", [⟨2, true, "", 0⟩, ⟨0, true, "", 0⟩], by decide⟩

def pairDirs : List (List String × Option Bytes) :=
  [(["u"], none), ([PROVIDER_ID, "u"], none), (["bg-en", PROVIDER_ID, "u"], none)]

def dir3 : List String := ["3.0", "bg-en", PROVIDER_ID, "u"]

/-- The model of the set is there. -/
def sameOld : Manifest := oldManifest "bg" "en" "3.0" [⟨"model.bin", "model", 1, hashA⟩]

def sameCall : InstallCall := oldCall sameOld "bg" "en" [] (by decide)

def sameTree : FileTree Bytes := plant (pairDirs ++ [(dir3, none),
  (MANIFEST_FILE :: dir3, some (prettyManifest sameOld)), ("model.bin" :: dir3, some [97])])

/-- An older model uses a file of the damaged one. -/
def sharingOld : Manifest :=
  oldManifest "bg" "en" "2.0" [⟨"../3.0/model.bin", "model", 1, hashA⟩]

def sharingCall : InstallCall := oldCall sharingOld "bg" "en" [] (by decide)

def dir2 : List String := ["2.0", "bg-en", PROVIDER_ID, "u"]

def sharingTree : FileTree Bytes := plant (pairDirs ++ [(dir2, none),
  (MANIFEST_FILE :: dir2, some (prettyManifest sharingOld)), (dir3, none),
  (MANIFEST_FILE :: dir3, some []), ("model.bin" :: dir3, some [97])])

/-- The source language is an absolute path, and the version directory a
pair's. -/
def absoluteOld : Manifest := oldManifest "x" "y" "2.0" []

def absoluteCall : InstallCall := oldCall absoluteOld "/u/x" "y" [] (by decide)

def absoluteTree : FileTree Bytes := plant [(["u"], none), (["x-y", "u"], none),
  (["3.0", "x-y", "u"], none), ([MANIFEST_FILE, "3.0", "x-y", "u"], some []),
  (["2.0", "3.0", "x-y", "u"], none),
  ([MANIFEST_FILE, "2.0", "3.0", "x-y", "u"], some (prettyManifest absoluteOld))]

/-- A system store is inside the user store. -/
def nestedOld : Manifest := oldManifest "de" "en" "2.0" []

def nestedCall : InstallCall :=
  oldCall nestedOld "bg" "en" [["u", PROVIDER_ID, "bg-en"]] (by decide)

def nestedTree : FileTree Bytes := plant (pairDirs ++ [(dir3, none),
  (MANIFEST_FILE :: dir3, some []), ("de-en" :: dir3, none), ("2.0" :: "de-en" :: dir3, none),
  (MANIFEST_FILE :: "2.0" :: "de-en" :: dir3, some (prettyManifest nestedOld))])

/-- A read of an existing model that fails drops the model. So does, with
reads that succeed, a manifest that names files of another directory, a pair
whose directory is elsewhere, or a system store inside the user store. -/
theorem install_not_atomic :
    Drops sameCall Machine.anyStep sameTree
        ⟨.user, sameCall.final_dir, sameCall.set.version, sameOld⟩
      ∧ Drops sharingCall ReadsSucceed sharingTree
        ⟨.user, sharingCall.pair_dir ++ ["2.0"], version2, sharingOld⟩
      ∧ Drops absoluteCall ReadsSucceed absoluteTree
        ⟨.user, ["u", "x-y", "3.0", "2.0"], version2, absoluteOld⟩
      ∧ Drops nestedCall ReadsSucceed nestedTree
        ⟨.system, nestedCall.final_dir ++ ["de-en", "2.0"], version2, nestedOld⟩ :=
  ⟨drops_of_run (by decide +kernel) rfl (by decide +kernel)
      (dropRun .faulty ("model.bin" :: dir3)) (by decide +kernel),
    drops_of_run (by decide +kernel) rfl (by decide +kernel)
      (dropRun .proceed ("model.bin" :: dir3)) (by decide +kernel),
    drops_of_run (by decide +kernel) rfl (by decide +kernel)
      (dropRun .proceed [MANIFEST_FILE, "2.0", "3.0", "x-y", "u"]) (by decide +kernel),
    drops_of_run (by decide +kernel) rfl (by decide +kernel)
      (dropRun .proceed (MANIFEST_FILE :: "2.0" :: "de-en" :: dir3)) (by decide +kernel)⟩

end InstallCall

end Dragomand
