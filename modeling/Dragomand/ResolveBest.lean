import Dragomand.InstalledCopy

/-!
# The best copy

`resolve` finds a copy when the scan lists one of the pair with a supported
version. It is of the greatest version among them, and of a user store only
if no system copy has that version.

What more directories in the stores can change follows from that, and from
what the scan of a directory looks at: it is its own content, unless its
manifest names files outside.
-/

namespace Dragomand

open FileTree (Node IoError plainName)
open InstallCall (plant oldManifest oldHost pairDirs dir3)

/-! ## What is resolved -/

section Best

variable {stores : Stores} {host : ModelHost} {t t' : FileTree Bytes} {source target : String}

/-- A listed copy of the pair, of a version that the engine supports. -/
structure Stores.Fits (stores : Stores) (host : ModelHost) (t : FileTree Bytes)
    (source target : String) (m : InstalledModel) : Prop where
  listed : m ∈ (stores.scan host t).1
  pair : m.pair = source ++ "-" ++ target
  window : m.version.inWindow = true

/-- A copy that no other exceeds, and that is of the user store only if all
copies of its version are. -/
structure Stores.BestOf (stores : Stores) (host : ModelHost) (t : FileTree Bytes)
    (source target : String) (best : InstalledModel) : Prop where
  fits : stores.Fits host t source target best
  newest : ∀ m, stores.Fits host t source target m → (m.version.cmp best.version).isLE = true
  system : best.origin = .user → ∀ m, stores.Fits host t source target m →
    m.version.cmp best.version = .eq → m.origin = .user

theorem Stores.resolve_eq_none_iff : stores.resolve host t source target = none
    ↔ ∀ m, ¬ stores.Fits host t source target m := by
  constructor
  · intro hnone m hm
    obtain ⟨best, hbest⟩ := Stores.resolve_isSome hm.listed hm.pair hm.window
    cases hnone.symm.trans hbest
  · intro hnone
    cases hres : stores.resolve host t source target with
    | none => rfl
    | some best =>
        obtain ⟨hlisted, hpair, hwindow, -⟩ := Stores.resolve_eq_some hres
        exact absurd ⟨hlisted, hpair, hwindow⟩ (hnone best)

theorem Stores.bestOf_resolve {best : InstalledModel}
    (h : stores.resolve host t source target = some best) :
    stores.BestOf host t source target best := by
  obtain ⟨hlisted, hpair, hwindow, hnewest⟩ := Stores.resolve_eq_some h
  refine ⟨⟨hlisted, hpair, hwindow⟩, fun m hm => hnewest m hm.listed hm.pair hm.window,
    fun huser m hm heq => ?_⟩
  have hle := (maxBy_eq_some h).2 m (by simp [hm.listed, hm.pair, hm.window])
  -- a system copy would come after a user copy of its version
  cases horigin : m.origin with
  | user => rfl
  | system =>
      unfold InstalledModel.cmp compareLex compareOn at hle
      rw [show compare m.version best.version = .eq from heq] at hle
      simp only [horigin, huser, Ordering.eq_then, decide_true, reduceCtorEq, decide_false] at hle
      exact absurd hle (by decide)

/-- Where every copy still fits, the resolved version is not lower. -/
theorem Stores.resolve_mono (h : ∀ m, stores.Fits host t source target m →
      stores.Fits host t' source target m) {best : InstalledModel}
    (hbest : stores.resolve host t source target = some best) :
    ∃ best', stores.resolve host t' source target = some best'
      ∧ (best.version.cmp best'.version).isLE = true := by
  have hfits := h best (Stores.bestOf_resolve hbest).fits
  obtain ⟨best', hbest'⟩ := Stores.resolve_isSome hfits.listed hfits.pair hfits.window
  exact ⟨best', hbest', (Stores.bestOf_resolve hbest').newest best hfits⟩

/-- Where the same copies fit, the resolved version is the same, and so is
the kind of store. -/
theorem Stores.resolve_rel (h : ∀ m, stores.Fits host t source target m
      ↔ stores.Fits host t' source target m) :
    Option.Rel (fun a b => a.version.cmp b.version = .eq ∧ a.origin = b.origin)
      (stores.resolve host t source target) (stores.resolve host t' source target) := by
  cases hres : stores.resolve host t source target with
  | none =>
      have hnone := Stores.resolve_eq_none_iff.mp hres
      rw [Stores.resolve_eq_none_iff.mpr fun m hm => hnone m ((h m).mpr hm)]
      exact .none
  | some best =>
      obtain ⟨best', hres', hle⟩ := Stores.resolve_mono (fun m hm => (h m).mp hm) hres
      have hbest := Stores.bestOf_resolve hres
      have hbest' := Stores.bestOf_resolve hres'
      have heq : best.version.cmp best'.version = .eq :=
        Std.OrientedCmp.isLE_antisymm hle
          (hbest.newest best' ((h best').mpr hbest'.fits))
      have heq' : best'.version.cmp best.version = .eq := Std.OrientedCmp.eq_symm heq
      rw [hres']
      refine .some ⟨heq, ?_⟩
      cases horigin : best.origin with
      | user => rw [hbest.system horigin best' ((h best').mpr hbest'.fits) heq']
      | system =>
          cases horigin' : best'.origin with
          | user =>
              rw [hbest'.system horigin' best ((h best).mp hbest.fits) heq] at horigin
              cases horigin
          | system => rfl

end Best

/-! ## More directories -/

section Adds

/-- Everything that was there is as it was, in the same order, and no version
directory that was there lists another model than before. -/
structure Stores.Adds (stores : Stores) (host : ModelHost) (t t' : FileTree Bytes) : Prop where
  kept : ∀ p, t.node p ≠ none → t'.node p = t.node p
  same : ∀ origin dir m, stores.Scanned t origin dir →
    (scan_model_dir host t' dir origin = .ok m ↔ scan_model_dir host t dir origin = .ok m)

/-- The new directories hold no copy of the pair of a supported version: they
are unfinished or damaged, or of another pair or version. -/
def Stores.AddsNone (stores : Stores) (host : ModelHost) (t t' : FileTree Bytes)
    (source target : String) : Prop :=
  ∀ origin dir m, stores.Scanned t' origin dir → ¬ stores.Scanned t origin dir →
    scan_model_dir host t' dir origin = .ok m →
    ¬ (m.pair = source ++ "-" ++ target ∧ m.version.inWindow = true)

variable {stores : Stores} {host : ModelHost} {t t' : FileTree Bytes} {source target : String}

theorem Stores.Adds.scanned (h : stores.Adds host t t') {origin : Origin} {dir : PathBuf}
    (hscanned : stores.Scanned t origin dir) : stores.Scanned t' origin dir :=
  ⟨hscanned.place, (h.kept _ (by rw [hscanned.dir]; exact Option.some_ne_none _)).trans
    hscanned.dir⟩

theorem Stores.Adds.fits (h : stores.Adds host t t') {m : InstalledModel}
    (hm : stores.Fits host t source target m) : stores.Fits host t' source target m := by
  obtain ⟨hscanned, hscan⟩ := Stores.mem_scan.mp hm.listed
  exact ⟨Stores.mem_scan.mpr ⟨h.scanned hscanned, (h.same _ _ _ hscanned).mpr hscan⟩, hm.pair,
    hm.window⟩

theorem Stores.Adds.fits_iff (h : stores.Adds host t t')
    (hnone : stores.AddsNone host t t' source target) (m : InstalledModel) :
    stores.Fits host t source target m ↔ stores.Fits host t' source target m := by
  refine ⟨h.fits, fun hm => ?_⟩
  obtain ⟨hscanned', hscan⟩ := Stores.mem_scan.mp hm.listed
  by_cases hscanned : stores.Scanned t m.origin m.directory
  · exact ⟨Stores.mem_scan.mpr ⟨hscanned, (h.same _ _ _ hscanned).mp hscan⟩, hm.pair, hm.window⟩
  · exact absurd ⟨hm.pair, hm.window⟩ (hnone _ _ m hscanned' hscanned hscan)

/-- Directories are added where nothing is added inside a version directory,
if the manifests name files inside their own directories. -/
theorem Stores.adds_of_inside (hkept : ∀ p, t.node p ≠ none → t'.node p = t.node p)
    (hbelow : ∀ origin dir, stores.Scanned t origin dir →
      ∀ q, dir.reverse <:+ q → t'.node q = t.node q)
    (hinside : stores.NamesInside host t) : stores.Adds host t t' := by
  refine ⟨hkept, fun origin dir m hscanned => ?_⟩
  have hnode : t.node dir.reverse ≠ none := by
    rw [hscanned.dir]
    exact Option.some_ne_none _
  exact (scan_model_dir_congr hscanned.plain hnode
    (fun q hq => (hbelow origin dir hscanned q hq).symm) (hinside origin dir hscanned)).symm

/-! ## The order of the listing -/

/-- The subdirectories; none of a directory that cannot be read. -/
def dirs (t : FileTree Bytes) (path : PathBuf) : List String :=
  (subdirs t path).toOption.getD []

theorem dirs_eq {path : PathBuf} (hpath : ∀ name ∈ path, plainName name = true) :
    dirs t path = (t.names path.reverse).filter fun name => t.isDir (name :: path.reverse) := by
  unfold dirs
  by_cases hdir : t.node path.reverse = some .dir
  · have hsub : subdirs t path = .ok _ :=
      FileTree.map_eq_ok.mpr ⟨t.names path.reverse,
        FileTree.bind_eq_ok.mpr ⟨_, FileTree.stat_plain hpath hdir, rfl⟩, rfl⟩
    rw [hsub]
    refine List.filter_congr fun name hname => ?_
    have hnode := FileTree.mem_names.mp hname
    obtain ⟨node, hnode'⟩ := Option.ne_none_iff_exists'.mp hnode
    have hstat := FileTree.stat_plain (FileTree.plain_snoc hpath (t.plain name _ hnode))
      (show t.node (path ++ [name]).reverse = some node by simpa using hnode')
    rw [hstat]
    unfold FileTree.isDir
    rw [hnode']
    cases node <;> rfl
  · -- nothing is below a path that is no directory
    have hnames : t.names path.reverse = [] := List.eq_nil_iff_forall_not_mem.mpr fun name hname =>
      hdir (t.parent name _ (FileTree.mem_names.mp hname))
    rw [hnames]
    cases hsub : subdirs t path with
    | error e => rfl
    | ok names =>
        refine List.eq_nil_iff_forall_not_mem.mpr fun name hname => hdir (t.parent name _ ?_)
        rw [(mem_subdirs hpath hsub).mp hname]
        exact Option.some_ne_none _

theorem mem_dirs {path : PathBuf} (hpath : ∀ name ∈ path, plainName name = true) {name : String} :
    name ∈ dirs t path ↔ t.node (name :: path.reverse) = some .dir := by
  rw [dirs_eq hpath, List.mem_filter, FileTree.isDir_iff, FileTree.mem_names]
  refine and_iff_right_of_imp fun hdir => ?_
  rw [hdir]
  exact Option.some_ne_none _

theorem dirs_nodup {path : PathBuf} (hpath : ∀ name ∈ path, plainName name = true) :
    (dirs t path).Nodup := by
  rw [dirs_eq hpath]
  exact (List.nodup_dedup _).filter _

theorem dirs_sublist (hkept : ∀ p, t.node p ≠ none → t'.node p = t.node p)
    (horder : ∀ p, (t.names p).Sublist (t'.names p)) {path : PathBuf}
    (hpath : ∀ name ∈ path, plainName name = true) : (dirs t path).Sublist (dirs t' path) := by
  rw [dirs_eq hpath, dirs_eq hpath]
  refine ((horder _).filter _).trans (List.monotone_filter_right _ fun name hdir => ?_)
  have hdir := FileTree.isDir_iff.mp hdir
  exact FileTree.isDir_iff.mpr ((hkept _ (by rw [hdir]; exact Option.some_ne_none _)).trans hdir)

/-- What `f` makes of the directories `n` levels below a path. -/
def visit {α : Type} (t : FileTree Bytes) (f : PathBuf → List α) : Nat → PathBuf → List α
  | 0, path => f path
  | n + 1, path => (dirs t path).flatMap fun name => visit t f n (path ++ [name])

theorem plain_child {path : PathBuf} (hpath : ∀ name ∈ path, plainName name = true)
    {name : String} (hname : name ∈ dirs t path) : ∀ c ∈ path ++ [name], plainName c = true := by
  have hnode : t.node (name :: path.reverse) ≠ none := by
    rw [(mem_dirs hpath).mp hname]
    exact Option.some_ne_none _
  exact FileTree.plain_snoc hpath (t.plain name _ hnode)

/-- Nothing is visited but directories. -/
theorem visit_nil {α : Type} {f : PathBuf → List α} {n : Nat} {path : PathBuf}
    (hpath : ∀ name ∈ path, plainName name = true)
    (h : ∀ names : PathBuf, names.length = n → t.node (path ++ names).reverse = some .dir →
      f (path ++ names) = []) (hdir : t.node path.reverse = some .dir) : visit t f n path = [] := by
  induction n generalizing path with
  | zero =>
      have hzero := h [] rfl (by simpa using hdir)
      rwa [List.append_nil] at hzero
  | succ n ih =>
      refine List.flatMap_eq_nil_iff.mpr fun name hname => ?_
      refine ih (plain_child hpath hname) (fun names hlength hnode => ?_)
        (by simpa using (mem_dirs hpath).mp hname)
      rw [List.append_assoc] at hnode ⊢
      exact h (name :: names) (congrArg Nat.succ hlength) hnode

theorem flatMap_sublist {α β : Type} {l l' : List α} (h : l.Sublist l') (hnodup : l'.Nodup)
    {f g : α → List β} (hold : ∀ a ∈ l, g a = f a) (hnew : ∀ a ∈ l', a ∉ l → g a = []) :
    l'.flatMap g = l.flatMap f := by
  induction h with
  | slnil => rfl
  | @cons l l' a hl ih =>
      obtain ⟨ha, hnodup⟩ := List.nodup_cons.mp hnodup
      rw [List.flatMap_cons, hnew a (List.mem_cons_self ..) fun hmem => ha (hl.subset hmem),
        List.nil_append]
      exact ih hnodup hold fun b hb => hnew b (List.mem_cons_of_mem _ hb)
  | @cons_cons l l' a hl ih =>
      obtain ⟨ha, hnodup⟩ := List.nodup_cons.mp hnodup
      rw [List.flatMap_cons, List.flatMap_cons, hold a (List.mem_cons_self ..),
        ih hnodup (fun b hb => hold b (List.mem_cons_of_mem _ hb)) fun b hb hnot => ?_]
      refine hnew b (List.mem_cons_of_mem _ hb) fun hmem => ?_
      rcases List.mem_cons.mp hmem with rfl | hmem
      · exact ha hb
      · exact hnot hmem

theorem dir_of_append {q dir : List String} (h : t.node (q ++ dir) = some .dir) :
    t.node dir = some .dir := by
  by_cases hq : q = []
  · rwa [hq, List.nil_append] at h
  · exact t.node_of_append hq (by rw [h]; exact Option.some_ne_none _)

/-- New directories of which `f` makes nothing are not seen. -/
theorem visit_adds {α : Type} {f f' : PathBuf → List α}
    (hkept : ∀ p, t.node p ≠ none → t'.node p = t.node p)
    (horder : ∀ p, (t.names p).Sublist (t'.names p)) {n : Nat} {path : PathBuf}
    (hpath : ∀ name ∈ path, plainName name = true)
    (hold : ∀ names : PathBuf, names.length = n → t.node (path ++ names).reverse = some .dir →
      f' (path ++ names) = f (path ++ names))
    (hnew : ∀ names : PathBuf, names.length = n → t'.node (path ++ names).reverse = some .dir →
      t.node (path ++ names).reverse ≠ some .dir → f' (path ++ names) = [])
    (hdir : t.node path.reverse = some .dir) : visit t' f' n path = visit t f n path := by
  induction n generalizing path with
  | zero =>
      have hzero := hold [] rfl (by simpa using hdir)
      rwa [List.append_nil] at hzero
  | succ n ih =>
      have hsublist := dirs_sublist hkept horder hpath
      refine flatMap_sublist hsublist (dirs_nodup hpath) (fun name hname => ?_)
        fun name hname hnot => ?_
      · refine ih (plain_child hpath hname) (fun names hlength hnode => ?_)
          (fun names hlength hnode hnot => ?_) (by simpa using (mem_dirs hpath).mp hname)
        · rw [List.append_assoc] at hnode ⊢
          exact hold (name :: names) (congrArg Nat.succ hlength) hnode
        · rw [List.append_assoc] at hnode hnot ⊢
          exact hnew (name :: names) (congrArg Nat.succ hlength) hnode hnot
      · refine visit_nil (plain_child hpath hname) (fun names hlength hnode => ?_)
          (by simpa using (mem_dirs hpath).mp hname)
        rw [List.append_assoc] at hnode ⊢
        refine hnew (name :: names) (congrArg Nat.succ hlength) hnode fun hold => hnot ?_
        rw [List.reverse_append, List.reverse_cons, List.append_assoc, List.singleton_append] at hold
        exact (mem_dirs hpath).mpr (dir_of_append hold)

theorem visit_of_not_dir {α : Type} {f : PathBuf → List α} {n : Nat} {path : PathBuf}
    (hpath : ∀ name ∈ path, plainName name = true) (hdir : t.node path.reverse ≠ some .dir) :
    visit t f (n + 1) path = [] := by
  have hnil : dirs t path = [] := List.eq_nil_iff_forall_not_mem.mpr fun name hname =>
    hdir (dir_of_append (q := [name]) ((mem_dirs hpath).mp hname))
  rw [visit, hnil]
  rfl

/-! ## The candidates -/

theorem scan_entries_filterMap {β : Type} {g : Except String InstalledModel → Option β}
    {path : PathBuf} {problem : IoError → List (Except String InstalledModel)}
    {scan : String → List (Except String InstalledModel)}
    (hproblem : ∀ e, (problem e).filterMap g = []) :
    (scan_entries t path problem scan).filterMap g
      = (dirs t path).flatMap fun name => (scan name).filterMap g := by
  unfold scan_entries dirs
  cases subdirs t path with
  | error e => exact hproblem e
  | ok names => exact List.filterMap_flatMap ..

/-- What of a version directory is kept. -/
def keptOf (host : ModelHost) (t : FileTree Bytes) (keep : InstalledModel → Bool) (origin : Origin)
    (path : PathBuf) : List InstalledModel :=
  if isTmp (path.getLastD "") then []
  else ((scan_model_dir host t path origin).toOption.filter keep).toList

/-- A scan visits the directories three levels below the root. -/
theorem scan_store_filterMap {root : PathBuf} {origin : Origin} {keep : InstalledModel → Bool} :
    (scan_store host t root origin).filterMap (fun outcome => outcome.toOption.filter keep)
      = visit t (keptOf host t keep origin) 3 root := by
  unfold scan_store visit visit visit visit
  dsimp only
  rw [scan_entries_filterMap fun e => rfl]
  refine List.flatMap_congr fun provider _ => ?_
  rw [scan_entries_filterMap fun e => rfl]
  refine List.flatMap_congr fun pair _ => ?_
  rw [scan_entries_filterMap fun e => rfl]
  rw [List.append_assoc root [provider] [pair], List.singleton_append]
  refine List.flatMap_congr fun version _ => ?_
  have hlast : (root ++ [provider, pair] ++ [version]).getLastD "" = version := by
    rw [List.getLastD_concat]
  unfold keptOf
  rw [hlast, List.append_assoc]
  split
  · rfl
  · rw [List.filterMap_cons]
    split
    · rename_i hnone
      rw [List.cons_append, List.cons_append, List.nil_append, hnone]
      rfl
    · rename_i hsome
      rw [List.cons_append, List.cons_append, List.nil_append, hsome]
      rfl

variable (stores host t source target) in
/-- The copies that `resolve` chooses from, in the order of the scan. -/
theorem Stores.candidates_eq :
    ((stores.scan host t).1.filter fun m => m.pair = source ++ "-" ++ target).filter
        (fun m => m.version.inWindow)
      = stores.roots.flatMap fun root => visit t (keptOf host t
          (fun m => m.pair = source ++ "-" ++ target ∧ m.version.inWindow = true) root.1) 3 root.2 := by
  unfold Stores.scan
  dsimp only
  rw [List.filter_filter, List.filter_filterMap, List.filterMap_flatMap]
  refine List.flatMap_congr fun root _ => ?_
  rw [← scan_store_filterMap]
  refine List.filterMap_congr fun outcome _ => congrArg (fun p => outcome.toOption.filter p) ?_
  funext m
  simp [Bool.and_comm]

theorem toOption_eq {ε α : Type} {a b : Except ε α} (h : ∀ m, a = .ok m ↔ b = .ok m) :
    a.toOption = b.toOption := by
  cases a with
  | ok m => rw [(h m).mp rfl]
  | error e =>
      cases b with
      | ok m => cases (h m).mpr rfl
      | error e' => rfl

/-- In the same order of the listing, the very same copy is resolved. -/
theorem Stores.Adds.resolve_eq (h : stores.Adds host t t')
    (hnone : stores.AddsNone host t t' source target)
    (horder : ∀ p, (t.names p).Sublist (t'.names p)) :
    stores.resolve host t' source target = stores.resolve host t source target := by
  unfold Stores.resolve
  dsimp only
  rw [Stores.candidates_eq, Stores.candidates_eq]
  refine congrArg (maxBy InstalledModel.cmp) (List.flatMap_congr fun ⟨origin, root⟩ hroot => ?_)
  have hplain := Stores.roots_plain hroot
  have hplace : ∀ names : PathBuf, names.length = 3 → isTmp ((root ++ names).getLastD "") = false →
      ∃ root' provider pair version, (origin, root') ∈ stores.roots
        ∧ root ++ names = root' ++ [provider, pair, version] ∧ isTmp version = false := by
    intro names hlength htmp
    obtain ⟨provider, pair, version, rfl⟩ := List.length_eq_three.mp hlength
    refine ⟨root, provider, pair, version, hroot, rfl, ?_⟩
    have hlast : (root ++ [provider, pair, version]).getLastD "" = version := by
      simp [List.getLastD_eq_getLast?]
    rwa [hlast] at htmp
  have hnew : ∀ names : PathBuf, names.length = 3 → t'.node (root ++ names).reverse = some .dir →
      t.node (root ++ names).reverse ≠ some .dir →
      keptOf host t' (fun m => m.pair = source ++ "-" ++ target ∧ m.version.inWindow = true) origin
        (root ++ names) = [] := by
    intro names hlength hdir' hdir
    unfold keptOf
    split
    · rfl
    · rename_i htmp
      have hscanned' : stores.Scanned t' origin (root ++ names) :=
        ⟨hplace names hlength (by simpa using htmp), hdir'⟩
      cases hscan : scan_model_dir host t' (root ++ names) origin with
      | error e => rfl
      | ok m =>
          have hnot := hnone _ _ m hscanned' (fun hscanned => hdir hscanned.dir) hscan
          simp [Except.toOption, Option.filter, hnot]
  by_cases hdir : t.node root.reverse = some .dir
  · refine visit_adds h.kept horder hplain (fun names hlength hnode => ?_) hnew hdir
    unfold keptOf
    split
    · rfl
    · rename_i htmp
      have hscanned : stores.Scanned t origin (root ++ names) :=
        ⟨hplace names hlength (by simpa using htmp), hnode⟩
      rw [toOption_eq fun m => h.same origin _ m hscanned]
  · rw [visit_of_not_dir hplain hdir]
    by_cases hdir' : t'.node root.reverse = some .dir
    · refine visit_nil hplain (fun names hlength hnode => hnew names hlength hnode fun hold => ?_) hdir'
      rw [List.reverse_append] at hold
      exact hdir (dir_of_append hold)
    · exact visit_of_not_dir hplain hdir'

/-- **The best copy.** `resolve` finds none only if no listed copy fits, and
the best of them otherwise. More directories do not lower the version; those
without a fitting copy change neither the version nor the kind of store, nor,
in the same order of the listing, the copy. -/
theorem Stores.resolve_best_copy (stores : Stores) (host : ModelHost) (source target : String) :
    (∀ t, stores.resolve host t source target = none
        ↔ ∀ m, ¬ stores.Fits host t source target m)
      ∧ (∀ t best, stores.resolve host t source target = some best →
        stores.BestOf host t source target best)
      ∧ (∀ t t', stores.Adds host t t' → ∀ best, stores.resolve host t source target = some best →
        ∃ best', stores.resolve host t' source target = some best'
          ∧ (best.version.cmp best'.version).isLE = true)
      ∧ (∀ t t', stores.Adds host t t' → stores.AddsNone host t t' source target →
        Option.Rel (fun a b => a.version.cmp b.version = .eq ∧ a.origin = b.origin)
            (stores.resolve host t source target) (stores.resolve host t' source target)
          ∧ ((∀ p, (t.names p).Sublist (t'.names p)) →
            stores.resolve host t' source target = stores.resolve host t source target))
      ∧ ∀ t t' : FileTree Bytes, (∀ p, t.node p ≠ none → t'.node p = t.node p) →
        (∀ origin dir, stores.Scanned t origin dir →
          ∀ q, dir.reverse <:+ q → t'.node q = t.node q) →
        stores.NamesInside host t → stores.Adds host t t' := by
  refine ⟨fun t => Stores.resolve_eq_none_iff, fun t best h => Stores.bestOf_resolve h,
    fun t t' h best hbest => Stores.resolve_mono (fun m hm => h.fits hm) hbest,
    fun t t' h hnone => ⟨Stores.resolve_rel (h.fits_iff hnone), h.resolve_eq hnone⟩,
    fun t t' => Stores.adds_of_inside⟩

end Adds

/-! A system copy of 3.0, to which a user copy is added. -/

def systemCopy : FileTree Bytes := plant (copyNodes "s" "bg-en" (copyManifest "3.0"))

theorem kept_twoCopies : ∀ version ∈ ["3.1", "4.0"], ∀ p, systemCopy.node p ≠ none →
    (twoCopies version).node p = systemCopy.node p := by
  have hpaths : ∀ version ∈ ["3.1", "4.0"], ∀ p ∈ systemCopy.paths,
      (twoCopies version).node p = systemCopy.node p := by
    decide +kernel
  exact fun version hversion p hp => hpaths version hversion p (systemCopy.finite p hp)

theorem scanned_systemCopy {origin : Origin} {dir : PathBuf}
    (h : copyStores.Scanned systemCopy origin dir) : dir = copyDir "s" "bg-en" "3.0" := by
  have hpaths : ∀ p ∈ systemCopy.paths, p.length = 4 → systemCopy.node p = some .dir →
      p = (copyDir "s" "bg-en" "3.0").reverse := by
    decide +kernel
  obtain ⟨⟨root, provider, pair, version, hroot, rfl, -⟩, hdir⟩ := h
  have hlength : ∀ root ∈ copyStores.roots, root.2.length = 1 := by decide
  refine List.reverse_injective (hpaths _ (systemCopy.finite _ ?_) ?_ hdir)
  · rw [hdir]
    exact Option.some_ne_none _
  · rw [List.length_reverse, List.length_append, hlength _ hroot]
    rfl

/-- A newer copy is not overlooked, and one that the engine does not support
changes nothing. -/
theorem Stores.resolve_best_copy_added :
    (∃ best', copyStores.resolve copyHost (twoCopies "3.1") "bg" "en" = some best'
        ∧ (version3.cmp best'.version).isLE = true)
      ∧ Option.Rel (fun a b => a.version.cmp b.version = .eq ∧ a.origin = b.origin)
        (copyStores.resolve copyHost systemCopy "bg" "en")
        (copyStores.resolve copyHost (twoCopies "4.0") "bg" "en") := by
  obtain ⟨-, -, hmono, hnone, hadds⟩ := Stores.resolve_best_copy copyStores copyHost "bg" "en"
  have hadded : ∀ version ∈ ["3.1", "4.0"],
      copyStores.Adds copyHost systemCopy (twoCopies version) := by
    intro version hversion
    refine hadds _ _ (kept_twoCopies version hversion) (fun origin dir hscanned q hq => ?_)
      fun origin dir hscanned manifest hload file hfile => ?_
    · rw [scanned_systemCopy hscanned] at hq
      have hpaths : ∀ version ∈ ["3.1", "4.0"], ∀ q ∈ (twoCopies version).paths,
          (copyDir "s" "bg-en" "3.0").reverse <:+ q →
          (twoCopies version).node q = systemCopy.node q := by
        decide +kernel
      by_cases hnew : (twoCopies version).node q = none
      · by_cases hold : systemCopy.node q = none
        · rw [hnew, hold]
        · exact kept_twoCopies version hversion q hold
      · exact hpaths version hversion q ((twoCopies version).finite q hnew) hq
    · rw [scanned_systemCopy hscanned] at hload
      have hmanifest : Manifest.load copyHost systemCopy (copyDir "s" "bg-en" "3.0")
          = .ok (copyManifest "3.0") := by
        decide +kernel
      obtain rfl := Except.ok.inj (hload.symm.trans hmanifest)
      cases hfile
  refine ⟨hmono _ _ (hadded "3.1" (by decide)) (copy3 .system "s") (by decide +kernel),
    (hnone _ _ (hadded "4.0" (by decide)) fun origin dir m hscanned' hnew hscan hfits => ?_).1⟩
  -- what is new is the user copy, of a version that is not supported
  obtain ⟨⟨root, provider, pair, version, hroot, rfl, htmp⟩, hdir⟩ := hscanned'
  have hpaths : ∀ origin ∈ [Origin.user, .system], ∀ p ∈ (twoCopies "4.0").paths, p.length = 4 →
      p ≠ (copyDir "s" "bg-en" "3.0").reverse →
      ∀ m ∈ (scan_model_dir copyHost (twoCopies "4.0") p.reverse origin).toOption,
        m.version.inWindow = false := by
    decide +kernel
  have hlength : ∀ root ∈ copyStores.roots, root.2.length = 1 := by decide
  by_cases hsystem : (root ++ [provider, pair, version]).reverse
      = (copyDir "s" "bg-en" "3.0").reverse
  · refine hnew ⟨⟨root, provider, pair, version, hroot, rfl, htmp⟩, ?_⟩
    rw [hsystem]
    decide +kernel
  · have hout := hpaths origin (by cases origin <;> decide) _ ((twoCopies "4.0").finite _ (by
      rw [hdir]; exact Option.some_ne_none _)) (by
      rw [List.length_reverse, List.length_append, hlength _ hroot]; rfl) hsystem m (by
      rw [List.reverse_reverse, hscan]; rfl)
    rw [hfits.2] at hout
    cases hout

/-! ## A copy that an unfinished install completes -/

theorem tmpStores_plain : ∀ root ∈ (["u"] : PathBuf) :: [], ∀ name ∈ root,
    plainName name = true := by decide

def tmpStores : Stores := ⟨[], ["u"], tmpStores_plain⟩

/-- The model file is named in a directory next to the manifest's. -/
def tmpManifest : Manifest :=
  oldManifest "bg" "en" "3.0" [⟨"../.tmp-3.1-7/model.bin", "model", 1, ""⟩]

def tmpNodes : List (List String × Option Bytes) :=
  pairDirs ++ [(dir3, none), (MANIFEST_FILE :: dir3, some (prettyManifest tmpManifest))]

def tmpDir : List String := [".tmp-3.1-7", "bg-en", PROVIDER_ID, "u"]

def withTmp : FileTree Bytes :=
  plant (tmpNodes ++ [(tmpDir, none), ("model.bin" :: tmpDir, some [97])])

/-- A new temporary directory changes what is resolved, when the manifest of
a damaged copy names a file in it. -/
theorem resolve_changed_by_tmp : ¬ ∀ (stores : Stores) (host : ModelHost)
    (t t' : FileTree Bytes) (source target : String),
    (∀ p, t.node p ≠ none → t'.node p = t.node p) →
    (∀ p, t.node p = none → t'.node p ≠ none → ∃ origin root provider pair version,
      (origin, root) ∈ stores.roots ∧ isTmp version = true
        ∧ version :: pair :: provider :: root.reverse <:+ p) →
    stores.resolve host t' source target = stores.resolve host t source target := by
  intro h
  have hsame := h tmpStores (oldHost tmpManifest) (plant tmpNodes) withTmp "bg" "en"
    (fun p hp => ?_) fun p hp hp' => ⟨.user, ["u"], PROVIDER_ID, "bg-en", ".tmp-3.1-7", ?_⟩
  · revert hsame
    decide +kernel
  · have hpaths : ∀ p ∈ (plant tmpNodes).paths, withTmp.node p = (plant tmpNodes).node p := by
      decide +kernel
    exact hpaths p ((plant tmpNodes).finite p hp)
  · have hpaths : ∀ p ∈ withTmp.paths, (plant tmpNodes).node p = none → tmpDir <:+ p := by
      decide +kernel
    exact ⟨by decide, by decide, hpaths p (withTmp.finite p hp') hp⟩

end Dragomand
