import Dragomand.InstalledCopy
import Dragomand.Service

/-!
# Pair identity

A request names a pair by two tags, the stores and the sets by the text
`source-target`. What is found under that text belongs to the pair exactly
when the stores list no other pair under it that counts (`Unmixed`): a copy
that `resolve` or `installed_by_pair` prefers, or any copy of the user
store, which `RemovePair` deletes. Some stores do, for every text with more
than one hyphen; tags may have them.
-/

namespace Dragomand

open InstallCall (plant oldManifest oldHost oldHost_from_slice)
open Maxima (OutdoneFirst OutdoneLast)

/-- The model is one of the pair. -/
def InstalledModel.IsOf (m : InstalledModel) (source target : String) : Prop :=
  m.manifest.source = source ∧ m.manifest.target = target

instance (m : InstalledModel) (source target : String) : Decidable (m.IsOf source target) := by
  unfold InstalledModel.IsOf
  infer_instance

section Defs

variable (host : ModelHost) (t : FileTree Bytes) (stores : Stores)

/-- The listed copies of a name that the engine supports. -/
def Stores.supported (pair : String) : List InstalledModel :=
  (stores.copies host t pair).filter fun m => m.version.inWindow

/-- What is used, deleted and compared for a pair, and for the sets, is of
the pair, and of the pairs of the sets. -/
structure Stores.PairsExact (source target : String) (sets : List ModelSet) : Prop where
  resolve : ∀ m, stores.resolve host t source target = some m → m.IsOf source target
  removed : ∀ m ∈ stores.removed host t source target, m.IsOf source target
  compared : ∀ set ∈ sets, ∀ m, stores.first_installed host t set.pair = some m →
    m.IsOf set.source set.target
  listed : ∀ registry, ∀ set ∈ sets, ∀ row, SortedMap.get compare
      (stores.language_rows registry host t (some sets)) set.pair = some row →
    row.installed_version ≠ none → row.source = set.source ∧ row.target = set.target

/-- No copy of another pair of the same name is in the user store, or is
preferred. -/
structure Stores.Unmixed (source target : String) (sets : List ModelSet) : Prop where
  supported : OutdoneLast InstalledModel.cmp (stores.supported host t (source ++ "-" ++ target))
    (InstalledModel.IsOf · source target)
  user : ∀ m ∈ stores.copies host t (source ++ "-" ++ target), m.origin = .user →
    m.IsOf source target
  installed : ∀ set ∈ sets, OutdoneFirst InstalledModel.cmpVersion (stores.copies host t set.pair)
    (InstalledModel.IsOf · set.source set.target)

end Defs

/-! ## One content of the stores -/

section Content

variable {host : ModelHost} {t : FileTree Bytes} {stores : Stores} {source target pair : String}
  {sets : List ModelSet} {P : InstalledModel → Prop}

theorem Stores.resolve_holds_iff :
    (∀ m, stores.resolve host t source target = some m → P m)
      ↔ OutdoneLast InstalledModel.cmp (stores.supported host t (source ++ "-" ++ target)) P := by
  have hresolve : stores.resolve host t source target
      = maxBy InstalledModel.cmp (stores.supported host t (source ++ "-" ++ target)) := rfl
  by_cases hnil : stores.supported host t (source ++ "-" ++ target) = []
  · rw [hresolve, hnil]
    exact ⟨fun _ x hx => by simp at hx, fun _ m hm => by cases hm⟩
  · obtain ⟨best, hbest⟩ := Maxima.exists_lastMax InstalledModel.cmp hnil
    rw [hresolve, maxBy_of_lastMax hbest, ← hbest.holds_iff]
    exact ⟨fun h => h best rfl, fun h m hm => Option.some.inj hm ▸ h⟩

theorem Stores.first_holds_iff : (∀ m, stores.first_installed host t pair = some m → P m)
    ↔ OutdoneFirst InstalledModel.cmpVersion (stores.copies host t pair) P := by
  by_cases hnil : stores.copies host t pair = []
  · rw [Stores.first_installed_eq_none hnil, hnil]
    exact ⟨fun _ x hx => by simp at hx, fun _ m hm => by cases hm⟩
  · obtain ⟨best, hbest⟩ := Maxima.exists_firstMax InstalledModel.cmpVersion hnil
    rw [Stores.first_installed_of_firstMax hbest, ← hbest.holds_iff]
    exact ⟨fun h => h best rfl, fun h m hm => Option.some.inj hm ▸ h⟩

theorem Stores.mem_removed {m : InstalledModel} : m ∈ stores.removed host t source target
    ↔ m ∈ stores.copies host t (source ++ "-" ++ target) ∧ m.origin = .user := by
  simp only [Stores.removed, Stores.copies, List.mem_filter, Bool.and_eq_true,
    decide_eq_true_eq, and_assoc]

/-- A row of an installed model names the pair of the model. -/
theorem Stores.row_of_first {registry : Option ModelRegistry} {available : Option (List ModelSet)}
    {row : Row} (hrow : SortedMap.get compare
      (stores.language_rows registry host t available) pair = some row)
    (hinstalled : row.installed_version ≠ none) : ∃ m,
      stores.first_installed host t pair = some m
        ∧ row.source = m.manifest.source ∧ row.target = m.manifest.target := by
  rw [Stores.get_language_rows] at hrow
  cases hfirst : stores.first_installed host t pair with
  | none =>
      rw [hfirst] at hrow
      exact absurd (foldl_enter_none _ (by simp) row hrow) hinstalled
  | some m =>
      rw [hfirst] at hrow
      obtain ⟨row', hrow', hdescribes⟩ := @foldl_enter_describes registry m
        ((available.getD []).filter fun set => set.pair = pair) (m.row registry) rfl
      obtain rfl := Option.some.inj (hrow.symm.trans hrow')
      refine ⟨m, rfl, (congrArg Row.source hdescribes).trans ?_,
        (congrArg Row.target hdescribes).trans ?_⟩
      · exact m.row_source
      · exact m.row_target

theorem Stores.pairsExact_iff_unmixed : stores.PairsExact host t source target sets
    ↔ stores.Unmixed host t source target sets := by
  constructor
  · intro h
    exact ⟨Stores.resolve_holds_iff.mp h.resolve,
      fun m hm huser => h.removed m (Stores.mem_removed.mpr ⟨hm, huser⟩),
      fun set hset => Stores.first_holds_iff.mp (h.compared set hset)⟩
  · intro h
    have hfirst : ∀ set ∈ sets, ∀ m, stores.first_installed host t set.pair = some m →
        m.IsOf set.source set.target :=
      fun set hset => Stores.first_holds_iff.mpr (h.installed set hset)
    refine ⟨Stores.resolve_holds_iff.mpr h.supported, fun m hm => ?_, hfirst,
      fun registry set hset row hrow hinstalled => ?_⟩
    · obtain ⟨hcopy, huser⟩ := Stores.mem_removed.mp hm
      exact h.user m hcopy huser
    · obtain ⟨m, hm, hsource, htarget⟩ := Stores.row_of_first hrow hinstalled
      obtain ⟨hms, hmt⟩ := hfirst set hset m hm
      exact ⟨hsource.trans hms, htarget.trans hmt⟩

end Content

/-! ## Names with one hyphen -/

section Names

/-- The only hyphen of the name is between the tags. -/
def OneHyphen (source target : String) : Prop := '-' ∉ source.toList ∧ '-' ∉ target.toList

variable {source target source' target' : String}

theorem toList_pair (source target : String) :
    (source ++ "-" ++ target).toList = source.toList ++ '-' :: target.toList := by
  simp

theorem eq_of_split {c : Char} {a b a' b' : List Char} (ha : c ∉ a) (hb : c ∉ b)
    (h : a' ++ c :: b' = a ++ c :: b) : a' = a ∧ b' = b := by
  rcases List.append_eq_append_iff.mp h with ⟨mid, hleft, hright⟩ | ⟨mid, hleft, hright⟩
  · cases mid with
    | nil =>
        rw [List.append_nil] at hleft
        exact ⟨hleft.symm, (List.cons.inj hright).2⟩
    | cons x mid =>
        obtain ⟨rfl, -⟩ := List.cons.inj hright
        exact absurd (by rw [hleft]; simp) ha
  · cases mid with
    | nil =>
        rw [List.append_nil] at hleft
        exact ⟨hleft, (List.cons.inj hright).2.symm⟩
    | cons x mid =>
        obtain ⟨-, hrest⟩ := List.cons.inj hright
        exact absurd (by rw [hrest]; simp) hb

theorem OneHyphen.eq_of_pair (h : OneHyphen source target)
    (hpair : source' ++ "-" ++ target' = source ++ "-" ++ target) :
    source' = source ∧ target' = target := by
  have hlists := congrArg String.toList hpair
  rw [toList_pair, toList_pair] at hlists
  obtain ⟨hsource, htarget⟩ := eq_of_split h.1 h.2 hlists
  exact ⟨String.toList_inj.mp hsource, String.toList_inj.mp htarget⟩

/-- A second hyphen splits the name in another place. -/
theorem exists_other_pair (h : ¬ OneHyphen source target) : ∃ source' target',
    source' ++ "-" ++ target' = source ++ "-" ++ target
      ∧ ¬ (source' = source ∧ target' = target) := by
  by_cases hsource : '-' ∈ source.toList
  · obtain ⟨a, b, hsplit⟩ := List.append_of_mem hsource
    refine ⟨String.ofList a, String.ofList (b ++ '-' :: target.toList), ?_, fun heq => ?_⟩
    · apply String.toList_inj.mp
      rw [toList_pair, toList_pair, hsplit]
      simp
    · have hlen := congrArg List.length hsplit
      rw [← heq.1] at hlen
      simp at hlen
  · have htarget : '-' ∈ target.toList := by
      by_contra hnot
      exact h ⟨hsource, hnot⟩
    obtain ⟨a, b, hsplit⟩ := List.append_of_mem htarget
    refine ⟨String.ofList (source.toList ++ '-' :: a), String.ofList b, ?_, fun heq => ?_⟩
    · apply String.toList_inj.mp
      rw [toList_pair, toList_pair, hsplit]
      simp
    · have hlen := congrArg List.length hsplit
      rw [← heq.2] at hlen
      simp at hlen
      omega

end Names

/-! ## Every content of the stores -/

section Contents

/-- The store of one model, in a directory of any name. -/
def pairTree (dir : String) (m : Manifest) : FileTree Bytes := plant (copyNodes "u" dir m)

def pairModel (dir source target : String) : InstalledModel :=
  ⟨.user, copyDir "u" dir "3.0", version3, oldManifest source target "3.0" []⟩

theorem pairTree_node (m : Manifest) (hversion : m.version = "3.0") :
    (pairTree "pair" m).node (MANIFEST_FILE :: (copyDir "u" "pair" "3.0").reverse)
      = some (.file (prettyManifest m)) := by
  unfold pairTree copyNodes
  rw [hversion]
  rfl

theorem pairTree_read (m : Manifest) (hversion : m.version = "3.0") :
    (pairTree "pair" m).read ((copyDir "u" "pair" "3.0").join MANIFEST_FILE)
      = .ok (prettyManifest m) := by
  have hpath : (copyDir "u" "pair" "3.0").join MANIFEST_FILE
      = copyDir "u" "pair" "3.0" ++ [MANIFEST_FILE] := by decide +kernel
  unfold FileTree.read
  rw [hpath, FileTree.stat_plain (by decide) (pairTree_node m hversion)]
  rfl

theorem pairModel_listed (source target : String) :
    pairModel "pair" source target ∈ (copyStores.scan (oldHost (oldManifest source target "3.0" []))
      (pairTree "pair" (oldManifest source target "3.0" []))).1 := by
  have hdir := (pairTree "pair" (oldManifest source target "3.0" [])).parent MANIFEST_FILE
    (copyDir "u" "pair" "3.0").reverse (by rw [pairTree_node _ rfl]; exact Option.some_ne_none _)
  refine Stores.mem_scan.mpr ⟨⟨⟨["u"], PROVIDER_ID, "pair", "3.0", List.mem_cons_self .., rfl,
    by decide⟩, hdir⟩, scan_model_dir_eq_ok.mpr ⟨rfl, rfl, Manifest.load_eq_ok.mpr
      ⟨prettyManifest (oldManifest source target "3.0" []), pairTree_read _ rfl,
        oldHost_from_slice _, rfl⟩,
      version3.parse_raw, nofun⟩⟩

/-- All that the store lists is of the pair. -/
theorem pairTree_lists {source target : String} {t : FileTree Bytes} {m : InstalledModel}
    (h : m ∈ (copyStores.scan (oldHost (oldManifest source target "3.0" [])) t).1) :
    m.IsOf source target := by
  obtain ⟨-, hscan⟩ := Stores.mem_scan.mp h
  obtain ⟨-, -, hload, -⟩ := scan_model_dir_eq_ok.mp hscan
  obtain ⟨bytes, -, hjson, -⟩ := Manifest.load_eq_ok.mp hload
  have hmanifest : m.manifest = oldManifest source target "3.0" [] := by
    simp only [oldHost] at hjson
    split at hjson
    · exact (Except.ok.inj hjson).symm
    · cases hjson
  rw [InstalledModel.IsOf, hmanifest]
  exact ⟨rfl, rfl⟩

variable (source target : String) (sets : List ModelSet)

/-- **Pair identity.** What is found for a pair, and for the sets, is of the
pair, and of the pairs of the sets, exactly when the stores have no other
pair of the same name that is preferred or in the user store; and in all
stores exactly when the names have one hyphen. -/
theorem pairs_exact_iff :
    (∀ host t, ∀ stores : Stores, stores.PairsExact host t source target sets
        ↔ stores.Unmixed host t source target sets)
      ∧ ((∀ host t, ∀ stores : Stores, stores.PairsExact host t source target sets)
        ↔ OneHyphen source target ∧ ∀ set ∈ sets, OneHyphen set.source set.target) := by
  refine ⟨fun host t stores => Stores.pairsExact_iff_unmixed, fun h => ⟨?_, fun set hset => ?_⟩,
    fun ⟨hpair, hsets⟩ host t stores => ?_⟩
  · by_contra hnot
    obtain ⟨source', target', hname, hother⟩ := exists_other_pair hnot
    have hlisted := pairModel_listed source' target'
    have hremoved := Stores.mem_removed.mpr ⟨mem_copies.mpr ⟨hlisted, hname⟩, rfl⟩
    exact hother ((h _ _ copyStores).removed _ hremoved)
  · by_contra hnot
    obtain ⟨source', target', hname, hother⟩ := exists_other_pair hnot
    have hlisted := mem_copies.mpr ⟨pairModel_listed source' target', hname⟩
    obtain ⟨m, hfirst⟩ := Maxima.exists_firstMax InstalledModel.cmpVersion
      (List.ne_nil_of_mem hlisted)
    obtain ⟨hsource, htarget⟩ := (h _ _ copyStores).compared set hset m
      (Stores.first_installed_of_firstMax hfirst)
    obtain ⟨hsource', htarget'⟩ := pairTree_lists (mem_copies.mp hfirst.mem).1
    exact hother ⟨hsource'.symm.trans hsource, htarget'.symm.trans htarget⟩
  · have hcopies : ∀ {s s' : String}, OneHyphen s s' →
        ∀ m ∈ stores.copies host t (s ++ "-" ++ s'), m.IsOf s s' :=
      fun hone m hm => hone.eq_of_pair (mem_copies.mp hm).2
    refine Stores.pairsExact_iff_unmixed.mpr ⟨fun x hx hnot => ?_, fun m hm _ => hcopies hpair m hm,
      fun set hset x hx hnot => ?_⟩
    · exact absurd (hcopies hpair x (List.mem_of_mem_filter hx)) hnot
    · exact absurd (hcopies (hsets set hset) x hx) hnot

/-- `RemovePair` of a pair whose tags it accepts deletes another pair. -/
theorem pairs_not_exact :
    (∀ host, check_langs host "zh-Hant" "en" = .ok ())
      ∧ (∀ host, check_langs host "zh" "Hant-en" = .ok ())
      ∧ (let m := pairModel "zh-Hant-en" "zh" "Hant-en"
        let host := oldHost m.manifest
        let t := pairTree "zh-Hant-en" m.manifest
        (copyStores.scan host t).1 = [m] ∧ copyStores.resolve host t "zh-Hant" "en" = some m
          ∧ copyStores.removed host t "zh-Hant" "en" = [m]
          ∧ ¬ copyStores.PairsExact host t "zh-Hant" "en" []) := by
  have hremoved : copyStores.removed (oldHost (oldManifest "zh" "Hant-en" "3.0" []))
      (pairTree "zh-Hant-en" (oldManifest "zh" "Hant-en" "3.0" [])) "zh-Hant" "en"
      = [pairModel "zh-Hant-en" "zh" "Hant-en"] := by decide +kernel
  refine ⟨fun host => if_neg (by decide), fun host => if_neg (by decide), by decide +kernel,
    by decide +kernel, hremoved, fun h => ?_⟩
  have hof := h.removed (pairModel "zh-Hant-en" "zh" "Hant-en") (by
    rw [show (pairModel "zh-Hant-en" "zh" "Hant-en").manifest = oldManifest "zh" "Hant-en" "3.0" []
      from rfl, hremoved]
    exact List.mem_singleton.mpr rfl)
  exact absurd hof.1 (by decide)

end Contents

end Dragomand
