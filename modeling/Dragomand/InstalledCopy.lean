import Dragomand.InstallAtomic
import Dragomand.Updates

/-!
# The reported copy and the used copy

`ListLanguagePairs` and `check_for_updates` speak of the first copy of
`installed_by_pair`, the engine loads the one that `resolve` returns. They
are the same copy when the engine supports the greatest version there is and
one copy only has it.
-/

namespace Dragomand

open InstallCall (plant oldManifest oldHost)
open Maxima (FirstMax LastMax)

section Reported

variable (host : ModelHost) (t : FileTree Bytes) (stores : Stores) (pair : String)
  (best : InstalledModel)

/-- A copy of a pair is the one that is reported. -/
structure Stores.Reported : Prop where
  first : stores.first_installed host t pair = some best
  row : ∀ registry available, ∃ row,
    SortedMap.get compare (stores.language_rows registry host t available) pair = some row
      ∧ row.Describes registry best
  update : ∀ sets : List ModelSet, ∀ set ∈ sets, set.pair = pair →
    set.version.cmp best.version = .gt →
    ⟨set.source, set.target, best.version, set.version⟩ ∈ stores.check_for_updates host t sets

end Reported

section Reported

variable {host : ModelHost} {t : FileTree Bytes} {stores : Stores} {pair : String}
  {best : InstalledModel} {registry : Option ModelRegistry}

theorem Stores.reported_of_first (h : stores.first_installed host t pair = some best) :
    stores.Reported host t pair best := by
  refine ⟨h, fun registry available => ?_, fun sets set hset hpair hgt => ?_⟩
  · rw [Stores.get_language_rows, h]
    exact foldl_enter_describes _ rfl
  · refine List.mem_filterMap.mpr ⟨set, hset, ?_⟩
    unfold Stores.update
    rw [hpair, h]
    exact if_pos hgt

/-- **The reported copy is the used copy**, for a pair that has a used copy,
when the engine supports the greatest version of the pair and the first and
the last listed copy of it are the same, and only then. -/
theorem reported_is_used_iff {source target : String}
    (h : stores.resolve host t source target = some best) :
    stores.Reported host t (source ++ "-" ++ target) best
      ↔ ∃ m, m.version.inWindow = true
        ∧ FirstMax InstalledModel.cmpVersion (stores.copies host t (source ++ "-" ++ target)) m
        ∧ LastMax InstalledModel.cmpVersion (stores.copies host t (source ++ "-" ++ target)) m := by
  constructor
  · intro hreported
    have hfirst := Stores.first_installed_iff.mp hreported.first
    obtain ⟨m, hlast⟩ := Maxima.exists_lastMax InstalledModel.cmpVersion
      (List.ne_nil_of_mem hfirst.mem)
    have hwindow : m.version.inWindow = true := by
      rw [← MozVersion.inWindow_eq (hfirst.cmp_eq hlast)]
      exact (Stores.resolve_eq_some h).2.2.1
    have hsame := h.symm.trans (Stores.resolve_of_lastMax hlast hwindow)
    rw [← Option.some.inj hsame] at hwindow hlast
    exact ⟨best, hwindow, hfirst, hlast⟩
  · rintro ⟨m, hwindow, hfirst, hlast⟩
    have hsame := h.symm.trans (Stores.resolve_of_lastMax hlast hwindow)
    rw [Option.some.inj hsame]
    exact Stores.reported_of_first (Stores.first_installed_of_firstMax hfirst)

end Reported

/-! ## Copies that are not used

A user store and a system store, and manifests without files. -/

def copyStores : Stores := ⟨[["s"]], ["u"], by decide⟩

/-- The version directory of a copy, from the root up. -/
def copyDir (root pair version : String) : PathBuf := [root, PROVIDER_ID, pair, version]

/-- A store with one copy. -/
def copyNodes (root pair : String) (m : Manifest) : List (List String × Option Bytes) :=
  let dir := (copyDir root pair m.version).reverse
  [([root], none), ([PROVIDER_ID, root], none), ([pair, PROVIDER_ID, root], none), (dir, none),
    (MANIFEST_FILE :: dir, some (prettyManifest m))]

def copyManifest (version : String) : Manifest := oldManifest "bg" "en" version []

/-- The manifests of three versions can be read. -/
def copyHost : ModelHost :=
  { oldHost (copyManifest "3.0") with
    from_slice := fun bytes =>
      if bytes = prettyManifest (copyManifest "4.0") then .ok (copyManifest "4.0")
      else if bytes = prettyManifest (copyManifest "3.1") then .ok (copyManifest "3.1")
      else (oldHost (copyManifest "3.0")).from_slice bytes }

def oneCopy : FileTree Bytes := plant (copyNodes "u" "bg-en" (copyManifest "3.0"))

/-- A user copy of a version, and a system copy of 3.0. -/
def twoCopies (version : String) : FileTree Bytes :=
  plant (copyNodes "u" "bg-en" (copyManifest version)
    ++ copyNodes "s" "bg-en" (copyManifest "3.0"))

def version3 : MozVersion := ⟨"3.0", _, parseParts_3_0⟩

def version31 : MozVersion := ⟨"3.1", [⟨3, true, "", 0⟩, ⟨1, true, "", 0⟩], by decide⟩

def copy3 (origin : Origin) (root : String) : InstalledModel :=
  ⟨origin, copyDir root "bg-en" "3.0", version3, copyManifest "3.0"⟩

def copy31 : InstalledModel :=
  ⟨.user, copyDir "u" "bg-en" "3.1", version31, copyManifest "3.1"⟩

/-- The user copy is newer than the system's. -/
theorem reported_is_used_newer : copyStores.Reported copyHost (twoCopies "3.1")
    ("bg" ++ "-" ++ "en") copy31 := by
  refine (reported_is_used_iff (by decide +kernel)).mpr ⟨copy31, by decide, ?_⟩
  have hcopies : copyStores.copies copyHost (twoCopies "3.1") ("bg" ++ "-" ++ "en")
      = [copy31, copy3 .system "s"] := by decide +kernel
  rw [hcopies]
  exact ⟨⟨[], [copy3 .system "s"], rfl, by simp, by decide⟩,
    ⟨[], [copy3 .system "s"], rfl, by simp, by decide⟩⟩

/-- The used copy is not the reported one when a user copy has the version
of a system copy, or a version that the engine does not support; and then an
update of the used copy is not reported. -/
theorem reported_not_used :
    (copyStores.resolve copyHost (twoCopies "3.0") "bg" "en" = some (copy3 .system "s")
        ∧ ¬ copyStores.Reported copyHost (twoCopies "3.0") ("bg" ++ "-" ++ "en")
          (copy3 .system "s"))
      ∧ copyStores.resolve copyHost (twoCopies "4.0") "bg" "en" = some (copy3 .system "s")
      ∧ ¬ copyStores.Reported copyHost (twoCopies "4.0") ("bg" ++ "-" ++ "en")
        (copy3 .system "s")
      ∧ version31.cmp version3 = .gt
      ∧ copyStores.check_for_updates copyHost (twoCopies "4.0")
        [⟨"bg", "en", none, version31, none, []⟩] = [] := by
  refine ⟨⟨by decide +kernel, fun h => ?_⟩, by decide +kernel, fun h => ?_, by decide,
    by decide +kernel⟩
  · exact absurd h.first (by decide +kernel)
  · exact absurd h.first (by decide +kernel)

end Dragomand
