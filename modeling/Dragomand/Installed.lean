import Dragomand.Maxima
import Dragomand.Store

/-!
# Installed models by pair

`installed_by_pair` groups what a scan lists under the names of the pairs,
newest first; `resolve` takes the newest supported copy of a name, a system
copy on a tie. Both are about one list, in which the copies of the user
store come first: the first of a group is the first listed copy of the
greatest version, and when the engine supports that version `resolve` takes
the last listed copy of it.
-/

namespace Dragomand

open Maxima (FirstMax LastMax)
open SortedMap (group)

instance : Std.TransCmp MozVersion.cmp := inferInstanceAs (Std.TransOrd MozVersion)

def InstalledModel.cmpVersion (a b : InstalledModel) : Ordering := a.version.cmp b.version

instance : Std.TransCmp InstalledModel.cmpVersion :=
  inferInstanceAs (Std.TransCmp (compareOn InstalledModel.version))

/-- `b.version.cmp(&a.version)`: newer copies first. -/
def newerFirst (a b : InstalledModel) : Prop := (b.cmpVersion a).isLE = true

instance : DecidableRel newerFirst := fun _ _ => inferInstanceAs (Decidable (_ = true))

section Defs

variable (host : ModelHost) (t : FileTree Bytes) (stores : Stores)

def Stores.installed_by_pair : List (String × List InstalledModel) :=
  (group compare InstalledModel.pair (stores.scan host t).1).map fun entry =>
    (entry.1, entry.2.insertionSort newerFirst)

/-- `installed.get(pair).and_then(|v| v.first())`. -/
def Stores.first_installed (pair : String) : Option InstalledModel :=
  (SortedMap.get compare (stores.installed_by_pair host t) pair).bind List.head?

/-- The listed copies of a pair, in the order of the scan. -/
def Stores.copies (pair : String) : List InstalledModel :=
  (stores.scan host t).1.filter fun m => m.pair = pair

end Defs

/-- The loop of `max_by` ends with the last of the greatest. -/
theorem maxBy_of_lastMax {α : Type} {cmp : α → α → Ordering} [Std.TransCmp cmp] {l : List α}
    {m : α} (h : LastMax cmp l m) : maxBy cmp l = some m := by
  obtain ⟨before, after, rfl, hbefore, hafter⟩ := h
  cases before with
  | nil => exact congrArg some (Maxima.foldl_stays hafter)
  | cons a before =>
      have hle := hbefore _ (@foldl_max _ cmp _ before a).1
      have hngt : cmp (before.foldl (fun best b => if cmp best b = .gt then best else b) a) m
          ≠ .gt := by
        intro hgt
        rw [hgt] at hle
        cases hle
      show some ((before ++ m :: after).foldl _ a) = some m
      rw [List.foldl_append, List.foldl_cons, if_neg hngt, Maxima.foldl_stays hafter]

/-! ## Versions that are equal in the order -/

theorem number_of_cmpParts {p q : Part} {ps qs : List Part}
    (h : cmpParts (p :: ps) (q :: qs) = .eq) : p.number = q.number := by
  rw [cmpParts_eq (n := max (p :: ps).length (q :: qs).length) (Nat.le_max_left _ _)
    (Nat.le_max_right _ _)] at h
  have hcons : List.compareLex compare (p :: (ps ++ List.replicate
        (max (p :: ps).length (q :: qs).length - (p :: ps).length) Part.zero))
      (q :: (qs ++ List.replicate
        (max (p :: ps).length (q :: qs).length - (q :: qs).length) Part.zero)) = .eq := h
  rw [List.compareLex_cons_cons, Ordering.then_eq_eq] at hcons
  have hpart : compareLex (compareOn Part.number) (compareLex (compareOn Part.is_final)
      (compareLex (compareOn Part.alpha) (compareOn Part.pre_number))) p q = .eq := hcons.1
  rw [compareLex_eq_eq] at hpart
  exact Std.LawfulEqCmp.eq_of_compare hpart.1

theorem MozVersion.major_eq {a b : MozVersion} (h : a.cmp b = .eq) : a.major = b.major := by
  have hne := a.parts_ne_nil
  have hne' := b.parts_ne_nil
  obtain ⟨raw, parts, hparts⟩ := a
  obtain ⟨raw', parts', hparts'⟩ := b
  cases parts with
  | nil => exact absurd rfl hne
  | cons p ps =>
      cases parts' with
      | nil => exact absurd rfl hne'
      | cons q qs => exact number_of_cmpParts h

theorem MozVersion.inWindow_eq {a b : MozVersion} (h : a.cmp b = .eq) :
    a.inWindow = b.inWindow := by
  unfold MozVersion.inWindow
  rw [MozVersion.major_eq h]

/-! ## What the stores say -/

section Stores

variable {host : ModelHost} {t : FileTree Bytes} {stores : Stores} {pair : String}

theorem mem_copies {m : InstalledModel} : m ∈ stores.copies host t pair
    ↔ m ∈ (stores.scan host t).1 ∧ m.pair = pair := by
  rw [Stores.copies, List.mem_filter, decide_eq_true_iff]

theorem get_map {κ ν μ : Type} {cmp : κ → κ → Ordering} {l : List (κ × ν)} {key : κ}
    (f : ν → μ) : SortedMap.get cmp (l.map fun entry => (entry.1, f entry.2)) key
      = (SortedMap.get cmp l key).map f := by
  unfold SortedMap.get
  rw [List.find?_map, Option.map_map, Option.map_map]
  rfl

/-- The group of a name has its copies. -/
theorem Stores.get_installed : SortedMap.get compare (stores.installed_by_pair host t) pair
    = if stores.copies host t pair = [] then none
      else some ((stores.copies host t pair).insertionSort newerFirst) := by
  have hfilter : (stores.scan host t).1.filter (fun m => compare m.pair pair = .eq)
      = stores.copies host t pair :=
    List.filter_congr fun m _ => by simp only [Std.LawfulEqCmp.compare_eq_iff_eq]
  unfold Stores.installed_by_pair
  rw [get_map, SortedMap.get_group, hfilter]
  split <;> rfl

theorem Stores.first_installed_of_firstMax {m : InstalledModel}
    (h : FirstMax InstalledModel.cmpVersion (stores.copies host t pair) m) :
    stores.first_installed host t pair = some m := by
  unfold Stores.first_installed
  rw [Stores.get_installed, if_neg (List.ne_nil_of_mem h.mem)]
  exact h.head_insertionSort fun _ _ => Iff.rfl

theorem Stores.first_installed_eq_none (h : stores.copies host t pair = []) :
    stores.first_installed host t pair = none := by
  unfold Stores.first_installed
  rw [Stores.get_installed, if_pos h]
  rfl

/-- The first of a group is the first listed copy of the greatest version. -/
theorem Stores.first_installed_iff {m : InstalledModel} :
    stores.first_installed host t pair = some m
      ↔ FirstMax InstalledModel.cmpVersion (stores.copies host t pair) m := by
  refine ⟨fun h => ?_, Stores.first_installed_of_firstMax⟩
  by_cases hnil : stores.copies host t pair = []
  · rw [Stores.first_installed_eq_none hnil] at h
    cases h
  · obtain ⟨m', hm'⟩ := Maxima.exists_firstMax InstalledModel.cmpVersion hnil
    rw [Stores.first_installed_of_firstMax hm'] at h
    rwa [← Option.some.inj h]

/-- The user store is scanned first. -/
theorem Stores.scan_users_first : (stores.scan host t).1.Pairwise
    fun a b => a.origin = .system → b.origin = .system := by
  have horigin : ∀ {origin root m}, (origin, root) ∈ stores.roots →
      m ∈ (scan_store host t root origin).filterMap Except.toOption → m.origin = origin := by
    intro origin root m hroot hm
    obtain ⟨outcome, hmem, hsome⟩ := List.mem_filterMap.mp hm
    cases outcome with
    | error problem => cases hsome
    | ok m' =>
        cases hsome
        obtain ⟨_, _, _, -, -, hscan⟩ := (mem_scan_store (Stores.roots_plain hroot)).mp hmem
        exact (scan_model_dir_eq_ok.mp hscan).1
  have hscan : (stores.scan host t).1
      = (scan_store host t stores.user .user).filterMap Except.toOption
        ++ ((stores.system.map fun root => (Origin.system, root)).flatMap
          fun root => scan_store host t root.2 root.1).filterMap Except.toOption := by
    unfold Stores.scan Stores.roots
    dsimp only
    rw [List.flatMap_cons, List.filterMap_append]
  have hsystem : ∀ m ∈ ((stores.system.map fun root => (Origin.system, root)).flatMap
      fun root => scan_store host t root.2 root.1).filterMap Except.toOption,
      m.origin = .system := by
    intro m hm
    obtain ⟨outcome, hmem, hsome⟩ := List.mem_filterMap.mp hm
    obtain ⟨⟨origin, root⟩, hroot, hmem⟩ := List.mem_flatMap.mp hmem
    have horigin' := horigin (m := m) (List.mem_cons_of_mem _ hroot)
      (List.mem_filterMap.mpr ⟨outcome, hmem, hsome⟩)
    obtain ⟨root', -, heq⟩ := List.mem_map.mp hroot
    rw [horigin', ← (Prod.mk.inj heq).1]
  rw [hscan]
  refine List.pairwise_append.mpr ⟨?_, ?_, fun a ha b hb _ => hsystem b hb⟩
  · refine List.Pairwise.imp_of_mem (R := fun _ _ => True) (fun {a b} ha _ _ hsys => ?_)
      (List.pairwise_of_forall fun _ _ => trivial)
    rw [horigin (List.mem_cons_self ..) ha] at hsys
    cases hsys
  · exact List.Pairwise.imp_of_mem (R := fun _ _ => True) (fun {a b} _ hb _ _ => hsystem b hb)
      (List.pairwise_of_forall fun _ _ => trivial)

/-- When the engine supports the greatest version, `resolve` takes the last
listed copy of it. -/
theorem Stores.resolve_of_lastMax {source target : String} {m : InstalledModel}
    (h : LastMax InstalledModel.cmpVersion (stores.copies host t (source ++ "-" ++ target)) m)
    (hwindow : m.version.inWindow = true) : stores.resolve host t source target = some m := by
  obtain ⟨before, after, hsplit, hbefore, hafter⟩ := h
  have husers : (stores.copies host t (source ++ "-" ++ target)).Pairwise
      fun a b => a.origin = .system → b.origin = .system :=
    Stores.scan_users_first.filter _
  rw [hsplit, List.pairwise_append] at husers
  have hfilter : (stores.copies host t (source ++ "-" ++ target)).filter
      (fun m => m.version.inWindow) = before.filter (fun m => m.version.inWindow)
        ++ m :: after.filter fun m => m.version.inWindow := by
    rw [hsplit, List.filter_append, List.filter_cons_of_pos (by simpa using hwindow)]
  show maxBy InstalledModel.cmp ((stores.copies host t (source ++ "-" ++ target)).filter
    fun m => m.version.inWindow) = some m
  rw [hfilter]
  refine maxBy_of_lastMax ⟨_, _, rfl, fun x hx => ?_, fun x hx => ?_⟩
  · have hx := List.mem_of_mem_filter hx
    have hle : (x.version.cmp m.version).isLE = true := hbefore x hx
    show (compareLex (compareOn InstalledModel.version)
      (compareOn fun m => decide (m.origin = .system)) x m).isLE = true
    unfold compareLex compareOn
    cases hcmp : x.version.cmp m.version with
    | lt => simp [show compare x.version m.version = .lt from hcmp]
    | gt =>
        rw [hcmp] at hle
        cases hle
    | eq =>
        have hsys := husers.2.2 x hx m (List.mem_cons_self ..)
        simp only [show compare x.version m.version = .eq from hcmp, Ordering.eq_then]
        by_cases hxs : x.origin = .system
        · simp [hxs, hsys hxs]
        · simp only [hxs, decide_false]
          cases decide (m.origin = .system) <;> rfl
  · have hlt := hafter x (List.mem_of_mem_filter hx)
    show compareLex (compareOn InstalledModel.version)
      (compareOn fun m => decide (m.origin = .system)) x m = .lt
    unfold compareLex compareOn
    simp [show compare x.version m.version = .lt from hlt]

end Stores

end Dragomand
