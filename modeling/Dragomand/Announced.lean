import Dragomand.Accepted
import Dragomand.InstallAtomic
import Dragomand.InstalledCopy
import Dragomand.Service

/-!
# Announced versions

`install_pair` takes the set of a pair that has no variant; the rows and the
updates are made from all sets, under the name of the pair. What they
announce is what `install_pair` installs when the sets of a name agree
(`Agreeing`): the last one has the version of the one without a variant, and
none with a variant is newer than what is installed. An install of a
reported pair then ends the report.
-/

namespace Dragomand

open InstallCall (plant)
open Maxima (FirstMax)

section Defs

variable (host : ModelHost) (t : FileTree Bytes) (stores : Stores) (sets : List ModelSet)

/-- What is announced is what `install_pair` would install, once. -/
structure Stores.Announced : Prop where
  listed : ∀ registry, ∀ row ∈ stores.list_language_pairs registry host t (some sets),
    ∀ version, row.available_version = some version →
      ∃ set, pairSet sets row.source row.target = some set ∧ set.version.raw = version
  installable : ∀ u ∈ stores.check_for_updates host t sets,
    ∃ set, pairSet sets u.source u.target = some set ∧ set.version = u.available
  once : (stores.check_for_updates host t sets).Pairwise fun u v =>
    ¬ (u.source = v.source ∧ u.target = v.target)

/-- The row of a name is about the pair: that of the first installed model,
or of the first set. -/
def Stores.RowOf (name source target : String) : Prop :=
  (∃ m, FirstMax InstalledModel.cmpVersion (stores.copies host t name) m
      ∧ m.manifest.source = source ∧ m.manifest.target = target)
    ∨ (stores.copies host t name = [] ∧ ∃ set, (sets.filter fun s => s.pair = name).head? = some set
      ∧ set.source = source ∧ set.target = target)

/-- The sets of a name agree on what to install. -/
structure Stores.Agreeing : Prop where
  last : ∀ name last, (sets.filter fun s => s.pair = name).getLast? = some last →
    ∃ set ∈ sets, set.variant = none ∧ stores.RowOf host t sets name set.source set.target
      ∧ set.version.raw = last.version.raw
  variant : ∀ set ∈ sets, set.variant ≠ none → stores.copies host t set.pair = []
    ∨ ∃ m ∈ stores.copies host t set.pair, (set.version.cmp m.version).isLE = true

/-- A pair and variant has one set at most. -/
def Distinct : Prop := sets.Pairwise fun a b =>
  ¬ (a.source = b.source ∧ a.target = b.target ∧ a.variant = b.variant)

end Defs

/-! ## Sets -/

section Sets

variable {sets : List ModelSet} {source target : String} {set : ModelSet}

theorem Distinct.unique (h : Distinct sets) {a b : ModelSet} (ha : a ∈ sets) (hb : b ∈ sets)
    (hsource : a.source = b.source) (htarget : a.target = b.target)
    (hvariant : a.variant = b.variant) : a = b := by
  by_contra hne
  refine List.Pairwise.forall_of_forall_of_flip (R := fun a b : ModelSet =>
    a ≠ b → ¬ (a.source = b.source ∧ a.target = b.target ∧ a.variant = b.variant))
    ?_ ?_ ?_ ha hb hne ⟨hsource, htarget, hvariant⟩
  · exact fun x _ hx => absurd rfl hx
  · exact h.imp fun {a b} hab (_ : a ≠ b) => hab
  · exact h.imp fun {a b} hab _ heq => hab ⟨heq.1.symm, heq.2.1.symm, heq.2.2.symm⟩

theorem pairSet_sound (h : pairSet sets source target = some set) :
    set ∈ sets ∧ set.source = source ∧ set.target = target ∧ set.variant = none := by
  have hfound := List.find?_some h
  simp only [Bool.and_eq_true, decide_eq_true_eq] at hfound
  exact ⟨List.mem_of_find?_eq_some h, hfound.1.1, hfound.1.2, hfound.2⟩

theorem Distinct.pairSet_eq (h : Distinct sets) (hset : set ∈ sets) (hvariant : set.variant = none) :
    pairSet sets set.source set.target = some set := by
  have hfound : (sets.find? fun s => s.source = set.source && s.target = set.target
      && s.variant = none).isSome = true :=
    List.find?_isSome.mpr ⟨set, hset, by simp [hvariant]⟩
  obtain ⟨found, hpair⟩ := Option.isSome_iff_exists.mp hfound
  obtain ⟨hmem, hsource, htarget, hnone⟩ := pairSet_sound hpair
  have hsame := h.unique hmem hset hsource htarget (hnone.trans hvariant.symm)
  rw [← hsame] at hpair ⊢
  exact hpair

end Sets

/-! ## Updates -/

section Updates

variable {host : ModelHost} {t : FileTree Bytes} {stores : Stores} {sets : List ModelSet}

/-- What makes a set an update. -/
theorem Stores.update_eq_some {set : ModelSet} {u : remote_settings.UpdateInfo} :
    stores.update host t set = some u ↔ ∃ best,
      stores.first_installed host t set.pair = some best ∧ set.version.cmp best.version = .gt
        ∧ u = ⟨set.source, set.target, best.version, set.version⟩ := by
  unfold Stores.update
  constructor
  · intro h
    split at h
    · cases h
    · rename_i best hbest
      split at h
      · rename_i hgt
        exact ⟨best, hbest, hgt, (Option.some.inj h).symm⟩
      · cases h
  · rintro ⟨best, hbest, hgt, rfl⟩
    rw [hbest]
    exact if_pos hgt

theorem Stores.mem_updates {u : remote_settings.UpdateInfo} :
    u ∈ stores.check_for_updates host t sets ↔ ∃ set ∈ sets, stores.update host t set = some u :=
  List.mem_filterMap

/-- A set is not an update when a copy of its name is as new. -/
theorem Stores.update_eq_none_of_copy {set : ModelSet} {m : InstalledModel}
    (hm : m ∈ stores.copies host t set.pair) (hle : (set.version.cmp m.version).isLE = true)
    (u : remote_settings.UpdateInfo) : stores.update host t set ≠ some u := by
  intro h
  obtain ⟨best, hbest, hgt, -⟩ := Stores.update_eq_some.mp h
  have hmax : (m.version.cmp best.version).isLE = true :=
    (Stores.first_installed_iff.mp hbest).isLE hm
  have htrans := Std.TransCmp.isLE_trans hle hmax
  rw [hgt] at htrans
  cases htrans

/-- Sets with a variant are no updates. -/
def Stores.NoVariants (stores : Stores) (host : ModelHost) (t : FileTree Bytes)
    (sets : List ModelSet) : Prop :=
  ∀ set ∈ sets, set.variant ≠ none → ∀ u, stores.update host t set ≠ some u

theorem Stores.noVariants_iff : stores.NoVariants host t sets
    ↔ ∀ set ∈ sets, set.variant ≠ none → stores.copies host t set.pair = []
      ∨ ∃ m ∈ stores.copies host t set.pair, (set.version.cmp m.version).isLE = true := by
  constructor
  · intro h set hset hvariant
    by_cases hnil : stores.copies host t set.pair = []
    · exact Or.inl hnil
    · obtain ⟨m, hm⟩ := Maxima.exists_firstMax InstalledModel.cmpVersion hnil
      refine Or.inr ⟨m, hm.mem, Ordering.isLE_iff_ne_gt.mpr fun hgt => ?_⟩
      exact h set hset hvariant _ (Stores.update_eq_some.mpr
        ⟨m, Stores.first_installed_of_firstMax hm, hgt, rfl⟩)
  · intro h set hset hvariant u hu
    rcases h set hset hvariant with hnil | ⟨m, hm, hle⟩
    · obtain ⟨best, hbest, -⟩ := Stores.update_eq_some.mp hu
      rw [Stores.first_installed_eq_none hnil] at hbest
      cases hbest
    · exact Stores.update_eq_none_of_copy hm hle u hu

theorem Distinct.updates_iff (h : Distinct sets) :
    ((∀ u ∈ stores.check_for_updates host t sets,
        ∃ set, pairSet sets u.source u.target = some set ∧ set.version = u.available)
      ∧ (stores.check_for_updates host t sets).Pairwise fun u v =>
        ¬ (u.source = v.source ∧ u.target = v.target))
      ↔ stores.NoVariants host t sets := by
  constructor
  · rintro ⟨hinstallable, honce⟩ set hset hvariant u hu
    obtain ⟨best, hbest, hgt, rfl⟩ := Stores.update_eq_some.mp hu
    obtain ⟨set', hpair, hversion⟩ :=
      hinstallable _ (Stores.mem_updates.mpr ⟨set, hset, hu⟩)
    obtain ⟨hset', hsource, htarget, hnone⟩ := pairSet_sound hpair
    -- the set without a variant is an update, too
    have hname : set'.pair = set.pair := by
      unfold ModelSet.pair
      rw [hsource, htarget]
    have hu' : stores.update host t set'
        = some ⟨set.source, set.target, best.version, set.version⟩ := by
      refine Stores.update_eq_some.mpr ⟨best, hname ▸ hbest, ?_, ?_⟩
      · rw [hversion]
        exact hgt
      · rw [hsource, htarget, hversion]
    have hne : set ≠ set' := by
      rintro rfl
      exact hvariant hnone
    rw [Stores.check_for_updates, List.pairwise_filterMap] at honce
    refine List.Pairwise.forall_of_forall_of_flip (R := fun a b : ModelSet => a ≠ b →
      ∀ x, stores.update host t a = some x → ∀ y, stores.update host t b = some y →
        ¬ (x.source = y.source ∧ x.target = y.target)) ?_ ?_ ?_ hset hset' hne _ hu _ hu' ⟨rfl, rfl⟩
    · exact fun x _ hx => absurd rfl hx
    · exact honce.imp fun {a b} hab _ x hx y hy => hab x hx y hy
    · exact honce.imp fun {a b} hab _ x hx y hy heq => hab y hy x hx ⟨heq.1.symm, heq.2.symm⟩
  · intro hno
    have hnone : ∀ {set u}, set ∈ sets → stores.update host t set = some u → set.variant = none :=
      fun {set u} hset hu => by_contra fun hvariant => hno set hset hvariant u hu
    constructor
    · intro u hmem
      obtain ⟨set, hset, hu⟩ := Stores.mem_updates.mp hmem
      obtain ⟨best, -, -, rfl⟩ := Stores.update_eq_some.mp hu
      exact ⟨set, h.pairSet_eq hset (hnone hset hu), rfl⟩
    · rw [Stores.check_for_updates, List.pairwise_filterMap]
      refine List.Pairwise.imp_of_mem (fun {a b} ha hb hab x hx y hy heq => ?_) h
      have hvariant := (hnone ha hx).trans (hnone hb hy).symm
      obtain ⟨_, -, -, rfl⟩ := Stores.update_eq_some.mp hx
      obtain ⟨_, -, -, rfl⟩ := Stores.update_eq_some.mp hy
      exact hab ⟨heq.1, heq.2, hvariant⟩

end Updates

/-! ## Rows -/

section Rows

variable {registry : Option ModelRegistry} {host : ModelHost} {t : FileTree Bytes} {stores : Stores}
  {sets : List ModelSet} {name : String} {row : Row}

theorem ModelSet.enter_pair (set : ModelSet) (old : Option Row) :
    ((set.enter registry old).source, (set.enter registry old).target)
      = ((old.map fun row => (row.source, row.target)).getD (set.source, set.target)) := by
  unfold ModelSet.enter
  dsimp only
  split
  · cases old <;> rfl
  · rw [annotate_source, annotate_target]
    cases old <;> rfl

theorem ModelSet.enter_available_version (set : ModelSet) (old : Option Row) :
    (set.enter registry old).available_version = some set.version.raw := by
  unfold ModelSet.enter
  dsimp only
  split
  · rfl
  · rw [annotate_available_version]

/-- The first entry names the pair of a row. -/
theorem foldl_enter_pair (sets : List ModelSet) (old : Option Row) :
    (sets.foldl (fun row set => some (set.enter registry row)) old).map
        (fun row => (row.source, row.target))
      = (old.map fun row => (row.source, row.target)).or
          (sets.head?.map fun set => (set.source, set.target)) := by
  induction sets generalizing old with
  | nil => exact Option.or_none.symm
  | cons set sets ih =>
      rw [List.foldl_cons, ih, Option.map_some, Option.some_or, ModelSet.enter_pair]
      cases old <;> rfl

/-- The last set has its version in the row. -/
theorem foldl_enter_available_version (sets : List ModelSet) (old : Option Row) :
    (sets.foldl (fun row set => some (set.enter registry row)) old).bind Row.available_version
      = (sets.getLast?.map fun set => set.version.raw).or (old.bind Row.available_version) := by
  induction sets using List.reverseRecOn with
  | nil => rfl
  | append_singleton sets set ih =>
      rw [List.foldl_append, List.getLast?_concat]
      exact set.enter_available_version _

theorem Stores.mem_list_language_pairs {available : Option (List ModelSet)} :
    row ∈ stores.list_language_pairs registry host t available ↔ ∃ name, SortedMap.get compare
      (stores.language_rows registry host t available) name = some row := by
  have hsorted : SortedMap.Sorted compare (stores.language_rows registry host t available) :=
    SortedMap.sorted_foldl_alter _ sorted_installedRows
  unfold Stores.list_language_pairs
  rw [List.mem_map]
  constructor
  · rintro ⟨⟨name, row⟩, hmem, rfl⟩
    exact ⟨name, hsorted.get_of_mem hmem Std.ReflCmp.compare_self⟩
  · rintro ⟨name, hget⟩
    obtain ⟨entry, hentry, rfl⟩ := Option.map_eq_some_iff.mp hget
    exact ⟨entry, List.mem_of_find?_eq_some hentry, rfl⟩

/-- The pair that a row of a name is about. -/
theorem Stores.rowOf_iff (hrow : SortedMap.get compare
      (stores.language_rows registry host t (some sets)) name = some row) {source target : String} :
    stores.RowOf host t sets name source target ↔ row.source = source ∧ row.target = target := by
  have hpair := congrArg (Option.map fun row : Row => (row.source, row.target)) hrow
  rw [Stores.get_language_rows, foldl_enter_pair, Option.map_some] at hpair
  unfold Stores.RowOf
  cases hfirst : stores.first_installed host t name with
  | some m =>
      have hmax := Stores.first_installed_iff.mp hfirst
      rw [hfirst] at hpair
      obtain ⟨hsource, htarget⟩ := Prod.mk.inj (Option.some.inj hpair)
      rw [m.row_source] at hsource
      rw [m.row_target] at htarget
      rw [← hsource, ← htarget]
      constructor
      · rintro (⟨m', hmax', hpair'⟩ | ⟨hnil, -⟩)
        · have hsame := hfirst.symm.trans (Stores.first_installed_of_firstMax hmax')
          rwa [Option.some.inj hsame]
        · exact absurd hnil (List.ne_nil_of_mem hmax.mem)
      · exact fun hpair' => Or.inl ⟨m, hmax, hpair'⟩
  | none =>
      have hnil : stores.copies host t name = [] := by
        by_contra hne
        obtain ⟨m, hm⟩ := Maxima.exists_firstMax InstalledModel.cmpVersion hne
        rw [Stores.first_installed_of_firstMax hm] at hfirst
        cases hfirst
      rw [hfirst] at hpair
      obtain ⟨set, hset, hpair⟩ := Option.map_eq_some_iff.mp hpair
      obtain ⟨hsource, htarget⟩ := Prod.mk.inj hpair
      rw [← hsource, ← htarget]
      constructor
      · rintro (⟨m, hm, -⟩ | ⟨-, set', hset', hpair'⟩)
        · rw [hnil] at hm
          exact absurd hm.mem List.not_mem_nil
        · have hsame : some set = some set' := hset.symm.trans hset'
          rwa [Option.some.inj hsame]
      · exact fun hpair' => Or.inr ⟨hnil, set, hset, hpair'⟩

theorem Distinct.rows_iff (h : Distinct sets) :
    (∀ registry, ∀ row ∈ stores.list_language_pairs registry host t (some sets),
        ∀ version, row.available_version = some version →
          ∃ set, pairSet sets row.source row.target = some set ∧ set.version.raw = version)
      ↔ ∀ name last, (sets.filter fun s => s.pair = name).getLast? = some last →
        ∃ set ∈ sets, set.variant = none ∧ stores.RowOf host t sets name set.source set.target
          ∧ set.version.raw = last.version.raw := by
  have hversion : ∀ {registry name row}, SortedMap.get compare
      (stores.language_rows registry host t (some sets)) name = some row →
      row.available_version
        = (sets.filter fun s => s.pair = name).getLast?.map fun set => set.version.raw := by
    intro registry name row hrow
    have hbind := congrArg (fun row : Option Row => row.bind Row.available_version) hrow
    rw [Stores.get_language_rows, foldl_enter_available_version] at hbind
    refine hbind.symm.trans ?_
    cases hfirst : stores.first_installed host t name with
    | none => exact Option.or_none
    | some m =>
        rw [Option.map_some, Option.bind_some, m.row_available_version]
        exact Option.or_none
  constructor
  · intro hlisted name last hlast
    -- the sets of the name have a row
    obtain ⟨row, hrow⟩ : ∃ row, SortedMap.get compare
        (stores.language_rows none host t (some sets)) name = some row := by
      rw [Stores.get_language_rows]
      obtain ⟨before, hbefore⟩ := List.getLast?_eq_some_iff.mp hlast
      rw [Option.getD_some, hbefore, List.foldl_append]
      exact ⟨_, rfl⟩
    obtain ⟨set, hpair, hraw⟩ := hlisted none row (Stores.mem_list_language_pairs.mpr ⟨name, hrow⟩)
      last.version.raw (by rw [hversion hrow, hlast]; rfl)
    obtain ⟨hset, hsource, htarget, hvariant⟩ := pairSet_sound hpair
    exact ⟨set, hset, hvariant, (Stores.rowOf_iff hrow).mpr ⟨hsource.symm, htarget.symm⟩, hraw⟩
  · intro hlast registry row hmem version havailable
    obtain ⟨name, hrow⟩ := Stores.mem_list_language_pairs.mp hmem
    rw [hversion hrow] at havailable
    obtain ⟨last, hlast', rfl⟩ := Option.map_eq_some_iff.mp havailable
    obtain ⟨set, hset, hvariant, hof, hraw⟩ := hlast name last hlast'
    obtain ⟨hsource, htarget⟩ := (Stores.rowOf_iff hrow).mp hof
    refine ⟨set, ?_, hraw⟩
    rw [hsource, htarget]
    exact h.pairSet_eq hset hvariant

end Rows

/-! ## After an install -/

namespace InstallCall

variable {call : InstallCall}

/-- The model of a call is listed once it is in place, and no other model is
in its place. -/
structure Listable (call : InstallCall) (t : FileTree Bytes) : Prop where
  located : call.Located
  names : call.PlainNames
  inside : NamesInside call.host t call.final_dir
  label : ∀ m, scan_model_dir call.host t call.final_dir .user = .ok m →
    m.pair = call.set.pair ∧ (call.set.version.cmp m.version).isLE = true

/-- Until it looks at the version directory, install leaves it. -/
def FoundAt (call : InstallCall) (t₀ t : FileTree Bytes) : Install.Pc → Prop
  | .creatingUser | .opening | .locking | .probing false | .checking => call.Kept t₀ t
  | .done m false => call.Kept t₀ t ∧ scan_model_dir call.host t call.final_dir .user = .ok m
  | _ => True

section Found

variable {s s' : Install} {e : InstallEvent} {ok : Install → InstallEvent → Prop}
  {t₀ : FileTree Bytes}

theorem foundAt_step (hl : call.Located) (hn : call.NamesStay) (h : call.Transition s e s')
    (hf : call.FromSet s.pc) (hi : call.FoundAt t₀ s.tree s.pc) :
    call.FoundAt t₀ s'.tree s'.pc := by
  have hkept := kept_step hl hn h hf
  cases h with
  | makeUser hpc | userMade hpc | lockFile hpc | locked hpc | found hpc =>
      rw [hpc] at hi
      exact Kept.trans hi (hkept (by rw [hpc]; nofun) (by rw [hpc]; nofun))
  | existing hpc hscan =>
      rw [hpc] at hi
      exact ⟨hi, hscan⟩
  | @removed tmp => cases tmp <;> trivial
  | _ => trivial

theorem foundAt_of_reach (hl : call.Located) (hn : call.NamesStay)
    (h : Machine.Reach call.step ok (Install.init t₀) s) : call.FoundAt t₀ s.tree s.pc := by
  refine @Machine.Reach.invariant _ _ _ _ _ _ (fun s => call.FoundAt t₀ s.tree s.pc) h ?_ ?_
  · exact fun _ _ => rfl
  · exact fun _ _ _ hpre _ hs hi => foundAt_step hl hn (step_cases hs) (fromSet_of_reach hpre) hi

/-- When install has succeeded, a model of the pair that is as new as the set
is listed: the one that was found was listed before. -/
theorem listed_of_done (hlist : call.Listable t₀)
    (hjson : call.host.from_slice (call.host.to_vec_pretty call.installed) = .ok call.installed)
    (h : Machine.Reach call.step ok (Install.init t₀) s) {m : InstalledModel} {downloaded : Bool}
    (hdone : s.pc = .done m downloaded) :
    (∃ m' ∈ call.stores.copies call.host t₀ call.set.pair,
        (call.set.version.cmp m'.version).isLE = true)
      ∨ call.model ∈ call.stores.copies call.host s.tree call.set.pair := by
  cases downloaded with
  | false =>
      have hfound := foundAt_of_reach hlist.located hlist.names.stay h
      rw [hdone] at hfound
      obtain ⟨hkept, hscan⟩ := hfound
      have hdir := hlist.located.dir_of_scan hscan
      have hdir₀ : t₀.node call.finalAt = some .dir := by
        rw [← hkept _ (List.suffix_refl _), hdir]
      have hscan₀ : scan_model_dir call.host t₀ call.final_dir .user = .ok m := by
        refine (scan_model_dir_congr hlist.located.pair_plain.final_plain ?_ (fun q hq => ?_)
          hlist.inside).mpr hscan
        · rw [final_dir_reverse, hdir₀]
          exact Option.some_ne_none _
        · rw [final_dir_reverse] at hq
          exact (hkept q hq).symm
      obtain ⟨hpair, hle⟩ := hlist.label m hscan₀
      obtain ⟨horigin, hdirectory, -⟩ := scan_model_dir_eq_ok.mp hscan₀
      refine Or.inl ⟨m, mem_copies.mpr ⟨Stores.mem_scan.mpr ?_, hpair⟩, hle⟩
      rw [horigin, hdirectory]
      exact ⟨hlist.located.scanned hdir₀, hscan₀⟩
  | true =>
      have hwritten := written_of_reach hlist.located hlist.names.fits h
      rw [hdone] at hwritten
      obtain ⟨-, hplaced⟩ := hwritten
      exact Or.inr (mem_copies.mpr ⟨Stores.mem_scan.mpr
        ⟨hlist.located.scanned hplaced.dir, hplaced.scan hlist.located hlist.names.fits hjson⟩, rfl⟩)

end Found

/-- Once an install of the call has succeeded, the pair is no update. -/
def Converges (call : InstallCall) (t : FileTree Bytes) (sets : List ModelSet)
    (source target : String) : Prop :=
  ∀ (ok : Install → InstallEvent → Prop) s m downloaded,
    Machine.Reach call.step ok (Install.init t) s → s.pc = .done m downloaded →
    ∀ u ∈ call.stores.check_for_updates call.host s.tree sets,
      ¬ (u.source = source ∧ u.target = target)

theorem Listable.converges {t : FileTree Bytes} {sets : List ModelSet} (hlist : call.Listable t)
    (hjson : call.host.from_slice (call.host.to_vec_pretty call.installed) = .ok call.installed)
    (hdistinct : Distinct sets) (hagree : call.stores.Agreeing call.host t sets)
    {u : remote_settings.UpdateInfo} (hu : u ∈ call.stores.check_for_updates call.host t sets)
    (hset : pairSet sets u.source u.target = some call.set) :
    call.Converges t sets u.source u.target := by
  intro ok s m downloaded hreach hdone u' hu' hsame
  obtain ⟨hmem, hsource, htarget, hvariant⟩ := pairSet_sound hset
  -- the update was one of the set that is installed
  obtain ⟨set, hin, hupdate⟩ := Stores.mem_updates.mp hu
  obtain ⟨best, hbest, hgt, rfl⟩ := Stores.update_eq_some.mp hupdate
  have hnone : set.variant = none := by
    by_contra hne
    exact Stores.noVariants_iff.mpr hagree.variant set hin hne _ hupdate
  obtain rfl : call.set = set :=
    hdistinct.unique hmem hin hsource htarget (hvariant.trans hnone.symm)
  rcases listed_of_done hlist hjson hreach hdone with ⟨m', hm', hle⟩ | hmodel
  · exact Stores.update_eq_none_of_copy hm' hle _ hupdate
  · obtain ⟨set', hin', hupdate'⟩ := Stores.mem_updates.mp hu'
    obtain ⟨best', hbest', hgt', rfl⟩ := Stores.update_eq_some.mp hupdate'
    have hname : set'.pair = call.set.pair := by
      unfold ModelSet.pair
      rw [show set'.source = call.set.source from hsame.1,
        show set'.target = call.set.target from hsame.2]
    have hmax : (set'.version.cmp call.set.version).isLE = true := by
      by_cases hvariant' : set'.variant = none
      · rw [hdistinct.unique hin' hmem hsame.1 hsame.2 (hvariant'.trans hvariant.symm)]
        exact Std.ReflCmp.isLE_rfl
      · -- a set with a variant was no newer than what was installed
        rcases hagree.variant set' hin' hvariant' with hnil | ⟨old, hold, hle⟩
        · rw [hname] at hnil
          rw [Stores.first_installed_eq_none hnil] at hbest
          cases hbest
        · rw [hname] at hold
          have hle' := (Stores.first_installed_iff.mp hbest).isLE hold
          have hnewer : (best.version.cmp call.set.version).isLE = true := by
            rw [Std.OrientedCmp.lt_of_gt hgt]
            rfl
          exact Std.TransCmp.isLE_trans (Std.TransCmp.isLE_trans hle hle') hnewer
    rw [← hname] at hmodel
    exact Stores.update_eq_none_of_copy hmodel hmax _ hupdate'

end InstallCall

/-- **Announced versions.** What is announced is what `install_pair` would
install exactly when the sets of each name agree; and an install of a
reported pair then ends the report, in every run that succeeds. -/
theorem announced_versions (records : List ModelRecord) (env : FilterEnv) :
    (∀ host t, ∀ stores : Stores, stores.Announced host t (accepted_sets records env).1
        ↔ stores.Agreeing host t (accepted_sets records env).1)
      ∧ ∀ (call : InstallCall) (t : FileTree Bytes),
        call.stores.Agreeing call.host t (accepted_sets records env).1 → call.Listable t →
        call.host.from_slice (call.host.to_vec_pretty call.installed) = .ok call.installed →
        ∀ u ∈ call.stores.check_for_updates call.host t (accepted_sets records env).1,
          pairSet (accepted_sets records env).1 u.source u.target = some call.set →
          call.Converges t (accepted_sets records env).1 u.source u.target := by
  have hdistinct : Distinct (accepted_sets records env).1 := sets_distinct
  refine ⟨fun host t stores => ⟨fun h => ?_, fun h => ?_⟩,
    fun call t hagree hlist hjson u hu hset => hlist.converges hjson hdistinct hagree hu hset⟩
  · exact ⟨hdistinct.rows_iff.mp h.listed,
      Stores.noVariants_iff.mp (hdistinct.updates_iff.mp ⟨h.installable, h.once⟩)⟩
  · obtain ⟨hinstallable, honce⟩ :=
      hdistinct.updates_iff.mpr (Stores.noVariants_iff.mpr h.variant)
    exact ⟨hdistinct.rows_iff.mpr h.last, hinstallable, honce⟩

/-! ## A catalogue -/

section Catalogue

/-- The pair is installed in an older version. -/
def updateTree : FileTree Bytes := plant (copyNodes "u" "bg-en" (copyManifest "2.0"))

def updateCall : InstallCall :=
  { catalogueCall hashA with
    host := { catalogueHost hashA with
      from_slice := fun bytes =>
        if bytes = prettyManifest (copyManifest "2.0") then .ok (copyManifest "2.0")
        else (catalogueHost hashA).from_slice bytes } }

/-- The older version. -/
def updateOld : InstalledModel :=
  ⟨.user, copyDir "u" "bg-en" "2.0", InstallCall.version2, copyManifest "2.0"⟩

def updateRun : List InstallEvent :=
  List.replicate 7 .proceed ++ download 97 ++ download 98 ++ [.proceed, .proceed,
    .write (prettyManifest (catalogueManifest hashA)).length] ++ List.replicate 4 .proceed

theorem catalogue_sets : (accepted_sets (catalogue hashA) (.prerelease false)).1
    = [catalogueSet hashA] := by decide +kernel

theorem update_agreeing : updateCall.stores.Agreeing updateCall.host updateTree
    (accepted_sets (catalogue hashA) (.prerelease false)).1 := by
  have hcopies : updateCall.stores.copies updateCall.host updateTree "bg-en"
      = [updateOld] := by decide +kernel
  rw [catalogue_sets]
  refine ⟨fun name last hlast => ?_, fun set hset hvariant => ?_⟩
  · obtain ⟨hmem, hname⟩ := List.mem_filter.mp (List.mem_of_getLast? hlast)
    obtain rfl := List.mem_singleton.mp hmem
    obtain rfl : "bg-en" = name := of_decide_eq_true hname
    refine ⟨_, hmem, rfl, Or.inl ⟨updateOld, ?_, rfl, rfl⟩, rfl⟩
    rw [hcopies]
    exact ⟨[], [], rfl, by simp, by simp⟩
  · rw [List.mem_singleton.mp hset] at hvariant
    exact absurd rfl hvariant

theorem update_listable : updateCall.Listable updateTree where
  located := InstallCall.located_of_plain (by decide)
  names := ⟨(catalogue_names hashA).nodup, (catalogue_names hashA).plain,
    (catalogue_names hashA).notManifest⟩
  inside manifest hload := by
    have hnone : (Manifest.load updateCall.host updateTree updateCall.final_dir).toOption
        = none := by decide +kernel
    rw [hload] at hnone
    cases hnone
  label m hscan := by
    have hnone : (scan_model_dir updateCall.host updateTree updateCall.final_dir .user).toOption
        = none := by decide +kernel
    rw [hscan] at hnone
    cases hnone

theorem update_reads : updateCall.host.from_slice
    (updateCall.host.to_vec_pretty updateCall.installed) = .ok updateCall.installed :=
  InstallCall.toOption_eq_some (by decide +kernel)

/-- An update is announced, installed, and no update any more. -/
theorem announced_versions_update :
    updateCall.stores.Announced updateCall.host updateTree
        (accepted_sets (catalogue hashA) (.prerelease false)).1
      ∧ updateCall.stores.check_for_updates updateCall.host updateTree
          (accepted_sets (catalogue hashA) (.prerelease false)).1
        = [⟨"bg", "en", InstallCall.version2, version3⟩]
      ∧ ∃ s, Machine.Reach updateCall.step InstallCall.ReadsSucceed (Install.init updateTree) s
        ∧ s.pc = .done updateCall.model true
        ∧ ∀ u ∈ updateCall.stores.check_for_updates updateCall.host s.tree
            (accepted_sets (catalogue hashA) (.prerelease false)).1,
          ¬ (u.source = "bg" ∧ u.target = "en") := by
  have hupdates : updateCall.stores.check_for_updates updateCall.host updateTree
      (accepted_sets (catalogue hashA) (.prerelease false)).1
      = [⟨"bg", "en", InstallCall.version2, version3⟩] := by
    rw [catalogue_sets]
    decide +kernel
  obtain ⟨s, hreach, hs⟩ := Machine.exists_reach_of_run updateCall.step InstallCall.ReadsSucceed
    (Install.init updateTree) updateRun (fun s => decide (s.pc = .done updateCall.model true))
    (by decide +kernel)
  have hdone : s.pc = .done updateCall.model true := of_decide_eq_true hs
  refine ⟨((announced_versions (catalogue hashA) (.prerelease false)).1 _ _ _).mpr update_agreeing,
    hupdates, s, hreach, hdone, ?_⟩
  exact (announced_versions (catalogue hashA) (.prerelease false)).2 updateCall updateTree
    update_agreeing update_listable update_reads ⟨"bg", "en", InstallCall.version2, version3⟩
    (by rw [hupdates]; exact List.mem_singleton.mpr rfl) (by rw [catalogue_sets]; rfl)
    InstallCall.ReadsSucceed s _ true hreach hdone

/-- The catalogue, with a variant that is newer. -/
def variantSets : List ModelSet :=
  (accepted_sets (catalogue hashA ++ (catalogue hashA).map fun record =>
    { record with variant := some "tiny", version := "3.1" }) (.prerelease false)).1

/-- The install of the pair, with its model there. -/
def variantCall : InstallCall :=
  { catalogueCall hashA with host := copyHost, stores := copyStores }

/-- A variant that is newer than the set without one is announced, not
installed, and announced again. -/
theorem announced_not_installed :
    copyStores.check_for_updates copyHost oneCopy variantSets
        = [⟨"bg", "en", version3, version31⟩]
      ∧ pairSet variantSets "bg" "en" = some variantCall.set
      ∧ variantCall.set.version = version3
      ∧ ¬ copyStores.Announced copyHost oneCopy variantSets
      ∧ ∃ s m, Machine.Reach variantCall.step InstallCall.ReadsSucceed (Install.init oneCopy) s
        ∧ s.pc = .done m false
        ∧ copyStores.check_for_updates copyHost s.tree variantSets
          = [⟨"bg", "en", version3, version31⟩] := by
  have hupdates : copyStores.check_for_updates copyHost oneCopy variantSets
      = [⟨"bg", "en", version3, version31⟩] := by decide +kernel
  have hpair : pairSet variantSets "bg" "en" = some variantCall.set := by decide +kernel
  refine ⟨hupdates, hpair, rfl, fun h => ?_, ?_⟩
  · obtain ⟨set, hset, hversion⟩ := h.installable ⟨"bg", "en", version3, version31⟩
      (by rw [hupdates]; exact List.mem_singleton.mpr rfl)
    rw [← Option.some.inj (hpair.symm.trans hset)] at hversion
    exact absurd hversion (by decide)
  · obtain ⟨s, hreach, hs⟩ := Machine.exists_reach_of_run variantCall.step
      InstallCall.ReadsSucceed (Install.init oneCopy) (List.replicate 5 .proceed)
      (fun s => decide (s.pc = .done (copy3 .user "u") false
        ∧ copyStores.check_for_updates copyHost s.tree variantSets
          = [⟨"bg", "en", version3, version31⟩])) (by decide +kernel)
    obtain ⟨hdone, hupdates'⟩ := of_decide_eq_true hs
    exact ⟨s, _, hreach, hdone, hupdates'⟩

end Catalogue

end Dragomand
