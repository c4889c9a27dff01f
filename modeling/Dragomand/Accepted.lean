import Dragomand.Records
import Mathlib.Data.List.Induction

/-!
# The acceptance rule

What `accepted_sets` returns, said without its maps: for a source, a target
and a variant the newest version that has a complete group of eligible
records, with the records of that group, or nothing if no version has one.

Three loops are behind it, and an invariant for each: the groups so far are
those of the records so far (`Grouped`), the files of a group have each of
its file types once, and the best set so far of a pair is at least as new as
the set of every group so far (`Best`).
-/

namespace Dragomand

open SortedMap (alter Sorted)

/-! ## The rule -/

def ModelRecord.key (record : ModelRecord) : GroupKey :=
  ⟨record.source_language, record.target_language, record.variant, record.version⟩

def ModelSet.key (set : ModelSet) : GroupKey :=
  ⟨set.source, set.target, set.variant, set.version.raw⟩

/-- The filter passes, the version parses, and the engine supports it. -/
def Eligible (env : FilterEnv) (record : ModelRecord) : Prop :=
  filter_matches record.filter_expression env = some true
    ∧ ∃ version, MozVersion.parse record.version = .ok version
      ∧ MODEL_MAJOR_MIN ≤ version.major ∧ version.major ≤ MODEL_MAJOR_MAX

/-- The group of the key has a file of the type. -/
def Present (records : List ModelRecord) (env : FilterEnv) (key : GroupKey)
    (file_type : FileType) : Prop :=
  ∃ record ∈ records, Eligible env record ∧ record.key = key ∧ record.file_type = file_type

def CompleteGroup (records : List ModelRecord) (env : FilterEnv) (key : GroupKey) : Prop :=
  Present records env key .model ∧ (Present records env key .vocab
    ∨ (Present records env key .srcVocab ∧ Present records env key .trgVocab))

/-- The set is the newest complete one of its pair and variant. -/
structure Newest (records : List ModelRecord) (env : FilterEnv) (set : ModelSet) : Prop where
  complete : CompleteGroup records env set.key
  newest : ∀ version v, CompleteGroup records env ⟨set.source, set.target, set.variant, version⟩ →
    MozVersion.parse version = .ok v → (v.cmp set.version).isLE = true
  files : ∀ file ∈ set.files, file.2 ∈ records ∧ Eligible env file.2 ∧ file.2.key = set.key
    ∧ file.2.file_type = file.1
  all : ∀ record ∈ records, Eligible env record → record.key = set.key →
    ∃ file ∈ set.files, file.1 = record.file_type

/-! ## Keys -/

instance : Std.TransCmp GroupKey.cmpPair :=
  inferInstanceAs (Std.TransCmp (compareLex (compareOn GroupKey.source)
    (compareLex (compareOn GroupKey.target) (compareOn GroupKey.variant))))

instance : Std.TransCmp GroupKey.cmp :=
  inferInstanceAs (Std.TransCmp (compareLex GroupKey.cmpPair (compareOn GroupKey.version)))

theorem cmpPair_eq_eq {a b : GroupKey} : GroupKey.cmpPair a b = .eq
    ↔ a.source = b.source ∧ a.target = b.target ∧ a.variant = b.variant := by
  simp [GroupKey.cmpPair, compareLex_eq_eq, compareOn, Std.LawfulEqCmp.compare_eq_iff_eq]

theorem groupKey_cmp_eq_eq {a b : GroupKey} : GroupKey.cmp a b = .eq ↔ a = b := by
  rw [GroupKey.cmp, compareLex_eq_eq, cmpPair_eq_eq]
  obtain ⟨source, target, variant, version⟩ := a
  obtain ⟨source', target', variant', version'⟩ := b
  simp [compareOn, Std.LawfulEqCmp.compare_eq_iff_eq, and_assoc]

instance : Std.TransOrd FileType where
  eq_swap {a b} := by cases a <;> cases b <;> rfl
  isLE_trans {a b c} := by cases a <;> cases b <;> cases c <;> decide

instance : Std.LawfulEqOrd FileType where
  compare_self {a} := by cases a <;> rfl
  eq_of_compare {a b} := by cases a <;> cases b <;> decide

/-! ## Groups -/

section Groups

variable {env : FilterEnv} {records : List ModelRecord}

theorem eligible_iff {record : ModelRecord} : Eligible env record
    ↔ filter_matches record.filter_expression env = some true
      ∧ ∃ version, record.supported = some version := by
  refine and_congr_right fun _ => ?_
  unfold ModelRecord.supported
  cases MozVersion.parse record.version with
  | error e => simp
  | ok version =>
      have hguard : (version.major < MODEL_MAJOR_MIN || version.major > MODEL_MAJOR_MAX) = true
          ↔ ¬ (MODEL_MAJOR_MIN ≤ version.major ∧ version.major ≤ MODEL_MAJOR_MAX) := by
        simp only [Bool.or_eq_true, decide_eq_true_eq, not_and_or, Nat.not_le, gt_iff_lt]
      by_cases h : MODEL_MAJOR_MIN ≤ version.major ∧ version.major ≤ MODEL_MAJOR_MAX
      · simp [h, mt hguard.mp (not_not.mpr h)]
      · simp [h, hguard.mpr h]

/-- The groups are those of the eligible records. -/
structure Grouped (records : List ModelRecord) (env : FilterEnv)
    (groups : List (GroupKey × List ModelRecord)) : Prop where
  sorted : Sorted GroupKey.cmp groups
  sound : ∀ key group, (key, group) ∈ groups → ∀ record ∈ group,
    record ∈ records ∧ Eligible env record ∧ record.key = key
  complete : ∀ record ∈ records, Eligible env record →
    ∃ group, (record.key, group) ∈ groups ∧ record ∈ group

theorem grouped_step {groups : Groups} (h : Grouped records env groups.1) (record : ModelRecord) :
    Grouped (records ++ [record]) env (group_record env groups record).1 := by
  have hskip : ¬ Eligible env record → Grouped (records ++ [record]) env groups.1 := by
    intro hnot
    refine ⟨h.sorted, fun key group hmem r hr => ?_, fun r hr hel => ?_⟩
    · obtain ⟨hrecords, hrest⟩ := h.sound key group hmem r hr
      exact ⟨List.mem_append_left _ hrecords, hrest⟩
    · rcases List.mem_append.mp hr with hr | hr
      · exact h.complete r hr hel
      · rw [List.mem_singleton.mp hr] at hel
        exact absurd hel hnot
  unfold group_record
  split
  · rename_i hfilter
    exact hskip fun hel => by cases hfilter.symm.trans hel.1
  · rename_i hfilter
    exact hskip fun hel => by cases hfilter.symm.trans hel.1
  · rename_i hfilter
    split
    · rename_i hsupported
      refine hskip fun hel => ?_
      obtain ⟨-, version, hversion⟩ := eligible_iff.mp hel
      cases hsupported.symm.trans hversion
    · rename_i version hsupported
      have hel : Eligible env record := eligible_iff.mpr ⟨hfilter, version, hsupported⟩
      show Grouped _ env (alter GroupKey.cmp record.key _ groups.1)
      refine ⟨h.sorted.alter, fun key group hmem r hr => ?_, fun r hr hel' => ?_⟩
      · rcases h.sorted.mem_alter.mp hmem with ⟨-, hmem⟩ | ⟨heq, ⟨old, hold, rfl⟩ | ⟨rfl, -, rfl⟩⟩
        · obtain ⟨hrecords, hrest⟩ := h.sound key group hmem r hr
          exact ⟨List.mem_append_left _ hrecords, hrest⟩
        · obtain rfl := groupKey_cmp_eq_eq.mp heq
          rcases List.mem_append.mp hr with hr | hr
          · obtain ⟨hrecords, hrest⟩ := h.sound _ old hold r hr
            exact ⟨List.mem_append_left _ hrecords, hrest⟩
          · rw [List.mem_singleton.mp hr]
            exact ⟨by simp, hel, rfl⟩
        · rw [List.mem_singleton.mp hr]
          exact ⟨by simp, hel, rfl⟩
      · by_cases heq : record.key = r.key
        · -- the group of the record
          by_cases hold : ∃ old, (r.key, old) ∈ groups.1
          · obtain ⟨old, hold⟩ := hold
            refine ⟨old ++ [record], h.sorted.mem_alter.mpr (Or.inr ⟨groupKey_cmp_eq_eq.mpr heq,
              Or.inl ⟨old, hold, rfl⟩⟩), ?_⟩
            rcases List.mem_append.mp hr with hr | hr
            · obtain ⟨group, hgroup, hmem⟩ := h.complete r hr hel'
              have hsame := h.sorted.unique hgroup hold (groupKey_cmp_eq_eq.mpr rfl)
              obtain ⟨-, rfl⟩ := Prod.mk.inj hsame
              exact List.mem_append_left _ hmem
            · exact List.mem_append_right _ hr
          · have hr : r = record := by
              rcases List.mem_append.mp hr with hr | hr
              · obtain ⟨group, hgroup, -⟩ := h.complete r hr hel'
                exact absurd ⟨group, hgroup⟩ hold
              · exact List.mem_singleton.mp hr
            refine ⟨[record], h.sorted.mem_alter.mpr (Or.inr ⟨groupKey_cmp_eq_eq.mpr heq,
              Or.inr ⟨heq.symm, fun e he hcmp => hold ⟨e.2, ?_⟩, rfl⟩⟩), List.mem_singleton.mpr hr⟩
            rw [← heq, groupKey_cmp_eq_eq.mp hcmp]
            exact he
        · have hr : r ∈ records := by
            rcases List.mem_append.mp hr with hr | hr
            · exact hr
            · exact absurd (by rw [List.mem_singleton.mp hr]) heq
          obtain ⟨group, hgroup, hmem⟩ := h.complete r hr hel'
          exact ⟨group, h.sorted.mem_alter.mpr
            (Or.inl ⟨fun hcmp => heq (groupKey_cmp_eq_eq.mp hcmp), hgroup⟩), hmem⟩

theorem grouped (records : List ModelRecord) (env : FilterEnv) :
    Grouped records env (records.foldl (group_record env) ([], [])).1 := by
  induction records using List.reverseRecOn with
  | nil => exact ⟨.nil, by simp, by simp⟩
  | append_singleton records record ih =>
      rw [List.foldl_append]
      exact grouped_step ih record

/-! ## The files of a group -/

/-- The files so far have the last record of each type. -/
structure Collected (group : List ModelRecord) (files : List (FileType × ModelRecord)) :
    Prop where
  sorted : Sorted compare files
  sound : ∀ file_type record, (file_type, record) ∈ files →
    record ∈ group ∧ record.file_type = file_type
  complete : ∀ record ∈ group, ∃ record', (record.file_type, record') ∈ files

theorem collected (group : List ModelRecord) : Collected group (collect_files group) := by
  induction group using List.reverseRecOn with
  | nil => exact ⟨.nil, by simp [collect_files], by simp⟩
  | append_singleton group record ih =>
      have hstep : collect_files (group ++ [record])
          = alter compare record.file_type (fun _ => record) (collect_files group) := by
        simp [collect_files]
      rw [hstep]
      refine ⟨ih.sorted.alter, fun file_type r hmem => ?_, fun r hr => ?_⟩
      · rcases ih.sorted.mem_alter.mp hmem with ⟨-, hmem⟩ | ⟨heq, ⟨old, -, rfl⟩ | ⟨rfl, -, rfl⟩⟩
        · obtain ⟨hgroup, htype⟩ := ih.sound _ _ hmem
          exact ⟨List.mem_append_left _ hgroup, htype⟩
        · exact ⟨by simp, Std.LawfulEqCmp.eq_of_compare heq⟩
        · exact ⟨by simp, rfl⟩
      · by_cases heq : compare record.file_type r.file_type = .eq
        · by_cases hold : ∃ old, (r.file_type, old) ∈ collect_files group
          · obtain ⟨old, hold⟩ := hold
            exact ⟨record, ih.sorted.mem_alter.mpr (Or.inr ⟨heq, Or.inl ⟨old, hold, rfl⟩⟩)⟩
          · have htype := Std.LawfulEqCmp.eq_of_compare heq
            refine ⟨record, ih.sorted.mem_alter.mpr (Or.inr ⟨heq, Or.inr
              ⟨htype.symm, fun e he hcmp => hold ⟨e.2, ?_⟩, rfl⟩⟩)⟩
            rw [← htype, Std.LawfulEqCmp.eq_of_compare hcmp]
            exact he
        · have hr : r ∈ group := by
            rcases List.mem_append.mp hr with hr | hr
            · exact hr
            · rw [List.mem_singleton.mp hr] at heq
              exact absurd Std.ReflCmp.compare_self heq
          obtain ⟨record', hmem⟩ := ih.complete r hr
          exact ⟨record', ih.sorted.mem_alter.mpr (Or.inl ⟨heq, hmem⟩)⟩

/-- A group has the file types of its records. -/
theorem Grouped.present {groups : List (GroupKey × List ModelRecord)}
    (h : Grouped records env groups) {key : GroupKey} {group : List ModelRecord}
    (hgroup : (key, group) ∈ groups) (file_type : FileType) :
    ((collect_files group).any fun file => file.1 = file_type) = true
      ↔ Present records env key file_type := by
  have hfiles := collected group
  rw [List.any_eq_true]
  constructor
  · rintro ⟨⟨file_type', record⟩, hmem, htype⟩
    obtain rfl : file_type' = file_type := of_decide_eq_true htype
    obtain ⟨hrecord, htype⟩ := hfiles.sound _ _ hmem
    obtain ⟨hrecords, hel, hkey⟩ := h.sound key group hgroup record hrecord
    exact ⟨record, hrecords, hel, hkey, htype⟩
  · rintro ⟨record, hrecords, hel, rfl, rfl⟩
    obtain ⟨group', hgroup', hrecord⟩ := h.complete record hrecords hel
    have hsame := h.sorted.unique hgroup' hgroup (groupKey_cmp_eq_eq.mpr rfl)
    obtain ⟨-, rfl⟩ := Prod.mk.inj hsame
    obtain ⟨record', hmem⟩ := hfiles.complete record hrecord
    exact ⟨_, hmem, decide_eq_true rfl⟩

theorem Grouped.complete_iff {groups : List (GroupKey × List ModelRecord)}
    (h : Grouped records env groups) {key : GroupKey} {group : List ModelRecord}
    (hgroup : (key, group) ∈ groups) :
    Dragomand.complete (collect_files group) = true ↔ CompleteGroup records env key := by
  unfold Dragomand.complete CompleteGroup
  simp only [Bool.and_eq_true, Bool.or_eq_true, h.present hgroup]

theorem groupSet_eq_some {key : GroupKey} {group : List ModelRecord} {set : ModelSet} :
    groupSet key group = some set ↔ MozVersion.parse key.version = .ok set.version
      ∧ complete (collect_files group) = true ∧ set.source = key.source
      ∧ set.target = key.target ∧ set.variant = key.variant ∧ set.files = collect_files group
      ∧ set.architecture = ((collect_files group).find? fun file => file.1 = .model).bind
          fun file => file.2.architecture := by
  unfold groupSet
  dsimp only
  constructor
  · intro h
    split at h
    · cases h
    · rename_i version hparse
      split at h
      · rename_i hcomplete
        cases h
        exact ⟨hparse, hcomplete, rfl, rfl, rfl, rfl, rfl⟩
      · cases h
  · obtain ⟨source, target, variant, version, architecture, files⟩ := set
    rintro ⟨hparse, hcomplete, rfl, rfl, rfl, rfl, rfl⟩
    simp only [hparse, hcomplete, if_true]

theorem groupSet_key {key : GroupKey} {group : List ModelRecord} {set : ModelSet}
    (h : groupSet key group = some set) : set.key = key := by
  obtain ⟨hparse, -, hsource, htarget, hvariant, -⟩ := groupSet_eq_some.mp h
  obtain ⟨source, target, variant, version⟩ := key
  have hraw := MozVersion.raw_of_parse hparse
  simp only [ModelSet.key, GroupKey.mk.injEq]
  exact ⟨hsource, htarget, hvariant, hraw⟩

end Groups

/-! ## The best sets -/

section Best

/-- The best sets so far, of the groups so far. -/
structure Best (groups : List (GroupKey × List ModelRecord)) (best : List (GroupKey × ModelSet)) :
    Prop where
  sorted : Sorted GroupKey.cmpPair best
  sound : ∀ key set, (key, set) ∈ best → GroupKey.cmpPair key set.key = .eq
    ∧ ∃ group ∈ groups, groupSet group.1 group.2 = some set
  newest : ∀ group ∈ groups, ∀ set, groupSet group.1 group.2 = some set →
    ∃ key set', (key, set') ∈ best ∧ GroupKey.cmpPair group.1 key = .eq
      ∧ (set.version.cmp set'.version).isLE = true

theorem newerSet_isLE (set : ModelSet) (existing : Option ModelSet) :
    (set.version.cmp (newerSet set existing).version).isLE = true
      ∧ ∀ old, existing = some old → (old.version.cmp (newerSet set existing).version).isLE = true := by
  have hself : ∀ v : MozVersion, (v.cmp v).isLE = true :=
    fun v => @Std.ReflCmp.isLE_rfl _ (compare : MozVersion → MozVersion → Ordering) _ v
  cases existing with
  | none => exact ⟨hself _, nofun⟩
  | some existing =>
      rw [newerSet]
      split
      · rename_i hge
        refine ⟨?_, fun old heq => Option.some.inj heq ▸ hself _⟩
        exact @Std.OrientedCmp.isLE_of_isGE _
          (compare : MozVersion → MozVersion → Ordering) _ _ _ hge
      · rename_i hlt
        refine ⟨hself _, fun old heq => ?_⟩
        obtain rfl := Option.some.inj heq
        cases hcmp : existing.version.cmp set.version with
        | lt => rfl
        | eq => rfl
        | gt =>
            rw [hcmp] at hlt
            exact absurd rfl hlt

theorem best_step {groups : List (GroupKey × List ModelRecord)}
    {best : List (GroupKey × ModelSet)} (h : Best groups best)
    (group : GroupKey × List ModelRecord) : Best (groups ++ [group]) (best_group best group) := by
  unfold best_group
  split
  · rename_i hnone
    refine ⟨h.sorted, fun key set hmem => ?_, fun group' hgroup' set hset => ?_⟩
    · obtain ⟨hkey, group', hgroup', hset⟩ := h.sound key set hmem
      exact ⟨hkey, group', List.mem_append_left _ hgroup', hset⟩
    · rcases List.mem_append.mp hgroup' with hgroup' | hgroup'
      · exact h.newest group' hgroup' set hset
      · rw [List.mem_singleton.mp hgroup', hnone] at hset
        cases hset
  · rename_i set hset
    have hkey := groupSet_key hset
    refine ⟨h.sorted.alter, fun key set' hmem => ?_, fun group' hgroup' set' hset' => ?_⟩
    · rcases h.sorted.mem_alter.mp hmem with ⟨-, hmem⟩ | ⟨heq, ⟨old, hin, rfl⟩ | ⟨rfl, -, rfl⟩⟩
      · obtain ⟨hkey', group', hgroup', hset'⟩ := h.sound key set' hmem
        exact ⟨hkey', group', List.mem_append_left _ hgroup', hset'⟩
      · rcases newerSet_cases set (some old) with hnew | hold
        · rw [hnew, hkey]
          exact ⟨Std.OrientedCmp.eq_symm heq, group, by simp, hset⟩
        · rw [Option.some.inj hold]
          obtain ⟨hkey', group', hgroup', hset'⟩ := h.sound key old hin
          exact ⟨hkey', group', List.mem_append_left _ hgroup', hset'⟩
      · rw [hkey]
        exact ⟨Std.ReflCmp.compare_self, group, by simp, hset⟩
    · have hold : ∀ key old, (key, old) ∈ best → GroupKey.cmpPair group.1 key = .eq →
          (key, newerSet set (some old)) ∈ alter GroupKey.cmpPair group.1 (newerSet set) best :=
        fun key old hmem heq => h.sorted.mem_alter.mpr (Or.inr ⟨heq, Or.inl ⟨old, hmem, rfl⟩⟩)
      rcases List.mem_append.mp hgroup' with hgroup' | hgroup'
      · obtain ⟨key, best', hmem, hcmp, hle⟩ := h.newest group' hgroup' set' hset'
        by_cases heq : GroupKey.cmpPair group.1 key = .eq
        · refine ⟨key, _, hold key best' hmem heq, hcmp, ?_⟩
          exact @Std.TransCmp.isLE_trans _
            (compare : MozVersion → MozVersion → Ordering) _ _ _ _ hle
            ((newerSet_isLE set (some best')).2 best' rfl)
        · exact ⟨key, best', h.sorted.mem_alter.mpr (Or.inl ⟨heq, hmem⟩), hcmp, hle⟩
      · rw [List.mem_singleton.mp hgroup'] at hset' ⊢
        obtain rfl := Option.some.inj (hset.symm.trans hset')
        by_cases hex : ∃ e ∈ best, GroupKey.cmpPair group.1 e.1 = .eq
        · obtain ⟨⟨key, old⟩, hmem, heq⟩ := hex
          exact ⟨key, _, hold key old hmem heq, heq, (newerSet_isLE set (some old)).1⟩
        · refine ⟨group.1, newerSet set none, h.sorted.mem_alter.mpr (Or.inr
            ⟨Std.ReflCmp.compare_self, Or.inr ⟨rfl, fun e he heq => hex ⟨e, he, heq⟩, rfl⟩⟩),
            Std.ReflCmp.compare_self, (newerSet_isLE set none).1⟩

theorem best_of_groups (groups : List (GroupKey × List ModelRecord)) :
    Best groups (groups.foldl best_group []) := by
  induction groups using List.reverseRecOn with
  | nil => exact ⟨.nil, by simp, by simp⟩
  | append_singleton groups group ih =>
      rw [List.foldl_append]
      exact best_step ih group

end Best

/-! ## The theorem -/

section Accepted

variable (records : List ModelRecord) (env : FilterEnv)

/-- The sets of a pair and variant. -/
def setsOf (source target : String) (variant : Option String) : List ModelSet :=
  (accepted_sets records env).1.filter fun set =>
    set.source = source ∧ set.target = target ∧ set.variant = variant

variable {records env}

theorem newest_of_mem {set : ModelSet} (h : set ∈ (accepted_sets records env).1) :
    Newest records env set := by
  have hgroups := grouped records env
  obtain ⟨⟨key, set⟩, hmem, rfl⟩ := List.mem_map.mp h
  have hbest := best_of_groups (records.foldl (group_record env) ([], [])).1
  obtain ⟨hkey, ⟨groupKey, group⟩, hgroup, hset⟩ := hbest.sound key set hmem
  obtain rfl : set.key = groupKey := groupSet_key hset
  obtain ⟨hparse, hcomplete, -, -, -, hfiles, -⟩ := groupSet_eq_some.mp hset
  have hcollected := collected group
  refine ⟨(hgroups.complete_iff hgroup).mp hcomplete, fun version v hgroup' hparse' => ?_,
    fun file hfile => ?_, fun record hrecord hel hkey' => ?_⟩
  · -- the complete group has a set, and the best one is at least as new
    obtain ⟨⟨record, hrecord, hel, hrecordKey, -⟩, -⟩ := id hgroup'
    obtain ⟨group', hmem', -⟩ := hgroups.complete record hrecord hel
    rw [hrecordKey] at hmem'
    have hcomplete' := (hgroups.complete_iff hmem').mpr hgroup'
    have hset' := (@groupSet_eq_some ⟨set.source, set.target, set.variant, version⟩ _
      ⟨_, _, _, v, _, _⟩).mpr ⟨hparse', hcomplete', rfl, rfl, rfl, rfl, rfl⟩
    obtain ⟨key', best', hbest', hcmp, hle⟩ := hbest.newest _ hmem' _ hset'
    have hsame : GroupKey.cmpPair key key' = .eq := by
      rw [cmpPair_eq_eq] at hkey hcmp ⊢
      exact ⟨hkey.1.trans hcmp.1, hkey.2.1.trans hcmp.2.1, hkey.2.2.trans hcmp.2.2⟩
    obtain ⟨-, rfl⟩ := Prod.mk.inj (hbest.sorted.unique hmem hbest' hsame)
    exact hle
  · rw [hfiles] at hfile
    obtain ⟨hrecord, htype⟩ := hcollected.sound _ _ hfile
    obtain ⟨hrecords, hel, hkey'⟩ := hgroups.sound _ _ hgroup _ hrecord
    exact ⟨hrecords, hel, hkey', htype⟩
  · obtain ⟨group', hmem', hin⟩ := hgroups.complete record hrecord hel
    rw [hkey'] at hmem'
    obtain ⟨-, rfl⟩ := Prod.mk.inj
      (hgroups.sorted.unique hmem' hgroup (groupKey_cmp_eq_eq.mpr rfl))
    obtain ⟨record', hfile⟩ := hcollected.complete record hin
    rw [hfiles]
    exact ⟨_, hfile, rfl⟩

/-- The sets have pairs and variants of their own. -/
theorem sets_distinct : (accepted_sets records env).1.Pairwise fun a b =>
    ¬ (a.source = b.source ∧ a.target = b.target ∧ a.variant = b.variant) := by
  have hbest := best_of_groups (records.foldl (group_record env) ([], [])).1
  refine List.pairwise_map.mpr (hbest.sorted.imp_of_mem fun {a b} ha hb hlt heq => ?_)
  obtain ⟨hka, -⟩ := hbest.sound a.1 a.2 ha
  obtain ⟨hkb, -⟩ := hbest.sound b.1 b.2 hb
  have hab : GroupKey.cmpPair a.1 b.1 = .eq := by
    rw [cmpPair_eq_eq] at hka hkb ⊢
    exact ⟨(hka.1.trans heq.1).trans hkb.1.symm, (hka.2.1.trans heq.2.1).trans hkb.2.1.symm,
      (hka.2.2.trans heq.2.2).trans hkb.2.2.symm⟩
  rw [hlt] at hab
  cases hab

theorem exists_set {source target version : String} {variant : Option String}
    (h : CompleteGroup records env ⟨source, target, variant, version⟩) :
    ∃ set ∈ (accepted_sets records env).1,
      set.source = source ∧ set.target = target ∧ set.variant = variant := by
  have hgroups := grouped records env
  have hbest := best_of_groups (records.foldl (group_record env) ([], [])).1
  obtain ⟨⟨record, hrecord, hel, hkey, -⟩, -⟩ := id h
  obtain ⟨group, hmem, -⟩ := hgroups.complete record hrecord hel
  rw [hkey] at hmem
  have hparse : ∃ v, MozVersion.parse version = .ok v := by
    obtain ⟨-, v, hv, -⟩ := hel
    have hversion : record.version = version := congrArg GroupKey.version hkey
    rw [hversion] at hv
    exact ⟨v, hv⟩
  obtain ⟨v, hv⟩ := hparse
  have hset := (@groupSet_eq_some ⟨source, target, variant, version⟩ _
    ⟨_, _, _, v, _, _⟩).mpr ⟨hv, (hgroups.complete_iff hmem).mpr h, rfl, rfl, rfl, rfl, rfl⟩
  obtain ⟨key, set, hin, hcmp, -⟩ := hbest.newest _ hmem _ hset
  obtain ⟨hset, -⟩ := hbest.sound key set hin
  rw [cmpPair_eq_eq] at hcmp hset
  exact ⟨set, List.mem_map.mpr ⟨_, hin, rfl⟩, (hcmp.1.trans hset.1).symm,
    (hcmp.2.1.trans hset.2.1).symm, (hcmp.2.2.trans hset.2.2).symm⟩

theorem setsOf_of_complete {source target version : String} {variant : Option String}
    (h : CompleteGroup records env ⟨source, target, variant, version⟩) :
    ∃ set, setsOf records env source target variant = [set] := by
  obtain ⟨set, hset, hkey⟩ := exists_set h
  have hmem : set ∈ setsOf records env source target variant :=
    List.mem_filter.mpr ⟨hset, decide_eq_true hkey⟩
  have hdistinct : (setsOf records env source target variant).Pairwise fun a b => False := by
    refine (sets_distinct.filter _).imp_of_mem fun {a b} ha hb hne => hne ?_
    have ha := of_decide_eq_true (List.mem_filter.mp ha).2
    have hb := of_decide_eq_true (List.mem_filter.mp hb).2
    exact ⟨ha.1.trans hb.1.symm, ha.2.1.trans hb.2.1.symm, ha.2.2.trans hb.2.2.symm⟩
  cases hsets : setsOf records env source target variant with
  | nil =>
      rw [hsets] at hmem
      cases hmem
  | cons a rest =>
      cases rest with
      | nil => exact ⟨a, rfl⟩
      | cons b rest =>
          rw [hsets] at hdistinct
          exact ((List.pairwise_cons.mp hdistinct).1 b (List.mem_cons_self ..)).elim

variable (records env) in
/-- **The acceptance rule.** Each pair and variant has one set if some version
of it is complete, and none otherwise; and every set is the newest one of
its pair and variant, with the files of its group. -/
theorem accepted_sets_newest :
    (∀ source target variant,
      ((∃ version, CompleteGroup records env ⟨source, target, variant, version⟩) →
        ∃ set, setsOf records env source target variant = [set])
      ∧ ((¬ ∃ version, CompleteGroup records env ⟨source, target, variant, version⟩) →
        setsOf records env source target variant = []))
      ∧ ∀ set ∈ (accepted_sets records env).1, Newest records env set := by
  refine ⟨fun source target variant => ⟨fun ⟨version, h⟩ => setsOf_of_complete h, fun hnone => ?_⟩,
    fun set hset => newest_of_mem hset⟩
  rw [List.eq_nil_iff_forall_not_mem]
  intro set hset
  obtain ⟨hmem, hkey⟩ := List.mem_filter.mp hset
  obtain ⟨rfl, rfl, rfl⟩ := of_decide_eq_true hkey
  exact hnone ⟨_, (newest_of_mem hmem).complete⟩

end Accepted

end Dragomand
