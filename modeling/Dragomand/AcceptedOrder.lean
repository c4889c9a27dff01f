import Dragomand.Accepted

/-!
# The order of the records

`accepted_sets` folds the records into maps by inserts that overwrite, so
that of several records of one group and file type the last one stays. The
lists of sets for two orders of the same records are `Alike`, place by place:
the order decides no more than which record stands for a file type.
-/

namespace Dragomand

open SortedMap (alter get Sorted)

section Order

variable {env : FilterEnv} {records records' : List ModelRecord}

instance (record : ModelRecord) : Decidable (Eligible env record) :=
  decidable_of_iff (filter_matches record.filter_expression env = some true
    ∧ record.supported.isSome = true) (by rw [eligible_iff, Option.isSome_iff_exists])

/-- The eligible records under a key. -/
def groupOf (records : List ModelRecord) (env : FilterEnv) (key : GroupKey) : List ModelRecord :=
  records.filter fun record => Eligible env record ∧ record.key = key

/-- The last eligible record of a file type under a key. -/
def lastRecord (records : List ModelRecord) (env : FilterEnv) (key : GroupKey)
    (file_type : FileType) : Option ModelRecord :=
  ((groupOf records env key).filter fun record => record.file_type = file_type).getLast?

/-! ## The maps of the records -/

theorem group_record_fst (groups : Groups) (record : ModelRecord) :
    (group_record env groups record).1 = if Eligible env record then
      alter GroupKey.cmp record.key (fun group => group.getD [] ++ [record]) groups.1
    else groups.1 := by
  unfold group_record
  split_ifs with hel
  · obtain ⟨hfilter, version, hversion⟩ := eligible_iff.mp hel
    simp only [hfilter, hversion]
    rfl
  · split
    · rfl
    · rfl
    · rename_i hfilter
      split
      · rfl
      · rename_i version hversion
        exact absurd (eligible_iff.mpr ⟨hfilter, version, hversion⟩) hel

theorem foldl_group_record (groups : Groups) : (records.foldl (group_record env) groups).1
    = (records.filter (Eligible env ·)).foldl (fun groups record =>
        alter GroupKey.cmp record.key (fun group => group.getD [] ++ [record]) groups) groups.1 := by
  induction records generalizing groups with
  | nil => rfl
  | cons record records ih =>
      rw [List.foldl_cons, ih, group_record_fst]
      by_cases hel : Eligible env record
      · rw [if_pos hel, List.filter_cons_of_pos (by simpa using hel), List.foldl_cons]
      · rw [if_neg hel, List.filter_cons_of_neg (by simpa using hel)]

variable (records env) in
/-- A group has the eligible records of its key, in their order. -/
theorem get_groups (key : GroupKey) :
    get GroupKey.cmp (records.foldl (group_record env) ([], [])).1 key
      = if groupOf records env key = [] then none else some (groupOf records env key) := by
  have hgroup : (records.filter (Eligible env ·)).filter
      (fun record => GroupKey.cmp record.key key = .eq) = groupOf records env key := by
    rw [List.filter_filter]
    refine List.filter_congr fun record _ => ?_
    simp only [groupKey_cmp_eq_eq, Bool.decide_and]
    exact Bool.and_comm _ _
  have hget : get GroupKey.cmp (SortedMap.group GroupKey.cmp ModelRecord.key
      (records.filter (Eligible env ·))) key = _ := SortedMap.get_group _ key
  rw [hgroup] at hget
  rw [foldl_group_record]
  exact hget

theorem get_collect_files (group : List ModelRecord) (file_type : FileType) :
    get compare (collect_files group) file_type
      = (group.filter fun record => record.file_type = file_type).getLast? := by
  have hlast : ∀ (l : List ModelRecord) (v : Option ModelRecord),
      l.foldl (fun _ record => some record) v = l.getLast?.or v := by
    intro l
    induction l with
    | nil => exact fun v => rfl
    | cons record l ih =>
        intro v
        rw [List.foldl_cons, ih, List.getLast?_cons]
        cases l.getLast? <;> rfl
  have hget : get compare (collect_files group) file_type
      = (group.filter fun record => compare record.file_type file_type = .eq).foldl
          (fun _ record => some record) none := Sorted.get_foldl_alter group .nil file_type
  rw [hget, hlast, Option.or_none]
  simp only [Std.LawfulEqCmp.compare_eq_iff_eq]

/-! ## Two orders -/

/-- The sets differ in the records of their file types at most. -/
structure ModelSet.Alike (a b : ModelSet) : Prop where
  source : a.source = b.source
  target : a.target = b.target
  variant : a.variant = b.variant
  version : a.version = b.version
  file_types : a.files.map Prod.fst = b.files.map Prod.fst

theorem getLast?_rel {α : Type*} {l l' : List α} (h : l.Perm l') :
    Option.Rel (fun _ _ => True) l.getLast? l'.getLast? := by
  cases hl : l.getLast? with
  | none =>
      obtain rfl := List.getLast?_eq_none_iff.mp hl
      rw [List.nil_perm.mp h]
      exact .none
  | some a =>
      cases hl' : l'.getLast? with
      | none =>
          rw [List.getLast?_eq_none_iff] at hl'
          rw [hl'] at h
          rw [List.perm_nil.mp h] at hl
          cases hl
      | some b => exact .some trivial

theorem collect_files_types {group group' : List ModelRecord} (h : group.Perm group') :
    (collect_files group).map Prod.fst = (collect_files group').map Prod.fst := by
  have hrel := (collected group).sorted.forall₂_of_get (collected group').sorted
    (R := fun _ _ => True) fun file_type => by
      rw [get_collect_files, get_collect_files]
      exact getLast?_rel (h.filter _)
  generalize collect_files group = files, collect_files group' = files' at hrel
  induction hrel with
  | nil => rfl
  | cons hab _ ih => rw [List.map_cons, List.map_cons, ih, Std.LawfulEqCmp.eq_of_compare hab.1]

theorem groupSet_alike {key : GroupKey} {group group' : List ModelRecord}
    (h : group.Perm group') : Option.Rel ModelSet.Alike (groupSet key group) (groupSet key group') := by
  have htypes := collect_files_types h
  have hcomplete : complete (collect_files group) = complete (collect_files group') := by
    have hany : ∀ (files : List (FileType × ModelRecord)) (t : FileType),
        (files.any fun file => file.1 = t) = (files.map Prod.fst).any (· = t) := by
      intro files t
      rw [List.any_map]
      rfl
    unfold complete
    simp only [hany, htypes]
  unfold groupSet
  dsimp only
  rw [hcomplete]
  split
  · exact .none
  · split
    · exact .some ⟨rfl, rfl, rfl, rfl, htypes⟩
    · exact .none

theorem newerSet_alike {set set' : ModelSet} {existing existing' : Option ModelSet}
    (h : set.Alike set') (hex : Option.Rel ModelSet.Alike existing existing') :
    (newerSet set existing).Alike (newerSet set' existing') := by
  cases hex with
  | none => exact h
  | some hex =>
      rw [newerSet, newerSet, hex.version, h.version]
      split
      · exact hex
      · exact h

/-- Related groups, one after another, leave related best sets. -/
theorem best_alike {groups groups' : List (GroupKey × List ModelRecord)}
    (h : List.Forall₂ (fun a b => GroupKey.cmp a.1 b.1 = .eq ∧ a.2.Perm b.2) groups groups')
    {best best' : List (GroupKey × ModelSet)} (hbest : Sorted GroupKey.cmpPair best)
    (hbest' : Sorted GroupKey.cmpPair best') (hrel : ∀ key, Option.Rel ModelSet.Alike
      (get GroupKey.cmpPair best key) (get GroupKey.cmpPair best' key)) (key : GroupKey) :
    Option.Rel ModelSet.Alike (get GroupKey.cmpPair (groups.foldl best_group best) key)
      (get GroupKey.cmpPair (groups'.foldl best_group best') key) := by
  induction h generalizing best best' with
  | nil => exact hrel key
  | @cons group group' groups groups' hgroup _ ih =>
      rw [List.foldl_cons, List.foldl_cons]
      obtain ⟨hkey, hperm⟩ := hgroup
      have hkey := groupKey_cmp_eq_eq.mp hkey
      have hset := @groupSet_alike group.1 _ _ hperm
      unfold best_group
      rw [← hkey]
      generalize groupSet group.1 group.2 = set, groupSet group.1 group'.2 = set' at hset
      cases hset with
      | none => exact ih hbest hbest' hrel
      | some halike =>
          refine ih hbest.alter hbest'.alter fun key => ?_
          rw [hbest.get_alter, hbest'.get_alter]
          split
          · exact .some (newerSet_alike halike (hrel key))
          · exact hrel key

/-- The sets of two orders are alike, place by place. -/
theorem accepted_sets_alike (h : records.Perm records') : List.Forall₂ ModelSet.Alike
    (accepted_sets records env).1 (accepted_sets records' env).1 := by
  have hgroups : List.Forall₂ (fun a b => GroupKey.cmp a.1 b.1 = .eq ∧ a.2.Perm b.2)
      (records.foldl (group_record env) ([], [])).1 (records'.foldl (group_record env) ([], [])).1 := by
    refine (grouped records env).sorted.forall₂_of_get (grouped records' env).sorted fun key => ?_
    rw [get_groups, get_groups]
    have hperm : (groupOf records env key).Perm (groupOf records' env key) := h.filter _
    by_cases hnil : groupOf records env key = []
    · rw [hnil] at hperm
      rw [if_pos hnil, if_pos (List.nil_perm.mp hperm)]
      exact .none
    · have hnil' : groupOf records' env key ≠ [] := by
        intro hnil'
        rw [hnil'] at hperm
        exact hnil (List.perm_nil.mp hperm)
      rw [if_neg hnil, if_neg hnil']
      exact .some hperm
  have hbest := (best_of_groups (records.foldl (group_record env) ([], [])).1).sorted.forall₂_of_get
    (best_of_groups (records'.foldl (group_record env) ([], [])).1).sorted
    (best_alike hgroups .nil .nil fun _ => .none)
  refine List.forall₂_map_left_iff.mpr (List.forall₂_map_right_iff.mpr (hbest.imp ?_))
  exact fun a b hab => hab.2

/-! ## Which record stands for a file type -/

/-- What a set has for the file types. -/
structure ModelSet.Stands (records : List ModelRecord) (env : FilterEnv) (set : ModelSet) :
    Prop where
  sorted : Sorted compare set.files
  files : ∀ file_type, get compare set.files file_type = lastRecord records env set.key file_type
  architecture : set.architecture = ((set.files.find? fun file => file.1 = .model).bind
    fun file => file.2.architecture)

/-- For each file type, the last eligible record stands. -/
theorem stands_of_mem {set : ModelSet} (h : set ∈ (accepted_sets records env).1) :
    set.Stands records env := by
  obtain ⟨⟨key, set⟩, hmem, rfl⟩ := List.mem_map.mp h
  obtain ⟨-, ⟨groupKey, group⟩, hgroup, hset⟩ :=
    (best_of_groups (records.foldl (group_record env) ([], [])).1).sound key set hmem
  obtain rfl : set.key = groupKey := groupSet_key hset
  obtain ⟨-, -, -, -, -, hfiles, harchitecture⟩ := groupSet_eq_some.mp hset
  have hget := (grouped records env).sorted.get_of_mem hgroup Std.ReflCmp.compare_self
  rw [get_groups] at hget
  split at hget
  · cases hget
  · obtain rfl := Option.some.inj hget
    rw [← hfiles] at harchitecture
    refine ⟨hfiles ▸ (collected _).sorted, fun file_type => ?_, harchitecture⟩
    rw [hfiles, get_collect_files]
    rfl

theorem ModelSet.Alike.eq_of_last {a b : ModelSet} (h : a.Alike b) (ha : a.Stands records env)
    (hb : b.Stands records' env) (hlast : ∀ file_type,
      lastRecord records env a.key file_type = lastRecord records' env a.key file_type) : a = b := by
  have hkey : a.key = b.key := by
    rw [ModelSet.key, ModelSet.key, h.source, h.target, h.variant, h.version]
  have hfiles := ha.sorted.forall₂_of_get hb.sorted (R := Eq) fun file_type => by
    rw [ha.files, hb.files, hlast, ← hkey]
    cases lastRecord records' env a.key file_type with
    | none => exact .none
    | some record => exact .some rfl
  have hfiles : a.files = b.files := List.forall₂_eq_eq_eq ▸ hfiles.imp fun x y hxy =>
    Prod.ext (Std.LawfulEqCmp.eq_of_compare hxy.1) hxy.2
  have harchitecture : a.architecture = b.architecture := by
    rw [ha.architecture, hb.architecture, hfiles]
  obtain ⟨source, target, variant, version, architecture, files⟩ := a
  obtain ⟨rfl, rfl, rfl, rfl, -⟩ := h
  cases hfiles
  cases harchitecture
  rfl

theorem eq_of_forall₂ {α : Type*} {R : α → α → Prop} {l l' : List α} (h : List.Forall₂ R l l')
    (heq : ∀ a ∈ l, ∀ b ∈ l', R a b → a = b) : l = l' := by
  induction h with
  | nil => rfl
  | @cons a b l l' hab _ ih =>
      have hhead := heq a (List.mem_cons_self ..) b (List.mem_cons_self ..) hab
      have htail := ih fun a ha b hb => heq a (List.mem_cons_of_mem _ ha) b (List.mem_cons_of_mem _ hb)
      rw [hhead, htail]

/-- No two records claim one place: eligible ones of one group and file type
are the same record. -/
def NoClash (records : List ModelRecord) (env : FilterEnv) : Prop :=
  ∀ a ∈ records, ∀ b ∈ records, Eligible env a → Eligible env b → a.key = b.key →
    a.file_type = b.file_type → a = b

theorem NoClash.lastRecord_eq (hclash : NoClash records env) (h : records.Perm records')
    (key : GroupKey) (file_type : FileType) :
    lastRecord records env key file_type = lastRecord records' env key file_type := by
  have hperm := (h.filter fun record => Eligible env record ∧ record.key = key).filter
    fun record => record.file_type = file_type
  have hsame : ∀ a b, lastRecord records env key file_type = some a →
      lastRecord records' env key file_type = some b → a = b := by
    intro a b ha hb
    have hmem : ∀ r, r ∈ (groupOf records env key).filter (fun record => record.file_type = file_type)
        → r ∈ records ∧ Eligible env r ∧ r.key = key ∧ r.file_type = file_type := by
      intro r hr
      obtain ⟨hr, htype⟩ := List.mem_filter.mp hr
      obtain ⟨hr, hel⟩ := List.mem_filter.mp hr
      obtain ⟨hel, hkey⟩ := of_decide_eq_true hel
      exact ⟨hr, hel, hkey, of_decide_eq_true htype⟩
    obtain ⟨ha, hel, hkey, htype⟩ := hmem a (List.mem_of_getLast? ha)
    obtain ⟨hb, hel', hkey', htype'⟩ := hmem b (hperm.mem_iff.mpr (List.mem_of_getLast? hb))
    exact hclash a ha b hb hel hel' (hkey.trans hkey'.symm) (htype.trans htype'.symm)
  have hrel := getLast?_rel hperm
  change Option.Rel _ (lastRecord records env key file_type)
    (lastRecord records' env key file_type) at hrel
  generalize lastRecord records env key file_type = last,
    lastRecord records' env key file_type = last' at hrel hsame ⊢
  cases hrel with
  | none => rfl
  | some _ => rw [hsame _ _ rfl rfl]

variable (env) in
/-- **The order of the records.** Two orders of the same records make sets
that are alike, place by place. They are the same if and only if for each set
and file type the last eligible record is, so if no two records clash. -/
theorem accepted_sets_order (h : records.Perm records') :
    List.Forall₂ ModelSet.Alike (accepted_sets records env).1 (accepted_sets records' env).1
      ∧ ((accepted_sets records env).1 = (accepted_sets records' env).1
        ↔ ∀ set ∈ (accepted_sets records env).1, ∀ file_type,
          lastRecord records env set.key file_type = lastRecord records' env set.key file_type)
      ∧ (NoClash records env → (accepted_sets records env).1 = (accepted_sets records' env).1) := by
  have halike := @accepted_sets_alike env _ _ h
  have hiff : (accepted_sets records env).1 = (accepted_sets records' env).1
      ↔ ∀ set ∈ (accepted_sets records env).1, ∀ file_type,
        lastRecord records env set.key file_type = lastRecord records' env set.key file_type := by
    constructor
    · intro heq set hset file_type
      rw [← (stands_of_mem hset).files, ← (stands_of_mem (heq ▸ hset)).files]
    · intro hlast
      exact eq_of_forall₂ halike fun a ha b hb hab =>
        hab.eq_of_last (stands_of_mem ha) (stands_of_mem hb) (hlast a ha)
  exact ⟨halike, hiff, fun hclash => hiff.mpr fun set _ file_type =>
    hclash.lastRecord_eq h set.key file_type⟩

end Order

def orderRecord (id : String) (file_type : FileType) : ModelRecord :=
  ⟨id, id, "bg", "en", "3.0", file_type, none, none, none, ⟨"", 1, id, none⟩, "", 1, none⟩

/-- Two models of one version: the one listed later is in the set. -/
theorem accepted_sets_not_perm : ¬ ∀ (records records' : List ModelRecord) (env : FilterEnv),
    records.Perm records' → (accepted_sets records env).1 = (accepted_sets records' env).1 := by
  intro h
  have hsame := h [orderRecord "a" .model, orderRecord "b" .model, orderRecord "v" .vocab]
    [orderRecord "b" .model, orderRecord "a" .model, orderRecord "v" .vocab] (.prerelease false)
    (List.Perm.swap ..)
  revert hsame
  decide +kernel

/-- A vocabulary listed before its model, or after it. -/
theorem accepted_sets_order_listed :
    (accepted_sets [orderRecord "a" .model, orderRecord "v" .vocab] (.prerelease false)).1
      = (accepted_sets [orderRecord "v" .vocab, orderRecord "a" .model] (.prerelease false)).1 :=
  (accepted_sets_order (.prerelease false) (List.Perm.swap ..)).2.2 fun a ha b hb _ _ _ htype => by
    rcases List.mem_pair.mp ha with rfl | rfl <;> rcases List.mem_pair.mp hb with rfl | rfl
    · rfl
    · cases htype
    · cases htype
    · rfl

end Dragomand
