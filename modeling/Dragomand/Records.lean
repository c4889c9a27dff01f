import Dragomand.SortedMap
import Dragomand.Version
import Dragomand.Words

/-!
# Records and the acceptance rule

The records of the `translations-models-v2` collection, one for each file,
and `accepted_sets`: evaluate `filter_expression`, group the records into
complete sets for each version, keep versions inside the supported major
window, pick the newest set of a pair.
-/

namespace Dragomand

open SortedMap (alter key_of_mem_alter value_of_mem_alter)

def MODEL_MAJOR_MIN : Nat := 3
def MODEL_MAJOR_MAX : Nat := 3

inductive FileType where
  | model
  | lex
  | vocab
  | srcVocab
  | trgVocab
  | unknown
deriving DecidableEq, Repr, Ord

/-- Hash and size describe the compressed download. -/
structure Attachment where
  hash : String
  size : Nat
  location : String
  mimetype : Option String
deriving DecidableEq, Repr

structure ModelRecord where
  id : String
  name : String
  source_language : String
  target_language : String
  version : String
  file_type : FileType
  variant : Option String
  architecture : Option String
  filter_expression : Option String
  attachment : Attachment
  decompressed_hash : String
  decompressed_size : Nat
  last_modified : Option Nat
deriving DecidableEq, Repr

/-! ## Filter expressions -/

structure FilterEnv where
  channel : String
  os : String
deriving DecidableEq, Repr

def FilterEnv.prerelease (allow : Bool) : FilterEnv :=
  ⟨if allow then "nightly" else "release", "Linux"⟩

def trim_start (text : List Char) : List Char := text.dropWhile is_whitespace

def trim (text : List Char) : List Char := (trim_start (trim_start text).reverse).reverse

/-- The pieces between the places where `c` stands twice. -/
def splitTwice (c : Char) : List Char → List (List Char)
  | [] => [[]]
  | [x] => [[x]]
  | x :: y :: rest =>
      if x = c ∧ y = c then [] :: splitTwice c rest
      else
        match splitTwice c (y :: rest) with
        | [] => [[x]]
        | piece :: pieces => (x :: piece) :: pieces

def eval_term (term : List Char) (env : FilterEnv) : Option Bool := do
  let (field, rest) ←
    match term.dropPrefix? "env.channel".toList with
    | some rest => some (env.channel, rest)
    | none => (term.dropPrefix? "env.appinfo.OS".toList).map fun rest => (env.os, rest)
  let rest := trim_start rest
  let (negate, rest) ←
    match rest.dropPrefix? "==".toList with
    | some rest => some (false, rest)
    | none => (rest.dropPrefix? "!=".toList).map fun rest => (true, rest)
  let literal ← ((trim rest).dropPrefix? ['\'']).bind fun rest => rest.dropSuffix? ['\'']
  if '\'' ∈ literal then none
  else some (decide (field.toList = literal) != negate)

/-- The terms of a clause; what comes after a false one is not read. -/
def allTerms (env : FilterEnv) : List (List Char) → Option Bool
  | [] => some true
  | term :: terms => do
      if ← eval_term (trim term) env then allTerms env terms else some false

def anyClause (env : FilterEnv) : List (List Char) → Option Bool
  | [] => some false
  | clause :: clauses => do
      let all_terms ← allTerms env (splitTwice '&' clause)
      let any_clause ← anyClause env clauses
      some (all_terms || any_clause)

/-- `none` for what is not understood. -/
def filter_matches (expression : Option String) (env : FilterEnv) : Option Bool :=
  let expression := trim (expression.getD "").toList
  if expression.isEmpty then some true else anyClause env (splitTwice '|' expression)

/-! ## Accepted sets -/

/-- `files` has the record of each file type, in the order of the types. -/
structure ModelSet where
  source : String
  target : String
  variant : Option String
  version : MozVersion
  architecture : Option String
  files : List (FileType × ModelRecord)
deriving DecidableEq, Repr

def ModelSet.pair (set : ModelSet) : String := set.source ++ "-" ++ set.target

structure GroupKey where
  source : String
  target : String
  variant : Option String
  version : String
deriving DecidableEq, Repr

/-- Without the version. -/
def GroupKey.cmpPair : GroupKey → GroupKey → Ordering :=
  compareLex (compareOn GroupKey.source)
    (compareLex (compareOn GroupKey.target) (compareOn GroupKey.variant))

def GroupKey.cmp : GroupKey → GroupKey → Ordering :=
  compareLex GroupKey.cmpPair (compareOn GroupKey.version)

/-- The version of a record, if the engine supports it. -/
def ModelRecord.supported (record : ModelRecord) : Option MozVersion :=
  match MozVersion.parse record.version with
  | .error _ => none
  | .ok version =>
      if version.major < MODEL_MAJOR_MIN || version.major > MODEL_MAJOR_MAX then none
      else some version

/-- The groups with the expressions skipped. -/
abbrev Groups := List (GroupKey × List ModelRecord) × List String

def group_record (env : FilterEnv) (groups : Groups) (record : ModelRecord) : Groups :=
  match filter_matches record.filter_expression env with
  | none =>
      let expression := record.filter_expression.getD ""
      (groups.1, if expression ∈ groups.2 then groups.2 else groups.2 ++ [expression])
  | some false => groups
  | some true =>
      match record.supported with
      | none => groups
      | some _ =>
          let key : GroupKey :=
            ⟨record.source_language, record.target_language, record.variant, record.version⟩
          (alter GroupKey.cmp key (fun group => group.getD [] ++ [record]) groups.1, groups.2)

def collect_files (group : List ModelRecord) : List (FileType × ModelRecord) :=
  group.foldl (fun files record => alter compare record.file_type (fun _ => record) files) []

def complete (files : List (FileType × ModelRecord)) : Bool :=
  let contains_key := fun file_type => files.any fun file => file.1 = file_type
  contains_key .model
    && (contains_key .vocab || (contains_key .srcVocab && contains_key .trgVocab))

/-- The set of a group, if it is complete. -/
def groupSet (key : GroupKey) (group : List ModelRecord) : Option ModelSet :=
  let files := collect_files group
  match MozVersion.parse key.version with
  | .error _ => none
  | .ok version =>
      if complete files then
        let model := files.find? fun file => file.1 = .model
        some ⟨key.source, key.target, key.variant, version,
          model.bind fun file => file.2.architecture, files⟩
      else none

/-- The newer of the sets of a pair; on a tie, the one already there. -/
def newerSet (set : ModelSet) : Option ModelSet → ModelSet
  | none => set
  | some existing => if (existing.version.cmp set.version).isGE then existing else set

def best_group (best : List (GroupKey × ModelSet)) (group : GroupKey × List ModelRecord) :
    List (GroupKey × ModelSet) :=
  match groupSet group.1 group.2 with
  | none => best
  | some set => alter GroupKey.cmpPair group.1 (newerSet set) best

/-- The sets, and the filter expressions that were skipped. -/
def accepted_sets (records : List ModelRecord) (env : FilterEnv) : List ModelSet × List String :=
  let (groups, skipped_filters) := records.foldl (group_record env) ([], [])
  ((groups.foldl best_group []).map Prod.snd, skipped_filters)

/-! ## What is accepted -/

/-- The versions the engine supports. -/
def MozVersion.inWindow (version : MozVersion) : Bool :=
  MODEL_MAJOR_MIN ≤ version.major && version.major ≤ MODEL_MAJOR_MAX

theorem ModelRecord.inWindow_of_supported {record : ModelRecord} {version : MozVersion}
    (h : record.supported = some version) :
    MozVersion.parse record.version = .ok version ∧ version.inWindow = true := by
  unfold supported at h
  split at h
  · cases h
  · rename_i version' hparse
    split at h
    · cases h
    · rename_i hwindow
      cases h
      refine ⟨hparse, ?_⟩
      simp only [Bool.or_eq_true, decide_eq_true_eq, not_or, Nat.not_lt] at hwindow
      simp only [MozVersion.inWindow, Bool.and_eq_true, decide_eq_true_eq]
      exact hwindow

section Accepted

variable {env : FilterEnv}

/-- Every group is one of a supported version. -/
def GroupsSupported (groups : List (GroupKey × List ModelRecord)) : Prop :=
  ∀ entry ∈ groups, ∃ version, MozVersion.parse entry.1.version = .ok version
    ∧ version.inWindow = true

theorem groupsSupported_record {groups : Groups} (record : ModelRecord)
    (h : GroupsSupported groups.1) : GroupsSupported (group_record env groups record).1 := by
  unfold group_record
  split
  · exact h
  · exact h
  · split
    · exact h
    · rename_i version hversion
      intro entry hmem
      rcases key_of_mem_alter hmem with hkey | ⟨value, hold⟩
      · rw [hkey]
        exact ⟨version, ModelRecord.inWindow_of_supported hversion⟩
      · exact h (entry.1, value) hold

theorem groupsSupported_foldl (records : List ModelRecord) {groups : Groups}
    (h : GroupsSupported groups.1) :
    GroupsSupported (records.foldl (group_record env) groups).1 := by
  induction records generalizing groups with
  | nil => exact h
  | cons record records ih => exact ih (groupsSupported_record record h)

theorem groupSet_version {key : GroupKey} {group : List ModelRecord} {set : ModelSet}
    (h : groupSet key group = some set) : MozVersion.parse key.version = .ok set.version := by
  unfold groupSet at h
  dsimp only at h
  split at h
  · cases h
  · rename_i version hparse
    split at h
    · cases h
      exact hparse
    · cases h

theorem newerSet_cases (set : ModelSet) (existing : Option ModelSet) :
    newerSet set existing = set ∨ some (newerSet set existing) = existing := by
  cases existing with
  | none => exact Or.inl rfl
  | some existing =>
      rw [newerSet]
      split
      · exact Or.inr rfl
      · exact Or.inl rfl

/-- The best sets so far are all supported. -/
def BestSupported (best : List (GroupKey × ModelSet)) : Prop :=
  ∀ entry ∈ best, entry.2.version.inWindow = true

theorem bestSupported_group {best : List (GroupKey × ModelSet)}
    {group : GroupKey × List ModelRecord} (hgroup : ∃ version,
      MozVersion.parse group.1.version = .ok version ∧ version.inWindow = true)
    (hbest : BestSupported best) : BestSupported (best_group best group) := by
  unfold best_group
  split
  · exact hbest
  · rename_i set hset
    obtain ⟨version, hparse, hwindow⟩ := hgroup
    have hnew : set.version.inWindow = true := by
      have hversion := Except.ok.inj ((groupSet_version hset).symm.trans hparse)
      rw [hversion, hwindow]
    intro entry hmem
    rcases value_of_mem_alter hmem with hold | hvalue | ⟨old, hold, hvalue⟩
    · exact hbest entry hold
    · rw [hvalue]
      exact hnew
    · rw [hvalue]
      rcases newerSet_cases set (some old.2) with heq | heq
      · rw [heq]
        exact hnew
      · rw [Option.some.inj heq]
        exact hbest old hold

theorem bestSupported_foldl (groups : List (GroupKey × List ModelRecord))
    {best : List (GroupKey × ModelSet)} (hgroups : GroupsSupported groups)
    (hbest : BestSupported best) : BestSupported (groups.foldl best_group best) := by
  induction groups generalizing best with
  | nil => exact hbest
  | cons group groups ih =>
      exact ih (fun entry hmem => hgroups entry (List.mem_cons_of_mem _ hmem))
        (bestSupported_group (hgroups group (List.mem_cons_self ..)) hbest)

/-- The version of an accepted set is inside the supported window. -/
theorem accepted_sets_inWindow {records : List ModelRecord} {set : ModelSet}
    (h : set ∈ (accepted_sets records env).1) : set.version.inWindow = true := by
  obtain ⟨entry, hmem, rfl⟩ := List.mem_map.mp h
  exact bestSupported_foldl _ (groupsSupported_foldl records (by simp [GroupsSupported]))
    (by simp [BestSupported]) entry hmem

end Accepted

example : filter_matches (some "env.channel == 'default' || env.channel == 'nightly'")
    (.prerelease true) = some true := by decide

end Dragomand
