import Mathlib.Data.List.Dedup
import Mathlib.Data.List.Infix
import Mathlib.Logic.Function.Basic
import Mathlib.Tactic.TypeStar

/-!
# File trees

A file system without links. A node is named by the list of names from it
up to the root, so that `dir` is the directory of `name :: dir`, and
everything below `dir` has `dir` as a suffix. `FileTree` carries what makes
it a tree: it is finite, and a node lies in a directory.

`walk` resolves the components of a path as the system calls do; the
changes are `mkdir`, `put`, `remove` and `rename`, each with the error the
call would give. What lies below a directory can only be read through it
(`walk_congr`), and a change touches only what its lemma says.
-/

namespace FileTree

theorem map_eq_ok {ε α γ : Type*} {x : Except ε α} {f : α → γ} {c : γ} :
    x.map f = .ok c ↔ ∃ a, x = .ok a ∧ f a = c := by
  cases x <;> simp [Except.map]

theorem bind_eq_ok {ε α γ : Type*} {x : Except ε α} {f : α → Except ε γ} {c : γ} :
    x.bind f = .ok c ↔ ∃ a, x = .ok a ∧ f a = .ok c := by
  cases x <;> simp [Except.bind]

inductive Node (β : Type*) where
  | dir
  | file (content : β)
deriving DecidableEq, Repr

/-- Why a system call fails. -/
inductive IoError where
  | notFound
  | notADirectory
  | isADirectory
  | alreadyExists
  | directoryNotEmpty
  | invalidInput
  | other (message : String)
deriving DecidableEq, Repr

/-- A name an entry of a directory can have. -/
def plainName (name : String) : Bool :=
  name ≠ "" && name ≠ "." && name ≠ ".." && name.toList.all fun c => c ≠ '/' && c.toNat ≠ 0

end FileTree

open FileTree in
/-- `paths` has every node, in the order in which directories list them. -/
structure FileTree (β : Type*) where
  node : List String → Option (Node β)
  paths : List (List String)
  finite : ∀ p, node p ≠ none → p ∈ paths
  root : node [] = some .dir
  parent : ∀ name dir, node (name :: dir) ≠ none → node dir = some .dir
  plain : ∀ name dir, node (name :: dir) ≠ none → plainName name = true

namespace FileTree

variable {β : Type*}

/-- The tree of a root directory alone. -/
def empty : FileTree β where
  node p := if p = [] then some .dir else none
  paths := [[]]
  finite p hp := by
    by_cases h : p = []
    · simp [h]
    · simp [h] at hp
  root := if_pos rfl
  parent name dir h := by simp at h
  plain name dir h := by simp at h

def isDir (t : FileTree β) (p : List String) : Bool :=
  match t.node p with
  | some .dir => true
  | _ => false

theorem isDir_iff {t : FileTree β} {p : List String} :
    t.isDir p = true ↔ t.node p = some .dir := by
  unfold isDir
  split
  · rename_i h
    exact ⟨fun _ => h, fun _ => rfl⟩
  · rename_i h
    exact ⟨nofun, fun hp => absurd hp h⟩

/-- What is above a node is a directory. -/
theorem node_of_append (t : FileTree β) {q dir : List String} (hq : q ≠ [])
    (h : t.node (q ++ dir) ≠ none) : t.node dir = some .dir := by
  induction q with
  | nil => exact absurd rfl hq
  | cons name q ih =>
      have hparent := t.parent name (q ++ dir) h
      by_cases hnil : q = []
      · rwa [hnil, List.nil_append] at hparent
      · exact ih hnil (by rw [hparent]; exact Option.some_ne_none _)

/-! ## Reading -/

/-- The entries of a directory. -/
def names (t : FileTree β) (dir : List String) : List String :=
  (t.paths.filterMap fun p => match p with
    | [] => none
    | name :: dir' => if dir' = dir ∧ (t.node p).isSome then some name else none).dedup

theorem mem_names {t : FileTree β} {name : String} {dir : List String} :
    name ∈ t.names dir ↔ t.node (name :: dir) ≠ none := by
  unfold names
  rw [List.mem_dedup, List.mem_filterMap]
  constructor
  · rintro ⟨p, -, hp⟩
    split at hp
    · cases hp
    · split at hp
      · rename_i hsome
        cases hp
        obtain ⟨rfl, hsome⟩ := hsome
        exact Option.isSome_iff_ne_none.mp hsome
      · cases hp
  · intro h
    exact ⟨name :: dir, t.finite _ h, if_pos ⟨rfl, Option.isSome_iff_ne_none.mpr h⟩⟩

/-- Follows the components of a path from `cur` on; the last one need not
exist. -/
def walk (t : FileTree β) : List String → List String → Except IoError (List String)
  | cur, [] => .ok cur
  | cur, c :: cs =>
      match t.node cur with
      | none => .error .notFound
      | some (.file _) => .error .notADirectory
      | some .dir =>
          if c = "" ∨ c = "." then t.walk cur cs
          else if c = ".." then t.walk cur.tail cs
          else t.walk (c :: cur) cs

/-- Where the components of a path lead when every one exists. -/
def locate : List String → List String → List String
  | cur, [] => cur
  | cur, c :: cs =>
      if c = "" ∨ c = "." then locate cur cs
      else if c = ".." then locate cur.tail cs
      else locate (c :: cur) cs

/-- `stat` of a path from the root. -/
def stat (t : FileTree β) (path : List String) : Except IoError (List String × Node β) :=
  (t.walk [] path).bind fun p =>
    match t.node p with
    | none => .error .notFound
    | some node => .ok (p, node)

/-- The content of the file at a path. -/
def read (t : FileTree β) (path : List String) : Except IoError β :=
  (t.stat path).bind fun found =>
    match found.2 with
    | .dir => .error .isADirectory
    | .file content => .ok content

/-- The entries of the directory at a path. -/
def readDir (t : FileTree β) (path : List String) : Except IoError (List String) :=
  (t.stat path).bind fun found =>
    match found.2 with
    | .dir => .ok (t.names found.1)
    | .file _ => .error .notADirectory

/-- The first directory that `create_dir_all` has to make along a path. -/
def missing (t : FileTree β) : List String → List String → Except IoError (Option (List String))
  | cur, [] => if t.isDir cur then .ok none else .error .notFound
  | cur, c :: cs =>
      if t.isDir cur then
        if c = "" ∨ c = "." then t.missing cur cs
        else if c = ".." then t.missing cur.tail cs
        else
          match t.node (c :: cur) with
          | none => .ok (some (c :: cur))
          | some .dir => t.missing (c :: cur) cs
          | some (.file _) => .error (if cs.isEmpty then .alreadyExists else .notADirectory)
      else .error .notADirectory

section Walk

variable {t t' : FileTree β} {cur : List String} {cs : List String}

theorem plainName_ne {c : String} (h : plainName c = true) : c ≠ "" ∧ c ≠ "." ∧ c ≠ ".." := by
  simp only [plainName, Bool.and_eq_true, decide_eq_true_eq] at h
  exact ⟨h.1.1.1, h.1.1.2, h.1.2⟩

theorem walk_cons_plain {c : String} (hc : plainName c = true) (hdir : t.node cur = some .dir) :
    t.walk cur (c :: cs) = t.walk (c :: cur) cs := by
  obtain ⟨hempty, hdot, hdots⟩ := plainName_ne hc
  rw [walk, hdir]
  simp only [hempty, hdot, hdots, or_self, if_false]

theorem walk_append (cs' : List String) :
    t.walk cur (cs ++ cs') = (t.walk cur cs).bind fun p => t.walk p cs' := by
  induction cs generalizing cur with
  | nil => rfl
  | cons c cs ih =>
      rw [List.cons_append, walk, walk]
      split
      · rfl
      · rfl
      · split_ifs
        · exact ih
        · exact ih
        · exact ih

theorem walk_eq_locate {p : List String} (h : t.walk cur cs = .ok p) : p = locate cur cs := by
  induction cs generalizing cur with
  | nil =>
      cases h
      rfl
  | cons c cs ih =>
      rw [walk] at h
      rw [locate]
      split at h
      · cases h
      · cases h
      · split_ifs at h ⊢
        · exact ih h
        · exact ih h
        · exact ih h

theorem locate_append (cs' : List String) : locate cur (cs ++ cs') = locate (locate cur cs) cs' := by
  induction cs generalizing cur with
  | nil => rfl
  | cons c cs ih =>
      rw [List.cons_append, locate, locate]
      split_ifs
      · exact ih
      · exact ih
      · exact ih

theorem locate_plain (hcs : ∀ c ∈ cs, plainName c = true) : locate cur cs = cs.reverse ++ cur := by
  induction cs generalizing cur with
  | nil => rfl
  | cons c cs ih =>
      obtain ⟨hempty, hdot, hdots⟩ := plainName_ne (hcs c (List.mem_cons_self ..))
      simp only [locate, hempty, hdot, hdots, or_self, if_false]
      rw [ih fun c hc => hcs c (List.mem_cons_of_mem _ hc), List.reverse_cons, List.append_assoc]
      rfl

/-- Without `..`, a path leads nowhere but below where it starts. -/
theorem suffix_locate {dir : List String} (hcs : ∀ c ∈ cs, c ≠ "..") (hcur : dir <:+ cur) :
    dir <:+ locate cur cs := by
  induction cs generalizing cur with
  | nil => exact hcur
  | cons c cs ih =>
      have hrest : ∀ c ∈ cs, c ≠ ".." := fun c hc => hcs c (List.mem_cons_of_mem _ hc)
      rw [locate, if_neg (hcs c (List.mem_cons_self ..))]
      split_ifs
      · exact ih hrest hcur
      · exact ih hrest (hcur.trans (List.suffix_cons ..))

theorem plain_snoc {c : String} (hcs : ∀ c ∈ cs, plainName c = true) (hc : plainName c = true) :
    ∀ c' ∈ cs ++ [c], plainName c' = true := by
  intro c' hc'
  rcases List.mem_append.mp hc' with hc' | hc'
  · exact hcs c' hc'
  · rwa [List.mem_singleton.mp hc']

/-- Along plain names, the walk reaches what they name. -/
theorem walk_plain (hcs : ∀ c ∈ cs, plainName c = true)
    (h : t.node (cs.reverse ++ cur) ≠ none) : t.walk cur cs = .ok (cs.reverse ++ cur) := by
  induction cs generalizing cur with
  | nil => rfl
  | cons c cs ih =>
      have heq : (c :: cs).reverse ++ cur = cs.reverse ++ (c :: cur) := by simp
      rw [heq] at h ⊢
      have hdir : t.node cur = some .dir := by
        refine t.node_of_append (q := cs.reverse ++ [c]) (by simp) ?_
        rwa [List.append_assoc, List.singleton_append]
      rw [walk_cons_plain (hcs c (List.mem_cons_self ..)) hdir]
      exact ih (fun c hc => hcs c (List.mem_cons_of_mem _ hc)) h

/-- A new entry of a directory is reached, too. -/
theorem walk_plain_snoc {c : String} (hcs : ∀ c ∈ cs, plainName c = true)
    (hc : plainName c = true) (h : t.node (cs.reverse ++ cur) = some .dir) :
    t.walk cur (cs ++ [c]) = .ok (c :: (cs.reverse ++ cur)) := by
  rw [walk_append, walk_plain hcs (by rw [h]; exact Option.some_ne_none _)]
  show t.walk (cs.reverse ++ cur) [c] = _
  rw [walk_cons_plain hc h]
  rfl

theorem walk_eq_ok {p : List String} (hcs : ∀ c ∈ cs, plainName c = true)
    (h : t.walk cur cs = .ok p) :
    p = cs.reverse ++ cur ∧ (cs ≠ [] → t.node cur = some .dir) := by
  induction cs generalizing cur with
  | nil =>
      cases h
      exact ⟨rfl, fun hne => absurd rfl hne⟩
  | cons c cs ih =>
      have hdir : t.node cur = some .dir := by
        rw [walk] at h
        split at h
        · cases h
        · cases h
        · assumption
      rw [walk_cons_plain (hcs c (List.mem_cons_self ..)) hdir] at h
      obtain ⟨rfl, -⟩ := ih (fun c hc => hcs c (List.mem_cons_of_mem _ hc)) h
      exact ⟨by simp, fun _ => hdir⟩

theorem stat_eq_ok {path p : List String} {node : Node β} (h : t.stat path = .ok (p, node)) :
    t.walk [] path = .ok p ∧ t.node p = some node := by
  obtain ⟨p', hwalk, h⟩ := bind_eq_ok.mp h
  split at h
  · cases h
  · rename_i hnode
    cases h
    exact ⟨hwalk, hnode⟩

theorem stat_of_walk {path p : List String} {node : Node β} (hwalk : t.walk [] path = .ok p)
    (hnode : t.node p = some node) : t.stat path = .ok (p, node) := by
  unfold stat
  rw [hwalk]
  show (match t.node p with
    | none => Except.error IoError.notFound
    | some node => .ok (p, node)) = _
  rw [hnode]

theorem stat_plain {path : List String} {node : Node β} (hpath : ∀ c ∈ path, plainName c = true)
    (hnode : t.node path.reverse = some node) : t.stat path = .ok (path.reverse, node) := by
  have hne : t.node (path.reverse ++ []) ≠ none := by simp [hnode]
  have hwalk := walk_plain hpath hne
  rw [List.append_nil] at hwalk
  exact stat_of_walk hwalk hnode

/-- Along plain names, the file is read that they name. -/
theorem read_plain_iff {path : List String} {content : β}
    (hpath : ∀ c ∈ path, plainName c = true) :
    t.read path = .ok content ↔ t.node path.reverse = some (.file content) := by
  constructor
  · intro h
    obtain ⟨⟨p, node⟩, hstat, hcontent⟩ := bind_eq_ok.mp h
    obtain ⟨hwalk, hnode⟩ := stat_eq_ok hstat
    obtain ⟨rfl, -⟩ := walk_eq_ok hpath hwalk
    rw [List.append_nil] at hnode
    cases node with
    | dir => cases hcontent
    | file content' =>
        cases hcontent
        exact hnode
  · intro h
    exact bind_eq_ok.mpr ⟨_, stat_plain hpath h, rfl⟩

theorem missing_eq_some {p : List String} (hcs : ∀ c ∈ cs, plainName c = true)
    (h : t.missing cur cs = .ok (some p)) :
    t.node p = none ∧ p <:+ cs.reverse ++ cur ∧ cur <:+ p := by
  induction cs generalizing cur with
  | nil =>
      rw [missing] at h
      split at h <;> cases h
  | cons c cs ih =>
      obtain ⟨hempty, hdot, hdots⟩ := plainName_ne (hcs c (List.mem_cons_self ..))
      simp only [missing, hempty, hdot, hdots, or_self, if_false] at h
      split at h
      · split at h
        · rename_i hnode
          cases h
          exact ⟨hnode, ⟨cs.reverse, by simp⟩, List.suffix_cons ..⟩
        · obtain ⟨hnode, hbelow, habove⟩ := ih (fun c hc => hcs c (List.mem_cons_of_mem _ hc)) h
          exact ⟨hnode, by simpa using hbelow, (List.suffix_cons ..).trans habove⟩
        · cases h
      · cases h

theorem missing_eq_none (hcs : ∀ c ∈ cs, plainName c = true)
    (h : t.missing cur cs = .ok none) : t.node (cs.reverse ++ cur) = some .dir := by
  induction cs generalizing cur with
  | nil =>
      rw [missing] at h
      split at h
      · rename_i hdir
        exact isDir_iff.mp hdir
      · cases h
  | cons c cs ih =>
      obtain ⟨hempty, hdot, hdots⟩ := plainName_ne (hcs c (List.mem_cons_self ..))
      simp only [missing, hempty, hdot, hdots, or_self, if_false] at h
      split at h
      · split at h
        · cases h
        · have hrest := ih (fun c hc => hcs c (List.mem_cons_of_mem _ hc)) h
          simpa using hrest
        · cases h
      · cases h

/-- Without `..`, a walk stays below where it starts, and depends on what is
there only. -/
theorem walk_congr {dir : List String} (hcs : ∀ c ∈ cs, c ≠ "..") (hcur : dir <:+ cur)
    (h : ∀ q, dir <:+ q → t.node q = t'.node q) : t.walk cur cs = t'.walk cur cs := by
  induction cs generalizing cur with
  | nil => rfl
  | cons c cs ih =>
      have hrest : ∀ c ∈ cs, c ≠ ".." := fun c hc => hcs c (List.mem_cons_of_mem _ hc)
      rw [walk, walk, h cur hcur]
      split
      · rfl
      · rfl
      · simp only [if_neg (hcs c (List.mem_cons_self ..))]
        split_ifs
        · exact ih hrest hcur
        · exact ih hrest (hcur.trans (List.suffix_cons ..))

theorem walk_suffix {dir p : List String} (hcs : ∀ c ∈ cs, c ≠ "..") (hcur : dir <:+ cur)
    (h : t.walk cur cs = .ok p) : dir <:+ p := by
  rw [walk_eq_locate h]
  exact suffix_locate hcs hcur

/-- What is reached after some of the tree is gone was reached before. -/
theorem walk_mono {dir p : List String} (hcs : ∀ c ∈ cs, c ≠ "..") (hcur : dir <:+ cur)
    (hsub : ∀ q, dir <:+ q → t.node q = none ∨ t.node q = t'.node q)
    (h : t.walk cur cs = .ok p) : t'.walk cur cs = .ok p := by
  induction cs generalizing cur with
  | nil => exact h
  | cons c cs ih =>
      have hrest : ∀ c ∈ cs, c ≠ ".." := fun c hc => hcs c (List.mem_cons_of_mem _ hc)
      rw [walk] at h
      split at h
      · cases h
      · cases h
      · rename_i hdir
        have hdir' : t'.node cur = some .dir := by
          rcases hsub cur hcur with hnone | hsame
          · rw [hdir] at hnone
            cases hnone
          · rw [← hsame, hdir]
        rw [walk, hdir']
        simp only [if_neg (hcs c (List.mem_cons_self ..))] at h ⊢
        split_ifs at h ⊢
        · exact ih hrest hcur h
        · exact ih hrest (hcur.trans (List.suffix_cons ..)) h

end Walk

/-! ## Changing -/

/-- Puts a node where no directory is. -/
def set (t : FileTree β) (name : String) (dir : List String) (node : Node β)
    (hplain : plainName name = true) (hdir : t.node dir = some .dir)
    (hnot : t.node (name :: dir) ≠ some .dir) : FileTree β where
  node := Function.update t.node (name :: dir) (some node)
  paths := t.paths ++ [name :: dir]
  finite p hp := by
    by_cases h : p = name :: dir
    · simp [h]
    · rw [Function.update_of_ne h] at hp
      exact List.mem_append_left _ (t.finite p hp)
  root := by rw [Function.update_of_ne (by simp), t.root]
  parent name' dir' hp := by
    by_cases h : name' :: dir' = name :: dir
    · obtain ⟨-, rfl⟩ := List.cons.inj h
      rw [Function.update_of_ne (by simp), hdir]
    · rw [Function.update_of_ne h] at hp
      have hparent := t.parent name' dir' hp
      have hne : dir' ≠ name :: dir := by
        rintro rfl
        exact hnot hparent
      rw [Function.update_of_ne hne, hparent]
  plain name' dir' hp := by
    by_cases h : name' :: dir' = name :: dir
    · obtain ⟨rfl, -⟩ := List.cons.inj h
      exact hplain
    · rw [Function.update_of_ne h] at hp
      exact t.plain name' dir' hp

/-- Why nothing can be made in a directory. -/
def noDir (t : FileTree β) (dir : List String) : IoError :=
  match t.node dir with
  | some (.file _) => .notADirectory
  | _ => .notFound

def mkdir (t : FileTree β) : List String → Except IoError (FileTree β)
  | [] => .error .alreadyExists
  | name :: dir =>
      if hplain : plainName name = true then
        if hdir : t.isDir dir = true then
          match hnode : t.node (name :: dir) with
          | some _ => .error .alreadyExists
          | none => .ok (t.set name dir .dir hplain (isDir_iff.mp hdir) (by simp [hnode]))
        else .error (t.noDir dir)
      else .error .invalidInput

/-- Creates or replaces the content of a file. -/
def put (t : FileTree β) (content : β) : List String → Except IoError (FileTree β)
  | [] => .error .isADirectory
  | name :: dir =>
      if hplain : plainName name = true then
        if hdir : t.isDir dir = true then
          match hnode : t.node (name :: dir) with
          | some .dir => .error .isADirectory
          | some (.file _) | none =>
              .ok (t.set name dir (.file content) hplain (isDir_iff.mp hdir) (by simp [hnode]))
        else .error (t.noDir dir)
      else .error .invalidInput

/-- Removes a file or an empty directory. -/
def remove (t : FileTree β) : List String → Except IoError (FileTree β)
  | [] => .error .invalidInput
  | name :: dir =>
      if t.node (name :: dir) = none then .error .notFound
      else if hempty : t.names (name :: dir) = [] then .ok {
        node := Function.update t.node (name :: dir) none
        paths := t.paths
        finite := fun p hp => by
          by_cases h : p = name :: dir
          · simp [h] at hp
          · rw [Function.update_of_ne h] at hp
            exact t.finite p hp
        root := by rw [Function.update_of_ne (by simp), t.root]
        parent := fun name' dir' hp => by
          by_cases h : name' :: dir' = name :: dir
          · simp [h] at hp
          · rw [Function.update_of_ne h] at hp
            have hne : dir' ≠ name :: dir := by
              rintro rfl
              have hmem := mem_names.mpr hp
              rw [hempty] at hmem
              cases hmem
            rw [Function.update_of_ne hne, t.parent name' dir' hp]
        plain := fun name' dir' hp => by
          by_cases h : name' :: dir' = name :: dir
          · simp [h] at hp
          · rw [Function.update_of_ne h] at hp
            exact t.plain name' dir' hp }
      else .error .directoryNotEmpty

/-- The path below `dst` that was below `src`. -/
def relocate (src dst p : List String) : List String := p.take (p.length - dst.length) ++ src

theorem relocate_append (src dst q : List String) : relocate src dst (q ++ dst) = q ++ src := by
  simp [relocate]

theorem ne_none_of_ite {α : Type*} {c : Prop} [Decidable c] {a : Option α}
    (h : (if c then none else a) ≠ none) : ¬ c ∧ a ≠ none := by
  by_cases hc : c
  · simp [hc] at h
  · simpa [hc] using h

/-- Moves the directory `src` to `name` in `dir`, where at most an empty
directory is. -/
def moved (t : FileTree β) (src : List String) (name : String) (dir : List String)
    (hplain : plainName name = true) (hdir : t.node dir = some .dir)
    (hbelow : ¬ src <:+ name :: dir) : FileTree β where
  node p :=
    if name :: dir <:+ p then t.node (relocate src (name :: dir) p)
    else if src <:+ p then none
    else t.node p
  paths := t.paths ++ t.paths.map fun p => relocate (name :: dir) src p
  finite p hp := by
    by_cases hdst : name :: dir <:+ p
    · rw [if_pos hdst] at hp
      obtain ⟨q, rfl⟩ := hdst
      rw [relocate_append] at hp
      refine List.mem_append_right _ (List.mem_map.mpr ⟨_, t.finite _ hp, ?_⟩)
      rw [relocate_append]
    · rw [if_neg hdst] at hp
      exact List.mem_append_left _ (t.finite p (ne_none_of_ite hp).2)
  root := by
    have hsrc' : ¬ src <:+ [] := fun h => hbelow (h.trans (List.nil_suffix ..))
    rw [if_neg (by simp), if_neg hsrc', t.root]
  parent name' dir' hp := by
    by_cases hdst : name :: dir <:+ name' :: dir'
    · rw [if_pos hdst] at hp
      rcases List.suffix_cons_iff.mp hdst with heq | hdst'
      · -- the directory itself
        obtain ⟨-, rfl⟩ := List.cons.inj heq
        have hsrc' : ¬ src <:+ dir := fun h => hbelow (h.trans (List.suffix_cons ..))
        have hdst' : ¬ name :: dir <:+ dir := fun h => absurd h.length_le (by simp)
        rw [if_neg hdst', if_neg hsrc', hdir]
      · obtain ⟨q, rfl⟩ := hdst'
        rw [← List.cons_append, relocate_append, List.cons_append] at hp
        rw [if_pos (List.suffix_append ..), relocate_append]
        exact t.parent name' _ hp
    · rw [if_neg hdst] at hp
      obtain ⟨hsrc', hnode⟩ := ne_none_of_ite hp
      rw [if_neg fun h => hdst (h.trans (List.suffix_cons ..)),
        if_neg fun h => hsrc' (h.trans (List.suffix_cons ..))]
      exact t.parent name' dir' hnode
  plain name' dir' hp := by
    by_cases hdst : name :: dir <:+ name' :: dir'
    · rw [if_pos hdst] at hp
      rcases List.suffix_cons_iff.mp hdst with heq | ⟨q, rfl⟩
      · obtain ⟨rfl, -⟩ := List.cons.inj heq
        exact hplain
      · rw [← List.cons_append, relocate_append, List.cons_append] at hp
        exact t.plain name' _ hp
    · rw [if_neg hdst] at hp
      exact t.plain name' dir' (ne_none_of_ite hp).2

/-- `rename` of a directory. -/
def rename (t : FileTree β) (src : List String) : List String → Except IoError (FileTree β)
  | [] => .error .directoryNotEmpty
  | name :: dir =>
      if t.isDir src then
        if hplain : plainName name = true then
          if hdir : t.isDir dir = true then
            if src = name :: dir then .ok t
            else if hbelow : src <:+ name :: dir then .error .invalidInput
            else
              match t.node (name :: dir) with
              | some (.file _) => .error .notADirectory
              | some .dir | none =>
                  if t.names (name :: dir) = [] then
                    .ok (t.moved src name dir hplain (isDir_iff.mp hdir) hbelow)
                  else .error .directoryNotEmpty
          else .error (t.noDir dir)
        else .error .invalidInput
      else .error (t.noDir src)

section Changes

variable {t t' : FileTree β} {p q src dst : List String}

theorem mkdir_eq_ok (h : t.mkdir p = .ok t') :
    p ≠ [] ∧ t.node p = none ∧ t'.node = Function.update t.node p (some .dir) := by
  unfold mkdir at h
  split at h
  · cases h
  · split_ifs at h
    split at h
    · cases h
    · rename_i hnode
      cases h
      exact ⟨List.cons_ne_nil _ _, hnode, rfl⟩

theorem put_eq_ok {content : β} (h : t.put content p = .ok t') :
    p ≠ [] ∧ t.node p ≠ some .dir ∧ t'.node = Function.update t.node p (some (.file content)) := by
  unfold put at h
  split at h
  · cases h
  · split_ifs at h
    split at h
    · cases h
    · rename_i hnode
      cases h
      exact ⟨List.cons_ne_nil _ _, by simp [hnode], rfl⟩
    · rename_i hnode
      cases h
      exact ⟨List.cons_ne_nil _ _, by simp [hnode], rfl⟩

theorem remove_eq_ok (h : t.remove p = .ok t') :
    p ≠ [] ∧ t.node p ≠ none ∧ t.names p = [] ∧ t'.node = Function.update t.node p none := by
  unfold remove at h
  split at h
  · cases h
  · split_ifs at h with hnone hempty
    cases h
    exact ⟨List.cons_ne_nil _ _, hnone, hempty, rfl⟩

/-- A directory that moves takes the place of nothing, or of an empty
directory. -/
theorem rename_eq_ok (h : t.rename src dst = .ok t') (hne : src ≠ dst) :
    t.node src = some .dir ∧ (∀ q, q ≠ [] → t.node (q ++ dst) = none)
      ∧ (t.node dst = none ∨ t.node dst = some .dir)
      ∧ (∀ q, t'.node (q ++ dst) = t.node (q ++ src))
      ∧ (∀ p, ¬ dst <:+ p → ¬ src <:+ p → t'.node p = t.node p)
      ∧ ∀ p, ¬ dst <:+ p → src <:+ p → t'.node p = none := by
  have hcase : ∀ (name : String) (dir : List String) hplain hdir hbelow,
      dst = name :: dir → t.names (name :: dir) = [] →
      t' = t.moved src name dir hplain hdir hbelow →
      (∀ q, q ≠ [] → t.node (q ++ dst) = none)
        ∧ (∀ q, t'.node (q ++ dst) = t.node (q ++ src))
        ∧ (∀ p, ¬ dst <:+ p → ¬ src <:+ p → t'.node p = t.node p)
        ∧ ∀ p, ¬ dst <:+ p → src <:+ p → t'.node p = none := by
    rintro name dir hplain hdir hbelow rfl hempty rfl
    refine ⟨fun q hq => ?_, fun q => ?_, fun p hd hs => ?_, fun p hd hs => ?_⟩
    · by_contra hnode
      -- the last name of `q` is an entry of the directory
      have hsplit : q ++ name :: dir = q.dropLast ++ (q.getLast hq :: name :: dir) := by
        conv_lhs => rw [← List.dropLast_append_getLast hq]
        simp
      rw [hsplit] at hnode
      have hentry : t.node (q.getLast hq :: name :: dir) ≠ none := by
        by_cases hnil : q.dropLast = []
        · rwa [hnil, List.nil_append] at hnode
        · rw [t.node_of_append hnil hnode]
          exact Option.some_ne_none _
      have hmem := mem_names.mpr hentry
      rw [hempty] at hmem
      cases hmem
    · show (if _ then _ else _) = _
      rw [if_pos (List.suffix_append ..), relocate_append]
    · show (if _ then _ else if _ then _ else _) = _
      rw [if_neg hd, if_neg hs]
    · show (if _ then _ else if _ then _ else _) = _
      rw [if_neg hd, if_pos hs]
  unfold rename at h
  split at h
  · cases h
  split at h
  case isFalse => cases h
  rename_i hsrc
  split at h
  case isFalse => cases h
  split at h
  case isFalse => cases h
  split at h
  case isTrue => cases h
  split at h
  · cases h
  · rename_i hnode
    split at h <;> cases h
    obtain ⟨hbelow, hrest⟩ := hcase _ _ _ _ _ rfl ‹_› rfl
    exact ⟨isDir_iff.mp hsrc, hbelow, Or.inr hnode, hrest⟩
  · rename_i hnode
    split at h <;> cases h
    obtain ⟨hbelow, hrest⟩ := hcase _ _ _ _ _ rfl ‹_› rfl
    exact ⟨isDir_iff.mp hsrc, hbelow, Or.inl hnode, hrest⟩

end Changes

/-! ## What succeeds -/

section Succeeds

variable {t t' : FileTree β} {name : String} {dir p : List String}

theorem names_eq_nil : t.names dir = [] ↔ ∀ name, t.node (name :: dir) = none := by
  rw [List.eq_nil_iff_forall_not_mem]
  simp only [mem_names, not_not]

theorem mkdir_ok (hname : plainName name = true) (hdir : t.node dir = some .dir)
    (hnone : t.node (name :: dir) = none) : ∃ t', t.mkdir (name :: dir) = .ok t' := by
  unfold mkdir
  dsimp only
  rw [dif_pos hname, dif_pos (isDir_iff.mpr hdir)]
  split
  · rename_i node hnode
    cases hnone.symm.trans hnode
  · exact ⟨_, rfl⟩

theorem put_ok (content : β) (hname : plainName name = true) (hdir : t.node dir = some .dir)
    (hnot : t.node (name :: dir) ≠ some .dir) : ∃ t', t.put content (name :: dir) = .ok t' := by
  unfold put
  dsimp only
  rw [dif_pos hname, dif_pos (isDir_iff.mpr hdir)]
  split
  · rename_i hnode
    exact absurd hnode hnot
  · exact ⟨_, rfl⟩
  · exact ⟨_, rfl⟩

theorem remove_ok (hne : p ≠ []) (hnode : t.node p ≠ none) (hempty : t.names p = []) :
    ∃ t', t.remove p = .ok t' := by
  unfold remove
  split
  · exact absurd rfl hne
  · rw [if_neg hnode, dif_pos hempty]
    exact ⟨_, rfl⟩

theorem rename_ok {src : List String} (hsrc : t.node src = some .dir)
    (hname : plainName name = true) (hdir : t.node dir = some .dir)
    (hbelow : ¬ src <:+ name :: dir) (hfile : t.node (name :: dir) = none
      ∨ t.node (name :: dir) = some .dir) (hempty : t.names (name :: dir) = []) :
    ∃ t', t.rename src (name :: dir) = .ok t' := by
  have hne : src ≠ name :: dir := by
    rintro rfl
    exact hbelow (List.suffix_refl _)
  unfold rename
  dsimp only
  rw [if_pos (isDir_iff.mpr hsrc), dif_pos hname, dif_pos (isDir_iff.mpr hdir), if_neg hne,
    dif_neg hbelow]
  rcases hfile with hnone | hisdir
  · rw [hnone]
    dsimp only
    rw [if_pos hempty]
    exact ⟨_, rfl⟩
  · rw [hisdir]
    dsimp only
    rw [if_pos hempty]
    exact ⟨_, rfl⟩

/-- `create_dir_all` goes on while nothing but directories is on the way. -/
theorem missing_ok {cs cur : List String} (hcs : ∀ c ∈ cs, plainName c = true)
    (hcur : t.node cur = some .dir)
    (hway : ∀ p, p <:+ cs.reverse ++ cur → t.node p = none ∨ t.node p = some .dir) :
    ∃ next, t.missing cur cs = .ok next ∧ ∀ p, next = some p → ∃ t', t.mkdir p = .ok t' := by
  induction cs generalizing cur with
  | nil =>
      refine ⟨none, ?_, nofun⟩
      rw [missing, if_pos (isDir_iff.mpr hcur)]
  | cons c cs ih =>
      have hc := hcs c (List.mem_cons_self ..)
      obtain ⟨hempty, hdot, hdots⟩ := plainName_ne hc
      have hway' : ∀ p, p <:+ cs.reverse ++ c :: cur → t.node p = none ∨ t.node p = some .dir :=
        fun p hp => hway p (by simpa using hp)
      simp only [missing, isDir_iff.mpr hcur, if_true, hempty, hdot, hdots, or_self, if_false]
      rcases hway' (c :: cur) (List.suffix_append ..) with hnone | hdir
      · rw [hnone]
        refine ⟨_, rfl, fun p hp => ?_⟩
        cases hp
        exact mkdir_ok hc hcur hnone
      · rw [hdir]
        exact ih (fun c hc => hcs c (List.mem_cons_of_mem _ hc)) hdir hway'

theorem length_filter_lt {α : Type*} {l : List α} {f g : α → Bool} (hfg : ∀ a, f a = true → g a = true)
    {a : α} (ha : a ∈ l) (hg : g a = true) (hf : f a = false) :
    (l.filter f).length < (l.filter g).length := by
  have hsame : l.filter f = (l.filter g).filter f := by
    rw [List.filter_filter]
    refine List.filter_congr fun b _ => ?_
    cases hb : f b with
    | false => rfl
    | true => simp [hfg b hb]
  rw [hsame]
  exact List.length_filter_lt_length_iff_exists.mpr
    ⟨a, List.mem_filter.mpr ⟨ha, hg⟩, by simp [hf]⟩

/-- How many nodes there are from a directory on. -/
def below (t : FileTree β) (dir : List String) : Nat :=
  (t.paths.filter fun p => decide (dir <:+ p) && (t.node p).isSome).length

theorem below_cons (h : t.node dir ≠ none) : t.below (name :: dir) < t.below dir := by
  refine length_filter_lt (a := dir) (fun p hp => ?_) (t.finite dir h) ?_ ?_
  · simp only [Bool.and_eq_true, decide_eq_true_eq] at hp ⊢
    exact ⟨(List.suffix_cons ..).trans hp.1, hp.2⟩
  · simp only [Bool.and_eq_true, decide_eq_true_eq]
    exact ⟨List.suffix_refl _, Option.isSome_iff_ne_none.mpr h⟩
  · have hnot : ¬ name :: dir <:+ dir := fun hd => absurd hd.length_le (by simp)
    simp [hnot]

theorem below_remove (h : t.remove p = .ok t') (hp : dir <:+ p) : t'.below dir < t.below dir := by
  obtain ⟨-, hnode, -, hnode'⟩ := remove_eq_ok h
  have hpaths : t'.paths = t.paths := by
    unfold remove at h
    split at h
    · cases h
    · split_ifs at h
      cases h
      rfl
  unfold below
  rw [hpaths, hnode']
  refine length_filter_lt (a := p) (fun q hq => ?_) (t.finite p hnode) ?_ ?_
  · by_cases heq : q = p
    · simp [heq] at hq
    · rwa [Function.update_of_ne heq] at hq
  · simp only [Bool.and_eq_true, decide_eq_true_eq]
    exact ⟨hp, Option.isSome_iff_ne_none.mpr hnode⟩
  · simp

/-- What can be removed first. -/
theorem exists_leaf (h : t.node dir ≠ none) :
    ∃ p, dir <:+ p ∧ t.node p ≠ none ∧ t.names p = [] := by
  induction hn : t.below dir using Nat.strong_induction_on generalizing dir with
  | _ n ih =>
      by_cases hempty : t.names dir = []
      · exact ⟨dir, List.suffix_refl _, h, hempty⟩
      · obtain ⟨name, hname⟩ := List.exists_mem_of_ne_nil _ hempty
        obtain ⟨p, hp, hrest⟩ := ih _ (hn ▸ below_cons h) (mem_names.mp hname) rfl
        exact ⟨p, (List.suffix_cons ..).trans hp, hrest⟩

/-- How many directories of a path are missing. -/
def lacking (t : FileTree β) (path : List String) : Nat :=
  (path.tails.filter fun p => (t.node p).isNone).length

theorem lacking_mkdir {path : List String} (h : t.mkdir p = .ok t') (hp : p <:+ path) :
    t'.lacking path < t.lacking path := by
  obtain ⟨-, hnone, hnode'⟩ := mkdir_eq_ok h
  unfold lacking
  rw [hnode']
  refine length_filter_lt (a := p) (fun q hq => ?_) ((List.mem_tails p path).mpr hp) ?_ ?_
  · by_cases heq : q = p
    · simp [heq] at hq
    · rwa [Function.update_of_ne heq] at hq
  · rw [hnone]
    rfl
  · rw [Function.update_self]
    rfl

end Succeeds

end FileTree
