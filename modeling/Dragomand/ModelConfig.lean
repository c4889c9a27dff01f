import Mathlib.Data.List.TakeWhile
import Dragomand.HttpCache
import Dragomand.QuotedScalar

/-!
# The configuration of a model

`dg_model_load` writes the paths of a model's files into a YAML text and
has it parsed. `yaml_quote` escapes quotes and backslashes, which is enough
to end every scalar where it ends (`Yaml.Dialect.scanQuoted_rest`), so that
no path can reach the keys; but a scalar that goes over a line break is
folded. `yaml_cpp` is the vendored scanner.
-/

namespace Dragomand

open Yaml

/-! ## The vendored scanner -/

/-- `find_last_not_of('\\n')`. -/
def lastNotFeed (scalar : Bytes) : Option Nat :=
  match (scalar.reverse.dropWhile (· = LF)).length with
  | 0 => none
  | n + 1 => some n

/-- `CLIP`, with `lastEscapedChar`. -/
def clip (scalar : Bytes) (escaped : Option Nat) : Bytes :=
  let pos := match escaped, lastNotFeed scalar with
    | none, pos => pos
    | some k, none => some k
    | some k, some pos => some (max pos k)
  match pos with
  | none => []
  | some pos => if pos + 1 < scalar.length then scalar.take (pos + 2) else scalar

/-- `Exp::Escape`. -/
def escapesCpp : List (UInt8 × Bytes) :=
  [(48, [0]), (97, [7]), (98, [8]), (116, [9]), (TAB, [9]), (110, [10]), (118, [11]), (102, [12]),
    (114, [13]), (101, [27]), (SPACE, [32]), (QUOTE, [34]), (39, [39]), (BACKSLASH, [92]),
    (47, [47]), (78, [0x85]), (95, [0xA0]), (76, [0xE2, 0x80, 0xA8]), (80, [0xE2, 0x80, 0xA9])]

/-- `ScanScalar` as `ScanQuotedScalar` calls it for a double quote:
`Exp::Break` is a line feed, with a carriage return or without, every other
byte is taken as it is, and `Stream::eof()` is 4. -/
def yaml_cpp : Dialect where
  bareReturn := false
  allows _ := true
  escapes := escapesCpp
  eof := some 4
  finish := clip

theorem clip_sublist (scalar : Bytes) (escaped : Option Nat) :
    List.Sublist (clip scalar escaped) scalar := by
  unfold clip
  dsimp only
  split
  · exact List.nil_sublist _
  · split
    · exact List.take_sublist _ _
    · exact List.Sublist.refl _

/-- What does not end in a line feed is left as it is. -/
theorem clip_eq {scalar : Bytes} {escaped : Option Nat} (h : LF ∉ scalar)
    (hescaped : ∀ k, escaped = some k → k ≤ scalar.length) : clip scalar escaped = scalar := by
  have hkept : scalar.reverse.dropWhile (· = LF) = scalar.reverse := by
    cases hreverse : scalar.reverse with
    | nil => rfl
    | cons b rest =>
        have hb : b ∈ scalar := List.mem_reverse.mp (hreverse ▸ List.mem_cons_self)
        refine List.dropWhile_cons_of_neg ?_
        rw [decide_eq_true_eq]
        rintro rfl
        exact h hb
  have hlast : lastNotFeed scalar = if scalar.length = 0 then none else some (scalar.length - 1) := by
    unfold lastNotFeed
    rw [hkept, List.length_reverse]
    cases scalar.length <;> rfl
  unfold clip
  rw [hlast]
  cases escaped with
  | none =>
      cases scalar with
      | nil => rfl
      | cons b rest => simp
  | some k =>
      have hk := hescaped k rfl
      cases scalar with
      | nil => simp
      | cons b rest =>
          simp only [List.length_cons] at hk ⊢
          simp

theorem lawful_yaml_cpp : yaml_cpp.Lawful where
  quote := rfl
  backslash := rfl
  finish_sublist := clip_sublist
  finish_eq _ _ := clip_eq

theorem plain_yaml_cpp {b : UInt8} : yaml_cpp.Plain b ↔ b ≠ LF := by
  simp [Dialect.Plain, Dialect.marks, yaml_cpp]

/-! ## The text -/

/-- The loop of `yaml_quote`; the path ends at a NUL. -/
def yaml_quote (s : Bytes) : Bytes :=
  (s.takeWhile (· ≠ 0)).foldl
    (fun out p => (if p = QUOTE || p = BACKSLASH then out ++ [BACKSLASH] else out) ++ [p])
    [QUOTE] ++ [QUOTE]

theorem yaml_quote_eq {s : Bytes} (h : 0 ∉ s) : yaml_quote s = quoted s := by
  have hall : s.takeWhile (· ≠ 0) = s := by
    rw [List.takeWhile_eq_self_iff]
    intro b hb
    rw [decide_eq_true_eq]
    rintro rfl
    exact h hb
  have hloop : ∀ (s out : Bytes), s.foldl (fun out p =>
      (if p = QUOTE || p = BACKSLASH then out ++ [BACKSLASH] else out) ++ [p]) out
        = out ++ s.flatMap escapeByte := by
    intro s
    induction s with
    | nil => exact fun out => (List.append_nil out).symm
    | cons p s ih =>
        intro out
        rw [List.foldl_cons, ih, List.flatMap_cons, escapeByte]
        split <;> simp
  rw [yaml_quote, hall, hloop, quoted]
  rfl

/-- The C strings that the adapter is handed; a null pointer is `none`. -/
structure adapter.dg_model_files where
  model_path : Option Bytes
  vocab_path : Option Bytes
  src_vocab_path : Option Bytes
  trg_vocab_path : Option Bytes
  shortlist_path : Option Bytes

namespace adapter.dg_model_files

variable (files : adapter.dg_model_files)

/-- The shared vocabulary twice, or the two of the languages. -/
def vocabs : Option (Bytes × Bytes) :=
  match files.vocab_path with
  | some vocab => some (vocab, vocab)
  | none =>
      match files.src_vocab_path, files.trg_vocab_path with
      | some src, some trg => some (src, trg)
      | _, _ => none

/-- The configuration that `dg_model_load` parses. -/
def config (config_yaml : Option Bytes) : Except String Bytes :=
  match files.model_path with
  | none => .error "dg_model_load: engine and files.model_path are required"
  | some model =>
      match files.vocabs with
      | none => .error "dg_model_load: need vocab_path, or src_vocab_path and trg_vocab_path"
      | some (src, trg) =>
          .ok (utf8 "models:\n  - " ++ yaml_quote model ++ utf8 "\nvocabs:\n  - " ++ yaml_quote src
            ++ utf8 "\n  - " ++ yaml_quote trg ++ utf8 "\n"
            ++ (files.shortlist_path.elim [] fun shortlist =>
              utf8 "shortlist:\n  - " ++ yaml_quote shortlist ++ utf8 "\n  - false\n")
            ++ (config_yaml.elim [] fun config_yaml => config_yaml ++ utf8 "\n"))

/-! ## Its parts -/

/-- The paths, each behind the text that stands before it. -/
def entries : List (Bytes × Bytes) :=
  match files.model_path, files.vocabs with
  | some model, some (src, trg) =>
      [(utf8 "models:\n  - ", model), (utf8 "\nvocabs:\n  - ", src), (utf8 "\n  - ", trg)]
        ++ files.shortlist_path.toList.map fun shortlist =>
          (utf8 "\n" ++ utf8 "shortlist:\n  - ", shortlist)
  | _, _ => []

def paths : List Bytes := files.entries.map Prod.snd

/-- The text behind the last path. -/
def rest (config_yaml : Option Bytes) : Bytes :=
  utf8 (if files.shortlist_path.isSome then "\n  - false\n" else "\n")
    ++ config_yaml.elim [] fun config_yaml => config_yaml ++ utf8 "\n"

end adapter.dg_model_files

/-- Texts and quoted paths in turn. -/
def assemble (entries : List (Bytes × Bytes)) (rest : Bytes) : Bytes :=
  entries.flatMap (fun entry => entry.1 ++ quoted entry.2) ++ rest

/-- The scalars behind the given texts, and what is left. Each begins at the
column behind `  - `. -/
def readPaths (D : Dialect) : List Bytes → Bytes → Option (List Bytes × Bytes)
  | [], input => some ([], input)
  | text :: texts, input =>
      if text.isPrefixOf input then
        match D.scanQuoted 4 (input.drop text.length) with
        | none => none
        | some (path, left) => (readPaths D texts left).map fun r => (path :: r.1, r.2)
      else none

section Read

variable {D : Dialect} {entries : List (Bytes × Bytes)} {rest : Bytes}

theorem readPaths_cons (entry : Bytes × Bytes) (texts : List Bytes) :
    readPaths D (entry.1 :: texts) (assemble (entry :: entries) rest)
      = match D.scanQuoted 4 (quoted entry.2 ++ assemble entries rest) with
        | none => none
        | some (path, left) => (readPaths D texts left).map fun r => (path :: r.1, r.2) := by
  have htext : assemble (entry :: entries) rest
      = entry.1 ++ (quoted entry.2 ++ assemble entries rest) := by
    simp [assemble]
  rw [readPaths, htext, if_pos (by simp), List.drop_left]

/-- Whatever the paths, the text behind the last one is left. -/
theorem readPaths_rest (hD : D.Lawful) {paths : List Bytes} {left : Bytes}
    (h : readPaths D (entries.map Prod.fst) (assemble entries rest) = some (paths, left)) :
    left = rest ∧ paths.length = entries.length := by
  induction entries generalizing paths with
  | nil =>
      cases h
      exact ⟨rfl, rfl⟩
  | cons entry entries ih =>
      rw [List.map_cons, readPaths_cons] at h
      split at h
      · cases h
      · rename_i path left' hscan
        obtain rfl := D.scanQuoted_rest hD hscan
        obtain ⟨r, hr, heq⟩ := Option.map_eq_some_iff.mp h
        cases heq
        obtain ⟨hrest, hlength⟩ := ih hr
        exact ⟨hrest, congrArg Nat.succ hlength⟩

/-- The paths are read as they are if and only if all their bytes are
plain. -/
theorem readPaths_iff (hD : D.Lawful) :
    readPaths D (entries.map Prod.fst) (assemble entries rest)
        = some (entries.map Prod.snd, rest)
      ↔ ∀ path ∈ entries.map Prod.snd, ∀ b ∈ path, D.Plain b := by
  induction entries with
  | nil => exact ⟨nofun, fun _ => rfl⟩
  | cons entry entries ih =>
      rw [List.map_cons, List.map_cons, readPaths_cons, List.forall_mem_cons,
        ← D.scanQuoted_iff hD, ← ih]
      constructor
      · intro h
        split at h
        · cases h
        · rename_i path left hscan
          obtain rfl := D.scanQuoted_rest hD hscan
          obtain ⟨r, hr, heq⟩ := Option.map_eq_some_iff.mp h
          obtain ⟨hcons, hrest⟩ := Prod.mk.inj heq
          obtain ⟨rfl, htail⟩ := List.cons.inj hcons
          exact ⟨hscan, hr.trans (congrArg some (Prod.ext htail hrest))⟩
      · rintro ⟨hscan, hrest⟩
        rw [hscan]
        dsimp only
        rw [hrest]
        rfl

end Read

/-! ## What the configuration names -/

namespace adapter.dg_model_files

variable {files : adapter.dg_model_files} {config_yaml : Option Bytes} {config : Bytes}

theorem config_eq (h : files.config config_yaml = .ok config) (hnul : ∀ path ∈ files.paths, 0 ∉ path) :
    config = assemble files.entries (files.rest config_yaml) := by
  unfold adapter.dg_model_files.config at h
  split at h
  · cases h
  · rename_i model hmodel
    split at h
    · cases h
    · rename_i src trg hvocabs
      cases h
      have hentries : files.entries = [(utf8 "models:\n  - ", model),
          (utf8 "\nvocabs:\n  - ", src), (utf8 "\n  - ", trg)]
            ++ files.shortlist_path.toList.map fun shortlist =>
              (utf8 "\n" ++ utf8 "shortlist:\n  - ", shortlist) := by
        rw [entries, hmodel, hvocabs]
      rw [paths, hentries] at hnul
      simp only [List.map_cons, List.cons_append, List.nil_append, List.forall_mem_cons] at hnul
      obtain ⟨hmodel, hsrc, htrg, hshortlist⟩ := hnul
      rw [hentries, yaml_quote_eq hmodel, yaml_quote_eq hsrc, yaml_quote_eq htrg]
      cases hpath : files.shortlist_path with
      | none => simp [assemble, rest, hpath]
      | some shortlist =>
          rw [hpath] at hshortlist
          have hnul := hshortlist shortlist (by simp)
          simp [assemble, rest, hpath, yaml_quote_eq hnul]

/-- The configuration as it is read names these files, and the rest of it
stands as it is. -/
def Named (D : Dialect) (files : adapter.dg_model_files) (config_yaml : Option Bytes) (config : Bytes) :
    Prop :=
  readPaths D (files.entries.map Prod.fst) config = some (files.paths, files.rest config_yaml)

theorem named_iff {D : Dialect} (hD : D.Lawful) (h : files.config config_yaml = .ok config)
    (hnul : ∀ path ∈ files.paths, 0 ∉ path) :
    Named D files config_yaml config ↔ ∀ path ∈ files.paths, ∀ b ∈ path, D.Plain b := by
  rw [config_eq h hnul]
  exact readPaths_iff hD

end adapter.dg_model_files

theorem scanQuoted_yaml_quote {D : Dialect} (hD : D.Lawful) {path : Bytes} (h : 0 ∉ path) :
    D.scanQuoted 0 (yaml_quote path) = some (path, []) ↔ ∀ b ∈ path, D.Plain b := by
  rw [yaml_quote_eq h, ← List.append_nil (quoted path)]
  exact D.scanQuoted_iff hD

/-- **Model paths survive the configuration** if and only if they have no
control characters but tabs; with the vendored scanner, if and only if they
have no line feed. Whatever the paths, what is read behind them is the rest
of the configuration. -/
theorem model_paths_survive_iff {path : Bytes} (hpath : 0 ∉ path) :
    (yaml12.scanQuoted 0 (yaml_quote path) = some (path, [])
      ↔ ∀ b ∈ path, b = TAB ∨ SPACE ≤ b)
    ∧ (yaml_cpp.scanQuoted 0 (yaml_quote path) = some (path, []) ↔ LF ∉ path)
    ∧ ∀ (files : adapter.dg_model_files) (config_yaml : Option Bytes) (config : Bytes),
      files.config config_yaml = .ok config → (∀ path ∈ files.paths, 0 ∉ path) →
      (files.Named yaml12 config_yaml config
        ↔ ∀ path ∈ files.paths, ∀ b ∈ path, b = TAB ∨ SPACE ≤ b)
      ∧ (files.Named yaml_cpp config_yaml config ↔ ∀ path ∈ files.paths, LF ∉ path)
      ∧ ∀ D ∈ [yaml12, yaml_cpp], ∀ paths left,
        readPaths D (files.entries.map Prod.fst) config = some (paths, left) →
        left = files.rest config_yaml ∧ paths.length = files.paths.length := by
  have hfeed : ∀ path : Bytes, (∀ b ∈ path, yaml_cpp.Plain b) ↔ LF ∉ path := by
    intro path
    simp only [plain_yaml_cpp]
    exact ⟨fun h hmem => h LF hmem rfl, fun h b hb heq => h (heq ▸ hb)⟩
  refine ⟨?_, ?_, ?_⟩
  · rw [scanQuoted_yaml_quote lawful_yaml12 hpath]
    simp only [plain_yaml12]
  · rw [scanQuoted_yaml_quote lawful_yaml_cpp hpath, hfeed]
  · intro files config_yaml config hconfig hnul
    refine ⟨?_, ?_, fun D hD paths left h => ?_⟩
    · rw [adapter.dg_model_files.named_iff lawful_yaml12 hconfig hnul]
      simp only [plain_yaml12]
    · rw [adapter.dg_model_files.named_iff lawful_yaml_cpp hconfig hnul]
      simp only [hfeed]
    · have hlawful : D.Lawful := by
        rcases List.mem_cons.mp hD with rfl | hD
        · exact lawful_yaml12
        · exact List.mem_singleton.mp hD ▸ lawful_yaml_cpp
      rw [adapter.dg_model_files.config_eq hconfig hnul] at h
      obtain ⟨hleft, hlength⟩ := readPaths_rest hlawful h
      exact ⟨hleft, hlength.trans (List.length_map _).symm⟩

/-- A path with a quote, a backslash and a tab, for all the files. -/
theorem model_paths_survive_quotes :
    yaml12.scanQuoted 0 (yaml_quote [97, 34, 92, 9]) = some ([97, 34, 92, 9], [])
      ∧ ∃ config, adapter.dg_model_files.config
          ⟨some [97], some [98, 34], none, none, some [99, 92]⟩ none
          = .ok config
        ∧ adapter.dg_model_files.Named yaml_cpp
          ⟨some [97], some [98, 34], none, none, some [99, 92]⟩ none
          config := by
  obtain ⟨hpath, -, hconfig⟩ := @model_paths_survive_iff [97, 34, 92, 9] (by decide)
  refine ⟨hpath.mpr (by decide +kernel), _, rfl, ?_⟩
  exact (hconfig _ none _ rfl (by decide)).2.1.mpr (by decide)

/-- A line feed in a path is read as a space. -/
theorem model_path_folded :
    yaml12.scanQuoted 0 (yaml_quote [97, 10, 98]) = some ([97, 32, 98], [])
      ∧ yaml_cpp.scanQuoted 0 (yaml_quote [97, 10, 98]) = some ([97, 32, 98], []) := by
  decide

end Dragomand
