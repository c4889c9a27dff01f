import Dragomand.InstallAtomic
import Dragomand.InstallVerify

/-!
# Installing over what is left

What an install comes to when the server has the files and no system call
fails that could succeed: whether it installs the model depends on the
version directory it finds, on what is around it, and on the names of the
files (`Repairable`). A directory without a manifest that has other files in
it is not removed, and the renaming does not take its place.
-/

namespace Dragomand

open FileTree (Node plainName)

namespace InstallCall

variable (call : InstallCall) (serve : String → Bytes)

/-! ## The environment -/

/-- The server has the files of the set. -/
def Serves : Prop :=
  ∀ f ∈ call.wanted, ∃ content, f.2.unpack call.host (serve (call.url f.2)) = .ok content

/-- System calls succeed, and the server answers with what it has. -/
def Answers (s : Install) : InstallEvent → Prop
  | .proceed | .unlink _ | .write _ => True
  | .fetched result => ∀ role record rest files urls,
      s.pc = .fetching ⟨(role, record) :: rest, files, urls⟩ →
        ∃ etag, result = .ok (.fetched (serve (call.url record)) etag)
  | .fail _ | .missed | .faulty => False

/-- What fails cannot succeed. -/
def Undisturbed (s : Install) (e : InstallEvent) : Prop :=
  call.Answers serve s e
    ∨ (∃ source, e = .fail source) ∧ ∀ e', call.Answers serve s e' → call.step s e' = none

/-- Install returns a model, which is listed and complete. -/
def Installs (s : Install) : Prop :=
  ∃ m d, s.pc = .done m d ∧ m ∈ (call.stores.scan call.host s.tree).1
    ∧ m.directory = call.final_dir ∧ (d = true → call.Placed s.tree m.manifest)

/-! ## The place -/

/-- Nothing but directories is on the way to the directory of the pair. -/
def Way (t : FileTree Bytes) : Prop :=
  ∀ p, p <:+ call.pairAt → t.node p = none ∨ t.node p = some .dir

/-- The version directory is absent, or empty. -/
structure Vacant (t : FileTree Bytes) : Prop where
  dir : t.node call.finalAt = none ∨ t.node call.finalAt = some .dir
  empty : ∀ name, t.node (name :: call.finalAt) = none

/-- Or it has a manifest. -/
def Clear (t : FileTree Bytes) : Prop :=
  call.Vacant t ∨ t.node (MANIFEST_FILE :: call.finalAt) ≠ none

/-- Around the version directory, nothing is where install needs something
else. -/
structure Ready (t : FileTree Bytes) : Prop where
  way : call.Way t
  apart : ¬ call.lockAt <:+ call.pairAt
  lock : t.node call.lockAt ≠ some .dir
  tmp : ∀ content, t.node call.tmpAt ≠ some (.file content)

/-- A scan takes what is there for the model, next to the lock file. -/
def Accepts (t : FileTree Bytes) : Prop :=
  ∃ t' m, t.put [] call.lockAt = .ok t'
    ∧ scan_model_dir call.host t' call.final_dir .user = .ok m

/-- Install can put the model in its place, or finds one there. -/
def Repairable (t : FileTree Bytes) : Prop :=
  call.Located ∧ (call.Accepts t ∨ (call.Ready t ∧ call.Clear t ∧ call.Fits))

variable {call serve} {t t' : FileTree Bytes} {p : List String}

theorem Way.update {node : Option (Node Bytes)} (h : call.Way t)
    (ht : t'.node = Function.update t.node p node)
    (hp : p <:+ call.pairAt → node = some .dir) : call.Way t' := by
  intro q hq
  rw [ht]
  by_cases heq : q = p
  · rw [heq, Function.update_self]
    exact Or.inr (hp (heq ▸ hq))
  · rw [Function.update_of_ne heq]
    exact h q hq

theorem Vacant.kept (h : call.Vacant t) (hk : call.Kept t t') : call.Vacant t' := by
  refine ⟨?_, fun name => ?_⟩
  · rw [hk _ (List.suffix_refl _)]
    exact h.dir
  · rw [hk _ (List.suffix_cons ..)]
    exact h.empty name

theorem Clear.kept (h : call.Clear t) (hk : call.Kept t t') : call.Clear t' := by
  refine h.imp (fun hv => hv.kept hk) fun hm => ?_
  rwa [hk _ (List.suffix_cons ..)]

/-- A path at most as long as that of the pair. -/
theorem not_final_of_short (h : p.length ≤ call.pairAt.length) : ¬ call.finalAt <:+ p := by
  intro hp
  have hle := hp.length_le
  rw [finalAt, List.length_cons] at hle
  omega

theorem not_final_of_tmp (h : call.tmpAt <:+ p) : ¬ call.finalAt <:+ p := by
  intro hfinal
  have hsuffix := List.suffix_of_suffix_length_le hfinal h (by simp [finalAt, tmpAt])
  exact finalAt_ne_tmpAt (hsuffix.eq_of_length (by simp [finalAt, tmpAt]))

theorem not_final_of_above (h : p <:+ call.tmpAt) : ¬ call.finalAt <:+ p := by
  intro hfinal
  exact not_final_of_tmp (List.suffix_refl _) (hfinal.trans h)

theorem pairAt_ne_of_below {name : String} (h : name :: call.pairAt <:+ p) : ¬ p <:+ call.pairAt := by
  intro hp
  have hle := (h.trans hp).length_le
  rw [List.length_cons] at hle
  omega

theorem Located.lock_short (hl : call.Located) : call.lockAt.length ≤ call.pairAt.length := by
  obtain ⟨provider, pair, -, -, heq⟩ := hl
  simp [lockAt, pairAt, heq]

theorem Located.lock_not_final (hl : call.Located) : ¬ call.finalAt <:+ call.lockAt :=
  not_final_of_short hl.lock_short

theorem Located.lock_ne_tmp (hl : call.Located) : call.lockAt ≠ call.tmpAt := by
  intro heq
  have hle := hl.lock_short
  rw [heq, tmpAt, List.length_cons] at hle
  omega

/-! ## Walks that succeed -/

section Walks

theorem PairPlain.walk_in (hp : call.PairPlain) {name : String} (hname : plainName name = true)
    (hdir : t.node call.pairAt = some .dir) :
    t.walk [] (call.pair_dir ++ [name]) = .ok (name :: call.pairAt) := by
  have h := @FileTree.walk_plain_snoc _ t [] _ _ hp hname (by rw [List.append_nil]; exact hdir)
  rwa [List.append_nil] at h

theorem PairPlain.walk_tmp_ok (hp : call.PairPlain) (hdir : t.node call.pairAt = some .dir) :
    t.walk [] call.tmp_dir = .ok call.tmpAt := by
  rw [tmp_dir_eq]
  exact hp.walk_in plainName_tmp_name hdir

theorem PairPlain.walk_final_ok (hp : call.PairPlain) (hdir : t.node call.pairAt = some .dir) :
    t.walk [] call.final_dir = .ok call.finalAt := by
  rw [final_dir_eq]
  exact hp.walk_in call.set.version.plainName_raw hdir

theorem PairPlain.walk_path_ok (hp : call.PairPlain) {o : Output} (ho : plainName o.name = true)
    (hdir : t.node call.tmpAt = some .dir) : t.walk [] (call.path o) = .ok (o.name :: call.tmpAt) := by
  have hdir' : t.node (call.tmp_dir.reverse ++ []) = some .dir := by
    rw [List.append_nil, tmp_dir_reverse, hdir]
  have h := FileTree.walk_plain_snoc hp.tmp_plain ho hdir'
  rw [List.append_nil, tmp_dir_reverse] at h
  unfold path
  rwa [join_plain ho]

theorem PairPlain.walk_target_ok (hp : call.PairPlain) (hdir : t.node call.pairAt = some .dir)
    (tmp : Bool) : t.walk [] (call.target tmp)
      = .ok (if tmp then call.tmpAt else call.finalAt) := by
  cases tmp with
  | false => exact hp.walk_final_ok hdir
  | true => exact hp.walk_tmp_ok hdir

/-- `exists` says what is there. -/
theorem exists_iff {path : PathBuf} (hpath : ∀ name ∈ path, plainName name = true) :
    (t.stat path).toOption.isSome ↔ t.node path.reverse ≠ none := by
  constructor
  · intro h
    obtain ⟨⟨p, node⟩, hstat⟩ := Option.isSome_iff_exists.mp h
    obtain ⟨hwalk, hnode⟩ := FileTree.stat_eq_ok (toOption_eq_some hstat)
    rw [(FileTree.walk_eq_ok hpath hwalk).1, List.append_nil] at hnode
    rw [hnode]
    exact Option.some_ne_none _
  · intro h
    obtain ⟨node, hnode⟩ := Option.ne_none_iff_exists'.mp h
    rw [FileTree.stat_plain hpath hnode]
    rfl

theorem PairPlain.exists_manifest (hp : call.PairPlain) :
    (t.stat (call.final_dir.join MANIFEST_FILE)).toOption.isSome
      ↔ t.node (MANIFEST_FILE :: call.finalAt) ≠ none := by
  have hmanifest : plainName MANIFEST_FILE = true := by decide
  rw [join_plain hmanifest, exists_iff, List.reverse_append, final_dir_reverse]
  · rfl
  · exact FileTree.plain_snoc hp.final_plain hmanifest

theorem PairPlain.exists_tmp (hp : call.PairPlain) :
    (t.stat call.tmp_dir).toOption.isSome ↔ t.node call.tmpAt ≠ none := by
  rw [exists_iff hp.tmp_plain, tmp_dir_reverse]

end Walks

/-! ## Runs that succeed -/

section Finishes

variable {s : Install} {P : Install → Prop}

variable (call serve) in
/-- Every run from the state comes to one with `P`. -/
abbrev Comes (P : Install → Prop) (s : Install) : Prop :=
  Machine.Inevitable call.step (call.Undisturbed serve) P s

variable (call serve) in
/-- Every run from the state returns a model. -/
abbrev Finishes (s : Install) : Prop := call.Comes serve (fun s => ∃ m d, s.pc = .done m d) s

/-- Nothing fails where something else can happen. -/
theorem comes_next (hgoes : ∃ e s', call.Answers serve s e ∧ call.step s e = some s')
    (h : ∀ e s', call.Answers serve s e → call.step s e = some s' → call.Comes serve P s') :
    call.Comes serve P s := by
  obtain ⟨e, s', hanswers, hs⟩ := hgoes
  refine .next ⟨e, s', Or.inl hanswers, hs⟩ fun e' s'' hok hs' => ?_
  rcases hok with hanswers' | ⟨-, hnone⟩
  · exact h e' s'' hanswers' hs'
  · cases (hnone e hanswers).symm.trans hs

/-- The program counter at which there is one thing to do. -/
def Sequential : Install.Pc → Prop
  | .removing _ | .writing _ _ | .fetching ⟨_ :: _, _, _⟩ => False
  | _ => True

theorem comes_proceed (s' : Install) (hpc : Sequential s.pc)
    (hs : call.step s .proceed = some s') (h : call.Comes serve P s') :
    call.Comes serve P s := by
  refine comes_next ⟨.proceed, s', trivial, hs⟩ fun e s'' hanswers hs'' => ?_
  have he : e = .proceed := by
    cases e with
    | proceed => rfl
    | fail | missed | faulty => exact hanswers.elim
    | unlink p =>
        unfold step at hs''
        dsimp only at hs''
        split at hs''
        · rename_i hremoving
          rw [hremoving] at hpc
          exact hpc.elim
        · cases hs''
    | write n =>
        unfold step at hs''
        dsimp only at hs''
        split at hs''
        · rename_i hwriting
          rw [hwriting] at hpc
          exact hpc.elim
        · cases hs''
    | fetched result =>
        unfold step at hs''
        dsimp only at hs''
        split at hs''
        · rename_i hfetching
          rw [hfetching] at hpc
          exact hpc.elim
        · cases hs''
  subst he
  cases hs.symm.trans hs''
  exact h

theorem finishes_syncingPair {m : Manifest} : call.Finishes serve ⟨t, .syncingPair m⟩ :=
  comes_proceed _ trivial rfl (.here ⟨_, _, rfl⟩)

/-! ### The download -/

/-- The temporary directory, while files are written to it. -/
structure Filling (call : InstallCall) (t : FileTree Bytes) : Prop where
  dir : t.node call.tmpAt = some .dir
  files : ∀ name, t.node (name :: call.tmpAt) ≠ some .dir
  vacant : call.Vacant t

theorem Filling.pair (h : call.Filling t) : t.node call.pairAt = some .dir :=
  t.parent _ _ (ne_of_eq_of_ne h.dir (Option.some_ne_none _))

theorem Filling.put (h : call.Filling t) {name : String} {content : Bytes}
    (ht : t.put content (name :: call.tmpAt) = .ok t') : call.Filling t' := by
  obtain ⟨-, -, hnode⟩ := FileTree.put_eq_ok ht
  refine ⟨?_, fun name' => ?_,
    h.vacant.kept (.of_update (not_final_of_tmp (List.suffix_cons ..)) hnode)⟩
  · rw [hnode, Function.update_of_ne (by simp), h.dir]
  · rw [hnode]
    by_cases heq : name' = name
    · rw [heq, Function.update_self]
      simp
    · rw [Function.update_of_ne (by simpa using heq)]
      exact h.files name'

theorem finishes_renaming (hp : call.PairPlain) (h : call.Filling t) {m : Manifest} :
    call.Finishes serve ⟨t, .renaming m⟩ := by
  have hnot : ¬ call.tmpAt <:+ call.finalAt :=
    fun hbelow => finalAt_ne_tmpAt (hbelow.eq_of_length (by simp [finalAt, tmpAt])).symm
  obtain ⟨t', ht⟩ := FileTree.rename_ok h.dir call.set.version.plainName_raw h.pair hnot
    h.vacant.dir (FileTree.names_eq_nil.mpr h.vacant.empty)
  refine comes_proceed ⟨t', .syncingPair m⟩ trivial ?_ finishes_syncingPair
  unfold step
  simp only [hp.walk_tmp_ok h.pair, hp.walk_final_ok h.pair, Except.bind]
  rw [show t.rename call.tmpAt call.finalAt = _ from ht]
  rfl

/-- The state after the file is written. -/
def next : Output → Install.Pc
  | .file _ _ after => .fetching after
  | .manifest m => .renaming m

theorem finishes_writing (hp : call.PairPlain) {o : Output} (ho : plainName o.name = true)
    (hnext : ∀ t, call.Filling t → call.Finishes serve ⟨t, next o⟩) (n : Nat) :
    ∀ t written, call.Filling t → written + n = (call.content o).length →
      call.Finishes serve ⟨t, .writing o written⟩ := by
  induction n using Nat.strong_induction_on with
  | _ n ih =>
      intro t written hf hlength
      have hput : ∀ content, ∃ t', put t (call.path o) content = some t' ∧ call.Filling t' := by
        intro content
        obtain ⟨t', ht⟩ := FileTree.put_ok content ho hf.dir (hf.files o.name)
        refine ⟨t', ?_, hf.put ht⟩
        unfold put
        rw [hp.walk_path_ok ho hf.dir, Except.bind, ht]
        rfl
      refine comes_next ?_ fun e s' hanswers hs => ?_
      · by_cases hn : n = 0
        · refine ⟨.proceed, ⟨t, .syncing o⟩, trivial, if_pos ?_⟩
          omega
        · obtain ⟨t', ht, -⟩ := hput ((call.content o).take (written + n))
          refine ⟨.write n, ⟨t', .writing o (written + n)⟩, trivial, ?_⟩
          show (if 0 < n ∧ written + n ≤ (call.content o).length then _ else none) = _
          rw [if_pos ⟨by omega, by omega⟩, ht]
          rfl
      · cases e with
        | fail | missed | faulty => exact hanswers.elim
        | unlink | fetched => cases hs
        | proceed =>
            change (if _ then _ else none) = _ at hs
            split at hs
            · cases hs
              refine comes_proceed ⟨t, next o⟩ trivial ?_ (hnext t hf)
              cases o <;> rfl
            · cases hs
        | write k =>
            change (if 0 < k ∧ written + k ≤ (call.content o).length then _ else none) = _ at hs
            split at hs
            · rename_i hk
              obtain ⟨t', ht, hf'⟩ := hput ((call.content o).take (written + k))
              rw [ht] at hs
              cases hs
              exact ih (n - k) (by omega) t' (written + k) hf' (by omega)
            · cases hs

theorem finishes_creating (hp : call.PairPlain) {o : Output} (ho : plainName o.name = true)
    (hnext : ∀ t, call.Filling t → call.Finishes serve ⟨t, next o⟩) (hf : call.Filling t) :
    call.Finishes serve ⟨t, .creating o⟩ := by
  obtain ⟨t', ht⟩ := FileTree.put_ok [] ho hf.dir (hf.files o.name)
  refine comes_proceed ⟨t', .writing o 0⟩ trivial ?_
    (finishes_writing hp ho hnext _ t' 0 (hf.put ht) (Nat.zero_add _))
  unfold step put
  simp only [hp.walk_path_ok ho hf.dir, Except.bind, ht]
  rfl

theorem finishes_fetching (hp : call.PairPlain) (rest : List (String × ModelRecord)) :
    ∀ files urls t, (∀ f ∈ rest, plainName f.2.name = true
        ∧ ∃ content, f.2.unpack call.host (serve (call.url f.2)) = .ok content) →
      call.Filling t → call.Finishes serve ⟨t, .fetching ⟨rest, files, urls⟩⟩ := by
  induction rest with
  | nil =>
      intro files urls t _ hf
      exact comes_proceed _ trivial rfl (finishes_creating hp (o := .manifest _)
        (show plainName MANIFEST_FILE = true by decide)
        (fun t hf => finishes_renaming hp hf) hf)
  | cons f rest ih =>
      obtain ⟨role, record⟩ := f
      intro files urls t hserve hf
      obtain ⟨hname, content, hcontent⟩ := hserve _ (List.mem_cons_self ..)
      have hfetch : ∀ after etag,
          call.fetch record after (.ok (.fetched (serve (call.url record)) etag))
            = .creating (.file record content after) := by
        intro after etag
        unfold fetch
        dsimp only at hcontent ⊢
        rw [hcontent]
      refine comes_next ⟨.fetched (.ok (.fetched (serve (call.url record)) none)), _,
        fun role' record' rest' files' urls' heq => ?_, rfl⟩ fun e s' hanswers hs => ?_
      · cases heq
        exact ⟨none, rfl⟩
      · cases e with
        | fail | missed | faulty => exact hanswers.elim
        | unlink | write | proceed => cases hs
        | fetched result =>
            obtain ⟨etag, rfl⟩ := hanswers _ _ _ _ _ rfl
            cases hs
            rw [hfetch]
            exact finishes_creating hp hname
              (fun t hf => ih _ _ t (fun f hmem => hserve f (List.mem_cons_of_mem _ hmem)) hf) hf

/-! ### Directories -/

/-- `create_dir_all` comes to an end, where it meets nothing but
directories. -/
theorem comes_make (path : PathBuf) (again made : Install.Pc) {I : FileTree Bytes → Prop}
    (hstep : ∀ t, call.step ⟨t, again⟩ .proceed = make t path again made)
    (hpc : Sequential again) (hplain : ∀ name ∈ path, plainName name = true)
    (hway : ∀ t, I t → ∀ p, p <:+ path.reverse → t.node p = none ∨ t.node p = some .dir)
    (hmkdir : ∀ t t' p, I t → p <:+ path.reverse → t.mkdir p = .ok t' → I t')
    (hmade : ∀ t, I t → t.node path.reverse = some .dir → call.Comes serve P ⟨t, made⟩)
    (t : FileTree Bytes) (hI : I t) : call.Comes serve P ⟨t, again⟩ := by
  induction hn : t.lacking path.reverse using Nat.strong_induction_on generalizing t with
  | _ n ih =>
      obtain ⟨next, hmissing, hnext⟩ := FileTree.missing_ok hplain t.root
        fun p hp => hway t hI p (by simpa using hp)
      cases next with
      | none =>
          have hdir := FileTree.missing_eq_none hplain hmissing
          rw [List.append_nil] at hdir
          refine comes_proceed ⟨t, made⟩ hpc ?_ (hmade t hI hdir)
          rw [hstep, make, hmissing]
      | some p =>
          obtain ⟨-, hbelow, -⟩ := FileTree.missing_eq_some hplain hmissing
          rw [List.append_nil] at hbelow
          obtain ⟨t', ht⟩ := hnext p rfl
          refine comes_proceed ⟨t', again⟩ hpc ?_
            (ih _ (hn ▸ FileTree.lacking_mkdir ht hbelow) t' (hmkdir t t' p hI hbelow ht) rfl)
          rw [hstep, make, hmissing]
          show (t.mkdir p).toOption.map _ = _
          rw [ht]
          rfl

variable (call) in
def targetAt (tmp : Bool) : List String := if tmp then call.tmpAt else call.finalAt

/-- `remove_dir_all` comes to an end, in whatever order. -/
theorem finishes_removing (hp : call.PairPlain) (tmp : Bool) (dir : List String)
    (hat : call.targetAt tmp = dir) {I : FileTree Bytes → Prop}
    (hdir : ∀ t, I t → t.node dir = some .dir)
    (hremove : ∀ t t' p, I t → dir <:+ p → dir ≠ p → t.remove p = .ok t' → I t')
    (hremoved : ∀ t t', I t → t.remove dir = .ok t' →
      call.Finishes serve ⟨t', if tmp then .making else .probing true⟩)
    (t : FileTree Bytes) (hI : I t) : call.Finishes serve ⟨t, .removing tmp⟩ := by
  subst hat
  induction hn : t.below (call.targetAt tmp) using Nat.strong_induction_on generalizing t with
  | _ n ih =>
      have hpair : t.node call.pairAt = some .dir := by
        have hsome := ne_of_eq_of_ne (hdir t hI) (Option.some_ne_none _)
        cases tmp with
        | false => exact t.parent _ _ hsome
        | true => exact t.parent _ _ hsome
      have hwalk : t.walk [] (call.target tmp) = .ok (call.targetAt tmp) :=
        hp.walk_target_ok hpair tmp
      have hguard : ∀ p, (t.isDir (call.targetAt tmp) && decide (call.targetAt tmp <:+ p)) = true
          ↔ call.targetAt tmp <:+ p := by
        intro p
        rw [FileTree.isDir_iff.mpr (hdir t hI)]
        simp
      refine comes_next ?_ fun e s' hanswers hs => ?_
      · obtain ⟨p, hbelow, hnode, hempty⟩ := FileTree.exists_leaf
          (ne_of_eq_of_ne (hdir t hI) (Option.some_ne_none _))
        have hne : p ≠ [] := by
          rintro rfl
          have hnil := List.suffix_nil.mp hbelow
          cases tmp <;> cases hnil
        obtain ⟨t', ht⟩ := FileTree.remove_ok hne hnode hempty
        refine ⟨.unlink p, ⟨t', if p = call.targetAt tmp then (if tmp then .making else .probing true)
          else .removing tmp⟩, trivial, ?_⟩
        unfold step
        dsimp only
        rw [hwalk]
        dsimp only
        rw [if_pos ((hguard p).mpr hbelow), ht]
        rfl
      · cases e with
        | fail | missed | faulty => exact hanswers.elim
        | write | fetched | proceed => cases hs
        | unlink p =>
            cases step_cases hs with
            | absent hpc | damaged hpc | tmpAbsent hpc => cases hpc
            | @unlink tmp' dir p t' hpc hwalk' hbelow hne ht =>
                cases hpc
                cases hwalk.symm.trans hwalk'
                exact ih _ (hn ▸ FileTree.below_remove ht hbelow) t'
                  (hremove t t' p hI hbelow hne.symm ht) rfl
            | @removed tmp' dir t' hpc hwalk' ht =>
                cases hpc
                cases hwalk.symm.trans hwalk'
                exact hremoved t t' hI ht

/-- What there is before the download. -/
structure Cleared (call : InstallCall) (t : FileTree Bytes) : Prop where
  way : call.Way t
  vacant : call.Vacant t

theorem Cleared.update (h : call.Cleared t) {node : Option (Node Bytes)}
    (ht : t'.node = Function.update t.node p node) (hbelow : call.tmpAt <:+ p) :
    call.Cleared t' :=
  ⟨h.way.update ht fun hp => absurd hp (pairAt_ne_of_below hbelow),
    h.vacant.kept (.of_update (not_final_of_tmp hbelow) ht)⟩

theorem finishes_making (hp : call.PairPlain) (hn : call.Fits) (hserve : call.Serves serve)
    (hc : call.Cleared t) (htmp : t.node call.tmpAt = none ∨ t.node call.tmpAt = some .dir)
    (hempty : ∀ name, t.node (name :: call.tmpAt) = none) :
    call.Finishes serve ⟨t, .making⟩ := by
  refine comes_make call.tmp_dir .making (.fetching ⟨call.wanted, [], []⟩)
    (I := fun t => call.Cleared t ∧ (t.node call.tmpAt = none ∨ t.node call.tmpAt = some .dir)
      ∧ ∀ name, t.node (name :: call.tmpAt) = none)
    (fun t => rfl) trivial hp.tmp_plain ?_ ?_ ?_ t ⟨hc, htmp, hempty⟩
  · rintro t ⟨hc, htmp, -⟩ p hbelow
    rw [tmp_dir_reverse] at hbelow
    rcases List.suffix_cons_iff.mp hbelow with rfl | hpair
    · exact htmp
    · exact hc.way p hpair
  · rintro t t' p ⟨hc, htmp, hempty⟩ hbelow ht
    rw [tmp_dir_reverse] at hbelow
    obtain ⟨-, -, hnode⟩ := FileTree.mkdir_eq_ok ht
    refine ⟨⟨hc.way.update hnode fun _ => rfl,
      hc.vacant.kept (.of_update (not_final_of_above hbelow) hnode)⟩, ?_, fun name => ?_⟩
    · rw [hnode]
      by_cases heq : call.tmpAt = p
      · rw [heq, Function.update_self]
        exact Or.inr rfl
      · rwa [Function.update_of_ne heq]
    · have hne : name :: call.tmpAt ≠ p := by
        rintro rfl
        have hle := hbelow.length_le
        rw [List.length_cons] at hle
        omega
      rw [hnode, Function.update_of_ne hne, hempty]
  · rintro t ⟨hc, -, hempty⟩ hdir
    rw [tmp_dir_reverse] at hdir
    refine finishes_fetching hp _ _ _ t (fun f hf => ⟨?_, hserve f hf⟩)
      ⟨hdir, fun name => by rw [hempty]; simp, hc.vacant⟩
    exact hn.plain f hf

theorem finishes_probing_tmp (hp : call.PairPlain) (hn : call.Fits)
    (hserve : call.Serves serve) (hc : call.Cleared t)
    (htmp : t.node call.tmpAt = none ∨ t.node call.tmpAt = some .dir) :
    call.Finishes serve ⟨t, .probing true⟩ := by
  by_cases hexists : t.node call.tmpAt = none
  · have hempty : ∀ name, t.node (name :: call.tmpAt) = none := by
      intro name
      by_contra hname
      cases hexists.symm.trans (t.parent _ _ hname)
    refine comes_proceed ⟨t, .making⟩ trivial ?_
      (finishes_making hp hn hserve hc htmp hempty)
    refine if_neg fun h => ?_
    exact hp.exists_tmp.mp h hexists
  · have hdir := htmp.resolve_left hexists
    refine comes_proceed ⟨t, .removing true⟩ trivial
      (if_pos (hp.exists_tmp.mpr hexists)) ?_
    refine finishes_removing hp true call.tmpAt rfl
      (I := fun t => call.Cleared t ∧ t.node call.tmpAt = some .dir)
      (fun t h => h.2) ?_ ?_ t ⟨hc, hdir⟩
    · rintro t t' p ⟨hc, hdir⟩ hbelow hne ht
      obtain ⟨-, -, -, hnode⟩ := FileTree.remove_eq_ok ht
      refine ⟨hc.update hnode hbelow, ?_⟩
      rw [hnode, Function.update_of_ne hne]
      exact hdir
    · rintro t t' ⟨hc, hdir⟩ ht
      obtain ⟨-, -, hnames, hnode⟩ := FileTree.remove_eq_ok ht
      refine finishes_making hp hn hserve (hc.update hnode (List.suffix_refl _)) (Or.inl ?_)
        fun name => ?_
      · rw [hnode]
        exact Function.update_self ..
      · rw [hnode, Function.update_of_ne (List.cons_ne_self _ _)]
        exact FileTree.names_eq_nil.mp hnames name

/-! ### The version directory -/

/-- What there is around the version directory. -/
structure Site (call : InstallCall) (t : FileTree Bytes) : Prop where
  way : call.Way t
  tmp : t.node call.tmpAt = none ∨ t.node call.tmpAt = some .dir

theorem Site.update (h : call.Site t) {node : Option (Node Bytes)}
    (ht : t'.node = Function.update t.node p node)
    (hway : p <:+ call.pairAt → node = some .dir) (hne : p ≠ call.tmpAt) : call.Site t' := by
  refine ⟨h.way.update ht hway, ?_⟩
  rw [ht, Function.update_of_ne (Ne.symm hne)]
  exact h.tmp

theorem finishes_removing_final (hp : call.PairPlain) (hn : call.Fits)
    (hserve : call.Serves serve) (hs : call.Site t) (hdir : t.node call.finalAt = some .dir) :
    call.Finishes serve ⟨t, .removing false⟩ := by
  have htmp : ∀ {p}, call.finalAt <:+ p → p ≠ call.tmpAt := by
    rintro p hbelow rfl
    exact not_final_of_tmp (List.suffix_refl _) hbelow
  refine finishes_removing hp false call.finalAt rfl
    (I := fun t => call.Site t ∧ t.node call.finalAt = some .dir)
    (fun t h => h.2) ?_ ?_ t ⟨hs, hdir⟩
  · rintro t t' p ⟨hs, hdir⟩ hbelow hne ht
    obtain ⟨-, -, -, hnode⟩ := FileTree.remove_eq_ok ht
    refine ⟨hs.update hnode (fun hpair => absurd hpair (pairAt_ne_of_below hbelow)) (htmp hbelow), ?_⟩
    rw [hnode, Function.update_of_ne hne]
    exact hdir
  · rintro t t' ⟨hs, hdir⟩ ht
    obtain ⟨-, -, hnames, hnode⟩ := FileTree.remove_eq_ok ht
    have hbelow : call.finalAt <:+ call.finalAt := List.suffix_refl _
    have hs' := hs.update hnode (fun hpair => absurd hpair (pairAt_ne_of_below hbelow)) (htmp hbelow)
    refine finishes_probing_tmp hp hn hserve ⟨hs'.way, Or.inl ?_, fun name => ?_⟩ hs'.tmp
    · rw [hnode]
      exact Function.update_self ..
    · rw [hnode, Function.update_of_ne (List.cons_ne_self _ _)]
      exact FileTree.names_eq_nil.mp hnames name

theorem finishes_probing_final (hp : call.PairPlain) (hn : call.Fits)
    (hserve : call.Serves serve) (hs : call.Site t) (hc : call.Clear t) :
    call.Finishes serve ⟨t, .probing false⟩ := by
  by_cases hmanifest : t.node (MANIFEST_FILE :: call.finalAt) = none
  · refine comes_proceed ⟨t, .probing true⟩ trivial
      (if_neg fun h => hp.exists_manifest.mp h hmanifest) ?_
    exact finishes_probing_tmp hp hn hserve ⟨hs.way, hc.resolve_right fun h => h hmanifest⟩ hs.tmp
  · refine comes_proceed ⟨t, .checking⟩ trivial
      (if_pos (hp.exists_manifest.mpr hmanifest)) ?_
    cases hscan : scan_model_dir call.host t call.final_dir .user with
    | ok m =>
        refine comes_proceed ⟨t, .done m false⟩ trivial ?_ (.here ⟨m, false, rfl⟩)
        unfold step
        simp only [hscan]
    | error problem =>
        refine comes_proceed ⟨t, .removing false⟩ trivial ?_
          (finishes_removing_final hp hn hserve hs (t.parent _ _ hmanifest))
        unfold step
        simp only [hscan]

/-! ### The lock -/

theorem Ready.site (h : call.Ready t) : call.Site t := by
  refine ⟨h.way, ?_⟩
  cases hnode : t.node call.tmpAt with
  | none => exact Or.inl rfl
  | some node =>
      cases node with
      | dir => exact Or.inr rfl
      | file content => exact absurd hnode (h.tmp content)

theorem comes_opening (huser : t.node call.stores.user.reverse = some .dir)
    (ht : t.put [] call.lockAt = .ok t') (h : call.Comes serve P ⟨t', .probing false⟩) :
    call.Comes serve P ⟨t, .opening⟩ := by
  have hlock : plainName ".lock" = true := by decide
  have hwalk : t.walk [] call.lock_path = .ok call.lockAt := by
    have h := @FileTree.walk_plain_snoc _ t [] _ _ user_plain hlock
      (by rw [List.append_nil]; exact huser)
    rw [List.append_nil] at h
    unfold lock_path
    rwa [join_plain hlock]
  refine comes_proceed ⟨t', .locking⟩ trivial ?_ (comes_proceed ⟨t', .probing false⟩ trivial rfl h)
  unfold step put
  simp only [hwalk, Except.bind]
  rw [show t.put [] call.lockAt = _ from ht]
  rfl

theorem finishes_opening (hl : call.Located) (hn : call.Fits)
    (hserve : call.Serves serve) (hr : call.Ready t) (hc : call.Clear t)
    (huser : t.node call.stores.user.reverse = some .dir) :
    call.Finishes serve ⟨t, .opening⟩ := by
  obtain ⟨t', ht⟩ := FileTree.put_ok [] (show plainName ".lock" = true by decide) huser hr.lock
  obtain ⟨-, -, hnode⟩ := FileTree.put_eq_ok ht
  have hkept : call.Kept t t' := .of_update hl.lock_not_final hnode
  have hsite : call.Site t' :=
    hr.site.update hnode (fun habove => absurd habove hr.apart) hl.lock_ne_tmp
  exact comes_opening huser ht
    (finishes_probing_final hl.pair_plain hn hserve hsite (hc.kept hkept))

theorem finishes_init (hl : call.Located) (hn : call.Fits)
    (hserve : call.Serves serve) (hr : call.Ready t) (hc : call.Clear t) :
    call.Finishes serve (Install.init t) := by
  have hlength : call.stores.user.reverse.length < call.lockAt.length := by simp [lockAt]
  have habove : call.stores.user.reverse <:+ call.pairAt := hl.inside.below
  refine comes_make call.stores.user .creatingUser .opening
    (I := fun t => call.Ready t ∧ call.Clear t) (fun t => rfl) trivial user_plain ?_ ?_ ?_ t ⟨hr, hc⟩
  · exact fun t h p hbelow => h.1.way p (hbelow.trans habove)
  · rintro t t' p ⟨hr, hc⟩ hbelow ht
    obtain ⟨-, -, hnode⟩ := FileTree.mkdir_eq_ok ht
    have hle := (hbelow.trans habove).length_le
    have hne : call.lockAt ≠ p := by
      rintro rfl
      exact absurd hbelow.length_le (by omega)
    have hne' : call.tmpAt ≠ p := by
      rintro rfl
      rw [tmpAt, List.length_cons] at hle
      omega
    refine ⟨⟨hr.way.update hnode fun _ => rfl, hr.apart, ?_, fun content => ?_⟩,
      hc.kept (.of_update (not_final_of_short hle) hnode)⟩
    · rw [hnode, Function.update_of_ne hne]
      exact hr.lock
    · rw [hnode, Function.update_of_ne hne']
      exact hr.tmp content
  · exact fun t h huser => finishes_opening hl hn hserve h.1 h.2 huser

/-- A model that a scan accepts is found. -/
theorem installs_of_accepts (hl : call.Located) (h : call.Accepts t) :
    call.Comes serve call.Installs (Install.init t) := by
  obtain ⟨t', m, ht, hscan⟩ := h
  obtain ⟨-, -, hnode⟩ := FileTree.put_eq_ok ht
  have huser : t.node call.stores.user.reverse = some .dir := by
    have hlock : t'.node call.lockAt ≠ none := by
      rw [hnode, Function.update_self]
      exact Option.some_ne_none _
    have hparent := t'.parent _ _ hlock
    have hne : call.stores.user.reverse ≠ call.lockAt := (List.cons_ne_self _ _).symm
    rwa [hnode, Function.update_of_ne hne] at hparent
  have hdirs : ∀ p, p <:+ call.stores.user.reverse → t.node p = some .dir := by
    rintro p ⟨q, hq⟩
    by_cases hnil : q = []
    · rw [hnil, List.nil_append] at hq
      rwa [hq]
    · refine t.node_of_append hnil ?_
      rw [hq, huser]
      exact Option.some_ne_none _
  refine comes_make call.stores.user .creatingUser .opening (I := fun t'' => t'' = t)
    (fun t => rfl) trivial user_plain ?_ ?_ ?_ t rfl
  · rintro _ rfl p hbelow
    exact Or.inr (hdirs p hbelow)
  · rintro _ t'' p rfl hbelow hmkdir
    cases (hdirs p hbelow).symm.trans (FileTree.mkdir_eq_ok hmkdir).2.1
  · rintro _ rfl -
    refine comes_opening huser ht (comes_proceed ⟨t', .checking⟩ trivial
      (if_pos (hl.pair_plain.exists_manifest.mpr (hl.manifest_of_scan hscan)))
      (comes_proceed ⟨t', .done m false⟩ trivial ?_ (.here ?_)))
    · unfold step
      simp only [hscan]
    · obtain ⟨horigin, hdirectory, -⟩ := scan_model_dir_eq_ok.mp hscan
      refine ⟨m, false, rfl, Stores.mem_scan.mpr ?_, hdirectory, nofun⟩
      rw [horigin, hdirectory]
      exact ⟨hl.scanned (hl.dir_of_scan hscan), hscan⟩

end Finishes

/-! ## Runs that do not -/

section Blocked

variable {s s' : Install} {e : InstallEvent} {t₀ : FileTree Bytes}
  {ok : Install → InstallEvent → Prop}

/-- The version directory is still in the way. -/
def Passing : Install.Pc → Prop
  | .checking | .removing false | .syncingPair _ | .done _ _ => False
  | _ => True

theorem blocked_step (hl : call.Located) (hn : call.NamesStay) (hnot : ¬ call.Clear t₀)
    (hs : call.step s e = some s') (hf : call.FromSet s.pc)
    (hb : call.Kept t₀ s.tree ∧ Passing s.pc) : call.Kept t₀ s'.tree ∧ Passing s'.pc := by
  obtain ⟨hk, hpassing⟩ := hb
  -- a directory that is clear now was clear
  have hclear : ¬ call.Clear s.tree := fun h => hnot (h.kept fun q hq => (hk q hq).symm)
  have hkept : (∀ m, s.pc ≠ .renaming m) → call.Kept t₀ s'.tree := by
    intro hrenaming
    refine hk.trans (kept_step hl hn (step_cases hs) hf (fun hremoving => ?_) hrenaming)
    rw [hremoving] at hpassing
    exact hpassing
  cases step_cases hs with
  | found hpc =>
      refine absurd (Or.inr ?_) hclear
      rw [← hl.pair_plain.exists_manifest]
      unfold step at hs
      simp only [hpc] at hs
      split at hs
      · assumption
      · cases hs
  | rename hpc hsrc hdst ht =>
      obtain rfl := hl.pair_plain.walk_tmp hsrc
      obtain rfl := hl.pair_plain.walk_final hdst
      obtain ⟨-, hempty, hdir, -⟩ := FileTree.rename_eq_ok ht finalAt_ne_tmpAt.symm
      exact absurd (Or.inl ⟨hdir, fun name => hempty [name] (by simp)⟩) hclear
  | existing hpc | damaged hpc | finish hpc =>
      rw [hpc] at hpassing
      exact hpassing.elim
  | @unlink tmp dir p t hpc hwalk hbelow hne ht =>
      rw [hpc] at hpassing
      exact ⟨hkept (fun m hm => by cases hpc.symm.trans hm), hpassing⟩
  | @removed tmp dir t hpc =>
      rw [hpc] at hpassing
      refine ⟨hkept (fun m hm => by cases hpc.symm.trans hm), ?_⟩
      cases tmp <;> trivial
  | makeUser hpc | userMade hpc | lockFile hpc | locked hpc | absent hpc | tmpFound hpc
  | tmpAbsent hpc | make hpc | made hpc | refused hpc | unpacked hpc | assembled hpc | create hpc
  | write hpc | wrote hpc | synced hpc | stored hpc =>
      exact ⟨hkept (fun m hm => by cases hpc.symm.trans hm), trivial⟩
  | fail => exact ⟨hk, trivial⟩

/-- Install does not return a model while the directory is in the way. -/
theorem not_done_of_reach (hl : call.Located) (hn : call.NamesStay) (hnot : ¬ call.Clear t₀)
    (h : Machine.Reach call.step ok (Install.init t₀) s) : ∀ m d, s.pc ≠ .done m d := by
  have hblocked : call.Kept t₀ s.tree ∧ Passing s.pc := by
    refine @Machine.Reach.invariant _ _ _ _ _ _
      (fun s => call.Kept t₀ s.tree ∧ Passing s.pc) h ?_ ?_
    · exact ⟨fun _ _ => rfl, trivial⟩
    · exact fun _ _ _ hpre _ hs hb => blocked_step hl hn hnot hs (fromSet_of_reach hpre) hb
  intro m d hpc
  have hpassing := hblocked.2
  rw [hpc] at hpassing
  exact hpassing

theorem installs_of_done (hl : call.Located) (hn : call.Fits)
    (hjson : call.host.from_slice (call.host.to_vec_pretty call.installed) = .ok call.installed)
    (h : Machine.Reach call.step ok (Install.init t₀) s) {m : InstalledModel} {d : Bool}
    (hpc : s.pc = .done m d) : call.Installs s := by
  cases d with
  | false =>
      have hscan := model_of_existing h hpc
      obtain ⟨horigin, hdirectory, -⟩ := scan_model_dir_eq_ok.mp hscan
      refine ⟨m, false, hpc, Stores.mem_scan.mpr ?_, hdirectory, nofun⟩
      rw [horigin, hdirectory]
      exact ⟨hl.scanned (hl.dir_of_scan hscan), hscan⟩
  | true =>
      have hw := written_of_reach hl hn h
      rw [hpc] at hw
      obtain ⟨rfl, hplaced⟩ := hw
      exact ⟨_, true, hpc, Stores.mem_scan.mpr ⟨hl.scanned hplaced.dir,
        hplaced.scan hl hn hjson⟩, rfl, fun _ => hplaced⟩

/-! ### What an install has passed -/

/-- A file on the way to the directory of the pair stays one. -/
theorem file_stays (hl : call.Located) (h : call.Transition s e s') {p : List String}
    (hp : p <:+ call.pairAt) (hfile : ∃ content, s.tree.node p = some (.file content)) :
    ∃ content, s'.tree.node p = some (.file content) := by
  have hmkdir : ∀ {q : List String} {t : FileTree Bytes}, s.tree.mkdir q = .ok t →
      t.node p = s.tree.node p := by
    intro q t ht
    obtain ⟨-, hnone, hnode⟩ := FileTree.mkdir_eq_ok ht
    obtain ⟨content, hfile⟩ := hfile
    have hne : p ≠ q := by
      rintro rfl
      cases hnone.symm.trans hfile
    rw [hnode, Function.update_of_ne hne]
  have hput : ∀ {q : List String} {content : Bytes} {t : FileTree Bytes}, s.tree.put content q = .ok t →
      ∃ content, t.node p = some (.file content) := by
    intro q content t ht
    obtain ⟨-, -, hnode⟩ := FileTree.put_eq_ok ht
    rw [hnode, Function.update_apply]
    split
    · exact ⟨content, rfl⟩
    · exact hfile
  have htarget : ∀ {tmp : Bool} {dir q : List String} {t : FileTree Bytes},
      s.tree.walk [] (call.target tmp) = .ok dir → dir <:+ q → s.tree.remove q = .ok t →
        t.node p = s.tree.node p := by
    intro tmp dir q t hwalk hbelow ht
    obtain ⟨-, -, -, hnode⟩ := FileTree.remove_eq_ok ht
    have hdir : ∃ name, dir = name :: call.pairAt := by
      cases tmp with
      | false => exact ⟨_, hl.pair_plain.walk_final hwalk⟩
      | true => exact ⟨_, hl.pair_plain.walk_tmp hwalk⟩
    obtain ⟨name, rfl⟩ := hdir
    have hne : p ≠ q := by
      rintro rfl
      exact pairAt_ne_of_below hbelow hp
    rw [hnode, Function.update_of_ne hne]
  cases h with
  | userMade | locked | found | absent | existing | damaged | tmpFound | tmpAbsent | made | refused
  | unpacked | assembled | wrote | synced | stored | finish | fail => exact hfile
  | makeUser _ _ ht | make _ _ ht => exact hmkdir ht ▸ hfile
  | lockFile _ _ ht | create _ _ ht | write _ _ ht => exact hput ht
  | unlink _ hwalk hbelow _ ht => exact htarget hwalk hbelow ht ▸ hfile
  | removed _ hwalk ht => exact htarget hwalk (List.suffix_refl _) ht ▸ hfile
  | rename _ hsrc hdst ht =>
      obtain rfl := hl.pair_plain.walk_tmp hsrc
      obtain rfl := hl.pair_plain.walk_final hdst
      obtain ⟨-, -, -, -, hother, -⟩ := FileTree.rename_eq_ok ht finalAt_ne_tmpAt.symm
      have hnot : ∀ {name}, ¬ name :: call.pairAt <:+ p :=
        fun hbelow => pairAt_ne_of_below hbelow hp
      rw [hother p hnot hnot]
      exact hfile

/-- The lock file has not been opened. -/
def Starting : Install.Pc → Prop
  | .creatingUser | .opening | .failed _ => True
  | _ => False

/-- The lock file can be opened, and nothing is made below it. -/
theorem lock_of_reach (hl : call.Located) (h : Machine.Reach call.step ok (Install.init t₀) s) :
    (Starting s.pc ∧ (t₀.node call.lockAt = some .dir → s.tree.node call.lockAt = some .dir))
      ∨ (t₀.node call.lockAt ≠ some .dir
        ∧ (call.lockAt <:+ call.pairAt →
          ∃ content, s.tree.node call.lockAt = some (.file content))) := by
  refine @Machine.Reach.invariant _ _ _ _ _ _ (fun s => (Starting s.pc ∧ (t₀.node call.lockAt
      = some .dir → s.tree.node call.lockAt = some .dir)) ∨ (t₀.node call.lockAt ≠ some .dir
      ∧ (call.lockAt <:+ call.pairAt → ∃ content, s.tree.node call.lockAt = some (.file content))))
    h ?_ ?_
  · exact Or.inl ⟨trivial, id⟩
  rintro s e s' - - hs (⟨hstarting, hdir⟩ | ⟨hnot, hfile⟩)
  · cases step_cases hs with
    | @makeUser p t hpc hmissing ht =>
        obtain ⟨-, hnone, hnode⟩ := FileTree.mkdir_eq_ok ht
        refine Or.inl ⟨trivial, fun hlock => ?_⟩
        have hne : call.lockAt ≠ p := by
          rintro rfl
          cases hnone.symm.trans (hdir hlock)
        rw [hnode, Function.update_of_ne hne]
        exact hdir hlock
    | userMade => exact Or.inl ⟨trivial, hdir⟩
    | lockFile hpc hwalk ht =>
        obtain rfl := walk_lock hwalk
        obtain ⟨-, hnot, hnode⟩ := FileTree.put_eq_ok ht
        refine Or.inr ⟨fun hlock => hnot (hdir hlock), fun _ => ⟨[], ?_⟩⟩
        rw [hnode, Function.update_self]
    | fail => exact Or.inl ⟨trivial, hdir⟩
    | locked hpc | found hpc | absent hpc | existing hpc | damaged hpc | tmpFound hpc
    | tmpAbsent hpc | unlink hpc | removed hpc | make hpc | made hpc | refused hpc | unpacked hpc
    | assembled hpc | create hpc | write hpc | wrote hpc | synced hpc | stored hpc | rename hpc
    | finish hpc =>
        rw [hpc] at hstarting
        exact hstarting.elim
  · exact Or.inr ⟨hnot, fun hbelow => file_stays hl (step_cases hs) hbelow (hfile hbelow)⟩

/-- The temporary directory is not made yet. -/
def Early : Install.Pc → Prop
  | .creatingUser | .opening | .locking | .probing _ | .checking | .removing _ | .making
  | .done _ false | .failed _ => True
  | _ => False

/-- `remove_dir_all` is for directories. -/
theorem dir_of_unlink {tmp : Bool} {p : List String} (hpc : s.pc = .removing tmp)
    (hs : call.step s (.unlink p) = some s') :
    ∃ dir, s.tree.walk [] (call.target tmp) = .ok dir ∧ s.tree.node dir = some .dir
      ∧ dir <:+ p := by
  unfold step at hs
  simp only [hpc] at hs
  split at hs
  · cases hs
  · rename_i dir hwalk
    split at hs
    · rename_i hguard
      rw [Bool.and_eq_true, decide_eq_true_eq] at hguard
      exact ⟨dir, hwalk, FileTree.isDir_iff.mp hguard.1, hguard.2⟩
    · cases hs

/-- A file in the place of the temporary directory stays there, and install
does not come to a download. -/
theorem early_of_reach (hl : call.Located)
    (hfile : ∃ content, t₀.node call.tmpAt = some (.file content))
    (h : Machine.Reach call.step ok (Install.init t₀) s) :
    Early s.pc ∧ ∃ content, s.tree.node call.tmpAt = some (.file content) := by
  refine @Machine.Reach.invariant _ _ _ _ _ _ (fun s => Early s.pc
    ∧ ∃ content, s.tree.node call.tmpAt = some (.file content)) h ?_ ?_
  · exact ⟨trivial, hfile⟩
  rintro s e s' - - hs ⟨hearly, content, hfile⟩
  have hunlink : ∀ {tmp : Bool} {p : List String} {t : FileTree Bytes}, s.pc = .removing tmp →
      call.step s (.unlink p) = some s' →
      t.node = Function.update s.tree.node p none →
      t.node call.tmpAt = some (.file content) := by
    intro tmp p t hpc hs hnode
    obtain ⟨dir, hwalk, hdir, hbelow⟩ := dir_of_unlink hpc hs
    have hne : call.tmpAt ≠ p := by
      rintro rfl
      cases tmp with
      | false =>
          obtain rfl := hl.pair_plain.walk_final hwalk
          exact not_final_of_tmp (List.suffix_refl _) hbelow
      | true =>
          obtain rfl := hl.pair_plain.walk_tmp hwalk
          cases hdir.symm.trans hfile
    rw [hnode, Function.update_of_ne hne, hfile]
  have hmkdir : ∀ {q : List String} {t : FileTree Bytes}, s.tree.mkdir q = .ok t →
      t.node call.tmpAt = some (.file content) := by
    intro q t ht
    obtain ⟨-, hnone, hnode⟩ := FileTree.mkdir_eq_ok ht
    have hne : call.tmpAt ≠ q := by
      rintro rfl
      cases hnone.symm.trans hfile
    rw [hnode, Function.update_of_ne hne, hfile]
  cases step_cases hs with
  | makeUser hpc hmissing ht | make hpc hmissing ht => exact ⟨trivial, content, hmkdir ht⟩
  | lockFile hpc hwalk ht =>
      obtain rfl := walk_lock hwalk
      obtain ⟨-, -, hnode⟩ := FileTree.put_eq_ok ht
      refine ⟨trivial, content, ?_⟩
      rw [hnode, Function.update_of_ne hl.lock_ne_tmp.symm, hfile]
  | userMade | locked | found | absent | existing | damaged | tmpFound | tmpAbsent | fail =>
      exact ⟨trivial, content, hfile⟩
  | unlink hpc _ _ _ ht =>
      obtain ⟨-, -, -, hnode⟩ := FileTree.remove_eq_ok ht
      exact ⟨trivial, content, hunlink hpc hs hnode⟩
  | @removed tmp dir t hpc _ ht =>
      obtain ⟨-, -, -, hnode⟩ := FileTree.remove_eq_ok ht
      refine ⟨?_, content, hunlink hpc hs hnode⟩
      cases tmp <;> trivial
  | made hpc hmissing =>
      have hdir := FileTree.missing_eq_none hl.pair_plain.tmp_plain hmissing
      rw [List.append_nil, tmp_dir_reverse] at hdir
      cases hdir.symm.trans hfile
  | refused hpc | unpacked hpc | assembled hpc | create hpc | write hpc | wrote hpc | synced hpc
  | stored hpc | rename hpc | finish hpc =>
      rw [hpc] at hearly
      exact hearly.elim

/-- The install may have made directories, and its lock file. -/
def Unmade (call : InstallCall) (t₀ t : FileTree Bytes) : Install.Pc → Prop
  | .creatingUser | .opening => t = t₀ ∨ t.node call.finalAt = none
  | .locking | .probing false | .checking | .done _ false =>
      t₀.put [] call.lockAt = .ok t ∨ t.node call.finalAt = none
  | _ => True

theorem unmade_of_reach (hl : call.Located) (h : Machine.Reach call.step ok (Install.init t₀) s) :
    call.Unmade t₀ s.tree s.pc := by
  refine @Machine.Reach.invariant _ _ _ _ _ _ (fun s => call.Unmade t₀ s.tree s.pc) h
    ?_ ?_
  · exact Or.inl rfl
  intro s e s' _ _ hs hu
  cases step_cases hs with
  | @makeUser p t hpc hmissing ht =>
      -- the version directory is below one that is missing
      obtain ⟨-, hbelow, -⟩ := FileTree.missing_eq_some user_plain hmissing
      rw [List.append_nil] at hbelow
      obtain ⟨-, hnone, hnode⟩ := FileTree.mkdir_eq_ok ht
      obtain ⟨rest, hrest⟩ := hbelow.trans hl.inside.below
      have hne : call.finalAt ≠ p := by
        intro heq
        exact not_final_of_short (hbelow.trans hl.inside.below).length_le
          (heq ▸ List.suffix_refl _)
      refine Or.inr ?_
      rw [hnode, Function.update_of_ne hne]
      by_contra hsome
      have hfinal : call.finalAt = (call.set.version.raw :: rest) ++ p := by
        rw [List.cons_append, hrest]
        rfl
      rw [hfinal] at hsome
      cases hnone.symm.trans (s.tree.node_of_append (List.cons_ne_nil _ _) hsome)
  | userMade hpc =>
      rw [hpc] at hu
      exact hu
  | lockFile hpc hwalk ht =>
      rw [hpc] at hu
      obtain rfl := walk_lock hwalk
      rcases hu with hsame | hnone
      · exact Or.inl (hsame ▸ ht)
      · obtain ⟨-, -, hnode⟩ := FileTree.put_eq_ok ht
        refine Or.inr ?_
        have hne : call.finalAt ≠ call.lockAt :=
          fun heq => hl.lock_not_final (heq ▸ List.suffix_refl _)
        rw [hnode, Function.update_of_ne hne]
        exact hnone
  | locked hpc | found hpc | existing hpc =>
      rw [hpc] at hu
      exact hu
  | @removed tmp => cases tmp <;> trivial
  | absent | damaged | tmpFound | tmpAbsent | unlink | make | made | refused | unpacked | assembled
  | create | write | wrote | synced | stored | rename | finish | fail => trivial

/-- What an install returns without a download was accepted. -/
theorem accepts_of_existing (hl : call.Located)
    (h : Machine.Reach call.step ok (Install.init t₀) s) {m : InstalledModel}
    (hpc : s.pc = .done m false) : call.Accepts t₀ := by
  have hscan := model_of_existing h hpc
  have hu := unmade_of_reach hl h
  rw [hpc] at hu
  rcases hu with hput | hnone
  · exact ⟨s.tree, m, hput, hscan⟩
  · cases hnone.symm.trans (hl.dir_of_scan hscan)

theorem Fits.stay (hn : call.Fits) : call.NamesStay :=
  fun f hf => insideName_of_plain (hn.plain f hf)

/-- The files of a complete model go into one directory. -/
theorem Placed.fits {m : Manifest} (hp : call.Placed t m) : call.Fits where
  plain f hf := by
    obtain ⟨content, hnode, -⟩ := hp.files f hf
    exact t.plain _ _ (ne_of_eq_of_ne hnode (Option.some_ne_none _))
  agree f hf f' hf' hname := by
    obtain ⟨content, hnode, hverified⟩ := hp.files f hf
    obtain ⟨content', hnode', hverified'⟩ := hp.files f' hf'
    rw [hname] at hnode
    cases hnode.symm.trans hnode'
    exact ⟨hverified.1.symm.trans hverified'.1, eq_ignore_ascii_case_iff.mpr
      ((eq_ignore_ascii_case_iff.mp hverified.2).symm.trans
        (eq_ignore_ascii_case_iff.mp hverified'.2))⟩
  manifest f hf hname := by
    obtain ⟨content, hnode, hverified⟩ := hp.files f hf
    rw [hname] at hnode
    cases hp.manifest.symm.trans hnode
    exact hverified

/-- What install needs for a download. -/
theorem ready_of_downloaded (hl : call.Located)
    (h : Machine.Reach call.step ok (Install.init t₀) s) {m : InstalledModel}
    (hpc : s.pc = .done m true) (hp : call.Placed s.tree m.manifest) :
    call.Ready t₀ ∧ call.Clear t₀ ∧ call.Fits := by
  have hfits := hp.fits
  have hway : ∀ p, p <:+ call.pairAt → s.tree.node p = some .dir := by
    rintro p ⟨rest, hrest⟩
    have hfinal : call.finalAt = (call.set.version.raw :: rest) ++ p := by
      rw [List.cons_append, hrest]
      rfl
    have hdir := hp.dir
    rw [hfinal] at hdir
    exact s.tree.node_of_append (List.cons_ne_nil _ _)
      (ne_of_eq_of_ne hdir (Option.some_ne_none _))
  have hfiles : ∀ p, p <:+ call.pairAt → ∀ content, s.tree.node p ≠ some (.file content) := by
    intro p hbelow content hfile
    cases (hway p hbelow).symm.trans hfile
  obtain ⟨hlock, hapart⟩ := (lock_of_reach hl h).resolve_left fun hstarting => by
    have hnot := hstarting.1
    rw [hpc] at hnot
    exact hnot
  refine ⟨⟨fun p hbelow => ?_, fun hbelow => ?_, hlock, fun content hfile => ?_⟩, ?_, hfits⟩
  · cases hnode : t₀.node p with
    | none => exact Or.inl rfl
    | some node =>
        cases node with
        | dir => exact Or.inr rfl
        | file content =>
            obtain ⟨content', hfile⟩ : ∃ content, s.tree.node p = some (.file content) :=
              h.invariant (I := fun s => ∃ content, s.tree.node p = some (.file content))
                ⟨content, hnode⟩ fun _ _ _ _ _ hs => file_stays hl (step_cases hs) hbelow
            exact absurd hfile (hfiles p hbelow content')
  · obtain ⟨content, hfile⟩ := hapart hbelow
    exact hfiles _ hbelow content hfile
  · have hearly := (early_of_reach hl ⟨content, hfile⟩ h).1
    rw [hpc] at hearly
    exact hearly
  · by_contra hnot
    exact not_done_of_reach hl hfits.stay hnot h m true hpc

end Blocked

/-- **Install replaces what is left of a version directory** exactly when it
is absent, or empty, or has a manifest, damaged or not; nothing around it is
in the way; and the files go into one directory: then every run in which the
server has the files, and nothing fails that could succeed, returns the
model, listed and complete. -/
theorem install_repairs_iff {t₀ : FileTree Bytes} (hserve : call.Serves serve)
    (hjson : call.host.from_slice (call.host.to_vec_pretty call.installed)
      = .ok call.installed) :
    Machine.Inevitable call.step (call.Undisturbed serve) call.Installs (Install.init t₀)
      ↔ call.Repairable t₀ := by
  constructor
  · intro h
    obtain ⟨s, hreach, m, d, hpc, hlisted, hdirectory, hplaced⟩ := h.exists_reach
    cases d with
    | false =>
        obtain ⟨horigin, -⟩ := scan_model_dir_eq_ok.mp (model_of_existing hreach hpc)
        have hl := located_of_listed hlisted horigin hdirectory
        exact ⟨hl, Or.inl (accepts_of_existing hl hreach hpc)⟩
    | true =>
        obtain ⟨horigin, -⟩ := directory_of_done hreach hpc
        have hl := located_of_listed hlisted horigin hdirectory
        exact ⟨hl, Or.inr (ready_of_downloaded hl hreach hpc (hplaced rfl))⟩
  · rintro ⟨hl, haccepts | ⟨hready, hclear, hfits⟩⟩
    · exact installs_of_accepts hl haccepts
    · refine (finishes_init hl hfits hserve hready hclear).imp_reach ?_
      rintro s hreach ⟨m, d, hpc⟩
      exact installs_of_done hl hfits hjson hreach hpc

/-! ### The small catalogue -/

/-- The server has the frames. -/
def catalogueServe (url : String) : Bytes :=
  if url = "https://example.test/model.bin" then frame 97 else frame 98

theorem catalogue_serves : (catalogueCall hashA).Serves catalogueServe := by
  intro f hf
  have hunpack : ∀ f ∈ (catalogueCall hashA).wanted,
      (f.2.unpack (catalogueCall hashA).host
        (catalogueServe ((catalogueCall hashA).url f.2))).toOption.isSome = true := by
    decide +kernel
  obtain ⟨content, hcontent⟩ := Option.isSome_iff_exists.mp (hunpack f hf)
  exact ⟨content, toOption_eq_some hcontent⟩

theorem catalogue_ready {t : FileTree Bytes}
    (h : (∀ p ∈ (catalogueCall hashA).pairAt.tails, t.node p = none ∨ t.node p = some .dir)
      ∧ t.node (catalogueCall hashA).lockAt = none
      ∧ t.node (catalogueCall hashA).tmpAt = none) : (catalogueCall hashA).Ready t where
  way p hp := h.1 p ((List.mem_tails ..).mpr hp)
  apart := by decide +kernel
  lock := by rw [h.2.1]; simp
  tmp content := by rw [h.2.2]; simp

/-- Into an empty file system. -/
theorem install_repairs_empty :
    Machine.Inevitable (catalogueCall hashA).step ((catalogueCall hashA).Undisturbed catalogueServe)
      (catalogueCall hashA).Installs (Install.init FileTree.empty) := by
  refine (install_repairs_iff catalogue_serves (catalogue_reads _)).mpr
    ⟨located_of_plain (by decide), Or.inr ⟨catalogue_ready (by decide),
      Or.inl ⟨?_, fun name => ?_⟩, (catalogue_names _).fits⟩⟩
  · decide
  · simp [FileTree.empty]

/-- What an interrupted removal has left: the model, and no manifest. -/
def leftTree : FileTree Bytes :=
  plant (pairDirs ++ [(dir3, none), ("model.bin" :: dir3, some [97])])

theorem install_not_repaired :
    (catalogueCall hashA).set ∈ (accepted_sets (catalogue hashA) (.prerelease false)).1
      ∧ (catalogueCall hashA).Serves catalogueServe ∧ (catalogueCall hashA).Ready leftTree
      ∧ (scan_model_dir (catalogueCall hashA).host leftTree (catalogueCall hashA).final_dir
        .user).toOption = none
      ∧ ¬ Machine.Inevitable (catalogueCall hashA).step
        ((catalogueCall hashA).Undisturbed catalogueServe) (catalogueCall hashA).Installs
        (Install.init leftTree) := by
  refine ⟨catalogue_accepted _ (by simp), catalogue_serves, catalogue_ready (by decide +kernel),
    by decide +kernel, fun h => ?_⟩
  have hnot : ¬ (catalogueCall hashA).Clear leftTree := by
    have hmodel : leftTree.node ("model.bin" :: (catalogueCall hashA).finalAt) = some (.file [97]) := by
      decide +kernel
    have hmanifest : leftTree.node (MANIFEST_FILE :: (catalogueCall hashA).finalAt) = none := by
      decide +kernel
    rintro (hvacant | hsome)
    · cases hmodel.symm.trans (hvacant.empty "model.bin")
    · exact hsome hmanifest
  obtain ⟨s, hreach, m, d, hpc, -⟩ := h.exists_reach
  exact not_done_of_reach (located_of_plain (by decide)) (catalogue_names _).stay hnot hreach m d hpc

end InstallCall

end Dragomand
