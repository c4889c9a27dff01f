import Dragomand.InstallFiles

/-!
# What install leaves alone

When the directory of the pair is inside the user store and the names of the
files lead nowhere else, an install changes nothing but what is below its
version directory and its temporary directory, the lock file, and
directories on the way to the pair's that were missing. This holds at every
point of every run.
-/

namespace Dragomand

open FileTree (Node plainName)

theorem insideName_of_plain {name : String} (h : plainName name = true) :
    insideName name = true := by
  obtain ⟨hempty, -, hdots⟩ := FileTree.plainName_ne h
  unfold insideName
  rw [components_plain h]
  simp [Ne.symm hdots, hempty]

namespace InstallCall

variable {call : InstallCall}

variable (call) in
/-- The names of the files stay inside the directory. -/
def NamesStay : Prop := ∀ f ∈ call.wanted, insideName f.2.name = true

/-! ## The outputs are those of the set -/

variable (call) in
/-- The program works at files that are wanted. -/
def FromSet : Install.Pc → Prop
  | .fetching d => ∀ f ∈ d.rest, f ∈ call.wanted
  | .creating o | .writing o _ | .syncing o =>
      match o with
      | .file record _ after =>
          (∃ role, (role, record) ∈ call.wanted) ∧ ∀ f ∈ after.rest, f ∈ call.wanted
      | .manifest _ => True
  | _ => True

section Step

variable {s s' : Install} {e : InstallEvent} {ok : Install → InstallEvent → Prop}
  {t₀ : FileTree Bytes}

theorem fromSet_step (h : call.Transition s e s') (hf : call.FromSet s.pc) :
    call.FromSet s'.pc := by
  cases h with
  | makeUser | userMade | lockFile | locked | found | absent | existing | damaged | tmpFound
  | tmpAbsent | unlink | make | refused | assembled | stored | rename | finish | fail => trivial
  | @removed tmp => cases tmp <;> trivial
  | made => exact fun f hf => hf
  | @unpacked role record rest files urls bytes content result hpc hcontent =>
      rw [hpc] at hf
      exact ⟨⟨role, hf _ (List.mem_cons_self ..)⟩, fun f hmem => hf f (List.mem_cons_of_mem _ hmem)⟩
  | create hpc hwalk ht =>
      rw [hpc] at hf
      exact hf
  | write hpc hwalk ht =>
      rw [hpc] at hf
      exact hf
  | wrote hpc hall =>
      rw [hpc] at hf
      exact hf
  | synced hpc =>
      rw [hpc] at hf
      exact hf.2

theorem fromSet_of_reach (h : Machine.Reach call.step ok (Install.init t₀) s) :
    call.FromSet s.pc := by
  refine @Machine.Reach.invariant _ _ _ _ _ _ (fun s => call.FromSet s.pc) h ?_ ?_
  · trivial
  · exact fun _ _ _ _ _ hs hf => fromSet_step (step_cases hs) hf

theorem PairPlain.locate_join (hp : call.PairPlain) {name : String} (hname : insideName name = true) :
    call.tmpAt <:+ FileTree.locate [] (PathBuf.join call.tmp_dir name) := by
  obtain ⟨cs, hjoin, hcs⟩ := join_insideName call.tmp_dir hname
  rw [hjoin, FileTree.locate_append, FileTree.locate_plain hp.tmp_plain, List.append_nil,
    tmp_dir_reverse]
  exact FileTree.suffix_locate hcs (List.suffix_refl _)

theorem PairPlain.locate_manifest (hp : call.PairPlain) :
    call.tmpAt <:+ FileTree.locate [] (PathBuf.join call.tmp_dir MANIFEST_FILE) :=
  hp.locate_join (insideName_of_plain (by decide))

/-- A file that is written is below the temporary directory. -/
theorem PairPlain.path_below (hp : call.PairPlain) (hn : call.NamesStay) {o : Output}
    (ho : call.FromSet (.creating o)) {t : FileTree Bytes} {p : List String}
    (h : t.walk [] (call.path o) = .ok p) : call.tmpAt <:+ p := by
  rw [FileTree.walk_eq_locate h]
  cases o with
  | file record content after =>
      obtain ⟨⟨role, hmem⟩, -⟩ := ho
      exact hp.locate_join (hn (role, record) hmem)
  | manifest m => exact hp.locate_manifest

/-! ## Where changes are made -/

variable (call) in
/-- Install may change what is at the path. -/
def Own (p : List String) : Prop :=
  call.finalAt <:+ p ∨ call.tmpAt <:+ p ∨ p = call.lockAt

variable (call) in
/-- The names of the files lead to such paths. -/
def NamesOwn : Prop :=
  ∀ f ∈ call.wanted, call.Own (FileTree.locate [] (PathBuf.join call.tmp_dir f.2.name))

theorem NamesStay.own (hn : call.NamesStay) (hp : call.PairPlain) : call.NamesOwn :=
  fun f hf => Or.inr (Or.inl (hp.locate_join (hn f hf)))

theorem PairPlain.path_own (hp : call.PairPlain) (hn : call.NamesOwn) {o : Output}
    (ho : call.FromSet (.creating o)) {t : FileTree Bytes} {p : List String}
    (h : t.walk [] (call.path o) = .ok p) : call.Own p := by
  rw [FileTree.walk_eq_locate h]
  cases o with
  | file record content after =>
      obtain ⟨⟨role, hmem⟩, -⟩ := ho
      exact hn (role, record) hmem
  | manifest m => exact Or.inr (Or.inl hp.locate_manifest)

variable (call) in
/-- The directory of the pair is inside the user store. -/
structure Inside : Prop where
  plain : call.PairPlain
  below : call.stores.user.reverse <:+ call.pairAt

theorem Located.inside (hl : call.Located) : call.Inside := by
  refine ⟨hl.pair_plain, ?_⟩
  obtain ⟨provider, pair, -, -, heq⟩ := hl
  unfold pairAt
  rw [heq, List.reverse_append]
  exact List.suffix_append ..

variable (call) in
/-- Elsewhere only missing directories on the way to the pair's are made. -/
def Untouched (t₀ t : FileTree Bytes) : Prop :=
  ∀ p, ¬ call.Own p → t.node p = t₀.node p
    ∨ (t₀.node p = none ∧ t.node p = some .dir ∧ p <:+ call.pairAt)

theorem Untouched.refl (t : FileTree Bytes) : call.Untouched t t := fun _ _ => Or.inl rfl

/-- A change at a place of its own. -/
theorem Untouched.update {t₀ t t' : FileTree Bytes} (h : call.Untouched t₀ t) {p : List String}
    {node : Option (Node Bytes)} (hp : call.Own p) (ht : t'.node = Function.update t.node p node) :
    call.Untouched t₀ t' := by
  intro q hq
  have hne : q ≠ p := fun heq => hq (heq ▸ hp)
  rw [ht, Function.update_of_ne hne]
  exact h q hq

/-- One more directory on the way. -/
theorem Untouched.mkdir {t₀ t t' : FileTree Bytes} (h : call.Untouched t₀ t) {p : List String}
    (hp : call.Own p ∨ p <:+ call.pairAt) (ht : t.mkdir p = .ok t') : call.Untouched t₀ t' := by
  obtain ⟨-, hnone, hnode⟩ := FileTree.mkdir_eq_ok ht
  intro q hq
  by_cases heq : q = p
  · subst heq
    rcases h q hq with hsame | ⟨-, hdir, -⟩
    · rw [hnode, Function.update_self]
      exact Or.inr ⟨hsame ▸ hnone, rfl, hp.resolve_left hq⟩
    · rw [hnone] at hdir
      cases hdir
  · rw [hnode, Function.update_of_ne heq]
    exact h q hq

theorem untouched_step (hi : call.Inside) (hn : call.NamesOwn) (h : call.Transition s e s')
    (hf : call.FromSet s.pc) (hu : call.Untouched t₀ s.tree) : call.Untouched t₀ s'.tree := by
  have htarget : ∀ {tmp : Bool} {dir : List String}, s.tree.walk [] (call.target tmp) = .ok dir →
      ∀ p, dir <:+ p → call.Own p := by
    intro tmp dir hwalk p hp
    cases tmp with
    | false => exact Or.inl (hi.plain.walk_final hwalk ▸ hp)
    | true => exact Or.inr (Or.inl (hi.plain.walk_tmp hwalk ▸ hp))
  cases h with
  | userMade | locked | found | absent | existing | damaged | tmpFound | tmpAbsent | made
  | refused | unpacked | assembled | wrote | synced | stored | finish | fail => exact hu
  | makeUser hpc hmissing ht =>
      obtain ⟨-, hbelow, -⟩ := FileTree.missing_eq_some user_plain hmissing
      rw [List.append_nil] at hbelow
      exact hu.mkdir (Or.inr (hbelow.trans hi.below)) ht
  | lockFile hpc hwalk ht =>
      obtain ⟨-, -, hnode⟩ := FileTree.put_eq_ok ht
      exact hu.update (Or.inr (Or.inr (walk_lock hwalk))) hnode
  | unlink hpc hwalk hbelow hne ht =>
      obtain ⟨-, -, -, hnode⟩ := FileTree.remove_eq_ok ht
      exact hu.update (htarget hwalk _ hbelow) hnode
  | removed hpc hwalk ht =>
      obtain ⟨-, -, -, hnode⟩ := FileTree.remove_eq_ok ht
      exact hu.update (htarget hwalk _ (List.suffix_refl _)) hnode
  | make hpc hmissing ht =>
      obtain ⟨-, hbelow, -⟩ := FileTree.missing_eq_some hi.plain.tmp_plain hmissing
      rw [List.append_nil, tmp_dir_reverse] at hbelow
      refine hu.mkdir ?_ ht
      rcases List.suffix_cons_iff.mp hbelow with rfl | hpair
      · exact Or.inl (Or.inr (Or.inl (List.suffix_refl _)))
      · exact Or.inr hpair
  | create hpc hwalk ht =>
      rw [hpc] at hf
      obtain ⟨-, -, hnode⟩ := FileTree.put_eq_ok ht
      exact hu.update (hi.plain.path_own hn hf hwalk) hnode
  | write hpc hwalk ht =>
      rw [hpc] at hf
      obtain ⟨-, -, hnode⟩ := FileTree.put_eq_ok ht
      exact hu.update (hi.plain.path_own hn hf hwalk) hnode
  | rename hpc hsrc hdst ht =>
      obtain rfl := hi.plain.walk_tmp hsrc
      obtain rfl := hi.plain.walk_final hdst
      obtain ⟨-, -, -, -, helse, -⟩ := FileTree.rename_eq_ok ht finalAt_ne_tmpAt.symm
      intro q hq
      rw [helse q (fun h => hq (Or.inl h)) (fun h => hq (Or.inr (Or.inl h)))]
      exact hu q hq

/-- **Install stays at its places**, at every point of every run. -/
theorem untouched_of_reach (hi : call.Inside) (hn : call.NamesOwn)
    (h : Machine.Reach call.step ok (Install.init t₀) s) : call.Untouched t₀ s.tree := by
  refine @Machine.Reach.invariant _ _ _ _ _ _ (fun s => call.Untouched t₀ s.tree) h ?_ ?_
  · exact Untouched.refl t₀
  · exact fun _ _ _ hpre _ hs hu =>
      untouched_step hi hn (step_cases hs) (fromSet_of_reach hpre) hu

end Step

end InstallCall

end Dragomand
