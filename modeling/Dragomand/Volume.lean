import Dragomand.FileTree

/-!
# Volumes and power loss

A file tree with what a power loss may leave of it. A node has an identity,
which a renaming keeps. Of each node the volume has one of the states it was
in since it was last synced, whatever it has of others: the content of a
file, or the entries of a directory, which say what they lead to but hold
nothing of it. What is found again is a tree that reads as such states
(`Recovers`).
-/

/-- Where a node was made, and when. -/
abbrev NodeId := List String × Nat

/-- What the volume has of a node. -/
inductive Inode (β : Type*) where
  | dir (entries : String → Option NodeId)
  | file (content : β)

namespace Inode

variable {β : Type*}

/-- The entries of a directory of a tree. -/
def entries (t : FileTree β) (id : List String → NodeId) (p : List String) (name : String) :
    Option NodeId :=
  if (t.node (name :: p)).isSome then some (id (name :: p)) else none

/-- The state of a node of a tree. -/
def of (t : FileTree β) (id : List String → NodeId) (p : List String) : Option (Inode β) :=
  (t.node p).map fun node => match node with
    | .dir => .dir (entries t id p)
    | .file content => .file content

theorem of_isSome {t : FileTree β} {id : List String → NodeId} {p : List String}
    {x : Inode β} (h : of t id p = some x) : t.node p ≠ none := by
  obtain ⟨node, hnode, -⟩ := Option.map_eq_some_iff.mp h
  rw [hnode]
  exact Option.some_ne_none _

theorem exists_of {t : FileTree β} (id : List String → NodeId) {p : List String}
    (h : t.node p ≠ none) : ∃ x, of t id p = some x := by
  obtain ⟨node, hnode⟩ := Option.ne_none_iff_exists'.mp h
  exact ⟨_, by rw [of, hnode]; rfl⟩

theorem of_dir {t : FileTree β} {id : List String → NodeId} {p : List String}
    (h : t.node p = some .dir) : of t id p = some (.dir (entries t id p)) := by
  rw [of, h]
  rfl

theorem of_file {t : FileTree β} {id : List String → NodeId} {p : List String} {content : β}
    (h : t.node p = some (.file content)) : of t id p = some (.file content) := by
  rw [of, h]
  rfl

end Inode

/-- `found` has the states a node may be found in. -/
structure Volume (β : Type*) where
  tree : FileTree β
  id : List String → NodeId
  clock : Nat
  found : NodeId → Inode β → Prop

namespace Volume

variable {β : Type*}

/-- A volume on which all is synced. -/
def clean (t : FileTree β) : Volume β where
  tree := t
  id p := (p, 0)
  clock := 0
  found i x := i.2 = 0 ∧ Inode.of t (fun p => (p, 0)) i.1 = some x

/-- The identities after a change; `moved` is what a renaming moves. -/
def idAfter (d : Volume β) (moved : Option (List String × List String)) (p : List String) : NodeId :=
  match moved with
  | none => if (d.tree.node p).isSome then d.id p else (p, d.clock + 1)
  | some (src, dst) =>
      if dst <:+ p then d.id (p.take (p.length - dst.length) ++ src) else d.id p

/-- A change of the tree, nothing of which is synced. -/
def change (d : Volume β) (t' : FileTree β) (moved : Option (List String × List String)) :
    Volume β where
  tree := t'
  id := d.idAfter moved
  clock := d.clock + 1
  found i x := d.found i x
    ∨ ∃ p, d.idAfter moved p = i ∧ Inode.of t' (d.idAfter moved) p = some x

/-- `sync_all` of the node at `p`. -/
def sync (d : Volume β) (p : List String) : Volume β :=
  { d with found := fun i x => if i = d.id p then Inode.of d.tree d.id p = some x else d.found i x }

/-- The tree `r` can be found after a power loss. -/
def Recovers (d : Volume β) (r : FileTree β) : Prop :=
  ∃ (state : NodeId → Inode β) (id : List String → NodeId), id [] = d.id []
    ∧ (∀ p, r.node p ≠ none → d.found (id p) (state (id p)))
    ∧ (∀ p content, r.node p = some (.file content) → state (id p) = .file content)
    ∧ ∀ p, r.node p = some .dir → ∃ entries, state (id p) = .dir entries
      ∧ ∀ name, match entries name with
        | none => r.node (name :: p) = none
        | some i => r.node (name :: p) ≠ none ∧ id (name :: p) = i

/-! ## Identities -/

structure Sane (d : Volume β) : Prop where
  inj : ∀ p q, d.tree.node p ≠ none → d.tree.node q ≠ none → d.id p = d.id q → p = q
  old : ∀ p, d.tree.node p ≠ none → (d.id p).2 ≤ d.clock
  current : ∀ p x, Inode.of d.tree d.id p = some x → d.found (d.id p) x

theorem sane_clean (t : FileTree β) : (clean t).Sane where
  inj _ _ _ _ h := congrArg Prod.fst h
  old _ _ := le_refl 0
  current _ _ h := ⟨rfl, h⟩

/-- A volume as it is when it is used, whatever has been synced by then. -/
abbrev Mounted (β : Type*) := {d : Volume β // d.Sane}

/-- A volume on which all is synced. -/
def Mounted.clean (t : FileTree β) : Mounted β := ⟨.clean t, sane_clean t⟩

section Change

variable {d : Volume β} {t' : FileTree β} {src dst p : List String}

theorem idAfter_of_node (h : d.tree.node p ≠ none) : d.idAfter none p = d.id p :=
  if_pos (Option.isSome_iff_ne_none.mpr h)

theorem idAfter_moved (rest : List String) :
    d.idAfter (some (src, dst)) (rest ++ dst) = d.id (rest ++ src) := by
  unfold idAfter
  dsimp only
  rw [if_pos (List.suffix_append ..)]
  simp

theorem idAfter_unmoved (h : ¬ dst <:+ p) : d.idAfter (some (src, dst)) p = d.id p := if_neg h

/-- The tree changes by the renaming, if there is one. -/
def Follows (t t' : FileTree β) : Option (List String × List String) → Prop
  | none => True
  | some (src, dst) => (∀ rest, t'.node (rest ++ dst) = t.node (rest ++ src))
      ∧ ∀ p, ¬ dst <:+ p → t'.node p ≠ none → t.node p ≠ none ∧ ¬ src <:+ p

/-- Where a node of the renamed tree was. -/
theorem Follows.source {t : FileTree β} (h : Follows t t' (some (src, dst)))
    (hp : t'.node p ≠ none) : ∃ q, t.node q ≠ none ∧ d.idAfter (some (src, dst)) p = d.id q
      ∧ ((src <:+ q ∧ ∃ rest, p = rest ++ dst ∧ q = rest ++ src) ∨ (¬ src <:+ q ∧ q = p)) := by
  by_cases hbelow : dst <:+ p
  · obtain ⟨rest, rfl⟩ := hbelow
    exact ⟨rest ++ src, h.1 rest ▸ hp, idAfter_moved rest,
      Or.inl ⟨List.suffix_append .., rest, rfl, rfl⟩⟩
  · obtain ⟨hnode, hnot⟩ := h.2 p hbelow hp
    exact ⟨p, hnode, idAfter_unmoved hbelow, Or.inr ⟨hnot, rfl⟩⟩

theorem Sane.change (hd : d.Sane) {moved : Option (List String × List String)}
    (h : Follows d.tree t' moved) : (d.change t' moved).Sane := by
  refine ⟨fun p q hp hq heq => ?_, fun p hp => ?_, fun p x hx => Or.inr ⟨p, rfl, hx⟩⟩
  · cases moved with
    | none =>
        change (if _ then _ else _) = (if _ then _ else _) at heq
        split at heq <;> split at heq
        · rename_i hp' hq'
          exact hd.inj p q (Option.isSome_iff_ne_none.mp hp') (Option.isSome_iff_ne_none.mp hq') heq
        · rename_i hp' hq'
          have hold := hd.old p (Option.isSome_iff_ne_none.mp hp')
          rw [heq] at hold
          exact absurd hold (Nat.not_succ_le_self _)
        · rename_i hp' hq'
          have hold := hd.old q (Option.isSome_iff_ne_none.mp hq')
          rw [← heq] at hold
          exact absurd hold (Nat.not_succ_le_self _)
        · exact congrArg Prod.fst heq
    | some move =>
        obtain ⟨src, dst⟩ := move
        obtain ⟨p', hp', hidp, hcasep⟩ := h.source (d := d) hp
        obtain ⟨q', hq', hidq, hcaseq⟩ := h.source (d := d) hq
        have hsame := hd.inj p' q' hp' hq' (by rw [← hidp, ← hidq]; exact heq)
        rcases hcasep with ⟨hin, rest, rfl, hrest⟩ | ⟨hout, rfl⟩ <;>
          rcases hcaseq with ⟨hin', rest', rfl, hrest'⟩ | ⟨hout', rfl⟩
        · rw [hrest, hrest'] at hsame
          rw [List.append_cancel_right hsame]
        · rw [hsame] at hin
          exact absurd hin hout'
        · rw [← hsame] at hin'
          exact absurd hin' hout
        · exact hsame
  · cases moved with
    | none =>
        show (if _ then _ else _ : NodeId).2 ≤ d.clock + 1
        split
        · rename_i hp'
          exact (hd.old p (Option.isSome_iff_ne_none.mp hp')).trans (Nat.le_succ _)
        · exact le_refl _
    | some move =>
        obtain ⟨src, dst⟩ := move
        obtain ⟨q, hq, hid, -⟩ := h.source (d := d) hp
        show (d.idAfter (some (src, dst)) p).2 ≤ d.clock + 1
        rw [hid]
        exact (hd.old q hq).trans (Nat.le_succ _)

theorem Sane.sync (hd : d.Sane) (hp : d.tree.node p ≠ none) : (d.sync p).Sane := by
  refine ⟨hd.inj, hd.old, fun q x hx => ?_⟩
  show if d.id q = d.id p then _ else _
  split
  · rename_i heq
    rw [← hd.inj q p (Inode.of_isSome hx) hp heq]
    exact hx
  · exact hd.current q x hx

theorem change_found {i : NodeId} {x : Inode β} {moved : Option (List String × List String)}
    (h : d.found i x) : (d.change t' moved).found i x := Or.inl h

theorem sync_found {i : NodeId} {x : Inode β} (h : d.found i x) (hi : i ≠ d.id p) :
    (d.sync p).found i x :=
  show if i = d.id p then _ else _ by rwa [if_neg hi]

end Change

/-! ## What a file may hold -/

section MayHold

variable {d : Volume β} {t' : FileTree β} {p : List String} {content : β}

/-- There is a file, and it may be found with the content. -/
def MayHold (d : Volume β) (p : List String) (content : β) : Prop :=
  (∃ now, d.tree.node p = some (.file now)) ∧ d.found (d.id p) (.file content)

theorem MayHold.node (h : d.MayHold p content) : d.tree.node p ≠ none := by
  obtain ⟨⟨now, hnow⟩, -⟩ := h
  rw [hnow]
  exact Option.some_ne_none _

theorem MayHold.put (h : d.tree.put content p = .ok t') : (d.change t' none).MayHold p content := by
  have hnode : t'.node p = some (.file content) := by
    rw [(FileTree.put_eq_ok h).2.2, Function.update_self]
  exact ⟨⟨content, hnode⟩, Or.inr ⟨p, rfl, Inode.of_file hnode⟩⟩

theorem MayHold.change (h : d.MayHold p content) (now : β) (hnode : t'.node p = some (.file now)) :
    (d.change t' none).MayHold p content := by
  refine ⟨⟨now, hnode⟩, ?_⟩
  show (d.change t' none).found (d.idAfter none p) _
  rw [idAfter_of_node h.node]
  exact change_found h.2

theorem MayHold.kept (h : d.MayHold p content) : (d.change d.tree none).MayHold p content := by
  obtain ⟨now, hnow⟩ := h.1
  exact h.change now hnow

theorem MayHold.move (h : d.MayHold p content) {src dst : List String} (rest : List String)
    (hp : p = rest ++ src) (ht : t'.node (rest ++ dst) = d.tree.node (rest ++ src)) :
    (d.change t' (some (src, dst))).MayHold (rest ++ dst) content := by
  subst hp
  obtain ⟨⟨now, hnow⟩, hfound⟩ := h
  refine ⟨⟨now, ht.trans hnow⟩, ?_⟩
  show (d.change t' _).found (d.idAfter (some (src, dst)) (rest ++ dst)) _
  rw [idAfter_moved]
  exact change_found hfound

/-- Another node is synced. -/
theorem MayHold.sync (h : d.MayHold p content) (hd : d.Sane) {q : List String}
    (hq : d.tree.node q ≠ none) (hne : p ≠ q) : (d.sync q).MayHold p content :=
  ⟨h.1, sync_found h.2 fun heq => hne (hd.inj p q h.node hq heq)⟩

end MayHold

/-! ## Recovery -/

section Recovery

/-- What is at a path when `r` is found: a file as `r` has it, the rest as it
is in the volume. -/
def foundInode (d : Volume β) (r : FileTree β) (p : List String) : Inode β :=
  match r.node p with
  | some (.file content) => .file content
  | _ => (Inode.of d.tree d.id p).getD (.dir fun _ => none)

variable {d : Volume β}

/-- Nodes that are there can be given states one by one. -/
theorem Sane.exists_state (hd : d.Sane) (f : List String → Inode β) :
    ∃ state : NodeId → Inode β, ∀ p, d.tree.node p ≠ none → state (d.id p) = f p := by
  classical
  refine ⟨fun i => if h : ∃ p, d.tree.node p ≠ none ∧ d.id p = i then f h.choose
    else .dir fun _ => none, fun p hp => ?_⟩
  have hex : ∃ q, d.tree.node q ≠ none ∧ d.id q = d.id p := ⟨p, hp, rfl⟩
  dsimp only
  rw [dif_pos hex]
  obtain ⟨hq, hid⟩ := hex.choose_spec
  rw [hd.inj _ p hq hp hid]

/-- All that is there may be found, or files of it in states they were in
before. -/
theorem Sane.recovers (hd : d.Sane) {r : FileTree β}
    (h : ∀ p, r.node p = d.tree.node p ∨ ∃ content content', d.tree.node p = some (.file content)
      ∧ r.node p = some (.file content') ∧ d.found (d.id p) (.file content')) :
    d.Recovers r := by
  have hsome : ∀ p, r.node p ≠ none ↔ d.tree.node p ≠ none := by
    intro p
    rcases h p with heq | ⟨content, content', ht, hr, -⟩
    · rw [heq]
    · rw [ht, hr]
      simp
  obtain ⟨state, hstate⟩ := hd.exists_state (d.foundInode r)
  refine ⟨state, d.id, rfl, fun p hp => ?_, fun p content hp => ?_, fun p hp => ?_⟩
  · have hp' := (hsome p).mp hp
    rw [hstate p hp', foundInode]
    rcases h p with heq | ⟨content, content', -, hr, hfound⟩
    · obtain ⟨x, hx⟩ := Inode.exists_of d.id hp'
      refine hd.current p _ ?_
      rw [heq]
      unfold Inode.of at hx ⊢
      obtain ⟨node, hnode⟩ := Option.ne_none_iff_exists'.mp hp'
      rw [hnode]
      cases node <;> rfl
    · rw [hr]
      exact hfound
  · have hp' := (hsome p).mp (by rw [hp]; exact Option.some_ne_none _)
    rw [hstate p hp', foundInode, hp]
  · have hp' : d.tree.node p = some .dir := by
      rcases h p with heq | ⟨content, content', -, hr, -⟩
      · rw [← heq, hp]
      · rw [hr] at hp
        cases hp
    refine ⟨Inode.entries d.tree d.id p, ?_, fun name => ?_⟩
    · rw [hstate p (by rw [hp']; exact Option.some_ne_none _), foundInode, hp]
      dsimp only
      rw [Inode.of_dir hp']
      rfl
    · unfold Inode.entries
      by_cases hentry : (d.tree.node (name :: p)).isSome
      · rw [if_pos hentry]
        exact ⟨(hsome _).mpr (Option.isSome_iff_ne_none.mp hentry), rfl⟩
      · rw [if_neg hentry]
        by_contra hnot
        exact hentry (Option.isSome_iff_ne_none.mpr ((hsome _).mp hnot))

/-- The file is found with the content. -/
theorem MayHold.exists_recovers {p : List String} {content : β} (h : d.MayHold p content)
    (hd : d.Sane) : ∃ r, d.Recovers r ∧ r.node p = some (.file content) := by
  obtain ⟨⟨now, hnow⟩, hfound⟩ := h
  cases p with
  | nil =>
      rw [d.tree.root] at hnow
      cases hnow
  | cons name dir =>
      have hnode : d.tree.node (name :: dir) ≠ none := ne_of_eq_of_ne hnow (Option.some_ne_none _)
      refine ⟨d.tree.set name dir (.file content) (d.tree.plain _ _ hnode) (d.tree.parent _ _ hnode)
        (by rw [hnow]; simp), hd.recovers fun q => ?_, Function.update_self ..⟩
      by_cases hq : q = name :: dir
      · subst hq
        exact Or.inr ⟨now, content, hnow, Function.update_self .., hfound⟩
      · exact Or.inl (Function.update_of_ne hq ..)

/-! ## What was there before -/

theorem id_root_change {t' : FileTree β} : (d.change t' none).id [] = d.id [] := by
  refine idAfter_of_node ?_
  rw [d.tree.root]
  exact Option.some_ne_none _

/-- What is not synced may still be found as it was. -/
theorem Recovers.change {r t' : FileTree β} (h : d.Recovers r) : (d.change t' none).Recovers r := by
  obtain ⟨state, id, hroot, hfound, hfile, hdir⟩ := h
  exact ⟨state, id, hroot.trans id_root_change.symm, fun p hp => Or.inl (hfound p hp), hfile, hdir⟩

theorem Sane.found_kept (hd : d.Sane) {i : NodeId} {x : Inode β}
    (h : (d.change d.tree none).found i x) : d.found i x := by
  rcases h with hfound | ⟨p, rfl, hof⟩
  · exact hfound
  · have hnode := Inode.of_isSome hof
    rw [idAfter_of_node hnode]
    refine hd.current p x ?_
    obtain ⟨node, hsome⟩ := Option.ne_none_iff_exists'.mp hnode
    cases node with
    | file content =>
        rw [Inode.of_file hsome] at hof ⊢
        exact hof
    | dir =>
        rw [Inode.of_dir hsome] at hof ⊢
        rw [← hof]
        refine congrArg (fun entries => some (Inode.dir entries)) (funext fun name => ?_)
        unfold Inode.entries
        split
        · rename_i hentry
          rw [idAfter_of_node (Option.isSome_iff_ne_none.mp hentry)]
        · rfl

/-- A step that leaves the tree as it is adds nothing. -/
theorem Sane.recovers_kept (hd : d.Sane) {r : FileTree β} :
    (d.change d.tree none).Recovers r ↔ d.Recovers r := by
  refine ⟨fun ⟨state, id, hroot, hfound, hfile, hdir⟩ => ?_, Recovers.change⟩
  exact ⟨state, id, hroot.trans id_root_change, fun p hp => hd.found_kept (hfound p hp), hfile,
    hdir⟩

/-- A state that the node had on the clean volume, but for the entry of one
other node. -/
def AsBefore (t₀ : FileTree β) (skip p : List String) : Inode β → Prop
  | .file content => t₀.node p = some (.file content)
  | .dir entries => t₀.node p = some .dir ∧ ∀ name, name :: p ≠ skip →
      entries name = Inode.entries t₀ (fun p => (p, 0)) p name

/-- No node but one has changed. -/
structure Settled (d : Volume β) (t₀ : FileTree β) (skip : List String) : Prop where
  tree : ∀ p, p ≠ skip → d.tree.node p = t₀.node p
  place : ∀ p, (d.id p).1 = p
  id : ∀ p, p ≠ skip → t₀.node p ≠ none → d.id p = (p, 0)
  found : ∀ p x, p ≠ skip → d.found (p, 0) x → AsBefore t₀ skip p x

theorem settled_clean (t₀ : FileTree β) (skip : List String) : (clean t₀).Settled t₀ skip := by
  refine ⟨fun _ _ => rfl, fun _ => rfl, fun _ _ _ => rfl, fun p x _ hx => ?_⟩
  obtain ⟨node, hnode, rfl⟩ := Option.map_eq_some_iff.mp hx.2
  cases node with
  | file content => exact hnode
  | dir => exact ⟨hnode, fun _ _ => rfl⟩

theorem Settled.change {t₀ t' : FileTree β} {skip : List String} (h : d.Settled t₀ skip)
    (ht : ∀ p, p ≠ skip → t'.node p = d.tree.node p) : (d.change t' none).Settled t₀ skip := by
  have htree : ∀ p, p ≠ skip → t'.node p = t₀.node p := fun p hp => (ht p hp).trans (h.tree p hp)
  have hid : ∀ p, p ≠ skip → t₀.node p ≠ none → d.idAfter none p = (p, 0) := by
    intro p hp hnode
    exact (idAfter_of_node (by rwa [h.tree p hp])).trans (h.id p hp hnode)
  have hplace : ∀ p, (d.idAfter none p).1 = p := by
    intro p
    show (if _ then _ else _ : NodeId).1 = p
    split
    · exact h.place p
    · rfl
  refine ⟨htree, hplace, hid, fun p x hp hx => ?_⟩
  rcases hx with hx | ⟨q, hq, hx⟩
  · exact h.found p x hp hx
  · -- it is the state of the node itself
    obtain rfl : q = p := by rw [← hplace q, hq]
    obtain ⟨node, hnode, rfl⟩ := Option.map_eq_some_iff.mp hx
    rw [htree q hp] at hnode
    cases node with
    | file content => exact hnode
    | dir =>
        refine ⟨hnode, fun name hname => ?_⟩
        unfold Inode.entries
        rw [htree _ hname]
        split
        · rename_i hentry
          rw [hid _ hname (Option.isSome_iff_ne_none.mp hentry)]
        · rfl

/-- All that is not below the node is found as it was. -/
theorem Settled.recovers {t₀ r : FileTree β} {skip : List String} (h : d.Settled t₀ skip)
    (hskip : skip ≠ []) (hr : d.Recovers r) : ∀ p, ¬ skip <:+ p → r.node p = t₀.node p := by
  obtain ⟨state, id, hroot, hfound, hfile, hdir⟩ := hr
  -- a node with its identity has its state
  have hnode : ∀ p, p ≠ skip → r.node p ≠ none → id p = (p, 0) → r.node p = t₀.node p := by
    intro p hp hnode hid
    have hbefore := h.found p _ hp (hid ▸ hfound p hnode)
    obtain ⟨node, hr⟩ := Option.ne_none_iff_exists'.mp hnode
    cases node with
    | file content =>
        rw [← hid, hfile p content hr] at hbefore
        exact hr.trans (Eq.symm hbefore)
    | dir =>
        obtain ⟨entries, hentries, -⟩ := hdir p hr
        rw [← hid, hentries] at hbefore
        exact hr.trans hbefore.1.symm
  have hall : ∀ p, ¬ skip <:+ p → r.node p = t₀.node p ∧ (r.node p ≠ none → id p = (p, 0)) := by
    intro p
    induction p with
    | nil =>
        intro _
        refine ⟨r.root.trans t₀.root.symm, fun _ => hroot.trans (h.id [] hskip.symm ?_)⟩
        rw [t₀.root]
        exact Option.some_ne_none _
    | cons name dir ih =>
        intro hnot
        have hne : name :: dir ≠ skip := fun heq => hnot (heq ▸ List.suffix_refl _)
        have hnotdir : ¬ skip <:+ dir := fun hd => hnot (hd.trans (List.suffix_cons ..))
        have hdirne : dir ≠ skip := fun heq => hnotdir (heq ▸ List.suffix_refl _)
        obtain ⟨hsame, hiddir⟩ := ih hnotdir
        by_cases hisdir : r.node dir = some .dir
        · have hsome : r.node dir ≠ none := by
            rw [hisdir]
            exact Option.some_ne_none _
          obtain ⟨entries, hentries, hnames⟩ := hdir dir hisdir
          have hbefore := h.found dir _ hdirne (hiddir hsome ▸ hfound dir hsome)
          rw [← hiddir hsome, hentries] at hbefore
          have hentry := hbefore.2 name hne
          have hname := hnames name
          rw [hentry] at hname
          unfold Inode.entries at hname
          split at hname
          · rename_i heq
            split at heq
            · cases heq
            · rename_i hnone
              exact ⟨hname.trans (Eq.symm (by simpa using hnone)), fun h => absurd hname h⟩
          · rename_i i heq
            split at heq
            · cases heq
              exact ⟨hnode _ hne hname.1 hname.2, fun _ => hname.2⟩
            · cases heq
        · have hr : r.node (name :: dir) = none := by
            by_contra hnone
            exact hisdir (r.parent _ _ hnone)
          have ht : t₀.node (name :: dir) = none := by
            by_contra hnone
            exact hisdir (hsame.trans (t₀.parent _ _ hnone))
          exact ⟨hr.trans ht.symm, fun h => absurd hr h⟩
  exact fun p hp => (hall p hp).1

end Recovery

end Volume
