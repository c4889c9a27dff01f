import Dragomand.RemovePair

/-!
# Removals that are refused

`RemovePair` looks for copies of the pair after it has unloaded its routes.
A call that fails before it deletes anything, because its arguments are
invalid, the lock of the store cannot be taken or the user store has no copy,
leaves the stores as they were, but for the lock file. It leaves the loaded
routes as they were only if none of them is one that `unload_pair` unloads.
A route can be one without any copy in the user store: a system copy serves
it, or it goes through the pivot and shares an end with the pair.
-/

namespace Dragomand

open InstallCall (plant oldHost)

/-- What the call is to delete is not known yet. -/
def Removal.Pc.undecided : Removal.Pc → Bool
  | .removing _ | .pruning _ _ | .returned _ => false
  | _ => true

/-- Nobody else loads or unloads a route, or changes the stores. Clients may
go on using the routes that are loaded. -/
def RemovalEvent.alone : RemovalEvent → Bool
  | .store _ | .workers (.ensure _ _ _ _ _ _ _) | .workers (.evict _) => false
  | _ => true

namespace RemovePair

/-- Where one tree differs from the other there is the lock file, or a
directory made for it. -/
def OnlyLocked (call : RemovePair) (t t' : FileTree Bytes) : Prop :=
  ∀ p, t'.node p = t.node p
    ∨ (p = ".lock" :: call.stores.user.reverse ∧ t.node p ≠ some .dir
        ∧ t'.node p = some (.file []))
    ∨ (p <:+ call.stores.user.reverse ∧ t.node p = none ∧ t'.node p = some .dir)

/-- Every loaded route is one that `unload_pair` keeps. -/
def SparesAll (call : RemovePair) (w : Workers) : Prop :=
  ∀ key id entry, w.entries.lookup key = some id → w.heap[id]? = some entry →
    call.keeps entry = true

/-- Nobody has the lock of the registry, or `unload_pair` has it and has found
no route to unload. -/
def Calm (call : RemovePair) (w : Workers) : Prop :=
  w.lock = none ∨ ∃ todo,
    w.lock = some (.evicting ⟨.unloadScan call.source call.target, todo, [], [], none⟩)

variable {call : RemovePair}

/-! ## The stores -/

section OnlyLocked

variable {t t' t'' : FileTree Bytes} {p : List String}

theorem onlyLocked_refl (t : FileTree Bytes) : call.OnlyLocked t t := fun _ => Or.inl rfl

theorem OnlyLocked.trans (h : call.OnlyLocked t t') (h' : call.OnlyLocked t' t'') :
    call.OnlyLocked t t'' := by
  intro p
  rcases h' p with hsame | ⟨hp, hdir, hfile⟩ | ⟨hp, hnone, hdir⟩
  · rw [hsame]
    exact h p
  · rcases h p with hsame | ⟨-, hdir', -⟩ | ⟨-, -, hmade⟩
    · exact Or.inr (Or.inl ⟨hp, hsame ▸ hdir, hfile⟩)
    · exact Or.inr (Or.inl ⟨hp, hdir', hfile⟩)
    · exact absurd hmade hdir
  · rcases h p with hsame | ⟨-, -, hfile⟩ | ⟨-, -, hmade⟩
    · exact Or.inr (Or.inr ⟨hp, hsame ▸ hnone, hdir⟩)
    · rw [hnone] at hfile
      cases hfile
    · rw [hnone] at hmade
      cases hmade

theorem onlyLocked_mkdir (hmissing : t.missing [] call.stores.user = .ok (some p))
    (h : t.mkdir p = .ok t') : call.OnlyLocked t t' := by
  obtain ⟨-, hbelow, -⟩ :=
    FileTree.missing_eq_some (call.stores.plain _ (List.mem_cons_self ..)) hmissing
  obtain ⟨-, hnone, hnode⟩ := FileTree.mkdir_eq_ok h
  intro q
  by_cases hq : q = p
  · subst hq
    exact Or.inr (Or.inr ⟨by simpa using hbelow, hnone, by rw [hnode, Function.update_self]⟩)
  · exact Or.inl (by rw [hnode, Function.update_of_ne hq])

theorem onlyLocked_put (h : InstallCall.put t call.lock_path [] = some t') :
    call.OnlyLocked t t' := by
  obtain ⟨p, hwalk, hput⟩ := InstallCall.put_eq_some h
  obtain ⟨-, hdir, hnode⟩ := FileTree.put_eq_ok hput
  have hp : p = ".lock" :: call.stores.user.reverse :=
    walk_join (call.stores.plain _ (List.mem_cons_self ..)) (by decide) hwalk
  intro q
  by_cases hq : q = p
  · subst hq
    exact Or.inr (Or.inl ⟨hp, hdir, by rw [hnode, Function.update_self]⟩)
  · exact Or.inl (by rw [hnode, Function.update_of_ne hq])

/-- With an empty lock file in place there is nothing left to make. -/
theorem OnlyLocked.node_eq (h : call.OnlyLocked t t')
    (hlock : t.node (".lock" :: call.stores.user.reverse) = some (.file [])) :
    t'.node = t.node := by
  funext p
  rcases h p with hsame | ⟨rfl, -, hfile⟩ | ⟨⟨q, hq⟩, hnone, -⟩
  · exact hsame
  · rw [hfile, hlock]
  · have hdir : t.node p = some .dir := by
      refine t.node_of_append (q := ".lock" :: q) (List.cons_ne_nil _ _) ?_
      rw [List.cons_append, hq, hlock]
      exact Option.some_ne_none _
    cases hnone.symm.trans hdir

end OnlyLocked

/-! ## The registry -/

section Calm

variable {translate : ModelSpec → Option ModelSpec → Bool → List String → List Translation}
  {w w' : Workers} {e : WorkersEvent}

/-- Without a route to unload, the registry stays as it is. -/
theorem calm_step (h : w.step translate e = some w')
    (he : (RemovalEvent.workers e).alone = true) (hcalm : call.Calm w)
    (hspares : w.lock ≠ none → call.SparesAll w) :
    w'.entries = w.entries ∧ call.Calm w' ∧ (w.lock = none → w'.lock = none) := by
  have hloading : ∀ caller key pivot first second budget_mb,
      w.lock ≠ some (.loading caller key pivot first second budget_mb) := by
    intro caller key pivot first second budget_mb hlock
    rcases hcalm with hfree | ⟨_, hunloading⟩
    · cases hlock.symm.trans hfree
    · cases hlock.symm.trans hunloading
  cases e with
  | ensure caller source target allow_pivot budget_mb plan specs => cases he
  | evict stage => cases he
  | loaded result =>
      -- only a load in progress ends
      cases result <;> simp only [Workers.step, Workers.loaded] at h <;> cases h
  | abort caller =>
      simp only [Workers.step, Workers.abort] at h
      cases h
  | submit | stamp | dropArc | scheduler | cancel | tick =>
      obtain ⟨hentries, hlock⟩ := Workers.unlocked_step h rfl
      refine ⟨hentries, ?_, fun hfree => hlock.trans hfree⟩
      unfold Calm
      rwa [hlock]
  | scan key =>
      rcases hcalm with hfree | ⟨todo, hlock⟩
      · simp only [Workers.step, Workers.scan, hfree] at h
        cases h
      · simp only [Workers.step, Workers.scan, hlock] at h
        split at h
        · split at h
          · cases h
          · rename_i entry hentry
            obtain ⟨id, hlookup, hfound⟩ := Option.bind_eq_some_iff.mp hentry
            have hkeeps := hspares (by rw [hlock]; exact Option.some_ne_none _) key id entry
              hlookup hfound
            have htouches : entry.touches call.source call.target = false := by
              simpa [keeps] using hkeeps
            rw [if_neg (by rw [htouches]; exact Bool.false_ne_true)] at h
            cases h
            exact ⟨rfl, Or.inr ⟨_, rfl⟩, fun hfree => by cases hlock.symm.trans hfree⟩
        · cases h
  | advance =>
      rcases hcalm with hfree | ⟨todo, hlock⟩
      · simp only [Workers.step, Workers.advance, hfree] at h
        cases h
      · simp only [Workers.step, Workers.advance, hlock] at h
        cases todo with
        | cons key todo => cases h
        | nil =>
            cases h
            exact ⟨rfl, Or.inl rfl, fun _ => rfl⟩

/-- No step that loads nothing brings a route back to be unloaded. -/
theorem sparesAll_step (h : w.step translate e = some w') (hlock : w.lock = none)
    (hentries : w'.entries = w.entries) (hspares : call.SparesAll w) : call.SparesAll w' := by
  intro key id entry' hlookup' hentry'
  rcases Workers.heap_cases h hentry' with
    ⟨entry, hentry, hev⟩ | ⟨-, _, _, _, _, _, _, _, hloading, -⟩
  · obtain ⟨hkey, hpivot, -⟩ := hev.route
    rw [keeps_congr hkey hpivot]
    exact hspares key id entry (hentries ▸ hlookup') hentry
  · cases hlock.symm.trans hloading

end Calm

/-! ## The invariant -/

section Steps

variable {s s' : Removal} {e : RemovalEvent}

theorem called_step (h : call.step s e = some s') (hpc : s.pc = .called) :
    s'.pc = .called
      ∨ (s'.pc = .unloading ∧ check_langs call.host call.source call.target = .ok ())
      ∨ ∃ error, s'.pc = .returned (.error error)
        ∧ check_langs call.host call.source call.target = .error error := by
  unfold step at h
  rw [hpc] at h
  cases e with
  | workers e =>
      obtain ⟨loads, -, rfl⟩ := Option.map_eq_some_iff.mp h
      exact Or.inl rfl
  | store t =>
      cases h
      exact Or.inl rfl
  | fail source => cases h
  | unlink p =>
      simp only [unlink, hpc] at h
      cases h
  | proceed =>
      simp only [proceed, hpc] at h
      split at h <;> cases h
      · exact Or.inr (Or.inr ⟨_, rfl, ‹_›⟩)
      · exact Or.inr (Or.inl ⟨rfl, ‹_›⟩)

/-- Until the models to delete are known, the call touches the lock file only. -/
theorem onlyLocked_step (h : call.step s e = some s') (he : e.alone = true)
    (hpc : s.pc.undecided = true) : call.OnlyLocked s.tree s'.tree := by
  unfold step at h
  split at h
  · cases h
  · obtain ⟨loads, -, rfl⟩ := Option.map_eq_some_iff.mp h
    exact onlyLocked_refl _
  · cases he
  · obtain ⟨pc, -, rfl⟩ := Option.map_eq_some_iff.mp h
    exact onlyLocked_refl _
  · unfold proceed at h
    split at h
    · split at h <;> cases h <;> exact onlyLocked_refl _
    · obtain ⟨loads, -, rfl⟩ := Option.map_eq_some_iff.mp h
      exact onlyLocked_refl _
    · split at h
      · cases h
      · cases h
        exact onlyLocked_refl _
      · rename_i p hmissing
        obtain ⟨t, ht, rfl⟩ := Option.map_eq_some_iff.mp h
        exact onlyLocked_mkdir hmissing (InstallCall.toOption_eq_some ht)
    · obtain ⟨t, ht, rfl⟩ := Option.map_eq_some_iff.mp h
      exact onlyLocked_put ht
    · cases h
      exact onlyLocked_refl _
    · split at h <;> cases h <;> exact onlyLocked_refl _
    · rename_i hremoving
      rw [hremoving] at hpc
      cases hpc
    · rename_i hremoving
      rw [hremoving] at hpc
      cases hpc
    · rename_i hpruning
      rw [hpruning] at hpc
      cases hpc
    · cases h
    · cases h
  · unfold unlink at h
    split at h
    · rename_i hremoving
      rw [hremoving] at hpc
      cases hpc
    · cases h

theorem undecided_of_step (h : call.step s e = some s') (hpc' : s'.pc.undecided = true) :
    s.pc.undecided = true := by
  cases step_cases h with
  | workers hpc hl =>
      unfold after at hpc'
      split at hpc'
      · rename_i hretaining _
        rw [hretaining]
        rfl
      · exact hpc'
  | store => exact hpc'
  | checked hpc | unload hpc | makeUser hpc | userMade hpc | lockFile hpc | locked hpc
  | scanned hpc =>
      rw [hpc]
      rfl
  | unlinked hpc =>
      rw [hpc] at hpc'
      cases hpc'
  | removed hpc | pruned hpc | finished hpc | failed => cases hpc'

end Steps

/-- How far a call that began in `start` has come, as long as it can be
refused. -/
structure Underway (call : RemovePair) (start s : Removal) : Prop where
  routed : Routed s.loads.workers
  kept : ∀ (id : Nat) (entry : PairEntry), start.loads.workers.heap[id]? = some entry →
    ∃ entry', s.loads.workers.heap[id]? = some entry' ∧ call.keeps entry' = call.keeps entry
  valid : s.pc = .called ∨ check_langs call.host call.source call.target = .ok ()
  waiting : s.pc = .called ∨ s.pc = .unloading →
    s.loads.workers.lock = none ∧ s.loads.workers.entries = start.loads.workers.entries
  retaining : s.pc = .retaining → call.Unloading s.loads.workers
  unloaded : s.pc.beforeScan = true → call.Unloaded s.loads.workers
  spared : call.SparesAll start.loads.workers → call.Calm s.loads.workers
    ∧ s.loads.workers.entries = start.loads.workers.entries

section Underway

variable {start s s' : Removal} {e : RemovalEvent}

theorem underway_start (hrouted : Routed start.loads.workers) (hpc : start.pc = .called)
    (hfree : start.loads.workers.lock = none) : call.Underway start start where
  routed := hrouted
  kept _ entry hentry := ⟨entry, hentry, rfl⟩
  valid := Or.inl hpc
  waiting _ := ⟨hfree, rfl⟩
  retaining h := by cases hpc.symm.trans h
  unloaded h := by
    rw [hpc] at h
    cases h
  spared _ := ⟨Or.inl hfree, rfl⟩

/-- Routes that are all spared when the call begins are all spared later. -/
theorem Underway.sparesAll (hs : call.Underway start s) (hrouted : Routed start.loads.workers)
    (hspares : call.SparesAll start.loads.workers) : call.SparesAll s.loads.workers := by
  intro key id entry hlookup hentry
  rw [(hs.spared hspares).2] at hlookup
  obtain ⟨entry₀, hentry₀, -⟩ := hrouted.keys key id hlookup
  obtain ⟨entry', hentry', hkeeps⟩ := hs.kept id entry₀ hentry₀
  obtain rfl := Option.some.inj (hentry.symm.trans hentry')
  rw [hkeeps]
  exact hspares key id entry₀ hlookup hentry₀

theorem Underway.kept_step {translate : ModelSpec → Option ModelSpec → Bool → List String →
    List Translation} {w : Workers} {event : WorkersEvent} (hs : call.Underway start s)
    (h : s.loads.workers.step translate event = some w) (id : Nat) (entry : PairEntry)
    (hentry : start.loads.workers.heap[id]? = some entry) :
    ∃ entry', w.heap[id]? = some entry' ∧ call.keeps entry' = call.keeps entry := by
  obtain ⟨entry₁, hentry₁, hkeeps⟩ := hs.kept id entry hentry
  obtain ⟨entry', hentry', hev⟩ := Workers.heap_persists h hentry₁
  obtain ⟨hkey, hpivot, -⟩ := hev.route
  exact ⟨entry', hentry', (keeps_congr hkey hpivot).trans hkeeps⟩

theorem underway_workers {event : WorkersEvent} {loads : Loads}
    (hl : s.loads.step call.host.translate event = some loads)
    (he : (RemovalEvent.workers event).alone = true) (hrouted : Routed start.loads.workers)
    (hs : call.Underway start s) :
    call.Underway start { s with loads := loads, pc := after s.pc loads } := by
  have hstep := Loads.workers_step hl
  -- while nobody has the lock, nobody takes it
  have hfree : s.loads.workers.lock = none → loads.workers.lock = none
      ∧ loads.workers.entries = s.loads.workers.entries := fun hnone => by
    obtain ⟨hentries, -, hlock⟩ := @calm_step call _ _ _ _ hstep he (Or.inl hnone)
      fun hsome => absurd hnone hsome
    exact ⟨hlock hnone, hentries⟩
  have hspared : call.SparesAll start.loads.workers → call.Calm loads.workers
      ∧ loads.workers.entries = start.loads.workers.entries := fun hspares => by
    obtain ⟨hcalm, hentries⟩ := hs.spared hspares
    obtain ⟨hentries', hcalm', -⟩ :=
      calm_step hstep he hcalm fun _ => hs.sparesAll hrouted hspares
    exact ⟨hcalm', hentries'.trans hentries⟩
  by_cases hretaining : s.pc = .retaining
  · have hvalid := hs.valid.resolve_left (by rw [hretaining]; exact Removal.Pc.noConfusion)
    rcases unloading_step hstep hs.routed.free (hs.retaining hretaining) with
      hunloading | hunloaded
    · have hafter : after s.pc loads = .retaining := by
        obtain ⟨_, _, hlock, -⟩ := hunloading
        simp only [after, hretaining, hlock]
      rw [hafter]
      exact {
        routed := routed_step hstep hs.routed
        kept := hs.kept_step hstep
        valid := Or.inr hvalid
        waiting := by rintro (h | h) <;> cases h
        retaining := fun _ => hunloading
        unloaded := fun h => by cases h
        spared := hspared }
    · have hafter : after s.pc loads = .creatingUser := by
        simp only [after, hretaining, hunloaded.1]
      rw [hafter]
      exact {
        routed := routed_step hstep hs.routed
        kept := hs.kept_step hstep
        valid := Or.inr hvalid
        waiting := by rintro (h | h) <;> cases h
        retaining := fun h => by cases h
        unloaded := fun _ => hunloaded
        spared := hspared }
  · rw [after_of_ne hretaining]
    exact {
      routed := routed_step hstep hs.routed
      kept := hs.kept_step hstep
      valid := hs.valid
      waiting := fun h => by
        obtain ⟨hnone, hentries⟩ := hs.waiting h
        exact ⟨(hfree hnone).1, (hfree hnone).2.trans hentries⟩
      retaining := fun h => absurd h hretaining
      unloaded := fun h => by
        obtain ⟨hnone, hspares⟩ := hs.unloaded h
        exact ⟨(hfree hnone).1, sparesAll_step hstep hnone (hfree hnone).2 hspares⟩
      spared := hspared }

/-- The evictions of `unload_pair` begin where nobody has the lock. -/
theorem underway_unload {loads : Loads} (hpc : s.pc = .unloading)
    (hl : s.loads.step call.host.translate (.evict (.unloadScan call.source call.target))
      = some loads) (hs : call.Underway start s) (held : PathBuf → Bool) :
    call.Underway start { s with loads := loads, pc := .retaining, held := held } := by
  have hstep := Loads.workers_step hl
  have hloads := hstep
  simp only [Workers.step, Workers.evict] at hloads
  split at hloads
  · cases hloads
  have hw := Option.some.inj hloads
  exact {
    routed := routed_step hstep hs.routed
    kept := hs.kept_step hstep
    valid := Or.inr (hs.valid.resolve_left (by rw [hpc]; exact Removal.Pc.noConfusion))
    waiting := by rintro (h | h) <;> cases h
    retaining := fun _ => (unloading_start hstep).2
    unloaded := fun h => by cases h
    spared := fun hspares => by
      refine ⟨Or.inr ⟨s.loads.workers.entries.keys, ?_⟩, ?_⟩
      · show loads.workers.lock = _
        rw [← hw]
      · show loads.workers.entries = _
        rw [← hw]
        exact (hs.spared hspares).2 }

/-- From `unload_pair` on, only the tree changes. -/
theorem Underway.later {t : FileTree Bytes} {pc : Removal.Pc}
    (hs : call.Underway start s) (hpc : s.pc.beforeScan = true) (hpc' : pc.beforeScan = true) :
    call.Underway start { s with tree := t, pc := pc } where
  routed := hs.routed
  kept := hs.kept
  valid := Or.inr (hs.valid.resolve_left fun h => by
    rw [h] at hpc
    cases hpc)
  waiting := by
    rintro (h | h) <;> rw [show pc = _ from h] at hpc' <;> cases hpc'
  retaining h := by
    rw [show pc = _ from h] at hpc'
    cases hpc'
  unloaded _ := hs.unloaded hpc
  spared := hs.spared

theorem underway_step (h : call.step s e = some s') (he : e.alone = true)
    (hpc' : s'.pc.undecided = true) (hrouted : Routed start.loads.workers)
    (hs : call.Underway start s) : call.Underway start s' := by
  have hvalid : s.pc = .called → s'.pc = .unloading →
      check_langs call.host call.source call.target = .ok () := by
    intro hpc hunloading
    rcases called_step h hpc with hcalled | ⟨-, hok⟩ | ⟨error, hreturned, -⟩
    · cases hcalled.symm.trans hunloading
    · exact hok
    · cases hreturned.symm.trans hunloading
  cases step_cases h with
  | workers hpc hl => exact underway_workers hl he hrouted hs
  | store => cases he
  | unload hpc hl => exact underway_unload hpc hl hs _
  | checked hpc =>
      exact { hs with
        valid := Or.inr (hvalid hpc rfl)
        waiting := fun _ => hs.waiting (Or.inl hpc)
        retaining := fun h => by cases h
        unloaded := fun h => by cases h }
  | makeUser hpc => exact @Underway.later call start s _ s.pc hs (by rw [hpc]; rfl) (by rw [hpc]; rfl)
  | userMade hpc => exact hs.later (t := s.tree) (by rw [hpc]; rfl) rfl
  | lockFile hpc => exact hs.later (by rw [hpc]; rfl) rfl
  | locked hpc => exact hs.later (t := s.tree) (by rw [hpc]; rfl) rfl
  | scanned hpc => cases hpc'
  | unlinked hpc =>
      rw [show s.pc = _ from hpc] at hpc'
      cases hpc'
  | removed hpc | pruned hpc | finished hpc | failed => cases hpc'

end Underway

/-! ## Refused calls -/

/-- The call that began in `start`, whatever the registry and the stores were,
returns an error in `s'` before it knows what to delete. -/
def Refused (call : RemovePair) (start s' : Removal) : Prop :=
  start.pc = .called ∧ start.loads.workers.lock = none
    ∧ ∃ s e error, Machine.Reach call.step (fun _ e => e.alone = true) start s
      ∧ s.pc.undecided = true ∧ e.alone = true ∧ call.step s e = some s'
      ∧ s'.pc = .returned (.error error)

section Refused

variable {tree : FileTree Bytes} {start s s' : Removal} {e : RemovalEvent}

theorem routed_of_reach (h : Machine.Reach call.step Machine.anyStep (Removal.init tree) s) :
    Routed s.loads.workers := by
  refine Machine.Reach.invariant (I := fun s => Routed s.loads.workers) h routed_init ?_
  intro s e s' _ _ hstep hs
  cases step_cases hstep with
  | workers hpc hl | unload hpc hl => exact routed_step (Loads.workers_step hl) hs
  | _ => exact hs

theorem onlyLocked_of_reach (h : Machine.Reach call.step (fun _ e => e.alone = true) start s)
    (hpc : s.pc.undecided = true) : call.OnlyLocked start.tree s.tree := by
  refine Machine.Reach.invariant
    (I := fun s => s.pc.undecided = true → call.OnlyLocked start.tree s.tree) h
    (fun _ => onlyLocked_refl _) ?_ hpc
  intro s e s' _ he hstep hs hpc'
  have hpc := undecided_of_step hstep hpc'
  exact (hs hpc).trans (onlyLocked_step hstep he hpc)

theorem underway_of_reach (h : Machine.Reach call.step (fun _ e => e.alone = true) start s)
    (hstart : call.Underway start start) (hpc : s.pc.undecided = true) :
    call.Underway start s := by
  refine Machine.Reach.invariant
    (I := fun s => s.pc.undecided = true → call.Underway start s) h (fun _ => hstart) ?_ hpc
  intro s e s' _ he hstep hs hpc'
  exact underway_step hstep he hpc' hstart.routed (hs (undecided_of_step hstep hpc'))

/-- A call is refused at its arguments or once the routes are unloaded, and
the registry is as the step finds it. -/
theorem refused_step (h : call.step s e = some s') (hpc : s.pc.undecided = true) {error : Error}
    (herr : s'.pc = .returned (.error error)) :
    s'.loads = s.loads ∧ (s.pc = .called ∨ s.pc.beforeScan = true) := by
  have hgoes : s.pc ≠ .returned (.error error) := fun hreturned => by
    rw [hreturned] at hpc
    cases hpc
  unfold step at h
  split at h
  · cases h
  · obtain ⟨loads, -, rfl⟩ := Option.map_eq_some_iff.mp h
    have hafter : after s.pc loads = .returned (.error error) := herr
    unfold after at hafter
    split at hafter
    · cases hafter
    · exact absurd hafter hgoes
  · cases h
    exact absurd herr hgoes
  · obtain ⟨pc, hfailure, rfl⟩ := Option.map_eq_some_iff.mp h
    refine ⟨rfl, ?_⟩
    unfold failure at hfailure
    split at hfailure
    · exact Or.inr (by rw [‹s.pc = _›]; rfl)
    · exact Or.inr (by rw [‹s.pc = _›]; rfl)
    · exact Or.inr (by rw [‹s.pc = _›]; rfl)
    · rw [‹s.pc = _›] at hpc
      cases hpc
    · rw [‹s.pc = _›] at hpc
      cases hpc
    · cases hfailure
  · unfold proceed at h
    split at h
    · refine ⟨?_, Or.inl ‹_›⟩
      split at h <;> cases h <;> rfl
    · obtain ⟨loads, -, rfl⟩ := Option.map_eq_some_iff.mp h
      cases herr
    · refine ⟨?_, Or.inr (by rw [‹s.pc = _›]; rfl)⟩
      split at h
      · cases h
      · cases h
        rfl
      · obtain ⟨t, -, rfl⟩ := Option.map_eq_some_iff.mp h
        rfl
    · obtain ⟨t, -, rfl⟩ := Option.map_eq_some_iff.mp h
      cases herr
    · cases h
      cases herr
    · refine ⟨?_, Or.inr (by rw [‹s.pc = _›]; rfl)⟩
      split at h <;> cases h <;> rfl
    · rw [‹s.pc = _›] at hpc
      cases hpc
    · rw [‹s.pc = _›] at hpc
      cases hpc
    · rw [‹s.pc = _›] at hpc
      cases hpc
    · cases h
    · cases h
  · unfold unlink at h
    split at h
    · rw [‹s.pc = _›] at hpc
      cases hpc
    · cases h

/-- **A refused RemovePair leaves the stores as they are**, to the last byte
when the lock file is there, **and the loaded routes if and only if** the
arguments are invalid or none of the routes is one to unload. -/
theorem remove_pair_refused_iff
    (hstart : Machine.Reach call.step Machine.anyStep (Removal.init tree) start)
    (h : call.Refused start s') :
    call.OnlyLocked start.tree s'.tree
      ∧ (start.tree.node (".lock" :: call.stores.user.reverse) = some (.file []) →
        s'.tree.node = start.tree.node)
      ∧ ((∀ key, s'.loads.workers.entries.lookup key = start.loads.workers.entries.lookup key)
        ↔ (∃ error, check_langs call.host call.source call.target = .error error)
          ∨ call.SparesAll start.loads.workers) := by
  obtain ⟨hpc, hfree, s, e, error, hreach, hundecided, he, hstep, herr⟩ := h
  have hrouted := routed_of_reach hstart
  have hs := underway_of_reach hreach (underway_start hrouted hpc hfree) hundecided
  obtain ⟨hloads, hat⟩ := refused_step hstep hundecided herr
  have hlocked : call.OnlyLocked start.tree s'.tree :=
    (onlyLocked_of_reach hreach hundecided).trans (onlyLocked_step hstep he hundecided)
  refine ⟨hlocked, hlocked.node_eq, ?_⟩
  rw [hloads]
  rcases hat with hcalled | hbefore
  · have hsame := (hs.waiting (Or.inl hcalled)).2
    refine iff_of_true (fun key => by rw [hsame]) (Or.inl ?_)
    rcases called_step hstep hcalled with hcalled' | ⟨hunloading, -⟩ | ⟨error, -, hinvalid⟩
    · cases hcalled'.symm.trans herr
    · cases hunloading.symm.trans herr
    · exact ⟨error, hinvalid⟩
  · have hvalid : check_langs call.host call.source call.target = .ok () := by
      refine hs.valid.resolve_left fun hcalled => ?_
      rw [hcalled] at hbefore
      cases hbefore
    constructor
    · intro hsame
      refine Or.inr fun key id entry hlookup hentry => ?_
      obtain ⟨entry', hentry', hkeeps⟩ := hs.kept id entry hentry
      rw [← hkeeps]
      exact (hs.unloaded hbefore).2 key id entry' ((hsame key).trans hlookup) hentry'
    · rintro (⟨error, hinvalid⟩ | hspares) key
      · cases hvalid.symm.trans hinvalid
      · rw [(hs.spared hspares).2]

end Refused

/-! ## Two removals -/

/-- The call that begins in `start` is refused after `steps`, as the user
store has no copy. The route of `key` is loaded before, and is or is not
after. -/
def refusedAfter (call : RemovePair) (steps : List RemovalEvent) (key : Key) (stays : Bool)
    (start : Removal) : Bool :=
  start.pc = .called && start.loads.workers.lock = none
    && (start.loads.workers.entries.lookup key).isSome
    && (Machine.run call.step (fun _ e => e.alone = true) start steps).any fun s =>
      s.pc.undecided && (call.step s .proceed).any fun s' =>
        s'.pc = .returned (.error (.notInstalled call.pair))
          && (s'.loads.workers.entries.lookup key).isSome = stays

theorem refused_of_run {steps : List RemovalEvent} {key : Key} {stays : Bool} {start : Removal}
    (h : call.refusedAfter steps key stays start = true) : ∃ s', call.Refused start s'
      ∧ s'.pc = .returned (.error (.notInstalled call.pair))
      ∧ (start.loads.workers.entries.lookup key).isSome = true
      ∧ (s'.loads.workers.entries.lookup key).isSome = stays := by
  simp only [refusedAfter, Bool.and_eq_true, decide_eq_true_eq, Option.any_eq_true] at h
  obtain ⟨⟨⟨hpc, hfree⟩, hloaded⟩, s, hrun, hundecided, s', hstep, herr, hstays⟩ := h
  exact ⟨s', ⟨hpc, hfree, s, .proceed, _, Machine.Reach.of_run hrun, hundecided, rfl, hstep, herr⟩,
    herr, hloaded, hstays⟩

/-- From the check of the arguments to the scan of the stores, when `made`
directories are to be made. -/
def refuse (key : Key) (unloads : Bool) (made : Nat) : List RemovalEvent :=
  [.proceed, .proceed, .workers (.scan key), .workers .advance]
    ++ (if unloads then [.workers .advance] else []) ++ List.replicate (made + 3) .proceed

/-- A pair that is not installed, next to the route of another one. -/
theorem remove_pair_refused_other :
    ∃ start s', (callOn ("bg", "en") ("de", "en")).Refused start s'
      ∧ s'.pc = .returned (.error (.notInstalled "de-en"))
      ∧ (start.loads.workers.entries.lookup ("bg", "en")).isSome = true
      ∧ ∀ key, s'.loads.workers.entries.lookup key = start.loads.workers.entries.lookup key := by
  obtain ⟨start, hstart, hp⟩ := Machine.exists_reach_of_run
    (callOn ("bg", "en") ("de", "en")).step Machine.anyStep (Removal.init (fileTree "bg" "en"))
    (loadPair ("bg", "en"))
    (fun start => (callOn ("bg", "en") ("de", "en")).refusedAfter
        (refuse ("bg", "en") false 0) ("bg", "en") true start
      && start.loads.workers.heap.all (callOn ("bg", "en") ("de", "en")).keeps)
    (by decide +kernel)
  obtain ⟨hp, hkeeps⟩ := Bool.and_eq_true_iff.mp hp
  obtain ⟨s', hrefused, hreturned, hloaded, -⟩ := refused_of_run hp
  have hspares : (callOn ("bg", "en") ("de", "en")).SparesAll start.loads.workers := by
    intro key id entry _ hentry
    exact List.all_eq_true.mp hkeeps entry (List.mem_of_getElem? hentry)
  exact ⟨start, s', hrefused, hreturned, hloaded,
    (remove_pair_refused_iff hstart hrefused).2.2.mpr (Or.inr hspares)⟩

/-- The system store has the model under the name of its pair. -/
def systemTree (source target : String) : FileTree Bytes :=
  plant (copyNodes "s" (source ++ "-" ++ target) (fileManifest source target)
    ++ [("model.bin" :: (copyDir "s" (source ++ "-" ++ target) "3.0").reverse, some [0])])

/-- A client loads the pair of the system copy. -/
def loadSystem (model : Key) : List RemovalEvent :=
  let disk := copyStores.disk (oldHost (fileManifest model.1 model.2))
    (systemTree model.1 model.2)
  [.workers (.ensure 0 model.1 model.2 true 512 disk disk), .workers (.loaded (.ok 0)),
    .workers .advance]

/-- A route served by a system copy is lost to a call that is refused. -/
theorem remove_pair_refused_unloads :
    ∃ start s', Machine.Reach (callOn ("bg", "en") ("bg", "en")).step Machine.anyStep
        (Removal.init (systemTree "bg" "en")) start
      ∧ (callOn ("bg", "en") ("bg", "en")).Refused start s'
      ∧ s'.pc = .returned (.error (.notInstalled "bg-en"))
      ∧ (start.loads.workers.entries.lookup ("bg", "en")).isSome = true
      ∧ (s'.loads.workers.entries.lookup ("bg", "en")).isSome = false := by
  obtain ⟨start, hstart, hp⟩ := Machine.exists_reach_of_run
    (callOn ("bg", "en") ("bg", "en")).step Machine.anyStep (Removal.init (systemTree "bg" "en"))
    (loadSystem ("bg", "en")) ((callOn ("bg", "en") ("bg", "en")).refusedAfter
      (refuse ("bg", "en") true 1) ("bg", "en") false) (by decide +kernel)
  obtain ⟨s', hrefused, hlost⟩ := refused_of_run hp
  exact ⟨start, s', hstart, hrefused, hlost⟩

end RemovePair

end Dragomand
