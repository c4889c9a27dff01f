import Dragomand.Preparation

/-!
# `prepare_pair` fetches what the route is missing

When a route is there, `prepare_pair` makes no HTTP request. Otherwise it
installs pairs that a route can use and that the stores have no model of, and
when it comes to load the route, there is one.

What has been found or installed stays found (`Inv.kept`): others remove
nothing, and an install leaves the models of other pairs. Of its own pair
nothing had been found, or it would not have begun.
-/

namespace Dragomand

open FileTree (plainName)

/-! ## An install among others -/

/-- The progress of an install is in its directories. -/
theorem InstallCall.Written.congr {call : InstallCall} {t t' : FileTree Bytes} {pc : Install.Pc}
    (h : ∀ q, call.finalAt <:+ q ∨ call.tmpAt <:+ q → t'.node q = t.node q)
    (hw : call.Written t pc) : call.Written t' pc := by
  have htmp : ∀ name, t'.node (name :: call.tmpAt) = t.node (name :: call.tmpAt) :=
    fun name => h _ (Or.inr (List.suffix_cons ..))
  have hfinal : ∀ name, t'.node (name :: call.finalAt) = t.node (name :: call.finalAt) :=
    fun name => h _ (Or.inl (List.suffix_cons ..))
  have hholds : ∀ {files}, call.Holds t call.tmpAt files → call.Holds t' call.tmpAt files := by
    intro files hfiles f hf
    rw [htmp]
    exact hfiles f hf
  have hsound : ∀ {o}, call.Sound t o → call.Sound t' o := by
    intro o ho
    cases o with
    | file record content after =>
        obtain ⟨files, role, hfinished, hfiles, hverified⟩ := ho
        exact ⟨files, role, hfinished, hholds hfiles, hverified⟩
    | manifest m => exact ⟨ho.1, hholds ho.2⟩
  have hplaced : ∀ {m}, call.Placed t m → call.Placed t' m := by
    intro m hm
    refine ⟨(h _ (Or.inl (List.suffix_refl _))).trans hm.dir, hm.installed,
      (hfinal _).trans hm.manifest, fun f hf => ?_⟩
    rw [hfinal]
    exact hm.files f hf
  cases pc with
  | fetching d =>
      obtain ⟨files, hfinished, hfiles⟩ := hw
      exact ⟨files, hfinished, hholds hfiles⟩
  | creating o => exact hsound hw
  | writing o written => exact ⟨hsound hw.1, (htmp _).trans hw.2⟩
  | syncing o => exact ⟨hsound hw.1, (htmp _).trans hw.2⟩
  | «renaming» m => exact ⟨hsound (o := .manifest m) hw.1, (htmp _).trans hw.2⟩
  | syncingPair m => exact hplaced hw
  | done m downloaded =>
      cases downloaded with
      | false => trivial
      | true => exact ⟨hw.1, hplaced hw.2⟩
  | creatingUser | opening | locking | probing | checking | removing | making | failed => trivial

/-- Without the lock an install has made nothing. -/
theorem InstallCall.written_of_unlocked {call : InstallCall} {t : FileTree Bytes} {pc : Install.Pc}
    (hpc : pc.locked = false) (hdone : ∀ m downloaded, pc ≠ .done m downloaded) :
    call.Written t pc := by
  cases pc with
  | creatingUser | opening | locking | failed => trivial
  | done m downloaded => exact absurd rfl (hdone m downloaded)
  | probing | checking | removing | making | fetching | creating | writing | syncing | «renaming»
  | syncingPair => cases hpc

namespace PrepareCall

variable {call : PrepareCall}

/-- What an install has made so far; once it has returned, its pair is
found. -/
def Progress (call : PrepareCall) (key : Key) (t : FileTree Bytes) (i : InstallCall) :
    Install.Pc → Prop
  | .done _ _ => (call.disk t).Finds key
  | pc => i.Written t pc

/-- The install of a set of the pair. -/
structure Working (call : PrepareCall) (key : Key) (t : FileTree Bytes) (i : InstallCall)
    (pc : Install.Pc) : Prop where
  source : i.set.source = key.1
  target : i.set.target = key.2
  window : i.set.version.inWindow = true
  names : i.PlainNames
  json : i.host.from_slice (i.host.to_vec_pretty i.installed) = .ok i.installed
  fromSet : i.FromSet pc
  progress : call.Progress key t i pc

/-- An `install_pair` that is going on. -/
def Underway (call : PrepareCall) (key : Key) (t : FileTree Bytes) : Installing → Prop
  | .asking prog => ∃ last, InstallsPair key.1 key.2 last prog
      ∧ (last ≠ none → (call.disk t).Finds key)
  | .installing set attachments_base pc next =>
      call.Working key t (call.install set attachments_base) pc
        ∧ ∀ answer : Except ProviderError InstalledModel,
          InstallsPair key.1 key.2 answer.toOption (next answer)

theorem Progress.others {key : Key} {i : InstallCall} {pc : Install.Pc} {t t' : FileTree Bytes}
    (h : call.Progress key t i pc)
    (hlisted : ∀ m ∈ (call.stores.scan call.host t).1, m ∈ (call.stores.scan call.host t').1)
    (hlock : pc.locked = true →
      ∀ q, i.finalAt <:+ q ∨ i.tmpAt <:+ q → t'.node q = t.node q) :
    call.Progress key t' i pc := by
  by_cases hdone : ∃ m downloaded, pc = .done m downloaded
  · obtain ⟨m, downloaded, rfl⟩ := hdone
    exact Stores.finds_mono hlisted h
  · have hprogress : ∀ t, call.Progress key t i pc = i.Written t pc := by
      intro t
      cases pc with
      | done m downloaded => exact absurd ⟨m, downloaded, rfl⟩ hdone
      | _ => rfl
    rw [hprogress] at h ⊢
    cases hpc : pc.locked with
    | true => exact h.congr (hlock hpc)
    | false =>
        exact InstallCall.written_of_unlocked hpc fun m downloaded heq => hdone ⟨m, downloaded, heq⟩

theorem Underway.others {key : Key} {i : Installing} {t t' : FileTree Bytes}
    (h : call.Underway key t i)
    (hlisted : ∀ m ∈ (call.stores.scan call.host t).1, m ∈ (call.stores.scan call.host t').1)
    (hlock : ∀ set attachments_base pc next, i = .installing set attachments_base pc next →
      pc.locked = true → ∀ q, (call.install set attachments_base).finalAt <:+ q
        ∨ (call.install set attachments_base).tmpAt <:+ q → t'.node q = t.node q) :
    call.Underway key t' i := by
  cases i with
  | asking prog =>
      obtain ⟨last, hprog, hlast⟩ := h
      exact ⟨last, hprog, fun hsome => Stores.finds_mono hlisted (hlast hsome)⟩
  | installing set attachments_base pc next =>
      obtain ⟨hworking, hnext⟩ := h
      exact ⟨{ hworking with
        progress := hworking.progress.others hlisted (hlock _ _ _ _ rfl) }, hnext⟩

/-! ## Pairs -/

theorem check_langs_eq_ok {host : Host} {source target : String} :
    check_langs host source target = .ok ()
      ↔ valid_lang source = true ∧ valid_lang target = true ∧ source ≠ target := by
  unfold check_langs
  split
  · rename_i hbad
    simp only [reduceCtorEq, false_iff]
    rintro ⟨hsource, htarget, hne⟩
    simp [hsource, htarget, hne] at hbad
  · rename_i hgood
    simpa [and_assoc] using hgood

/-- A pair that the route can use names one directory. -/
theorem plainName_of_usable {host : Host} {source target : String} {allow_pivot : Bool} {key : Key}
    (hcheck : check_langs host source target = .ok ()) (h : Usable source target allow_pivot key) :
    plainName (key.1 ++ "-" ++ key.2) = true := by
  obtain ⟨hsource, htarget, -⟩ := check_langs_eq_ok.mp hcheck
  have hpivot : valid_lang PIVOT_LANGUAGE = true := by decide
  obtain ⟨disk, pivot, hplan, hkey⟩ := h
  rcases plan_route_eq_ok.mp hplan with ⟨rfl, -⟩ | ⟨rfl, -, -, hsource', htarget', -⟩
  · cases List.mem_singleton.mp hkey
    exact plainName_of_check_langs hcheck
  · simp only [routePairs, List.mem_cons, List.not_mem_nil, or_false] at hkey
    rcases hkey with rfl | rfl
    · exact @plainName_of_check_langs _ _ host
        (check_langs_eq_ok.mpr ⟨hsource, hpivot, hsource'⟩)
    · exact @plainName_of_check_langs _ _ host
        (check_langs_eq_ok.mpr ⟨hpivot, htarget, htarget'.symm⟩)

/-! ## An install underway -/

/-- Nothing follows the return of an install. -/
theorem pc_ne_done {i : InstallCall} {s s' : Install} {e : InstallEvent} (h : i.Transition s e s')
    (m : InstalledModel) (downloaded : Bool) : s.pc ≠ .done m downloaded := by
  intro hdone
  cases h with
  | fail herror =>
      rw [hdone] at herror
      cases herror
  | makeUser hpc | userMade hpc | lockFile hpc | locked hpc | found hpc | absent hpc
  | existing hpc | damaged hpc | tmpFound hpc | tmpAbsent hpc | unlink hpc | removed hpc | make hpc
  | made hpc | refused hpc | unpacked hpc | assembled hpc | create hpc | write hpc | wrote hpc
  | synced hpc | stored hpc | rename hpc | finish hpc => cases hpc.symm.trans hdone

theorem Working.pair {key : Key} {t : FileTree Bytes} {i : InstallCall} {pc : Install.Pc}
    (hw : call.Working key t i pc) : i.set.pair = key.1 ++ "-" ++ key.2 := by
  rw [← hw.source, ← hw.target]
  rfl

theorem Working.plain {key : Key} {t : FileTree Bytes} {i : InstallCall} {pc : Install.Pc}
    (hw : call.Working key t i pc) (hplain : plainName (key.1 ++ "-" ++ key.2) = true) :
    plainName i.set.pair = true := by
  rw [hw.pair]
  exact hplain

section Step

variable {key : Key} {i : InstallCall} {s s' : Install} {e : InstallEvent}

theorem Working.written (hw : call.Working key s.tree i s.pc) (h : i.Transition s e s') :
    i.Written s.tree s.pc := by
  have hprogress := hw.progress
  unfold Progress at hprogress
  split at hprogress
  · rename_i m downloaded hpc
    exact absurd hpc (pc_ne_done h m downloaded)
  · exact hprogress

theorem Working.written' (hw : call.Working key s.tree i s.pc)
    (hplain : plainName i.set.pair = true) (h : i.Transition s e s') : i.Written s'.tree s'.pc :=
  InstallCall.written_step (InstallCall.located_of_plain hplain) hw.names.fits h (hw.written h)

theorem Working.step (hw : call.Working key s.tree i s.pc)
    (hcall : i.host = call.host ∧ i.stores = call.stores)
    (hplain : plainName i.set.pair = true) (h : i.Transition s e s')
    (ho : i.stores.Orderly i.host s.tree) : call.Working key s'.tree i s'.pc := by
  refine { hw with fromSet := InstallCall.fromSet_step h hw.fromSet, progress := ?_ }
  unfold Progress
  split
  · rename_i m downloaded hpc
    have hfinds := InstallCall.finds_of_done hplain hw.names hw.json hw.window h (hw.written h)
      ho hpc
    rw [hcall.1, hcall.2, hw.source, hw.target] at hfinds
    exact hfinds
  · exact hw.written' hplain h

end Step

/-! ## The invariant -/

structure Inv (call : PrepareCall) (s : Preparation) : Prop where
  asks : FetchesMissing call.source call.target call.allow_pivot (fun _ _ => True) s.history
    s.future
  orderly : call.stores.Orderly call.host s.tree
  /-- What has been found or installed is found. -/
  kept : ∀ key, Provided s.history key → (call.disk s.tree).Finds key
  /-- The last look at the stores has found it as well. -/
  looked : ∀ h disk, s.history = h ++ [⟨.stores, disk⟩] →
    (∃ t, disk = call.disk t) ∧ ∀ key, Provided s.history key → disk.Finds key
  /-- An install is of a pair of which nothing had been found. -/
  installing : ∀ i, s.installing = some i → ∃ source target next,
    s.future = .op (.install_pair source target) next
      ∧ plainName (source ++ "-" ++ target) = true
      ∧ (∀ key, Provided s.history key → key.1 ++ "-" ++ key.2 ≠ source ++ "-" ++ target)
      ∧ call.Underway (source, target) s.tree i

theorem inv_init {t : FileTree Bytes} (ho : call.stores.Orderly call.host t) :
    call.Inv (call.init t) where
  asks := meets_prepare_pair
  orderly := ho
  kept := by
    rintro key (⟨disk, hmem, -⟩ | ⟨m, hmem⟩)
    · exact absurd hmem List.not_mem_nil
    · exact absurd hmem List.not_mem_nil
  looked h disk heq := absurd heq.symm (List.append_ne_nil_of_right_ne_nil h (List.cons_ne_nil _ _))
  installing i hi := absurd hi (Option.some_ne_none i).symm

section Step

variable {s s' : Preparation} {e : PrepareEvent}

theorem Inv.answered (h : call.Inv s) {op : Op} {next : op.Answer → Async Results}
    (hfuture : s.future = .op op next) (answer : op.Answer)
    (hkept : ∀ key, Provided (s.history.add op answer) key → (call.disk s.tree).Finds key)
    (hlooked : op = .stores → answer ≍ call.disk s.tree) :
    call.Inv (s.answered op next answer) where
  asks := by
    have hasks := h.asks
    rw [hfuture] at hasks
    exact hasks.next answer
  orderly := h.orderly
  kept := hkept
  looked h₀ disk heq := by
    obtain ⟨-, hlast⟩ := List.append_inj' heq rfl
    cases List.singleton_inj.mp hlast
    cases hlooked rfl
    exact ⟨⟨s.tree, rfl⟩, hkept⟩
  installing i hi := absurd hi (Option.some_ne_none i).symm

/-- **A step keeps the invariant.** -/
theorem inv_step {host : Host} (hcheck : check_langs host call.source call.target = .ok ())
    (hapart : call.stores.SystemApart) (hok : call.Undisturbed s e) (hharmless : call.Harmless s e)
    (ht : call.Transition s e s') (h : call.Inv s) : call.Inv s' := by
  cases ht with
  | @others t =>
      obtain ⟨hlisted, hnamed, hlock⟩ := hok
      refine { h with
        orderly := ⟨hnamed, hharmless⟩
        kept := fun key hkey => Stores.finds_mono hlisted (h.kept key hkey)
        installing := fun i hi => ?_ }
      obtain ⟨source, target, next, hfuture, hplain, hother, hunderway⟩ := h.installing i hi
      refine ⟨source, target, next, hfuture, hplain, hother, hunderway.others hlisted ?_⟩
      rintro set attachments_base pc next rfl
      exact hlock _ _ _ _ hi
  | look hfuture hidle =>
      refine h.answered hfuture _ (fun key hkey => ?_) fun _ => HEq.rfl
      rcases provided_add.mp hkey with hkey | ⟨disk, heq, hfinds⟩ | ⟨m, heq⟩
      · exact h.kept key hkey
      · cases heq
        exact hfinds
      · cases heq
  | @«begin» reply source target next hfuture hidle =>
      refine { h with installing := fun i hi => ?_ }
      cases hi
      have hasks := h.asks
      rw [hfuture] at hasks
      obtain ⟨⟨h₀, disk, hhistory, hmissed⟩, husable, -⟩ := hasks.1
      obtain ⟨⟨t, rfl⟩, hlooked⟩ := h.looked h₀ disk hhistory
      have hother : ∀ key, Provided s.history key →
          key.1 ++ "-" ++ key.2 ≠ source ++ "-" ++ target :=
        fun key hkey heq => hmissed ((Stores.finds_congr heq).mp (hlooked key hkey))
      have hplain := plainName_of_usable hcheck husable
      exact ⟨source, target, next, hfuture, hplain, hother, none,
        installsPair_install_pair call.provider, fun hne => absurd rfl hne⟩
  | @«return» reply source target next result answer hfuture hinstalling hanswer =>
      obtain ⟨source', target', next', hfuture', -, -, last, hprog, hlast⟩ :=
        h.installing _ hinstalling
      cases hfuture.symm.trans hfuture'
      refine h.answered hfuture _ (fun key hkey => ?_) nofun
      rcases provided_add.mp hkey with hkey | ⟨disk, heq, hfinds⟩ | ⟨m, heq⟩
      · exact h.kept key hkey
      · cases heq
      · cases heq
        refine hlast ?_
        rw [hprog m (hanswer m rfl)]
        exact Option.some_ne_none m
  | answer hfuture hidle hstores hinstall =>
      refine h.answered hfuture _ (fun key hkey => ?_) fun heq => absurd heq hstores
      rcases provided_add.mp hkey with hkey | ⟨disk, heq, hfinds⟩ | ⟨m, heq⟩
      · exact h.kept key hkey
      · exact absurd (congrArg Sigma.fst heq) hstores
      · exact absurd (congrArg Sigma.fst heq) (hinstall _ _)
  | @start reply set attachments_base next hinstalling =>
      refine { h with installing := fun i hi => ?_ }
      cases hi
      obtain ⟨source, target, next', hfuture, hplain, hother, last, hprog, hlast⟩ :=
        h.installing _ hinstalling
      have hstarting : (set, attachments_base) ∈ s.starting.toList := by
        unfold Preparation.starting
        rw [hinstalling]
        exact List.mem_singleton_self _
      have hcatalogued := hok _ hstarting
      obtain ⟨⟨hsource, htarget, hwindow⟩, hnext⟩ := hprog
      exact ⟨source, target, next', hfuture, hplain, hother,
        ⟨hsource, htarget, hwindow, ⟨hcatalogued.nodup, hcatalogued.plain,
          hharmless _ hstarting⟩, hcatalogued.json, trivial, trivial⟩, hnext⟩
  | @provider reply op next hinstalling hquery =>
      refine { h with installing := fun i hi => ?_ }
      cases hi
      obtain ⟨source, target, next', hfuture, hplain, hother, last, hprog, hlast⟩ :=
        h.installing _ hinstalling
      refine ⟨source, target, next', hfuture, hplain, hother, last, ?_, hlast⟩
      have hnext := hprog.2 (reply op)
      cases op with
      | install => cases hquery
      | read | get | create_dir_all | write | remove_file | prerelease | scan => exact hnext
  | @finish reply set attachments_base pc next result hinstalling hresult =>
      refine { h with installing := fun i hi => ?_ }
      cases hi
      obtain ⟨source, target, next', hfuture, hplain, hother, hworking, hnext⟩ :=
        h.installing _ hinstalling
      refine ⟨source, target, next', hfuture, hplain, hother, _, hnext result, fun hsome => ?_⟩
      cases result with
      | error e => exact absurd rfl hsome
      | ok m =>
          obtain ⟨downloaded, rfl⟩ := hresult m rfl
          exact hworking.progress
  | @install event set attachments_base pc next i hinstalling hi =>
      obtain ⟨source, target, next', hfuture, hplain, hother, hworking, hnext⟩ :=
        h.installing _ hinstalling
      have ho : (call.install set attachments_base).stores.Orderly
        (call.install set attachments_base).host s.tree := h.orderly
      have hset := hworking.plain hplain
      have hworking' := hworking.step ⟨rfl, rfl⟩ hset hi ho
      refine ⟨h.asks, ?_, fun key hkey => ?_, h.looked, fun i hi => ?_⟩
      · exact InstallCall.orderly_step hset hworking.names hapart hworking.json hi
          hworking.fromSet (hworking.written' hset hi) ho
      · obtain ⟨m, hm, hmpair, hmwindow⟩ := Stores.finds_iff.mp (h.kept key hkey)
        have hpair : m.pair ≠ (call.install set attachments_base).set.pair := by
          rw [hmpair, hworking.pair]
          exact hother key hkey
        exact Stores.finds_iff.mpr ⟨m, InstallCall.listed_step hset hworking.names.stay hapart hi
          hworking.fromSet ho hm hpair, hmpair, hmwindow⟩
      · cases hi
        exact ⟨source, target, next', hfuture, hplain, hother, hworking', hnext⟩

/-! ## With a route there -/

/-- A route is there, and no look at the stores has found otherwise. -/
structure Offline (call : PrepareCall) (s : Preparation) : Prop where
  routable : Routable (call.disk s.tree).Finds call.source call.target call.allow_pivot
  looked : ∀ disk, ⟨.stores, disk⟩ ∈ s.history →
    Routable disk.Finds call.source call.target call.allow_pivot
  idle : s.installing = none

theorem offline_step (hok : call.Undisturbed s e) (ht : call.Transition s e s') (h : call.Inv s)
    (ho : call.Offline s) : call.Offline s' := by
  cases ht with
  | others =>
      exact { ho with routable := ho.routable.mono fun _ => Stores.finds_mono hok.1 }
  | look hfuture hidle =>
      refine ⟨ho.routable, fun disk hmem => ?_, rfl⟩
      rcases List.mem_append.mp hmem with hmem | hmem
      · exact ho.looked disk hmem
      · cases List.mem_singleton.mp hmem
        exact ho.routable
  | «begin» hfuture hidle =>
      have hasks := h.asks
      rw [hfuture] at hasks
      obtain ⟨-, -, disk, hmem, hnot⟩ := hasks.1
      exact absurd (ho.looked disk hmem) hnot
  | «return» hfuture hinstalling => cases ho.idle.symm.trans hinstalling
  | answer hfuture hidle hstores hinstall =>
      refine ⟨ho.routable, fun disk hmem => ?_, rfl⟩
      rcases List.mem_append.mp hmem with hmem | hmem
      · exact ho.looked disk hmem
      · exact absurd (congrArg Sigma.fst (List.mem_singleton.mp hmem)).symm hstores
  | start hinstalling => cases ho.idle.symm.trans hinstalling
  | provider hinstalling => cases ho.idle.symm.trans hinstalling
  | finish hinstalling => cases ho.idle.symm.trans hinstalling
  | install hinstalling => cases ho.idle.symm.trans hinstalling

end Step

/-! ## The theorem -/

/-- What `prepare_pair` fetches, and what comes of it, in a state of a call
made when the tree was `t₀`. -/
structure Fetches (call : PrepareCall) (t₀ : FileTree Bytes) (s : Preparation) : Prop where
  /-- With a route there before the call, there is no HTTP request. -/
  offline : (∃ pivot,
      plan_route (call.disk t₀) call.source call.target call.allow_pivot = .ok pivot) →
    ¬ s.Requesting
  /-- HTTP requests are made to install a pair. -/
  requests : s.Requesting → ∃ source target next, s.future = .op (.install_pair source target) next
  /-- The pair is one that a route can use, and `resolve` has not found it. -/
  missing : ∀ source target next, s.future = .op (.install_pair source target) next →
    Usable call.source call.target call.allow_pivot (source, target)
      ∧ ∃ h t, s.history = h ++ [⟨.stores, call.disk t⟩]
        ∧ call.stores.resolve call.host t source target = none
  /-- When all that a route needs was found or has been installed, there is
  one. -/
  installed : Routable (Provided s.history) call.source call.target call.allow_pivot →
    ∃ pivot, plan_route (call.disk s.tree) call.source call.target call.allow_pivot = .ok pivot
  /-- It is so when the route is to be loaded, and the load does not fail for
  want of a model. -/
  loads : ∀ source target allow_pivot budget_mb next,
    s.future = .op (.ensure_loaded source target allow_pivot budget_mb) next →
    (source, target, allow_pivot) = (call.source, call.target, call.allow_pivot)
      ∧ (∃ pivot, plan_route (call.disk s.tree) source target allow_pivot = .ok pivot)
      ∧ ∀ t, (∀ m ∈ (call.stores.scan call.host s.tree).1, m ∈ (call.stores.scan call.host t).1) →
        ∀ (w w' : Workers) (caller : Nat) (e : Error), w.ensure_loaded caller source target
            allow_pivot budget_mb (call.disk s.tree) (call.disk t) = some (w', .failed e) →
          ∀ pair, e ≠ .notInstalled pair

theorem Inv.requesting {s : Preparation} (h : call.Inv s) (hrequesting : s.Requesting) :
    ∃ i, s.installing = some i := by
  rcases hrequesting with ⟨i, hi, -⟩ | ⟨op, next, hfuture, hop⟩
  · exact ⟨i, hi⟩
  · -- the future asks for no update
    have hasks := h.asks
    rw [hfuture] at hasks
    cases op with
    | check_for_updates | refresh => exact hasks.1.elim
    | start | config | stores | ensure_loaded | submit | receive | pivot | drop | emit_progress
    | install_pair | read_document | write_document => cases hop

/-- **`prepare_pair` fetches what the route is missing**, whatever others do
in between that removes nothing. -/
theorem prepare_pair_fetches {host : Host} {t₀ : FileTree Bytes} {s : Preparation}
    (hcheck : check_langs host call.source call.target = .ok ())
    (hapart : call.stores.SystemApart) (hnamed : call.stores.PathsNamed call.host t₀)
    (hinside : call.stores.NamesInside call.host t₀)
    (h : Machine.Reach call.step (fun s e => call.Undisturbed s e ∧ call.Harmless s e)
      (call.init t₀) s) : call.Fetches t₀ s := by
  have hinv : call.Inv s := by
    refine @Machine.Reach.invariant _ _ _ _ _ _ call.Inv h (inv_init ⟨hnamed, hinside⟩) ?_
    exact fun _ _ _ _ hok hs hi => inv_step hcheck hapart hok.1 hok.2 (step_cases hs) hi
  have hroute : Routable (Provided s.history) call.source call.target call.allow_pivot →
      Routable (call.disk s.tree).Finds call.source call.target call.allow_pivot :=
    fun hprovided => hprovided.mono hinv.kept
  refine ⟨fun hplan => ?_, fun hrequesting => ?_, fun source target next hfuture => ?_,
    fun hprovided => plan_route_iff.mpr (hroute hprovided),
    fun source target allow_pivot budget_mb next hfuture => ?_⟩
  · have hoffline : call.Offline s := by
      refine (@Machine.Reach.invariant _ _ _ _ _ _ (fun s => call.Inv s ∧ call.Offline s) h
        ⟨inv_init ⟨hnamed, hinside⟩, plan_route_iff.mp hplan, ?_, rfl⟩ ?_).2
      · exact fun disk hmem => absurd hmem List.not_mem_nil
      · exact fun _ _ _ _ hok hs hi => ⟨inv_step hcheck hapart hok.1 hok.2 (step_cases hs) hi.1,
          offline_step hok.1 (step_cases hs) hi.1 hi.2⟩
    intro hrequesting
    obtain ⟨i, hi⟩ := hinv.requesting hrequesting
    cases hoffline.idle.symm.trans hi
  · obtain ⟨i, hi⟩ := hinv.requesting hrequesting
    obtain ⟨source, target, next, hfuture, -⟩ := hinv.installing i hi
    exact ⟨source, target, next, hfuture⟩
  · have hasks := hinv.asks
    rw [hfuture] at hasks
    obtain ⟨⟨h₀, disk, hhistory, hmissed⟩, husable, -⟩ := hasks.1
    obtain ⟨⟨t, rfl⟩, -⟩ := hinv.looked h₀ disk hhistory
    exact ⟨husable, h₀, t, hhistory, Option.not_isSome_iff_eq_none.mp hmissed⟩
  · have hasks := hinv.asks
    rw [hfuture] at hasks
    obtain ⟨hsame, hprovided⟩ := hasks.1
    cases hsame
    refine ⟨rfl, plan_route_iff.mpr (hroute hprovided), fun t hlisted w w' caller e hload => ?_⟩
    exact Workers.ensure_loaded_found (hroute hprovided) (fun _ => Stores.finds_mono hlisted) hload

/-! ## A run with a small catalogue -/

theorem userStore_plain : ∀ root ∈ (["u"] : PathBuf) :: [], ∀ name ∈ root,
    plainName name = true := by decide

/-- The small catalogue, on a server that answers; the texts of the two
documents stand for what is read from them. -/
def smallCall (host : ModelHost) (system : List PathBuf)
    (hplain : ∀ root ∈ ["u"] :: system, ∀ name ∈ root, plainName name = true)
    (records : List ModelRecord) (source target : String) : PrepareCall where
  host := host
  stores := ⟨system, ["u"], hplain⟩
  provider := ⟨"https://example.test/v1", fun _ => .ok records, fun _ => .ok "https://example.test/"⟩
  download_lex := false
  to_string _ := ""
  source := source
  target := target
  allow_pivot := true

/-- Nobody else is there, and the sets are good. -/
def Alone (good : ModelSet → String → Prop) (s : Preparation) : PrepareEvent → Prop
  | .others _ => False
  | .provider _ => ∀ x ∈ s.starting.toList, good x.1 x.2
  | _ => True

instance {good : ModelSet → String → Prop}
    [∀ set attachments_base, Decidable (good set attachments_base)]
    (s : Preparation) (e : PrepareEvent) : Decidable (Alone good s e) := by
  cases e <;> unfold Alone <;> infer_instance

theorem undisturbed_of_alone {good : ModelSet → String → Prop} {s : Preparation} {e : PrepareEvent}
    (hgood : ∀ set attachments_base, good set attachments_base → call.Catalogued set attachments_base)
    (h : Alone good s e) : call.Undisturbed s e := by
  cases e with
  | others t => exact h.elim
  | provider reply => exact fun x hx => hgood _ _ (h x hx)
  | answer reply => trivial
  | install event => trivial

/-- A run of an install is one of the call. -/
theorem reach_install {good : ModelSet → String → Prop} {set : ModelSet} {attachments_base : String}
    {ok : Install → InstallEvent → Prop} {i i' : Install} {future : Async Results}
    {history : Asked}
    {next : Except ProviderError InstalledModel → Fetching ProviderError InstalledModel}
    (h : Machine.Reach (call.install set attachments_base).step ok i i') :
    Machine.Reach call.step (Alone good)
      ⟨i.tree, future, history, some (.installing set attachments_base i.pc next)⟩
      ⟨i'.tree, future, history, some (.installing set attachments_base i'.pc next)⟩ := by
  refine Machine.Reach.project (f := fun i : Install => (⟨i.tree, future, history,
    some (.installing set attachments_base i.pc next)⟩ : Preparation)) (fun i e i' _ _ hs => ?_) h
  refine Machine.Reach.one (e := .install e) trivial ?_
  show ((call.install set attachments_base).step ⟨i.tree, i.pc⟩ e).map _ = _
  rw [hs]
  rfl

def opReply : (op : Op) → op.Answer
  | .start | .drop _ | .emit_progress _ _ | .refresh => ()
  | .config => Config.default
  | .stores => .offering []
  | .ensure_loaded _ _ _ _ => .ok 0
  | .submit _ _ _ _ => none
  | .receive _ _ => none
  | .pivot _ => none
  | .install_pair _ _ => .error (.networkDisabled "")
  | .check_for_updates => .ok []
  | .read_document _ => .ok ""
  | .write_document _ => .ok ()

def cacheReply : (op : CacheOp) → op.Answer
  | .read _ => none
  | .get _ _ => .ok (.fetched [] none)
  | .create_dir_all | .write _ _ | .remove_file _ => ()
  | .prerelease => false
  | .scan => FileTree.empty
  | .install _ _ => .error (.noSuchPair "")

/-- The route is about to be loaded. -/
def Loading (s : Preparation) : Bool :=
  match s.future with
  | .op (.ensure_loaded _ _ _ _) _ => true
  | _ => false

/-- `bg-en` is installed into an empty store. -/
def freshCall : PrepareCall :=
  smallCall (catalogueHost hashA) [] userStore_plain (catalogue hashA) "bg" "en"

/-- The sets of the small catalogue. -/
def IsSmall (set : ModelSet) (attachments_base : String) : Prop :=
  set = catalogueSet hashA ∧ attachments_base = "https://example.test/"

instance (set : ModelSet) (attachments_base : String) : Decidable (IsSmall set attachments_base) := by
  unfold IsSmall
  infer_instance

theorem freshCall_loads : ∃ s, Machine.Reach freshCall.step (Alone IsSmall)
    (freshCall.init FileTree.empty) s ∧ Loading s = true := by
  obtain ⟨future, history, next, hbefore, hafter⟩ : ∃ future history next,
      Machine.run freshCall.step (Alone IsSmall) (freshCall.init FileTree.empty)
          (List.replicate 6 (.answer opReply) ++ List.replicate 13 (.provider cacheReply))
        = some ⟨FileTree.empty, future, history, some (.asking
          (.op (.install (catalogueSet hashA) "https://example.test/") next))⟩
      ∧ ∀ t m, (Machine.run freshCall.step (Alone IsSmall) ⟨t, future, history,
          some (.installing (catalogueSet hashA) "https://example.test/" (.done m true) next)⟩
          (.provider cacheReply :: List.replicate 3 (.answer opReply))).any Loading = true :=
    ⟨_, _, _, rfl, fun t m => rfl⟩
  obtain ⟨i, hi, hdone⟩ := catalogue_installs
  have hstart : Machine.Reach freshCall.step (Alone IsSmall)
      ⟨FileTree.empty, future, history, some (.asking
        (.op (.install (catalogueSet hashA) "https://example.test/") next))⟩
      ⟨FileTree.empty, future, history,
        some (.installing (catalogueSet hashA) "https://example.test/" .creatingUser next)⟩ := by
    refine Machine.Reach.one (e := .provider cacheReply) (fun x hx => ?_) rfl
    rw [List.mem_singleton.mp hx]
    exact ⟨rfl, rfl⟩
  have hinstall := @reach_install freshCall IsSmall (catalogueSet hashA) "https://example.test/" _ _ _
    future history next hi
  rw [hdone] at hinstall
  obtain ⟨s, hend, hloading⟩ := Machine.exists_reach_of_run _ _ _ _ _
    (hafter i.tree (catalogueCall hashA).model)
  exact ⟨s, (((Machine.Reach.of_run hbefore).trans hstart).trans hinstall).trans hend, hloading⟩

/-- In an empty store the small catalogue is installed. -/
theorem prepare_pair_fetches_fresh :
    ∃ s, Loading s = true ∧ freshCall.Fetches FileTree.empty s := by
  obtain ⟨s, hreach, hloading⟩ := freshCall_loads
  have hempty : ∀ origin dir, ¬ freshCall.stores.Scanned FileTree.empty origin dir := by
    rintro origin dir ⟨⟨root, provider, pair, version, -, rfl, -⟩, hdir⟩
    simp [FileTree.empty] at hdir
  refine ⟨s, hloading, @prepare_pair_fetches freshCall
    ⟨fun _ _ _ _ => [], fun _ => "", id, Char.isAlphanum, 1⟩ _ _
    (check_langs_eq_ok.mpr (by decide)) (fun _ hkey => absurd hkey List.not_mem_nil)
    (fun m hm => absurd (Stores.mem_scan.mp hm).1 (hempty _ _))
    (fun origin dir hscanned => absurd hscanned (hempty origin dir)) (hreach.mono fun s e h => ?_)⟩
  have hnames := catalogue_names hashA
  refine ⟨undisturbed_of_alone ?_ h, ?_⟩
  · rintro set attachments_base ⟨rfl, rfl⟩
    exact ⟨hnames.nodup, hnames.plain, catalogue_reads hashA⟩
  · cases e with
    | others t => exact h.elim
    | provider reply =>
        intro x hx
        rw [(h x hx).1]
        exact hnames.notManifest
    | answer reply => trivial
    | install event => trivial

/-! ## What it needs -/

/-- With nobody else there, and a store and a catalogue that are as they
should be, the future comes to load a route that is not there. -/
def Unplanned (call : PrepareCall) (t₀ : FileTree Bytes) : Prop :=
  (∀ host : Host, check_langs host call.source call.target = .ok ())
    ∧ call.stores.PathsNamed call.host t₀
    ∧ ∃ s, Machine.Reach call.step call.Undisturbed (call.init t₀) s
      ∧ Loading s = true ∧ ¬ call.Fetches t₀ s

instance (call : PrepareCall) (set : ModelSet) (attachments_base : String) :
    Decidable (call.Catalogued set attachments_base) :=
  decidable_of_iff ((set.files.map fun f => f.2.name).Nodup
      ∧ (∀ f ∈ set.files, plainName f.2.name = true)
      ∧ call.host.from_slice
          (call.host.to_vec_pretty (call.install set attachments_base).installed)
        = .ok (call.install set attachments_base).installed)
    ⟨fun ⟨hnodup, hplain, hjson⟩ => ⟨hnodup, hplain, hjson⟩, fun h => ⟨h.nodup, h.plain, h.json⟩⟩

/-- From the call to the load, with an install of the last of the legs. -/
def prepareRun (legs : Nat) (install : List InstallEvent) : List PrepareEvent :=
  List.replicate (5 + legs) (.answer opReply) ++ List.replicate 14 (.provider cacheReply)
    ++ install.map .install ++ [.provider cacheReply] ++ List.replicate 3 (.answer opReply)

theorem unplanned_of_run {t₀ : FileTree Bytes} (es : List PrepareEvent)
    (hcheck : valid_lang call.source = true ∧ valid_lang call.target = true
      ∧ call.source ≠ call.target)
    (hnamed : ∀ m ∈ (call.stores.scan call.host t₀).1, m.InPlace)
    (h : (Machine.run call.step (Alone call.Catalogued) (call.init t₀) es).any (fun s =>
      Loading s && !(plan_route (call.disk s.tree) call.source call.target call.allow_pivot).isOk)
        = true) : call.Unplanned t₀ := by
  obtain ⟨s, hreach, hs⟩ := Machine.exists_reach_of_run _ _ _ _ _ h
  obtain ⟨hloading, hnone⟩ := Bool.and_eq_true_iff.mp hs
  refine ⟨fun host => check_langs_eq_ok.mpr hcheck, hnamed, s,
    hreach.mono fun _ _ => undisturbed_of_alone fun _ _ => id, hloading, fun hfetches => ?_⟩
  unfold Loading at hloading
  split at hloading
  · rename_i hfuture
    obtain ⟨hsame, ⟨pivot, hplan⟩, -⟩ := hfetches.loads _ _ _ _ _ hfuture
    cases hsame
    rw [hplan] at hnone
    cases hnone
  · cases hloading

/-- `serde_json`, of the manifests that there are. -/
def readingHost (manifests : List Manifest) : ModelHost :=
  { catalogueHost hashA with
    from_slice := fun bytes => match manifests.find? fun m => prettyManifest m = bytes with
      | some m => .ok m
      | none => .error "expected value at line 1 column 1" }

/-- The download of the two files, and of the manifest, after `before`. -/
def installRun (before : List InstallEvent) (m : Manifest) : List InstallEvent :=
  before ++ download 97 ++ download 98 ++ [.proceed, .proceed, .write (prettyManifest m).length]
    ++ List.replicate 4 .proceed

/-- The file of the model is called `manifest.json`. -/
def clobbering : Manifest :=
  { catalogueManifest hashA with
    source_urls := ["https://example.test/manifest.json", "https://example.test/vocab.spm"]
    files := [⟨MANIFEST_FILE, "model", 1, hashA⟩, ⟨"vocab.spm", "vocab", 1, hashB⟩] }

def clobberingCall : PrepareCall :=
  smallCall (readingHost [clobbering]) [] userStore_plain (InstallCall.strayCatalogue MANIFEST_FILE)
    "bg" "en"

/-- What is left of the second leg of bg-de, and what is installed. -/
def secondDir : List String := ["3.0", "en-de", PROVIDER_ID, "u"]

def secondLeg : Manifest := { catalogueManifest hashA with source := "en", target := "de" }

/-- A first leg that uses a file of the second. -/
def sharingLeg : Manifest := InstallCall.oldManifest "bg" "en" "3.0"
  [⟨"../../en-de/3.0/old.bin", "model", 1, hashA⟩]

/-- A first leg in a system store that is inside of the second. -/
def nestedLeg : Manifest := InstallCall.oldManifest "bg" "en" "3.0" []

def nestedDir : List String := "3.0" :: "bg-en" :: secondDir

def brokenTree : FileTree Bytes := InstallCall.plant (InstallCall.pairDirs ++ [
  (InstallCall.dir3, none), (MANIFEST_FILE :: InstallCall.dir3, some (prettyManifest sharingLeg)),
  (secondDir.tail, none), (secondDir, none), (MANIFEST_FILE :: secondDir, some []),
  ("old.bin" :: secondDir, some [97]), (nestedDir.tail, none), (nestedDir, none),
  (MANIFEST_FILE :: nestedDir, some (prettyManifest nestedLeg))])

def brokenCall : PrepareCall :=
  smallCall (readingHost [sharingLeg, nestedLeg, secondLeg]) [["u", PROVIDER_ID, "en-de"]]
    (by decide) (InstallCall.pairCatalogue "en" "de") "bg" "de"

/-- The second leg is removed, and installed. -/
def brokenRun : List InstallEvent :=
  installRun (List.replicate 5 .proceed ++ [MANIFEST_FILE :: nestedDir, nestedDir, nestedDir.tail,
    MANIFEST_FILE :: secondDir, "old.bin" :: secondDir, secondDir].map .unlink
    ++ List.replicate 3 .proceed) secondLeg

/-- A file called `manifest.json` is overwritten by the manifest, so that what
has been installed is not found. Both copies of a first leg go with what was
left of the second: the manifest of one names a file there, the other is in a
system store inside. -/
theorem prepare_pair_not_planned :
    clobberingCall.Unplanned FileTree.empty ∧ brokenCall.Unplanned brokenTree :=
  ⟨unplanned_of_run (prepareRun 1 (installRun (List.replicate 10 .proceed) clobbering))
      (by decide +kernel) (by decide +kernel) (by decide +kernel),
    unplanned_of_run (prepareRun 2 brokenRun)
      (by decide +kernel) (by decide +kernel) (by decide +kernel)⟩

end PrepareCall

end Dragomand
