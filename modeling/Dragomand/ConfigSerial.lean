import Dragomand.ConfigRaces

/-!
# SetConfig calls in turn

Four invariants of runs in turn. `History`: the two lists name the calls in
the phases they stand for. `FileAhead`: the file loads to what the calls
that are renamed and not applied make of the memory. `InOrder`: the memory
is what the applied calls make of the first configuration. `LastWins`: once
the call applied last has set the flag, or sent its signal, that is the
memory's. When every call has ended they come to `Serial`.
-/

namespace Dragomand

open Overrides

/-- The configuration that the call has left in memory. -/
def SetPhase.snapshot : SetPhase → Option Config
  | .flagging config | .enforcing config | .emitting config | .returned config => some config
  | _ => none

namespace ConfigRun

variable {host : Host} {path : ConfigPath} {run run' : ConfigRun} {id : Nat} {call : SetCall}
  {phase phase' : SetPhase} {e : SetEvent}

/-! ## Phases -/

theorem phase?_of (hcall : run.calls[id]? = some call) : run.phase? id = some call.phase := by
  rw [phase?, hcall, Option.map_some]

theorem phase?_setPhase (hcall : run.calls[id]? = some call) :
    (run.setPhase id phase).phase? = Function.update run.phase? id (some phase) := by
  funext j
  rw [phase?, setPhase, List.getElem?_modify, Function.update_apply]
  by_cases hj : j = id
  · subst hj
    rw [if_pos rfl, hcall]
    simp
  · have hne : ¬id = j := fun h => hj h.symm
    simp only [hj, hne, ↓reduceIte, phase?]
    cases run.calls[j]? <;> rfl

theorem phase?_append (calls : List SetCall) (shared unapplied applied) :
    (ConfigRun.mk shared (calls ++ [call]) unapplied applied).phase?
      = Function.update (ConfigRun.mk shared calls unapplied applied).phase? calls.length
          (some call.phase) := by
  funext j
  rw [phase?, Function.update_apply]
  by_cases hj : j = calls.length
  · subst hj
    simp
  · rw [if_neg hj, phase?]
    by_cases hlt : j < calls.length
    · simp only [List.getElem?_append_left hlt]
    · have h1 : (calls ++ [call])[j]? = none := by
        rw [List.getElem?_eq_none_iff, List.length_append]
        simp only [List.length_cons, List.length_nil]
        omega
      have h2 : calls[j]? = none := by
        rw [List.getElem?_eq_none_iff]
        omega
      simp only [h1, h2]

/-! ## The history -/

structure History (run : ConfigRun) : Prop where
  applying : ∀ id checked,
    run.phase? id = some (.applying checked) ↔ (id, checked) ∈ run.unapplied
  unapplied : (run.unapplied.map Prod.fst).Nodup
  snapshot : ∀ id config, (run.phase? id).bind SetPhase.snapshot = some config
    ↔ ∃ checked, (id, checked, config) ∈ run.applied
  applied : (run.applied.map Prod.fst).Nodup

/-- A change of phase that the lists do not tell. -/
theorem History.update (h : run.History)
    (hphase : run'.phase? = Function.update run.phase? id (some phase'))
    (hunapplied : run'.unapplied = run.unapplied) (happlied : run'.applied = run.applied)
    (hold : ∀ checked, run.phase? id ≠ some (.applying checked))
    (hnew : ∀ checked, phase' ≠ .applying checked)
    (hsnapshot : (run.phase? id).bind SetPhase.snapshot = phase'.snapshot) : run'.History := by
  refine ⟨fun j checked => ?_, hunapplied ▸ h.unapplied, fun j config => ?_, happlied ▸ h.applied⟩
  · rw [hphase, hunapplied, ← h.applying, Function.update_apply]
    split
    · rename_i hj
      subst hj
      exact ⟨fun h => absurd (Option.some.inj h) (hnew checked), fun h => absurd h (hold checked)⟩
    · exact Iff.rfl
  · rw [hphase, happlied, ← h.snapshot, Function.update_apply]
    split
    · rename_i hj
      subst hj
      rw [Option.bind_some, hsnapshot]
    · exact Iff.rfl

theorem ne_applying_of_early (h : phase.early = true) (checked : List (String × Setting)) :
    phase ≠ .applying checked := by
  rintro rfl
  cases h

theorem snapshot_of_early (h : phase.early = true) : phase.snapshot = none := by
  cases phase <;> first | rfl | cases h

/-- A call that may still fail is in neither list. -/
theorem History.update_early (h : run.History) (hcall : run.calls[id]? = some call)
    (hearly : call.phase.early = true)
    (hphase : run'.phase? = Function.update run.phase? id (some phase'))
    (hunapplied : run'.unapplied = run.unapplied) (happlied : run'.applied = run.applied)
    (hnew : phase'.early = true ∨ ∃ e, phase' = .failed e) : run'.History := by
  refine h.update hphase hunapplied happlied (fun checked => ?_) (fun checked => ?_) ?_
  · rw [phase?_of hcall]
    exact fun heq => ne_applying_of_early hearly checked (Option.some.inj heq)
  · rcases hnew with hnew | ⟨e, rfl⟩
    · exact ne_applying_of_early hnew checked
    · exact nofun
  · rw [phase?_of hcall, Option.bind_some, snapshot_of_early hearly]
    rcases hnew with hnew | ⟨e, rfl⟩
    · exact (snapshot_of_early hnew).symm
    · rfl

theorem History.renamed {checked : List (String × Setting)} (h : run.History)
    (hcall : run.calls[id]? = some call) (hearly : call.phase.early = true)
    (hphase : run'.phase? = Function.update run.phase? id (some (.applying checked)))
    (hunapplied : run'.unapplied = run.unapplied ++ [(id, checked)])
    (happlied : run'.applied = run.applied) : run'.History := by
  have hnew : id ∉ run.unapplied.map Prod.fst := by
    intro hmem
    obtain ⟨⟨_, checked'⟩, hentry, rfl⟩ := List.mem_map.mp hmem
    have heq := (h.applying _ _).mpr hentry
    rw [phase?_of hcall] at heq
    exact ne_applying_of_early hearly checked' (Option.some.inj heq)
  refine ⟨fun j checked' => ?_, ?_, fun j config => ?_, happlied ▸ h.applied⟩
  · rw [hphase, hunapplied, List.mem_append, ← h.applying, Function.update_apply]
    split
    · rename_i hj
      subst hj
      rw [phase?_of hcall]
      have hne := ne_applying_of_early hearly checked'
      simp [hne, eq_comm]
    · rename_i hj
      simp [hj]
  · rw [hunapplied, List.map_append]
    exact h.unapplied.append (List.nodup_singleton _) (List.disjoint_singleton.mpr hnew)
  · rw [hphase, happlied, ← h.snapshot, Function.update_apply]
    split
    · rename_i hj
      subst hj
      rw [phase?_of hcall, Option.bind_some, Option.bind_some, snapshot_of_early hearly]
      rfl
    · exact Iff.rfl

theorem History.took {checked : List (String × Setting)} {config : Config} (h : run.History)
    (hcall : run.calls[id]? = some call) (hold : call.phase = .applying checked)
    (hphase : run'.phase? = Function.update run.phase? id (some (.flagging config)))
    (hunapplied : run'.unapplied = run.unapplied.filter fun entry => entry.1 ≠ id)
    (happlied : run'.applied = run.applied ++ [(id, checked, config)]) : run'.History := by
  have hnew : id ∉ run.applied.map Prod.fst := by
    intro hmem
    obtain ⟨⟨_, checked', config'⟩, hentry, rfl⟩ := List.mem_map.mp hmem
    have heq := (h.snapshot _ _).mpr ⟨checked', hentry⟩
    rw [phase?_of hcall, hold] at heq
    cases heq
  refine ⟨fun j checked' => ?_, ?_, fun j config' => ?_, ?_⟩
  · rw [hphase, hunapplied, List.mem_filter, ← h.applying, Function.update_apply]
    split
    · rename_i hj
      simp [hj]
    · rename_i hj
      simp [hj]
  · rw [hunapplied]
    exact h.unapplied.sublist (List.filter_sublist.map Prod.fst)
  · rw [hphase, happlied, Function.update_apply]
    simp only [List.mem_append, List.mem_singleton, exists_or, ← h.snapshot]
    split
    · rename_i hj
      subst hj
      rw [phase?_of hcall, hold]
      simp [SetPhase.snapshot, eq_comm]
    · rename_i hj
      simp [hj]
  · rw [happlied, List.map_append]
    exact h.applied.append (List.nodup_singleton _) (List.disjoint_singleton.mpr hnew)

theorem History.step (h : run.History) (ht : run.Transition host e run') : run'.History := by
  cases ht with
  | arrived hkeys =>
      have hnone : run.phase? run.calls.length = none := by simp [phase?]
      refine h.update (phase?_append run.calls run.shared run.unapplied run.applied) rfl rfl
        (fun checked => ?_) (fun checked => nofun) ?_
      · rw [hnone]
        exact nofun
      · rw [hnone]
        rfl
  | failed hcall hearly hfile =>
      exact h.update_early hcall hearly (phase?_setPhase hcall) rfl rfl (Or.inr ⟨_, rfl⟩)
  | checked hcall hphase _ =>
      exact h.update_early hcall (by rw [hphase]; rfl) (phase?_setPhase hcall) rfl rfl (Or.inl rfl)
  | read hcall hphase =>
      exact h.update_early hcall (by rw [hphase]; rfl) (phase?_setPhase hcall) rfl rfl (Or.inl rfl)
  | written hcall hphase =>
      exact h.update_early hcall (by rw [hphase]; rfl) (phase?_setPhase hcall) rfl rfl (Or.inl rfl)
  | renamed hcall hphase _ =>
      exact h.renamed hcall (by rw [hphase]; rfl) (phase?_setPhase hcall) rfl rfl
  | applied hcall hphase _ => exact h.took hcall hphase (phase?_setPhase hcall) rfl rfl
  | flagged hcall hphase | enforced hcall hphase | emitted hcall hphase =>
      refine h.update (phase?_setPhase hcall) rfl rfl (fun checked => ?_) (fun checked => nofun) ?_
      · rw [phase?_of hcall, hphase]
        exact nofun
      · rw [phase?_of hcall, hphase]
        rfl

/-! ## The data of a call -/

structure Sane (host : Host) (call : SetCall) : Prop where
  keys : (call.changes.map Prod.fst).Nodup
  data : match call.phase with
    | .reading checked | .applying checked => Checked host call.changes checked
    | .writing checked existing document | .renaming checked existing document =>
        Checked host call.changes checked ∧ document = (documentOf existing).edited checked
    | _ => True

/-- Every call has data that belong together, and the history has theirs. -/
structure Recorded (host : Host) (run : ConfigRun) : Prop where
  sane : ∀ (id : Nat) (call : SetCall), run.calls[id]? = some call → Sane host call
  applied : ∀ entry ∈ run.applied, ∃ call, run.calls[entry.1]? = some call
    ∧ Checked host call.changes entry.2.1

theorem Recorded.setPhase (h : run.Recorded host) (hcall : run.calls[id]? = some call)
    (hcalls : run'.calls = (run.setPhase id phase).calls)
    (happlied : ∀ entry ∈ run'.applied, entry ∈ run.applied
      ∨ entry.1 = id ∧ Checked host call.changes entry.2.1)
    (hsane : Sane host { call with phase }) : run'.Recorded host := by
  refine ⟨fun j call' hcall' => ?_, fun entry hentry => ?_⟩
  · rw [hcalls] at hcall'
    rcases getElem?_modify_cases hcall' with ⟨rfl, call₀, hcall₀, rfl⟩ | ⟨-, hsame⟩
    · rw [hcall] at hcall₀
      cases hcall₀
      exact hsane
    · exact h.sane j call' hsame
  · have hlookup : ∀ (j : Nat) (call' : SetCall), run.calls[j]? = some call' →
        ∃ call'', run'.calls[j]? = some call'' ∧ call''.changes = call'.changes := by
      intro j call' hcall'
      rw [hcalls, ConfigRun.setPhase, List.getElem?_modify, hcall']
      by_cases hj : id = j
      · exact ⟨{ call' with phase }, by simp [hj], rfl⟩
      · exact ⟨call', by simp [hj], rfl⟩
    rcases happlied entry hentry with hold | ⟨hid, hchecked⟩
    · obtain ⟨call', hcall', hchecked⟩ := h.applied entry hold
      obtain ⟨call'', hcall'', hchanges⟩ := hlookup _ _ hcall'
      exact ⟨call'', hcall'', hchanges ▸ hchecked⟩
    · obtain ⟨call'', hcall'', hchanges⟩ := hlookup _ _ hcall
      exact ⟨call'', hid ▸ hcall'', hchanges ▸ hchecked⟩

theorem Recorded.step (h : run.Recorded host) (ht : run.Transition host e run') :
    run'.Recorded host := by
  cases ht with
  | arrived hkeys =>
      refine ⟨fun j call hcall => ?_, fun entry hentry => ?_⟩
      · rcases List.mem_append.mp (List.mem_of_getElem? hcall) with hold | hnew
        · obtain ⟨i, hi⟩ := List.getElem?_of_mem hold
          exact h.sane i call hi
        · cases List.mem_singleton.mp hnew
          exact ⟨hkeys, trivial⟩
      · obtain ⟨call, hcall, hchecked⟩ := h.applied entry hentry
        exact ⟨call, by rw [List.getElem?_append_left (List.getElem?_eq_some_iff.mp hcall).1, hcall],
          hchecked⟩
  | failed hcall _ _ =>
      exact h.setPhase hcall rfl (fun _ h => Or.inl h) ⟨(h.sane _ _ hcall).keys, trivial⟩
  | checked hcall _ hchecked =>
      exact h.setPhase hcall rfl (fun _ h => Or.inl h) ⟨(h.sane _ _ hcall).keys, hchecked⟩
  | read hcall hphase =>
      have hsane := h.sane _ _ hcall
      have hdata := hsane.data
      rw [hphase] at hdata
      exact h.setPhase hcall rfl (fun _ h => Or.inl h) ⟨hsane.keys, hdata, rfl⟩
  | written hcall hphase =>
      have hsane := h.sane _ _ hcall
      have hdata := hsane.data
      rw [hphase] at hdata
      exact h.setPhase hcall rfl (fun _ h => Or.inl h) ⟨hsane.keys, hdata⟩
  | renamed hcall hphase _ =>
      have hsane := h.sane _ _ hcall
      have hdata := hsane.data
      rw [hphase] at hdata
      exact h.setPhase hcall rfl (fun _ h => Or.inl h) ⟨hsane.keys, hdata.1⟩
  | applied hcall hphase _ =>
      have hsane := h.sane _ _ hcall
      have hdata := hsane.data
      rw [hphase] at hdata
      refine h.setPhase hcall rfl (fun entry hentry => ?_) ⟨hsane.keys, trivial⟩
      rcases List.mem_append.mp hentry with hold | hnew
      · exact Or.inl hold
      · cases List.mem_singleton.mp hnew
        exact Or.inr ⟨rfl, hdata⟩
  | flagged hcall _ | enforced hcall _ | emitted hcall _ =>
      exact h.setPhase hcall rfl (fun _ h => Or.inl h) ⟨(h.sane _ _ hcall).keys, trivial⟩

/-! ## The file -/

theorem apply_comm {config : Config} {checked checked' : List (String × Setting)}
    (h : Agree checked checked') :
    config.apply (checked ++ checked') = config.apply (checked' ++ checked) := by
  have hcompatible : Compatible (assignments checked) (assignments checked') := by
    intro name setting setting' hmem hmem'
    obtain ⟨change, hchange, heq⟩ := List.mem_map.mp hmem
    obtain ⟨change', hchange', heq'⟩ := List.mem_map.mp hmem'
    obtain ⟨rfl, rfl⟩ := Prod.mk.inj heq
    obtain ⟨hname, rfl⟩ := Prod.mk.inj heq'
    exact congrArg some (h change hchange change' hchange' hname.symm)
  refine Option.ext fun config' => ?_
  rw [Config.apply_eq_some, Config.apply_eq_some, assignments, assignments, List.map_append,
    List.map_append, override_append, override_append]
  refine and_congr ?_ ?_
  · simp only [List.mem_append, or_comm]
  · exact iff_of_eq (congrArg (config'.get = ·) (override_comm hcompatible))

theorem get_edited (document : Document) (checked : List (String × Setting)) :
    (document.edited checked).get
      = override document.get (checked.map fun change => (change.1, some change.2.toToml)) := by
  induction checked generalizing document with
  | nil => rfl
  | cons change rest ih =>
      rw [Document.edited, List.foldl_cons]
      refine (ih _).trans ?_
      rw [Document.get_set]
      rfl

theorem get_of_sameBut {keys : List String} {document document' : Document}
    (h : SameBut keys document document') {name : String} (hname : name ∉ keys) :
    document.get name = document'.get name := by
  by_cases hmem : name ∈ document.items.map Item.name ++ document'.items.map Item.name
  · exact h name hmem hname
  · rw [List.mem_append, not_or] at hmem
    exact (Document.lookup_eq_none hmem.1).trans (Document.lookup_eq_none hmem.2).symm

/-- Loading looks at the values of the keys. -/
theorem from_str_congr {document document' : Document} {config : Config}
    (h : document.get = document'.get) (hload : Config.from_str (.document document) = .ok config) :
    Config.from_str (.document document') = .ok config := by
  rw [Config.from_str_eq_ok] at hload ⊢
  rwa [← h]

theorem load_documentOf {shared : ConfigState} {config : Config}
    (h : shared.loaded = .ok config) :
    Config.from_str (.document (documentOf shared.files.file)) = .ok config := by
  unfold ConfigState.loaded at h
  cases hfile : shared.files.file with
  | none =>
      rw [hfile] at h
      exact h
  | some text =>
      rw [hfile] at h
      cases text with
      | document document => exact h
      | malformed text message => cases h

/-- The file loads to what the calls that are renamed and not applied make
of the memory. -/
def FileAhead (run : ConfigRun) : Prop :=
  ∃ config, run.shared.config.apply (run.unapplied.map Prod.snd).flatten = some config
    ∧ run.shared.loaded = .ok config

theorem FileAhead.renamed {checked : List (String × Setting)} {existing : Option Text}
    {document : Document} (h : run.FileAhead) (hsane : Sane host call)
    (hphase : call.phase = .renaming checked existing document)
    (hsame : SameBut (checked.map Prod.fst) (documentOf run.shared.files.file)
      (documentOf existing))
    (hconfig : run'.shared.config = run.shared.config)
    (hfile : run'.shared.files.file = some (.document document))
    (hunapplied : run'.unapplied = run.unapplied ++ [(id, checked)]) : run'.FileAhead := by
  obtain ⟨config, happly, hload⟩ := h
  have hdata := hsane.data
  rw [hphase] at hdata
  obtain ⟨hchecked, rfl⟩ := hdata
  obtain ⟨config', happly'⟩ :=
    config.exists_apply fun change hmem => (hchecked.fits change hmem).1
  refine ⟨config', ?_, ?_⟩
  · rw [hconfig, hunapplied, List.map_append, List.flatten_append, Config.apply_append, happly]
    simpa using happly'
  · -- the document was made from what the call has read, not from the file
    have hnow := loads_edited (load_documentOf hload) happly'
      fun change hmem => (hchecked.fits change hmem).2
    rw [ConfigState.loaded, hfile]
    refine from_str_congr ?_ hnow
    rw [get_edited, get_edited]
    refine override_congr fun name hname => get_of_sameBut hsame ?_
    rw [List.map_map] at hname
    exact hname

theorem FileAhead.took {checked : List (String × Setting)} {config : Config}
    (h : run.FileAhead) (hhistory : run.History) (hphase : run.phase? id = some (.applying checked))
    (happly : run.shared.config.apply checked = some config)
    (hagree : ∀ entry ∈ run.unapplied.takeWhile (fun entry => entry.1 ≠ id), Agree entry.2 checked)
    (hconfig : run'.shared.config = config) (hfiles : run'.shared.files = run.shared.files)
    (hunapplied : run'.unapplied = run.unapplied.filter fun entry => entry.1 ≠ id) :
    run'.FileAhead := by
  obtain ⟨loaded, hall, hload⟩ := h
  obtain ⟨before, after, heq, hbefore⟩ :
      ∃ before after, run.unapplied = before ++ (id, checked) :: after
        ∧ ∀ entry ∈ before, entry.1 ≠ id := by
    obtain ⟨before, after, heq⟩ := List.append_of_mem ((hhistory.applying _ _).mp hphase)
    refine ⟨before, after, heq, fun entry hentry hid => ?_⟩
    have hnodup := hhistory.unapplied
    rw [heq, List.map_append, List.map_cons] at hnodup
    exact List.disjoint_of_nodup_append hnodup (List.mem_map_of_mem hentry)
      (hid ▸ List.mem_cons_self ..)
  have hafter : ∀ entry ∈ after, entry.1 ≠ id := by
    intro entry hentry hid
    have hnodup := hhistory.unapplied
    rw [heq, List.map_append, List.map_cons] at hnodup
    exact (List.nodup_cons.mp hnodup.of_append_right).1 (List.mem_map.mpr ⟨entry, hentry, hid⟩)
  have hfilter : run'.unapplied = before ++ after := by
    rw [hunapplied, heq, List.filter_append, List.filter_cons_of_neg (by simp),
      List.filter_eq_self.mpr (by simpa using hbefore),
      List.filter_eq_self.mpr (by simpa using hafter)]
  have htake : run.unapplied.takeWhile (fun entry => entry.1 ≠ id) = before := by
    rw [heq, List.takeWhile_append_of_pos (by simpa using hbefore)]
    simp
  rw [htake] at hagree
  have hcomm : Agree (before.map Prod.snd).flatten checked := by
    intro change hchange change' hchange'
    obtain ⟨l, hl, hchange⟩ := List.mem_flatten.mp hchange
    obtain ⟨entry, hentry, rfl⟩ := List.mem_map.mp hl
    exact hagree entry hentry change hchange change' hchange'
  refine ⟨loaded, ?_, ?_⟩
  · rw [heq, List.map_append, List.flatten_append, List.map_cons, List.flatten_cons,
      ← List.append_assoc, Config.apply_append, apply_comm hcomm, ← Config.apply_append,
      List.append_assoc, Config.apply_append, happly] at hall
    rw [hfilter, hconfig, List.map_append, List.flatten_append]
    exact hall
  · rw [ConfigState.loaded, hfiles]
    exact hload

theorem FileAhead.congr (h : run.FileAhead) (hconfig : run'.shared.config = run.shared.config)
    (hfile : run'.shared.files.file = run.shared.files.file)
    (hunapplied : run'.unapplied = run.unapplied) : run'.FileAhead := by
  obtain ⟨config, happly, hload⟩ := h
  refine ⟨config, by rw [hconfig, hunapplied]; exact happly, ?_⟩
  rw [loaded_congr hfile]
  exact hload

theorem FileAhead.step (h : run.FileAhead) (hhistory : run.History) (hrecorded : run.Recorded host)
    (hturn : run.InTurn e) (ht : run.Transition host e run') : run'.FileAhead := by
  cases ht with
  | arrived _ => exact h.congr rfl rfl rfl
  | failed _ _ hfile => exact h.congr rfl hfile rfl
  | checked _ _ _ => exact h.congr rfl rfl rfl
  | read _ _ => exact h.congr rfl rfl rfl
  | written _ _ => exact h.congr rfl rfl rfl
  | renamed hcall hphase htemporary =>
      rw [InTurn, phase?_of hcall, hphase] at hturn
      obtain ⟨htemporary', hsame⟩ := hturn
      rw [htemporary] at htemporary'
      exact h.renamed (hrecorded.sane _ _ hcall) hphase hsame rfl htemporary' rfl
  | applied hcall hphase happly =>
      rw [InTurn, phase?_of hcall, hphase] at hturn
      exact h.took hhistory (by rw [phase?_of hcall, hphase]) happly hturn rfl rfl rfl
  | flagged _ _ => exact h.congr rfl rfl rfl
  | enforced _ _ => exact h.congr rfl rfl rfl
  | emitted _ _ => exact h.congr rfl rfl rfl

/-! ## The memory -/

/-- The memory is what the applied calls make of the first configuration. -/
def InOrder (config₀ : Config) (run : ConfigRun) : Prop :=
  config₀.apply (run.applied.map fun entry => entry.2.1).flatten = some run.shared.config

theorem InOrder.step {config₀ : Config} (h : run.InOrder config₀)
    (ht : run.Transition host e run') : run'.InOrder config₀ := by
  cases ht with
  | applied hcall hphase happly =>
      show config₀.apply (List.map _ (run.applied ++ [_])).flatten = some _
      rw [List.map_append, List.flatten_append, Config.apply_append, h, Option.bind_some,
        List.map_singleton, List.flatten_singleton]
      exact happly
  | _ => exact h

/-! ## The flag and the signal -/

/-- The call applied last has left what is in memory; once it has set the
flag, or sent its signal, that is the memory's. -/
def LastWins (run : ConfigRun) : Prop :=
  match run.applied.getLast? with
  | none => run.shared.allow_prerelease = run.shared.config.allow_prerelease
  | some last => last.2.2 = run.shared.config
      ∧ (run.phaseAt last.1 SetPhase.flagged = true →
        run.shared.allow_prerelease = run.shared.config.allow_prerelease)
      ∧ (run.phaseAt last.1 SetPhase.isReturned = true →
        run.shared.signals.getLast? = some run.shared.config.to_values)

/-- The entry of an applied call is the last, or the last comes after it. -/
theorem last_cases {checked : List (String × Setting)} {config : Config} (h : run.History)
    (hmem : (id, checked, config) ∈ run.applied) :
    ∃ last, run.applied.getLast? = some last
      ∧ (last = (id, checked, config) ∨ last.1 ≠ id ∧ last ∈ run.appliedAfter id) := by
  obtain ⟨before, after, heq⟩ := List.append_of_mem hmem
  have hnodup := h.applied
  rw [heq, List.map_append, List.map_cons] at hnodup
  have hbefore : ∀ entry ∈ before, entry.1 ≠ id := fun entry hentry hid =>
    List.disjoint_of_nodup_append hnodup (List.mem_map_of_mem hentry)
      (hid ▸ List.mem_cons_self ..)
  have hafter : run.appliedAfter id = after := by
    rw [appliedAfter, heq, List.dropWhile_append_of_pos (by simpa using hbefore)]
    simp
  cases hlast : after.getLast? with
  | none =>
      rw [List.getLast?_eq_none_iff] at hlast
      subst hlast
      exact ⟨_, by rw [heq, List.getLast?_append]; rfl, Or.inl rfl⟩
  | some last =>
      have hmem := List.mem_of_getLast? hlast
      refine ⟨last, ?_, Or.inr ⟨fun hid => ?_, hafter ▸ hmem⟩⟩
      · rw [heq, List.getLast?_append, List.getLast?_cons, hlast]
        rfl
      · exact (List.nodup_cons.mp hnodup.of_append_right).1 (List.mem_map.mpr ⟨last, hmem, hid⟩)

theorem phaseAt_update {p : SetPhase → Bool} {j : Nat}
    (hphase : run'.phase? = Function.update run.phase? id (some phase')) :
    run'.phaseAt j p = if j = id then p phase' else run.phaseAt j p := by
  rw [phaseAt, hphase, Function.update_apply]
  split <;> rfl

/-- A change of phase of a call that is not the one applied last, or that
neither sets the flag nor sends the signal. -/
theorem LastWins.congr (h : run.LastWins)
    (hphase : run'.phase? = Function.update run.phase? id (some phase'))
    (happlied : run'.applied = run.applied) (hconfig : run'.shared.config = run.shared.config)
    (hflag : run'.shared.allow_prerelease = run.shared.allow_prerelease)
    (hsignals : run'.shared.signals = run.shared.signals)
    (hflagged : phase'.flagged = true → run.phaseAt id SetPhase.flagged = true)
    (hreturned : phase'.isReturned = true → run.phaseAt id SetPhase.isReturned = true) :
    run'.LastWins := by
  unfold LastWins at h ⊢
  rw [happlied, hconfig, hflag, hsignals]
  split
  · rename_i hnone
    rw [hnone] at h
    exact h
  · rename_i last hlast
    rw [hlast] at h
    obtain ⟨hlastConfig, hlastFlag, hlastSignal⟩ := h
    rw [phaseAt_update hphase, phaseAt_update hphase]
    refine ⟨hlastConfig, fun hp => hlastFlag ?_, fun hp => hlastSignal ?_⟩
    · split at hp
      · rename_i hid
        exact hid ▸ hflagged hp
      · exact hp
    · split at hp
      · rename_i hid
        exact hid ▸ hreturned hp
      · exact hp

theorem LastWins.took {checked : List (String × Setting)} {config : Config}
    (hphase : run'.phase? = Function.update run.phase? id (some (.flagging config)))
    (happlied : run'.applied = run.applied ++ [(id, checked, config)])
    (hconfig : run'.shared.config = config) : run'.LastWins := by
  unfold LastWins
  rw [happlied, List.getLast?_concat]
  refine ⟨hconfig.symm, fun hp => ?_, fun hp => ?_⟩
  · rw [phaseAt_update hphase, if_pos rfl] at hp
    cases hp
  · rw [phaseAt_update hphase, if_pos rfl] at hp
    cases hp

/-- The flag is set by the call applied last, or like it has set it. -/
theorem LastWins.flagged {config : Config} (h : run.LastWins) (hhistory : run.History)
    (hold : run.phase? id = some (.flagging config))
    (hturn : ∀ entry ∈ run.appliedAfter id, run.phaseAt entry.1 SetPhase.flagged = true →
      entry.2.2.allow_prerelease = config.allow_prerelease)
    (hphase : run'.phase? = Function.update run.phase? id (some (.enforcing config)))
    (happlied : run'.applied = run.applied) (hconfig : run'.shared.config = run.shared.config)
    (hflag : run'.shared.allow_prerelease = config.allow_prerelease)
    (hsignals : run'.shared.signals = run.shared.signals) : run'.LastWins := by
  obtain ⟨checked, hmem⟩ := (hhistory.snapshot id config).mp (by rw [hold]; rfl)
  obtain ⟨last, hlast, hcases⟩ := last_cases hhistory hmem
  unfold LastWins at h ⊢
  rw [happlied, hconfig, hflag, hsignals]
  rw [hlast] at h ⊢
  obtain ⟨hlastConfig, hlastFlag, hlastSignal⟩ := h
  refine ⟨hlastConfig, fun hp => ?_, fun hp => ?_⟩
  · rcases hcases with rfl | ⟨hne, hafter⟩
    · rw [← hlastConfig]
    · rw [phaseAt_update hphase, if_neg hne] at hp
      rw [← hturn last hafter hp, hlastConfig]
  · rw [phaseAt_update hphase] at hp
    split at hp
    · cases hp
    · exact hlastSignal hp

/-- The last signal is that of the call applied last, or like it. -/
theorem LastWins.emitted {config : Config} (h : run.LastWins) (hhistory : run.History)
    (hold : run.phase? id = some (.emitting config))
    (hturn : ∀ entry ∈ run.appliedAfter id, run.phaseAt entry.1 SetPhase.isReturned = true →
      entry.2.2.to_values = config.to_values)
    (hphase : run'.phase? = Function.update run.phase? id (some (.returned config)))
    (happlied : run'.applied = run.applied) (hconfig : run'.shared.config = run.shared.config)
    (hflag : run'.shared.allow_prerelease = run.shared.allow_prerelease)
    (hsignals : run'.shared.signals = run.shared.signals ++ [config.to_values]) :
    run'.LastWins := by
  obtain ⟨checked, hmem⟩ := (hhistory.snapshot id config).mp (by rw [hold]; rfl)
  obtain ⟨last, hlast, hcases⟩ := last_cases hhistory hmem
  unfold LastWins at h ⊢
  rw [happlied, hconfig, hflag, hsignals, List.getLast?_concat]
  rw [hlast] at h ⊢
  obtain ⟨hlastConfig, hlastFlag, -⟩ := h
  refine ⟨hlastConfig, fun hp => hlastFlag ?_, fun hp => ?_⟩
  · rw [phaseAt_update hphase] at hp
    split at hp
    · rename_i hid
      rw [phaseAt, hid, hold]
      rfl
    · exact hp
  · rcases hcases with rfl | ⟨hne, hafter⟩
    · rw [← hlastConfig]
    · rw [phaseAt_update hphase, if_neg hne] at hp
      rw [← hturn last hafter hp, hlastConfig]

theorem LastWins.step (h : run.LastWins) (hhistory : run.History) (hturn : run.InTurn e)
    (ht : run.Transition host e run') : run'.LastWins := by
  cases ht with
  | arrived _ =>
      exact h.congr (phase?_append run.calls run.shared run.unapplied run.applied) rfl rfl rfl rfl
        nofun nofun
  | failed hcall _ _ => exact h.congr (phase?_setPhase hcall) rfl rfl rfl rfl nofun nofun
  | checked hcall _ _ => exact h.congr (phase?_setPhase hcall) rfl rfl rfl rfl nofun nofun
  | read hcall _ => exact h.congr (phase?_setPhase hcall) rfl rfl rfl rfl nofun nofun
  | written hcall _ => exact h.congr (phase?_setPhase hcall) rfl rfl rfl rfl nofun nofun
  | renamed hcall _ _ => exact h.congr (phase?_setPhase hcall) rfl rfl rfl rfl nofun nofun
  | applied hcall _ _ => exact @LastWins.took run _ _ _ _ (phase?_setPhase hcall) rfl rfl
  | flagged hcall hphase =>
      have hold := phase?_of hcall
      rw [hphase] at hold
      rw [InTurn, hold] at hturn
      exact h.flagged hhistory hold hturn (phase?_setPhase hcall) rfl rfl rfl rfl
  | enforced hcall hphase =>
      exact h.congr (phase?_setPhase hcall) rfl rfl rfl rfl
        (fun _ => by rw [phaseAt, phase?_of hcall, hphase]; rfl) nofun
  | emitted hcall hphase =>
      have hold := phase?_of hcall
      rw [hphase] at hold
      rw [InTurn, hold] at hturn
      exact h.emitted hhistory hold hturn (phase?_setPhase hcall) rfl rfl rfl rfl

/-! ## Whole runs -/

structure Inv (host : Host) (path : ConfigPath) (config₀ : Config) (run : ConfigRun) : Prop where
  path : run.shared.config_path = some path
  history : run.History
  recorded : run.Recorded host
  ahead : run.FileAhead
  order : run.InOrder config₀
  last : run.LastWins

theorem config_path_step (ht : run.Transition host e run') :
    run'.shared.config_path = run.shared.config_path := by
  cases ht <;> rfl

theorem Inv.step {config₀ : Config} (h : run.Inv host path config₀) (hturn : run.InTurn e)
    (hs : run.step host e = some run') : run'.Inv host path config₀ := by
  have ht := step_cases h.path hs
  exact ⟨(config_path_step ht).trans h.path, h.history.step ht, h.recorded.step ht,
    h.ahead.step h.history h.recorded hturn ht, h.order.step ht, h.last.step h.history hturn ht⟩

theorem Inv.start {config₀ : Config} {files : ConfigFiles}
    (hload : Config.load (SaveIo.fine.read_to_string files.file) = .ok config₀) :
    (ConfigRun.start (.start config₀ (some path) files)).Inv host path config₀ where
  path := rfl
  history := ⟨fun _ _ => ⟨nofun, nofun⟩, List.nodup_nil, fun _ _ => ⟨nofun, nofun⟩, List.nodup_nil⟩
  recorded := ⟨nofun, nofun⟩
  ahead := ⟨config₀, rfl, hload⟩
  order := rfl
  last := rfl

theorem eq_returned {config : Config} (hended : phase.ended = true)
    (hsnapshot : phase.snapshot = some config) : phase = .returned config := by
  cases phase with
  | returned _ =>
      cases hsnapshot
      rfl
  | failed _ => cases hsnapshot
  | _ => cases hended

/-- When every call has ended, the calls that have succeeded are those that
were applied. -/
theorem perm_successful (h : run.History) (hended : ∀ call ∈ run.calls, call.phase.ended = true) :
    (run.applied.map Prod.fst).Perm run.successful := by
  refine (List.perm_ext_iff_of_nodup h.applied (List.nodup_range.filter _)).mpr fun id => ?_
  rw [List.mem_filter, List.mem_range]
  constructor
  · intro hmem
    obtain ⟨⟨_, checked, config⟩, hentry, rfl⟩ := List.mem_map.mp hmem
    obtain ⟨phase, hphase, hsnapshot⟩ :=
      Option.bind_eq_some_iff.mp ((h.snapshot _ _).mpr ⟨checked, hentry⟩)
    obtain ⟨call, hcall, rfl⟩ := Option.map_eq_some_iff.mp hphase
    have hend := hended call (List.mem_of_getElem? hcall)
    refine ⟨(List.getElem?_eq_some_iff.mp hcall).1, ?_⟩
    rw [phaseAt, phase?_of hcall, Option.any_some, eq_returned hend hsnapshot]
    rfl
  · rintro ⟨hlt, hp⟩
    have hcall := List.getElem?_eq_getElem hlt
    rw [phaseAt, phase?_of hcall, Option.any_some] at hp
    cases hphase : run.calls[id].phase with
    | returned config =>
        obtain ⟨checked, hentry⟩ := (h.snapshot id config).mp (by
          rw [phase?_of hcall, hphase]
          rfl)
        exact List.mem_map.mpr ⟨_, hentry, rfl⟩
    | _ =>
        rw [hphase] at hp
        cases hp

/-- One call after the other. -/
theorem foldlM_applyCall {config config' : Config}
    {entries : List (Nat × List (String × Setting) × Config)}
    (h : ∀ entry ∈ entries, ∃ call, run.calls[entry.1]? = some call
      ∧ Checked host call.changes entry.2.1)
    (happly : config.apply (entries.map fun entry => entry.2.1).flatten = some config') :
    (entries.map Prod.fst).foldlM (run.applyCall host) config = some config' := by
  induction entries generalizing config with
  | nil => exact happly
  | cons entry rest ih =>
      obtain ⟨⟨call, hcall, hchecked⟩, hrest⟩ := List.forall_mem_cons.mp h
      rw [List.map_cons, List.flatten_cons, Config.apply_append] at happly
      obtain ⟨middle, hmiddle, happly⟩ := Option.bind_eq_some_iff.mp happly
      rw [List.map_cons, List.foldlM_cons]
      refine Option.bind_eq_some_iff.mpr ⟨middle, ?_, ih hrest happly⟩
      refine Option.bind_eq_some_iff.mpr ⟨call, hcall, ?_⟩
      rw [Config.check_eq_ok.mpr hchecked]
      exact hmiddle

theorem Inv.serial {config₀ : Config} (h : run.Inv host path config₀)
    (hended : ∀ call ∈ run.calls, call.phase.ended = true) : run.Serial host config₀ := by
  have hperm := perm_successful h.history hended
  obtain ⟨config, happly, hload⟩ := h.ahead
  have hunapplied : run.unapplied = [] := by
    refine List.eq_nil_iff_forall_not_mem.mpr fun ⟨id, checked⟩ hentry => ?_
    obtain ⟨call, hcall, hphase⟩ :=
      Option.map_eq_some_iff.mp ((h.history.applying id checked).mpr hentry)
    have hend := hended call (List.mem_of_getElem? hcall)
    rw [hphase] at hend
    cases hend
  rw [hunapplied] at happly
  cases happly
  have hlast := h.last
  unfold LastWins at hlast
  have horder : ∃ order : List Nat, order.Perm run.successful
      ∧ order.foldlM (run.applyCall host) config₀ = some run.shared.config :=
    ⟨_, hperm, foldlM_applyCall h.recorded.applied h.order⟩
  cases heq : run.applied.getLast? with
  | none =>
      rw [heq] at hlast
      rw [List.getLast?_eq_none_iff] at heq
      rw [heq] at hperm
      exact ⟨hload, hlast, Or.inl hperm.nil_eq.symm, horder⟩
  | some last =>
      rw [heq] at hlast
      have hmem : last.1 ∈ run.successful :=
        hperm.mem_iff.mp (List.mem_map_of_mem (List.mem_of_getLast? heq))
      have hreturned := (List.mem_filter.mp hmem).2
      have hflagged : run.phaseAt last.1 SetPhase.flagged = true := by
        rw [phaseAt] at hreturned ⊢
        cases hp : run.phase? last.1 with
        | none =>
            rw [hp] at hreturned
            cases hreturned
        | some phase =>
            rw [hp] at hreturned
            cases phase <;> first | rfl | cases hreturned
      exact ⟨hload, hlast.2.1 hflagged, Or.inr (hlast.2.2 hreturned), horder⟩

end ConfigRun

/-- In every run in turn, once every call has ended, the memory, the file,
the flag and the last signal are what the successful calls make of the first
configuration, one after the other. -/
theorem set_configs_serial (host : Host) (config₀ : Config) (path : ConfigPath)
    (files : ConfigFiles)
    (hload : Config.load (SaveIo.fine.read_to_string files.file) = .ok config₀) (run : ConfigRun)
    (hreach : Machine.Reach (ConfigRun.step host) ConfigRun.InTurn
      (ConfigRun.start (.start config₀ (some path) files)) run)
    (hended : ∀ call ∈ run.calls, call.phase.ended = true) : run.Serial host config₀ := by
  have hinv : run.Inv host path config₀ := by
    refine hreach.invariant (ConfigRun.Inv.start hload) ?_
    exact fun _ _ _ _ hturn hs h => h.step hturn hs
  exact hinv.serial hended

/-! ## Two runs -/

/-- A daemon without a configuration file, and no call yet. -/
def freshRun : ConfigRun := .start freshState

/-- Two calls, with a key each, and their steps in the order of the list. -/
def keepWarmAndPrerelease (order : List Nat) : List SetEvent :=
  [.call [("keep_warm", .u32 3)], .call [("allow_prerelease", .bool true)]]
    ++ order.map fun id => .advance id .fine

/-- The second call reads once the first has renamed, and from there on
their steps alternate. -/
theorem set_configs_serial_two :
    ∃ run, Machine.Reach (ConfigRun.step echoHost) ConfigRun.InTurn freshRun run
      ∧ run.successful = [0, 1] ∧ run.Serial echoHost Config.default := by
  obtain ⟨run, hreach, hp⟩ := Machine.exists_reach_of_run (ConfigRun.step echoHost)
    ConfigRun.InTurn freshRun
    (keepWarmAndPrerelease [0, 1, 0, 0, 0, 1, 1, 0, 1, 0, 1, 0, 1, 0, 1, 1])
    (fun run => run.successful = [0, 1] && run.calls.all fun call => call.phase.ended) (by decide)
  rw [Bool.and_eq_true, decide_eq_true_eq, List.all_eq_true] at hp
  exact ⟨run, hreach, hp.1, set_configs_serial echoHost Config.default _ _ rfl run hreach hp.2⟩

/-- Both calls read before either renames: the file loses `keep_warm`. -/
theorem set_configs_not_serial :
    ∃ run, Machine.Reach (ConfigRun.step echoHost) Machine.anyStep freshRun run
      ∧ (∀ call ∈ run.calls, call.phase.isReturned = true)
      ∧ ¬run.Serial echoHost Config.default := by
  obtain ⟨run, hreach, hp⟩ := Machine.exists_reach_of_run (ConfigRun.step echoHost)
    Machine.anyStep freshRun
    (keepWarmAndPrerelease [0, 1, 0, 1, 0, 0, 1, 1, 0, 1, 0, 1, 0, 1, 0, 1])
    (fun run => (run.calls.all fun call => call.phase.isReturned)
      && run.shared.loaded.toOption ≠ some run.shared.config) (by decide)
  rw [Bool.and_eq_true, decide_eq_true_eq, List.all_eq_true] at hp
  refine ⟨run, hreach, hp.1, fun h => hp.2 ?_⟩
  rw [h.loaded]
  rfl

end Dragomand
