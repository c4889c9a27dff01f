import Dragomand.EngineHandles
import Dragomand.WorkerReplies

/-!
# The worker thread on the engine library

`BergamotWorker` runs a worker thread on the engine that `spawn_worker` has
made for it. The thread owns the `Engine` and the models it loads, so each
action of it is one of the `Worker` together with what it does to the values:
a load, a translation, and where it lets go of its models, their drops.

`Owns` says which values there are at each place of the thread. Both sides run
as they would alone, so what holds of workers and of the values holds here;
what comes of it together is that a thread which has ended has left nothing of
its engine behind.
-/

namespace Dragomand

/-! ## Actions -/

/-- A run of events of the values. -/
def Wired.steps (s : Wired) : List BindingsEvent → Option Wired
  | [] => some s
  | e :: es => (s.step e).bind fun s => s.steps es

/-- The models are dropped, the last one bound first. -/
def ThreadPc.drops (pc : ThreadPc Nat) : List BindingsEvent :=
  pc.models.reverse.flatMap fun model => [.dropModel model, .releaseModel model]

/-- What the thread lets go of between two places: the first model where the
second failed to load, and everything at the end. `handle` is the engine's. -/
def ThreadPc.letsGo (handle : Nat) : ThreadPc Nat → ThreadPc Nat → List BindingsEvent
  | .ended, _ => []
  | pc, .ended => pc.drops ++ [.dropEngine 0, .dropHandle handle]
  | .loadingSecond first, .refusing => [.dropModel first, .releaseModel first]
  | _, _ => []

structure BergamotWorker where
  worker : Worker Nat
  wired : Wired

/-- After `BergamotBackend::new`; the engine is the first of the values. -/
def BergamotWorker.spawn (handle ptr : Nat) : BergamotWorker where
  worker := .spawn
  wired := ⟨⟨Function.update (fun _ => none) handle (some ⟨ptr, 1⟩), [some handle], []⟩,
    ⟨[ptr], [], [], []⟩⟩

inductive BergamotEvent where
  /-- the call of `dg_model_load`, and what is made of its error -/
  | load (out : Except (Option Nat) Nat) (message : String)
  /-- a path or the configuration has a NUL in it, or a panic -/
  | noLoad (invalid : Option String)
  | receiveJob
  /-- the call of `dg_translate_batch`; `translations` is what the result is
  converted to, unless the conversion panics -/
  | translated (out : Except (Option Nat) Nat) (translations : Option (List Translation))
      (message : String)
  | call (call : WorkerCall)

/-- The engine and both models are of one handle. -/
def Bindings.together (s : Bindings) (engine first : Nat) (second : Option Nat) : Bool :=
  (s.engine engine).any fun handle => (s.model first).any fun a =>
    (second.mapM s.model).any fun b => bergamot.sameEngine handle a b

/-- What `translate_batch` returns; `none` is a panic. -/
def bergamot.translated (together : Bool) (out : Except (Option Nat) Nat)
    (translations : Option (List Translation)) (message : String) : Option worker.Reply :=
  if together then
    match out with
    | .ok _ => translations.map .ok
    | .error _ => some (.error (.engine message))
  else some (.error (.invalidInput "model was loaded on a different engine"))

section Step

variable (pivot : Bool) (handle : Nat)

/-- An action of the thread, after what it has called. -/
def BergamotWorker.thread (s : BergamotWorker) (wired : Wired) (event : WorkerEvent Nat) :
    Option BergamotWorker :=
  (s.worker.step pivot event).bind fun worker =>
    (wired.steps (s.worker.pc.letsGo handle worker.pc)).map fun wired => ⟨worker, wired⟩

def BergamotWorker.step (s : BergamotWorker) : BergamotEvent → Option BergamotWorker
  | .load out message =>
      if s.worker.pc.loading then
        (s.wired.step (.load 0 out)).bind fun wired =>
          s.thread pivot handle wired (.load (some (match out with
            | .ok _ => .ok s.wired.rust.models.length
            | .error _ => .error (.load message))))
      else none
  | .noLoad invalid =>
      s.thread pivot handle s.wired (.load (invalid.map fun message => .error (.invalidInput message)))
  | .receiveJob => s.thread pivot handle s.wired .receiveJob
  | .translated out translations message =>
      match s.worker.pc with
      | .translating first second _ =>
          (s.wired.step (.translateBatch 0 first second out)).bind fun wired =>
            s.thread pivot handle wired (.translated (bergamot.translated
              (s.wired.rust.together 0 first second) out translations message))
      | _ => none
  | .call call => s.thread pivot handle s.wired (.call call)

end Step

/-- The library gives nothing that is in use. -/
def BergamotWorker.Gives (s : BergamotWorker) : BergamotEvent → Prop
  | .load out _ => s.wired.Gives (.load 0 out)
  | .translated out _ _ =>
      match s.worker.pc with
      | .translating first second _ => s.wired.Gives (.translateBatch 0 first second out)
      | _ => True
  | _ => True

instance (s : BergamotWorker) : (e : BergamotEvent) → Decidable (s.Gives e)
  | .load out _ => inferInstanceAs (Decidable (s.wired.Gives (.load 0 out)))
  | .translated out _ _ => by
      delta BergamotWorker.Gives
      dsimp only
      split <;> infer_instance
  | .noLoad _ | .receiveJob | .call _ => inferInstanceAs (Decidable True)

/-! ## Dropping values -/

section Drops

variable {s : Wired} {handle : Nat}

theorem Wired.steps_append (s : Wired) (es es' : List BindingsEvent) :
    s.steps (es ++ es') = (s.steps es).bind fun s => s.steps es' := by
  induction es generalizing s with
  | nil => rfl
  | cons e es ih =>
      simp only [List.cons_append, Wired.steps, ih, Option.bind_assoc]

/-- Events that make no call which allocates. -/
def BindingsEvent.drops : BindingsEvent → Bool
  | .dropModel _ | .releaseModel _ | .dropEngine _ | .dropHandle _ => true
  | _ => false

theorem Wired.gives_of_drops {e : BindingsEvent} (h : e.drops = true) : s.Gives e := by
  intro next hnext
  have htr : s.rust.Transition e next.1 next.2 := Bindings.step_cases hnext
  generalize next.1 = rust at htr
  generalize next.2 = calls at htr
  cases htr with
  | dropModel => exact ⟨trivial, trivial⟩
  | dropHandle => exact ⟨trivial, trivial⟩
  | releaseModel => trivial
  | dropEngine => trivial
  | _ => cases h

theorem Wired.reach_steps {s₀ s' : Wired} {es : List BindingsEvent}
    (hdrops : ∀ e ∈ es, e.drops = true) (h : s.steps es = some s')
    (hreach : Machine.Reach Wired.step Wired.Gives s₀ s) :
    Machine.Reach Wired.step Wired.Gives s₀ s' := by
  induction es generalizing s with
  | nil =>
      cases h
      exact hreach
  | cons e es ih =>
      obtain ⟨s₁, hstep, h⟩ := Option.bind_eq_some_iff.mp h
      exact ih (fun e he => hdrops e (List.mem_cons_of_mem _ he)) h
        (hreach.tail (Wired.gives_of_drops (hdrops e List.mem_cons_self)) hstep)

theorem ThreadPc.letsGo_drops (pc pc' : ThreadPc Nat) :
    ∀ e ∈ pc.letsGo handle pc', e.drops = true := by
  intro e he
  have hdrops : ∀ e ∈ pc.drops, e.drops = true := by
    intro e he
    obtain ⟨model, -, he⟩ := List.mem_flatMap.mp he
    simp only [List.mem_cons, List.not_mem_nil, or_false] at he
    rcases he with rfl | rfl <;> rfl
  unfold ThreadPc.letsGo at he
  split at he
  · cases he
  · rcases List.mem_append.mp he with he | he
    · exact hdrops e he
    · simp only [List.mem_cons, List.not_mem_nil, or_false] at he
      rcases he with rfl | rfl <;> rfl
  · simp only [List.mem_cons, List.not_mem_nil, or_false] at he
    rcases he with rfl | rfl <;> rfl
  · cases he

/-- One model is dropped. -/
theorem Wired.steps_unload {model : Nat} {m : bergamot.Model}
    (hmodel : s.rust.models[model]? = some m) (hlive : m.state = .live) :
    ∃ s', s.steps [.dropModel model, .releaseModel model] = some s'
      ∧ s'.rust.engines = s.rust.engines
      ∧ s'.rust.models = s.rust.models.modify model (fun m => { m with state := .dropped })
      ∧ ∀ handle, s'.rust.handles handle = none ↔ s.rust.handles handle = none := by
  have hview := Bindings.model_eq_some.mpr ⟨hmodel, hlive⟩
  have hunloaded : (s.rust.setState model .unloaded).models[model]?
      = some { m with state := .unloaded } := by
    rw [Bindings.setState, List.getElem?_modify_eq, hmodel]
    rfl
  refine ⟨⟨((s.rust.setState model .unloaded).setState model .dropped).release m.engine,
    (s.dg.run [.modelUnload m.ptr]).run []⟩, ?_, rfl, ?_, fun handle => ?_⟩
  · simp only [Wired.steps, Wired.step, Bindings.step, hview, Option.map_some, Option.bind_some,
      hunloaded]
  · show (s.rust.models.modify model _).modify model _ = _
    rw [List.modify_modify_eq]
    rfl
  · show Function.update s.rust.handles m.engine _ handle = none ↔ _
    rcases eq_or_ne handle m.engine with rfl | hne
    · rw [Function.update_self]
      exact Option.map_eq_none_iff
    · rw [Function.update_of_ne hne]

theorem Wired.steps_unloads {models : List Nat} (hnodup : models.Nodup)
    (hlive : ∀ model ∈ models, ∃ m, s.rust.models[model]? = some m ∧ m.state = .live) :
    ∃ s', s.steps (models.flatMap fun model => [.dropModel model, .releaseModel model]) = some s'
      ∧ s'.rust.engines = s.rust.engines
      ∧ (∀ model, s'.rust.models[model]? = s.rust.models[model]?.map fun m =>
          if model ∈ models then { m with state := .dropped } else m)
      ∧ ∀ handle, s'.rust.handles handle = none ↔ s.rust.handles handle = none := by
  induction models generalizing s with
  | nil =>
      refine ⟨s, rfl, rfl, fun model => ?_, fun _ => Iff.rfl⟩
      simp
  | cons model models ih =>
      obtain ⟨hnew, hnodup⟩ := List.nodup_cons.mp hnodup
      obtain ⟨m, hm, hmlive⟩ := hlive model List.mem_cons_self
      obtain ⟨s₁, hs₁, hengines, hmodels, hhandles⟩ := Wired.steps_unload hm hmlive
      obtain ⟨s', hs', hengines', hmodels', hhandles'⟩ := ih (s := s₁) hnodup fun model' hmem => by
        have hne : model ≠ model' := fun heq => hnew (heq ▸ hmem)
        obtain ⟨m', hm', hlive'⟩ := hlive model' (List.mem_cons_of_mem _ hmem)
        rw [hmodels, List.getElem?_modify_ne _ _ hne]
        exact ⟨m', hm', hlive'⟩
      refine ⟨s', ?_, hengines'.trans hengines, fun model' => ?_,
        fun handle => (hhandles' handle).trans (hhandles handle)⟩
      · rw [List.flatMap_cons, Wired.steps_append, hs₁]
        exact hs'
      · rw [hmodels', hmodels]
        rcases eq_or_ne model model' with rfl | hne
        · rw [List.getElem?_modify_eq, hm]
          simp [hnew]
        · rw [List.getElem?_modify_ne _ _ hne]
          simp [Ne.symm hne]

/-- The last of the values is dropped. -/
theorem Wired.steps_last (hc : s.rust.Counted) (hengines : s.rust.engines = [some handle])
    (hmodels : ∀ m ∈ s.rust.models, m.state = .dropped)
    (hhandles : ∀ handle', s.rust.handles handle' ≠ none → handle' = handle) :
    ∃ s', s.steps [.dropEngine 0, .dropHandle handle] = some s' ∧ s'.rust.engines = [none]
      ∧ s'.rust.models = s.rust.models ∧ ∀ handle', s'.rust.handles handle' = none := by
  have hengine : s.rust.engine 0 = some handle := by
    rw [Bindings.engine, hengines]
    rfl
  have hcountP : s.rust.models.countP (bergamot.Model.holds handle) = 0 := by
    rw [List.countP_eq_zero]
    intro m hmem
    simp [bergamot.Model.holds, hmodels m hmem]
  have howners : s.rust.owners handle = 1 := by
    rw [Bindings.owners, hcountP, hengines]
    simp
  obtain ⟨h, hh⟩ := hc.pos (by omega : 0 < s.rust.owners handle)
  have hstrong : h.release.strong = 0 := by
    show h.strong - 1 = 0
    rw [hc.strong handle h hh, howners]
  have hrelease : ({ s.rust with engines := s.rust.engines.set 0 none }.release handle).handles
      handle = some h.release := by
    show Function.update s.rust.handles handle _ handle = _
    rw [Function.update_self, hh]
    rfl
  refine ⟨⟨{ { s.rust with engines := s.rust.engines.set 0 none }.release handle with
      handles := Function.update
        ({ s.rust with engines := s.rust.engines.set 0 none }.release handle).handles handle none },
    (s.dg.run []).run [.engineDestroy h.release.ptr]⟩, ?_, ?_, rfl, fun handle' => ?_⟩
  · simp only [Wired.steps, Wired.step, Bindings.step, hengine, Option.map_some, Option.bind_some,
      hrelease, hstrong, if_true]
  · show s.rust.engines.set 0 none = [none]
    rw [hengines]
    rfl
  · show Function.update (Function.update s.rust.handles handle _) handle none handle' = none
    rcases eq_or_ne handle' handle with rfl | hne
    · exact Function.update_self _ _ _
    · rw [Function.update_of_ne hne, Function.update_of_ne hne]
      by_contra hsome
      exact hne (hhandles handle' hsome)

end Drops

/-! ## What the thread owns -/

/-- At its place the thread has its engine and the models that are named
there, all of them on the engine, and the other models are dropped. -/
structure ThreadPc.Owns (handle : Nat) (pc : ThreadPc Nat) (s : Bindings) : Prop where
  engines : s.engines = [if pc = .ended then none else some handle]
  handles : ∀ handle', s.handles handle' ≠ none → handle' = handle ∧ pc ≠ .ended
  live : ∀ model ∈ pc.models, ∃ m, s.models[model]? = some m ∧ m.state = .live
    ∧ m.engine = handle
  dropped : ∀ model m, s.models[model]? = some m → model ∉ pc.models → m.state = .dropped
  nodup : pc.models.Nodup

section Owns

variable {handle : Nat} {pc pc' : ThreadPc Nat} {s : Wired}

theorem ThreadPc.Owns.of_models {rust : Bindings} (ho : pc.Owns handle rust)
    (hmodels : pc'.models = pc.models) (hpc : pc ≠ .ended) (hpc' : pc' ≠ .ended) :
    pc'.Owns handle rust where
  engines := by rw [ho.engines, if_neg hpc, if_neg hpc']
  handles := fun handle' h => ⟨(ho.handles handle' h).1, hpc'⟩
  live := hmodels.symm ▸ ho.live
  dropped := hmodels.symm ▸ ho.dropped
  nodup := hmodels.symm ▸ ho.nodup

/-- The thread goes on with the models it has. -/
theorem ThreadPc.Owns.goes_on (ho : pc.Owns handle s.rust) (hmodels : pc'.models = pc.models)
    (hpc : pc ≠ .ended) (hpc' : pc' ≠ .ended) :
    ∃ s', s.steps (pc.letsGo handle pc') = some s' ∧ pc'.Owns handle s'.rust := by
  have hnil : pc.letsGo handle pc' = [] := by
    unfold ThreadPc.letsGo
    split
    · rfl
    · exact absurd rfl hpc'
    · cases hmodels
    · rfl
  exact ⟨s, by rw [hnil]; rfl, ho.of_models hmodels hpc hpc'⟩

/-- The thread ends. -/
theorem ThreadPc.Owns.ends (ho : pc.Owns handle s.rust)
    (hpc : pc ≠ .ended) (hreach : Machine.Reach Wired.step Wired.Gives Wired.init s) :
    ∃ s', s.steps (pc.letsGo handle .ended) = some s' ∧ ThreadPc.ended.Owns handle s'.rust := by
  have hgo : pc.letsGo handle .ended = pc.drops ++ [.dropEngine 0, .dropHandle handle] := by
    cases pc <;> first | exact absurd rfl hpc | rfl
  have hnodup := List.nodup_reverse.mpr ho.nodup
  obtain ⟨s₁, hs₁, hengines, hmodels, hhandles⟩ := Wired.steps_unloads (s := s) hnodup fun model h => by
    obtain ⟨m, hm, hlive, -⟩ := ho.live model (List.mem_reverse.mp h)
    exact ⟨m, hm, hlive⟩
  have hdrops : ∀ e ∈ pc.drops, e.drops = true := fun e he =>
    @ThreadPc.letsGo_drops handle pc .ended e (by
      rw [hgo]
      exact List.mem_append_left _ he)
  have hc₁ := (Wired.backed_of_reach (Wired.reach_steps hdrops hs₁ hreach)).1
  have hdropped : ∀ (model : Nat) (m : bergamot.Model), s₁.rust.models[model]? = some m →
      m.state = .dropped := by
    intro model m hm
    rw [hmodels] at hm
    obtain ⟨m₀, hm₀, rfl⟩ := Option.map_eq_some_iff.mp hm
    split
    · rfl
    · rename_i hnot
      exact ho.dropped model m₀ hm₀ fun hmem => hnot (List.mem_reverse.mpr hmem)
  have hlast : s₁.rust.engines = [some handle] := by rw [hengines, ho.engines, if_neg hpc]
  obtain ⟨s', hs', hengines', hmodels', hhandles'⟩ := Wired.steps_last hc₁ hlast
    (fun m hmem => by
      obtain ⟨model, hm⟩ := List.mem_iff_getElem?.mp hmem
      exact hdropped model m hm)
    (fun handle' h => (ho.handles handle' fun hnone => h ((hhandles handle').mpr hnone)).1)
  refine ⟨s', ?_, by rw [hengines', if_pos rfl], fun handle' h => absurd (hhandles' handle') h,
    fun _ h => (List.not_mem_nil h).elim, fun model m hm _ => ?_, List.nodup_nil⟩
  · rw [hgo, Wired.steps_append, show s.steps pc.drops = some s₁ from hs₁]
    exact hs'
  · rw [hmodels'] at hm
    exact hdropped model m hm

/-- The second model could not be loaded: the first is dropped. -/
theorem ThreadPc.Owns.refuses {first : Nat} (ho : (ThreadPc.loadingSecond first).Owns handle s.rust) :
    ∃ s', s.steps ((ThreadPc.loadingSecond first).letsGo handle .refusing) = some s'
      ∧ ThreadPc.refusing.Owns handle s'.rust := by
  obtain ⟨m, hm, hlive, -⟩ := ho.live first List.mem_cons_self
  obtain ⟨s', hs', hengines, hmodels, hhandles⟩ := Wired.steps_unload hm hlive
  refine ⟨s', hs', hengines.trans ho.engines, fun handle' h => ?_,
    fun _ h => (List.not_mem_nil h).elim, fun model m' hm' _ => ?_, List.nodup_nil⟩
  · have := ho.handles handle' fun hnone => h ((hhandles handle').mpr hnone)
    exact ⟨this.1, by decide⟩
  · rw [hmodels] at hm'
    rcases getElem?_modify_cases hm' with ⟨rfl, m₀, -, rfl⟩ | ⟨hne, hold⟩
    · rfl
    · exact ho.dropped model m' hold (by simpa [ThreadPc.models] using hne)

/-- A model is loaded. -/
theorem ThreadPc.Owns.load (ho : pc.Owns handle s.rust) {ptr : Nat} {next : Bindings × List DgCall}
    (hnext : s.rust.step (.load 0 (.ok ptr)) = some next)
    (hmodels : pc'.models = pc.models ++ [s.rust.models.length]) (hpc : pc ≠ .ended)
    (hpc' : pc' ≠ .ended) : pc'.Owns handle next.1 := by
  have hengine : s.rust.engine 0 = some handle := by
    rw [Bindings.engine, ho.engines, if_neg hpc]
    rfl
  obtain ⟨handle', h₁, hnext⟩ := Option.bind_eq_some_iff.mp hnext
  obtain rfl := Option.some.inj (hengine.symm.trans h₁)
  obtain ⟨h, hh, hnext⟩ := Option.bind_eq_some_iff.mp hnext
  cases hnext
  have hlt : ∀ model ∈ pc.models, model < s.rust.models.length := fun model hmem => by
    obtain ⟨m, hm, -⟩ := ho.live model hmem
    exact (List.getElem?_eq_some_iff.mp hm).1
  refine ⟨?_, fun handle' hne => ?_, fun model hmem => ?_, fun model m hm hnot => ?_, ?_⟩
  · show s.rust.engines = _
    rw [ho.engines, if_neg hpc, if_neg hpc']
  · refine ⟨?_, hpc'⟩
    rcases eq_or_ne handle' handle with rfl | hother
    · rfl
    · have hsame : Function.update s.rust.handles handle (some h.retain) handle' ≠ none := hne
      rw [Function.update_of_ne hother] at hsame
      exact (ho.handles handle' hsame).1
  · show ∃ m, (s.rust.models ++ [_])[model]? = some m ∧ _
    rw [hmodels] at hmem
    rcases List.mem_append.mp hmem with hold | hnew
    · rw [List.getElem?_append_left (hlt model hold)]
      exact ho.live model hold
    · rw [List.mem_singleton.mp hnew]
      exact ⟨_, List.getElem?_concat_length, rfl, rfl⟩
  · rw [hmodels] at hnot
    rcases getElem?_concat_cases hm with hold | ⟨rfl, -⟩
    · exact ho.dropped model m hold fun hmem => hnot (List.mem_append_left _ hmem)
    · exact absurd (List.mem_append_right _ (List.mem_singleton_self _)) hnot
  · rw [hmodels]
    refine List.nodup_append.mpr ⟨ho.nodup, List.nodup_singleton _, ?_⟩
    intro a ha b hb hab
    rw [List.mem_singleton.mp hb] at hab
    exact absurd (hlt a ha) (by omega)

/-- The thread's models are of its engine. -/
theorem ThreadPc.Owns.together {first : Nat} {second : Option Nat}
    (ho : pc.Owns handle s.rust) (hpc : pc ≠ .ended) (hmodels : pc.models = first :: second.toList) :
    s.rust.together 0 first second = true := by
  have hengine : s.rust.engine 0 = some handle := by
    rw [Bindings.engine, ho.engines, if_neg hpc]
    rfl
  obtain ⟨a, ha, halive, hae⟩ := ho.live first (by rw [hmodels]; exact List.mem_cons_self)
  have hfirst := Bindings.model_eq_some.mpr ⟨ha, halive⟩
  rw [Bindings.together, hengine]
  show (s.rust.model first).any _ = true
  rw [hfirst]
  cases second with
  | none => simp [bergamot.sameEngine, hae]
  | some second =>
      obtain ⟨b, hb, hblive, hbe⟩ := ho.live second (by rw [hmodels]; simp)
      have hsecond := Bindings.model_eq_some.mpr ⟨hb, hblive⟩
      simp [bergamot.sameEngine, hae, hsecond, hbe]

@[simp] theorem ThreadPc.letsGo_self (pc : ThreadPc Nat) : pc.letsGo handle pc = [] := by
  cases pc <;> rfl

/-- Every action but a load that succeeds leaves the thread with what it
lets go of dropped. -/
theorem ThreadPc.Owns.transition {pivot : Bool} {w w' : Worker Nat} {event : WorkerEvent Nat}
    (htr : w.Transition pivot event w') (hevent : ∀ model, event ≠ .load (some (.ok model)))
    (ho : w.pc.Owns handle s.rust)
    (hreach : Machine.Reach Wired.step Wired.Gives Wired.init s) :
    ∃ s', s.steps (w.pc.letsGo handle w'.pc) = some s' ∧ w'.pc.Owns handle s'.rust := by
  cases htr with
  | loadedFirst => exact absurd rfl (hevent _)
  | loadedOnly => exact absurd rfl (hevent _)
  | loadedSecond => exact absurd rfl (hevent _)
  | @loadFailed error hpc =>
      show ∃ s', s.steps (w.pc.letsGo handle .refusing) = some s' ∧ _
      cases hloading : w.pc with
      | loadingFirst =>
          rw [hloading] at ho
          exact ho.goes_on rfl (by decide) (by decide)
      | loadingSecond first =>
          rw [hloading] at ho
          exact ho.refuses
      | _ => rw [hloading] at hpc; cases hpc
  | loadPanicked hpc =>
      exact ho.ends (by rintro hended; rw [hended] at hpc; cases hpc) hreach
  | @called first second job rest hpc hqueue =>
      show ∃ s', s.steps (w.pc.letsGo handle (.translating first second job)) = some s' ∧ _
      rw [hpc] at ho ⊢
      exact ho.goes_on rfl (by simp) (by simp)
  | @refused job rest hpc hqueue =>
      show ∃ s', s.steps (w.pc.letsGo handle w.pc) = some s' ∧ _
      exact ⟨s, by rw [letsGo_self]; rfl, ho⟩
  | finished hpc =>
      refine ho.ends ?_ hreach
      rintro hended
      rw [hended] at hpc
      rcases hpc with ⟨_, _, hpc⟩ | hpc <;> cases hpc
  | @returned first second job result hpc =>
      show ∃ s', s.steps (w.pc.letsGo handle (.serving first second)) = some s' ∧ _
      rw [hpc] at ho ⊢
      exact ho.goes_on rfl (by simp) (by simp)
  | panicked hpc => exact ho.ends (by rw [hpc]; simp) hreach
  | sent | lost | received | forgot | dropped | joined =>
      exact ⟨s, by show s.steps (w.pc.letsGo handle w.pc) = _; rw [letsGo_self]; rfl, ho⟩

end Owns

/-! ## Whole runs -/

/-- Both sides run as they would alone, and the thread owns what it should. -/
structure BergamotWorker.Inv (pivot : Bool) (handle : Nat) (s : BergamotWorker) : Prop where
  worker : Machine.Reach (Worker.step pivot) Machine.anyStep Worker.spawn s.worker
  wired : Machine.Reach Wired.step Wired.Gives Wired.init s.wired
  owns : s.worker.pc.Owns handle s.wired.rust
  joined : s.worker.handle = .dropped → s.worker.pc = .ended
  own : ∀ reply, .replied reply (.error (.invalidInput "model was loaded on a different engine"))
    ∉ s.worker.log

section Runs

variable {pivot : Bool} {handle ptr : Nat} {s s' : BergamotWorker}

theorem BergamotWorker.inv_spawn : (BergamotWorker.spawn handle ptr).Inv pivot handle where
  worker := .init
  wired := by
    refine Machine.Reach.one (e := .new handle (.ok ptr)) (fun next hnext => ?_) ?_
    · obtain rfl := Option.some.inj hnext
      exact ⟨List.not_mem_nil, trivial⟩
    · rfl
  owns := by
    refine ⟨rfl, fun handle' h => ⟨?_, fun hpc => by cases hpc⟩,
      fun _ h => (List.not_mem_nil h).elim, fun _ _ h => (by cases h), List.nodup_nil⟩
    by_contra hne
    refine h ?_
    show Function.update (fun _ => none) handle _ handle' = none
    rw [Function.update_of_ne hne]
  joined := fun h => by cases h
  own := fun _ h => by cases h

/-- A dropped worker's thread has ended. -/
theorem Worker.joined_step {w w' : Worker Nat} {event : WorkerEvent Nat}
    (htr : w.Transition pivot event w') (hj : w.handle = .dropped → w.pc = .ended) :
    w'.handle = .dropped → w'.pc = .ended := by
  intro hdropped
  cases htr with
  | joined hjoining hpc => exact hpc
  | dropped => cases hdropped
  | loadFailed hpc =>
      rw [hj hdropped] at hpc
      cases hpc
  | loadPanicked | panicked | finished => rfl
  | sent | lost | received | forgot => exact hj hdropped
  | loadedFirst hpc | loadedOnly hpc | loadedSecond hpc | called hpc | refused hpc
  | returned hpc =>
      rw [hj hdropped] at hpc
      cases hpc

/-- What an event adds to the replies. -/
theorem Worker.mem_log_step {w w' : Worker Nat} {event : WorkerEvent Nat}
    (htr : w.Transition pivot event w') {reply : Nat} {error : backend.Error}
    (herror : error ≠ .workerGone)
    (hmem : .replied reply (.error error) ∈ w'.log) :
    .replied reply (.error error) ∈ w.log ∨ event = .translated (some (.error error)) := by
  have hunwind : .replied reply (.error error) ∈ w.unwind.log →
      .replied reply (.error error) ∈ w.log := by
    intro h
    rcases List.mem_append.mp h with h | h
    · obtain ⟨job, -, hjob⟩ := List.mem_map.mp h
      cases hjob
    · rcases List.mem_cons.mp h with h | h
      · cases h
      · exact h
  cases htr with
  | loadPanicked => exact Or.inl (hunwind hmem)
  | panicked => exact Or.inl (hunwind hmem)
  | loadedOnly | loadedSecond =>
      refine Or.inl ?_
      rcases List.mem_cons.mp hmem with h | h
      · cases h
      · rcases List.mem_cons.mp h with h | h
        · cases h
        · exact h
  | loadedFirst | loadFailed | called | sent | lost =>
      refine Or.inl ?_
      rcases List.mem_cons.mp hmem with h | h
      · cases h
      · exact h
  | refused =>
      rcases List.mem_cons.mp hmem with h | h
      · cases h
        exact absurd rfl herror
      · exact Or.inl h
  | returned =>
      rcases List.mem_cons.mp hmem with h | h
      · cases h
        exact Or.inr rfl
      · exact Or.inl h
  | finished | received | forgot | dropped | joined => exact Or.inl hmem

/-- An action of the thread that loads nothing. -/
theorem BergamotWorker.Inv.thread (hi : s.Inv pivot handle) {wired : Wired}
    {event : WorkerEvent Nat} (hevent : ∀ model, event ≠ .load (some (.ok model)))
    (hown : event ≠ .translated
      (some (.error (.invalidInput "model was loaded on a different engine"))))
    (hwired : Machine.Reach Wired.step Wired.Gives Wired.init wired)
    (howns : s.worker.pc.Owns handle wired.rust)
    (h : s.thread pivot handle wired event = some s') : s'.Inv pivot handle := by
  obtain ⟨worker, hworker, h⟩ := Option.bind_eq_some_iff.mp h
  obtain ⟨wired', hsteps, rfl⟩ := Option.map_eq_some_iff.mp h
  have htr := Worker.step_cases hworker
  obtain ⟨wired'', hsteps', howns'⟩ := howns.transition htr hevent hwired
  obtain rfl := Option.some.inj (hsteps.symm.trans hsteps')
  refine ⟨hi.worker.tail trivial hworker,
    Wired.reach_steps (ThreadPc.letsGo_drops _ _) hsteps hwired, howns',
    Worker.joined_step htr hi.joined, fun reply hmem => ?_⟩
  rcases Worker.mem_log_step htr (by simp) hmem with hold | hnew
  · exact hi.own reply hold
  · exact hown hnew

theorem BergamotWorker.inv_step {e : BergamotEvent} (hgives : s.Gives e)
    (h : s.step pivot handle e = some s') (hi : s.Inv pivot handle) : s'.Inv pivot handle := by
  cases e with
  | load out message =>
      simp only [BergamotWorker.step] at h
      split at h
      swap
      · cases h
      rename_i hloading
      have hpc : s.worker.pc ≠ .ended := by
        intro hended
        rw [hended] at hloading
        cases hloading
      obtain ⟨wired, hstep, h⟩ := Option.bind_eq_some_iff.mp h
      have hwired := hi.wired.tail hgives hstep
      obtain ⟨next, hnext, rfl⟩ := Option.map_eq_some_iff.mp hstep
      cases out with
      | error err =>
          have hsame : next.1 = s.wired.rust := by
            obtain ⟨_, -, hnext⟩ := Option.bind_eq_some_iff.mp hnext
            obtain ⟨_, -, hnext⟩ := Option.bind_eq_some_iff.mp hnext
            cases hnext
            rfl
          exact hi.thread (by simp) (by simp) hwired (hsame.symm ▸ hi.owns) h
      | ok ptr =>
          obtain ⟨worker, hworker, h⟩ := Option.bind_eq_some_iff.mp h
          have htr := Worker.step_cases hworker
          have hloaded : worker.pc.models = s.worker.pc.models ++ [s.wired.rust.models.length]
              ∧ worker.pc ≠ .ended ∧ s.worker.pc.letsGo handle worker.pc = [] := by
            cases htr with
            | loadedFirst hpc => simp [hpc, ThreadPc.models, ThreadPc.letsGo]
            | loadedOnly hpc => simp [hpc, ThreadPc.models, ThreadPc.letsGo]
            | loadedSecond hpc => simp [hpc, ThreadPc.models, ThreadPc.letsGo]
          obtain ⟨hmodels, hpc', hnil⟩ := hloaded
          rw [hnil] at h
          cases h
          refine ⟨hi.worker.tail trivial hworker, hwired, hi.owns.load hnext hmodels hpc hpc',
            Worker.joined_step htr hi.joined, fun reply hmem => ?_⟩
          rcases Worker.mem_log_step htr (by simp) hmem with hold | hnew
          · exact hi.own reply hold
          · cases hnew
  | noLoad invalid =>
      refine hi.thread (fun model => ?_) (by simp) hi.wired hi.owns h
      cases invalid <;> simp
  | receiveJob => exact hi.thread (by simp) (by simp) hi.wired hi.owns h
  | translated out translations message =>
      simp only [BergamotWorker.step] at h
      split at h
      swap
      · cases h
      rename_i first second job hpc
      simp only [BergamotWorker.Gives, hpc] at hgives
      obtain ⟨wired, hstep, h⟩ := Option.bind_eq_some_iff.mp h
      have hwired := hi.wired.tail hgives hstep
      obtain ⟨next, hnext, rfl⟩ := Option.map_eq_some_iff.mp hstep
      have hsame : next.1 = s.wired.rust := by
        have htr : s.wired.rust.Transition _ next.1 next.2 := Bindings.step_cases hnext
        generalize next.1 = rust at htr ⊢
        generalize next.2 = calls at htr
        cases htr <;> rfl
      have htogether : s.wired.rust.together 0 first second = true :=
        hi.owns.together (by rw [hpc]; simp) (by rw [hpc]; rfl)
      rw [htogether] at h
      refine hi.thread (by simp) ?_ hwired (hsame.symm ▸ hi.owns) h
      unfold bergamot.translated
      rw [if_pos rfl]
      cases out with
      | error err => simp
      | ok result => cases translations <;> simp
  | call call => exact hi.thread (by simp) (by simp) hi.wired hi.owns h

theorem BergamotWorker.inv_of_reach
    (h : Machine.Reach (BergamotWorker.step pivot handle) BergamotWorker.Gives
      (BergamotWorker.spawn handle ptr) s) : s.Inv pivot handle :=
  h.invariant BergamotWorker.inv_spawn fun _ _ _ _ hok hs hi => BergamotWorker.inv_step hok hs hi

/-- **A worker leaves nothing of its engine behind.** The thread and the values
go as they would alone; the models that the thread has are loaded, and on its own
engine, so no translation is refused for that; no action of the thread is held up
by a drop; and once the thread has ended, which it has when its worker is
dropped, the library has freed everything. -/
theorem worker_unloads (pivot : Bool) (handle ptr : Nat) {s : BergamotWorker}
    (h : Machine.Reach (BergamotWorker.step pivot handle) BergamotWorker.Gives
      (BergamotWorker.spawn handle ptr) s) :
    Machine.Reach (Worker.step pivot) Machine.anyStep Worker.spawn s.worker
      ∧ Machine.Reach Wired.step Wired.Gives Wired.init s.wired
      ∧ (∀ model ∈ s.worker.pc.models, ∃ m engine, s.wired.rust.model model = some m
          ∧ engine ∈ s.wired.dg.engines ∧ (m.ptr, engine) ∈ s.wired.dg.models)
      ∧ (∀ reply, .replied reply
          (.error (.invalidInput "model was loaded on a different engine")) ∉ s.worker.log)
      ∧ (∀ event, (∀ model, event ≠ .load (some (.ok model))) →
          (s.worker.step pivot event).isSome = true →
          (s.thread pivot handle s.wired event).isSome = true)
      ∧ (s.worker.handle = .dropped → s.worker.pc = .ended)
      ∧ (s.worker.pc = .ended → s.wired.dg = .init) := by
  have hi := BergamotWorker.inv_of_reach h
  obtain ⟨hc, hb⟩ := Wired.backed_of_reach hi.wired
  refine ⟨hi.worker, hi.wired, fun model hmem => ?_, hi.own, fun event hevent hgoes => ?_,
    hi.joined, fun hended => ?_⟩
  · obtain ⟨m, hm, hlive, -⟩ := hi.owns.live model hmem
    have hmodel := Bindings.model_eq_some.mpr ⟨hm, hlive⟩
    obtain ⟨engine, hengine⟩ := hc.ptr_of_model hmodel
    exact ⟨m, engine, hmodel, (hb.engines _).mpr ⟨_, hengine⟩,
      (hb.models _).mpr ⟨model, m, hmodel, rfl, hengine⟩⟩
  · obtain ⟨worker, hworker⟩ := Option.isSome_iff_exists.mp hgoes
    obtain ⟨wired, hsteps, -⟩ :=
      hi.owns.transition (Worker.step_cases hworker) hevent hi.wired
    rw [BergamotWorker.thread, hworker, Option.bind_some, hsteps]
    rfl
  · exact hb.eq_init fun handle' => by
      by_contra hsome
      exact (hi.owns.handles handle' hsome).2 hended

/-- A pivot route: the second model fails to load, after which the first is
unloaded; the owner drops the worker while its thread still answers. -/
theorem worker_unloads_refused :
    ∃ s, Machine.Reach (BergamotWorker.step true 16) BergamotWorker.Gives
        (BergamotWorker.spawn 16 100) s
      ∧ s.worker.handle = .dropped ∧ s.wired.dg = .init := by
  obtain ⟨s, hreach, hs⟩ := Machine.exists_reach_of_run (BergamotWorker.step true 16)
    BergamotWorker.Gives (BergamotWorker.spawn 16 100)
    [.load (.ok 200) "", .call (.translate ["a"] false), .load (.error (some 300)) "no such file",
      .call (.forget 0), .call .drop, .receiveJob, .receiveJob, .call .join]
    (fun s => decide (s.worker.handle = .dropped)) (by decide)
  have hdropped := of_decide_eq_true hs
  obtain ⟨-, -, -, -, -, hended, hinit⟩ := worker_unloads true 16 100 hreach
  exact ⟨s, hreach, hdropped, hinit (hended hdropped)⟩

end Runs

end Dragomand
