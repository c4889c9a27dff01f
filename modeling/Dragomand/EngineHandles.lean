import Dragomand.EngineWorker
import Dragomand.Requests

/-!
# Handles of the engine library

An `Engine` and the `Model`s loaded on it own what the C library allocated
for them. A model holds an `Arc` to its engine's handle, so the engine is
destroyed after every model is unloaded, whatever is dropped first and on
whatever thread. The addresses that the library and the allocator of `Arc`
give are the environment's: one is given again once it was freed.

`Dg.Allows` is what the header asks of a caller; `Wired` runs the values next
to what the library has allocated. `Counted` says that a strong count is the
number of its owners, and `Backed` that both sides have the same engines and
the same models on them.
-/

namespace Dragomand

/-! ## The C interface -/

/-- What the library has allocated: engines, models with the engine each was
loaded on, results and errors. -/
structure Dg where
  engines : List Nat
  models : List (Nat × Nat)
  results : List Nat
  errors : List Nat
deriving DecidableEq, Repr

def Dg.init : Dg := ⟨[], [], [], []⟩

/-- A call and what it returned; one that failed may have stored an error. -/
inductive DgCall where
  | engineCreate (out : Except (Option Nat) Nat)
  | engineDestroy (engine : Nat)
  | modelLoad (engine : Nat) (out : Except (Option Nat) Nat)
  | modelUnload (model : Nat)
  | translateBatch (engine first : Nat) (second : Option Nat) (out : Except (Option Nat) Nat)
  /-- `dg_result_len`, `dg_result_text` and the queries of the sentences -/
  | resultRead (result : Nat)
  | resultFree (result : Nat)
  | errorMessage (err : Nat)
  | errorFree (err : Nat)
deriving DecidableEq, Repr

/-- What a call returned, if it allocates. -/
def DgCall.out : DgCall → Option (Except (Option Nat) Nat)
  | .engineCreate out | .modelLoad _ out | .translateBatch _ _ _ out => some out
  | _ => none

/-- Nothing is given that is in use. -/
def Dg.Gives (s : Dg) (call : DgCall) : Prop :=
  match call, call.out with
  | .engineCreate _, some (.ok engine) => engine ∉ s.engines
  | .modelLoad _ _, some (.ok model) => ∀ loaded ∈ s.models, loaded.1 ≠ model
  | .translateBatch _ _ _ _, some (.ok result) => result ∉ s.results
  | _, some (.error (some err)) => err ∉ s.errors
  | _, _ => True

/-- Handles are live, those of a call are of one engine, and an engine is
destroyed after its models. -/
def Dg.Allows (s : Dg) : DgCall → Prop
  | .engineCreate _ => True
  | .engineDestroy engine => engine ∈ s.engines ∧ ∀ loaded ∈ s.models, loaded.2 ≠ engine
  | .modelLoad engine _ => engine ∈ s.engines
  | .modelUnload model => ∃ loaded ∈ s.models, loaded.1 = model
  | .translateBatch engine first second _ =>
      engine ∈ s.engines ∧ (first, engine) ∈ s.models
        ∧ ∀ model ∈ second, (model, engine) ∈ s.models
  | .resultRead result | .resultFree result => result ∈ s.results
  | .errorMessage err | .errorFree err => err ∈ s.errors

def Dg.apply (s : Dg) : DgCall → Dg
  | .engineCreate (.ok engine) => { s with engines := engine :: s.engines }
  | .modelLoad engine (.ok model) => { s with models := (model, engine) :: s.models }
  | .translateBatch _ _ _ (.ok result) => { s with results := result :: s.results }
  | .engineCreate (.error err) | .modelLoad _ (.error err) | .translateBatch _ _ _ (.error err) =>
      { s with errors := err.toList ++ s.errors }
  | .engineDestroy engine => { s with engines := s.engines.filter (· ≠ engine) }
  | .modelUnload model => { s with models := s.models.filter (·.1 ≠ model) }
  | .resultFree result => { s with results := s.results.filter (· ≠ result) }
  | .errorFree err => { s with errors := s.errors.filter (· ≠ err) }
  | .resultRead _ | .errorMessage _ => s

def Dg.run (s : Dg) (calls : List DgCall) : Dg := calls.foldl Dg.apply s

/-- The calls are allowed, each where it is made. -/
def Dg.AllowsAll (s : Dg) : List DgCall → Prop
  | [] => True
  | call :: calls => s.Allows call ∧ (s.apply call).AllowsAll calls

def Dg.GivesAll (s : Dg) : List DgCall → Prop
  | [] => True
  | call :: calls => s.Gives call ∧ (s.apply call).GivesAll calls

instance (s : Dg) : (call : DgCall) → Decidable (s.Gives call)
  | .engineCreate (.ok engine) => inferInstanceAs (Decidable (engine ∉ s.engines))
  | .modelLoad _ (.ok model) =>
      inferInstanceAs (Decidable (∀ loaded ∈ s.models, loaded.1 ≠ model))
  | .translateBatch _ _ _ (.ok result) => inferInstanceAs (Decidable (result ∉ s.results))
  | .engineCreate (.error (some err)) | .modelLoad _ (.error (some err))
  | .translateBatch _ _ _ (.error (some err)) => inferInstanceAs (Decidable (err ∉ s.errors))
  | .engineCreate (.error none) | .modelLoad _ (.error none)
  | .translateBatch _ _ _ (.error none) | .engineDestroy _ | .modelUnload _ | .resultRead _
  | .resultFree _ | .errorMessage _ | .errorFree _ => inferInstanceAs (Decidable True)

instance Dg.decidableGivesAll : (s : Dg) → (calls : List DgCall) → Decidable (s.GivesAll calls)
  | _, [] => inferInstanceAs (Decidable True)
  | s, call :: calls =>
      have := Dg.decidableGivesAll (s.apply call) calls
      inferInstanceAs (Decidable (s.Gives call ∧ (s.apply call).GivesAll calls))

/-! ## The values -/

/-- The contents of an `Arc<EngineHandle>`, with its strong count. -/
structure EngineHandle where
  ptr : Nat
  strong : Nat
deriving DecidableEq, Repr

def EngineHandle.release (h : EngineHandle) : EngineHandle := { h with strong := h.strong - 1 }

def EngineHandle.retain (h : EngineHandle) : EngineHandle := { h with strong := h.strong + 1 }

/-- `Drop` for `Model` has unloaded it, and then its fields are dropped. -/
inductive ModelState where
  | live
  | unloaded
  | dropped
deriving DecidableEq, Repr

structure bergamot.Model where
  ptr : Nat
  /-- the address of the engine's handle -/
  engine : Nat
  state : ModelState
deriving DecidableEq, Repr

/-- `handles` is the heap of the `Arc`s. Of the values ever made, `engines`
has the address an `Engine` points to until it is dropped. -/
structure Bindings where
  handles : Nat → Option EngineHandle
  engines : List (Option Nat)
  models : List bergamot.Model

def Bindings.init : Bindings := ⟨fun _ => none, [], []⟩

/-- Converts and frees a stored error. -/
def take_error : Option Nat → List DgCall
  | none => []
  | some err => [.errorMessage err, .errorFree err]

inductive BindingsEvent where
  /-- `Engine::new`; `handle` is the address of the new `Arc` -/
  | new (handle : Nat) (out : Except (Option Nat) Nat)
  /-- `Engine::load`, its strings converted -/
  | load (engine : Nat) (out : Except (Option Nat) Nat)
  | translateBatch (engine first : Nat) (second : Option Nat) (out : Except (Option Nat) Nat)
  | dropModel (model : Nat)
  /-- the fields of a model are dropped -/
  | releaseModel (model : Nat)
  | dropEngine (engine : Nat)
  /-- the last owner of a handle drops what is in it -/
  | dropHandle (handle : Nat)
deriving DecidableEq, Repr

/-- The `Engine` value points to it. -/
def Bindings.engine (s : Bindings) (engine : Nat) : Option Nat := s.engines[engine]?.join

def Bindings.model (s : Bindings) (model : Nat) : Option bergamot.Model :=
  s.models[model]?.filter (·.state = .live)

/-- An owner lets go of the handle. -/
def Bindings.release (s : Bindings) (handle : Nat) : Bindings :=
  { s with handles := Function.update s.handles handle ((s.handles handle).map .release) }

def Bindings.setState (s : Bindings) (model : Nat) (state : ModelState) : Bindings :=
  { s with models := s.models.modify model fun m => { m with state := state } }

def Bindings.new (s : Bindings) (handle : Nat) :
    Except (Option Nat) Nat → Option (Bindings × List DgCall)
  | .ok ptr =>
      if s.handles handle = none then
        some ({ s with
          handles := Function.update s.handles handle (some ⟨ptr, 1⟩)
          engines := s.engines ++ [some handle] }, [.engineCreate (.ok ptr)])
      else none
  | .error err => some (s, .engineCreate (.error err) :: take_error err)

def Bindings.load (s : Bindings) (engine : Nat) (out : Except (Option Nat) Nat) :
    Option (Bindings × List DgCall) :=
  (s.engine engine).bind fun handle => (s.handles handle).bind fun h =>
    match out with
    | .ok ptr => some ({ s with
        handles := Function.update s.handles handle (some h.retain)
        models := s.models ++ [⟨ptr, handle, .live⟩] }, [.modelLoad h.ptr (.ok ptr)])
    | .error err => some (s, .modelLoad h.ptr (.error err) :: take_error err)

/-- Both models are on the handle. -/
def bergamot.sameEngine (handle : Nat) (first : bergamot.Model) (second : Option bergamot.Model) :
    Bool :=
  first.engine = handle && second.all (·.engine = handle)

/-- Models of another engine are refused before a call is made. -/
def Bindings.translateBatch (s : Bindings) (engine first : Nat) (second : Option Nat)
    (out : Except (Option Nat) Nat) : Option (Bindings × List DgCall) :=
  (s.engine engine).bind fun handle => (s.handles handle).bind fun h =>
    (s.model first).bind fun a => (second.mapM s.model).bind fun b =>
      if bergamot.sameEngine handle a b then
        match out with
        | .ok result => some (s, [.translateBatch h.ptr a.ptr (b.map (·.ptr)) (.ok result),
            .resultRead result, .resultFree result])
        | .error err =>
            some (s, .translateBatch h.ptr a.ptr (b.map (·.ptr)) (.error err) :: take_error err)
      else some (s, [])

def Bindings.step (s : Bindings) : BindingsEvent → Option (Bindings × List DgCall)
  | .new handle out => s.new handle out
  | .load engine out => s.load engine out
  | .translateBatch engine first second out => s.translateBatch engine first second out
  | .dropModel model => (s.model model).map fun m =>
      (s.setState model .unloaded, [.modelUnload m.ptr])
  | .releaseModel model => (s.models[model]?).bind fun m =>
      match m.state with
      | .unloaded => some ((s.setState model .dropped).release m.engine, [])
      | _ => none
  | .dropEngine engine => (s.engine engine).map fun handle =>
      ({ s with engines := s.engines.set engine none }.release handle, [])
  | .dropHandle handle => (s.handles handle).bind fun h =>
      if h.strong = 0 then
        some ({ s with handles := Function.update s.handles handle none }, [.engineDestroy h.ptr])
      else none

/-- The values, and what the library has allocated. -/
structure Wired where
  rust : Bindings
  dg : Dg

def Wired.init : Wired := ⟨.init, .init⟩

def Wired.step (s : Wired) (e : BindingsEvent) : Option Wired :=
  (s.rust.step e).map fun next => ⟨next.1, s.dg.run next.2⟩

def Wired.Gives (s : Wired) (e : BindingsEvent) : Prop :=
  ∀ next ∈ s.rust.step e, s.dg.GivesAll next.2

instance (s : Wired) (e : BindingsEvent) : Decidable (s.Gives e) :=
  inferInstanceAs (Decidable (∀ next ∈ s.rust.step e, s.dg.GivesAll next.2))

/-- Every call that the event makes is one that the header allows. -/
def Wired.Allows (s : Wired) (e : BindingsEvent) : Prop :=
  ∀ next ∈ s.rust.step e, s.dg.AllowsAll next.2

/-! ## What one step can do -/

section Transition

inductive Bindings.Transition (s : Bindings) : BindingsEvent → Bindings → List DgCall → Prop
  | create {handle ptr : Nat} (hfree : s.handles handle = none) :
      Transition s (.new handle (.ok ptr)) { s with
        handles := Function.update s.handles handle (some ⟨ptr, 1⟩)
        engines := s.engines ++ [some handle] } [.engineCreate (.ok ptr)]
  | createFailed {handle : Nat} {err : Option Nat} :
      Transition s (.new handle (.error err)) s (.engineCreate (.error err) :: take_error err)
  | load {engine handle ptr : Nat} {h : EngineHandle} (hengine : s.engine engine = some handle)
      (hhandle : s.handles handle = some h) :
      Transition s (.load engine (.ok ptr)) { s with
        handles := Function.update s.handles handle (some h.retain)
        models := s.models ++ [⟨ptr, handle, .live⟩] } [.modelLoad h.ptr (.ok ptr)]
  | loadFailed {engine handle : Nat} {err : Option Nat} {h : EngineHandle}
      (hengine : s.engine engine = some handle) (hhandle : s.handles handle = some h) :
      Transition s (.load engine (.error err)) s
        (.modelLoad h.ptr (.error err) :: take_error err)
  | translate {engine first handle result : Nat} {second : Option Nat} {h : EngineHandle}
      {a : bergamot.Model} {b : Option bergamot.Model} (hengine : s.engine engine = some handle)
      (hhandle : s.handles handle = some h) (hfirst : s.model first = some a)
      (hsecond : second.mapM s.model = some b) (hsame : bergamot.sameEngine handle a b = true) :
      Transition s (.translateBatch engine first second (.ok result)) s
        [.translateBatch h.ptr a.ptr (b.map (·.ptr)) (.ok result), .resultRead result,
          .resultFree result]
  | translateFailed {engine first handle : Nat} {err second : Option Nat} {h : EngineHandle}
      {a : bergamot.Model} {b : Option bergamot.Model} (hengine : s.engine engine = some handle)
      (hhandle : s.handles handle = some h) (hfirst : s.model first = some a)
      (hsecond : second.mapM s.model = some b) (hsame : bergamot.sameEngine handle a b = true) :
      Transition s (.translateBatch engine first second (.error err)) s
        (.translateBatch h.ptr a.ptr (b.map (·.ptr)) (.error err) :: take_error err)
  | foreign {engine first : Nat} {second : Option Nat} {out : Except (Option Nat) Nat} :
      Transition s (.translateBatch engine first second out) s []
  | dropModel {model : Nat} {m : bergamot.Model} (hmodel : s.models[model]? = some m)
      (hlive : m.state = .live) :
      Transition s (.dropModel model) (s.setState model .unloaded) [.modelUnload m.ptr]
  | releaseModel {model : Nat} {m : bergamot.Model} (hmodel : s.models[model]? = some m)
      (hunloaded : m.state = .unloaded) :
      Transition s (.releaseModel model) ((s.setState model .dropped).release m.engine) []
  | dropEngine {engine handle : Nat} (hengine : s.engine engine = some handle) :
      Transition s (.dropEngine engine)
        ({ s with engines := s.engines.set engine none }.release handle) []
  | dropHandle {handle : Nat} {h : EngineHandle} (hhandle : s.handles handle = some h)
      (hstrong : h.strong = 0) :
      Transition s (.dropHandle handle)
        { s with handles := Function.update s.handles handle none } [.engineDestroy h.ptr]

variable {s s' : Bindings} {calls : List DgCall}

theorem Bindings.model_eq_some {model : Nat} {m : bergamot.Model} :
    s.model model = some m ↔ s.models[model]? = some m ∧ m.state = .live := by
  rw [Bindings.model, Option.filter_eq_some_iff, decide_eq_true_eq]

theorem Bindings.engine_eq_some {engine handle : Nat} :
    s.engine engine = some handle ↔ s.engines[engine]? = some (some handle) := by
  rw [Bindings.engine, Option.join_eq_some_iff]

theorem Bindings.new_cases {handle : Nat} {out : Except (Option Nat) Nat}
    (h : s.new handle out = some (s', calls)) : s.Transition (.new handle out) s' calls := by
  cases out with
  | error err =>
      cases h
      exact .createFailed
  | ok ptr =>
      simp only [Bindings.new] at h
      split at h
      · rename_i hfree
        cases h
        exact .create hfree
      · cases h

theorem Bindings.load_cases {engine : Nat} {out : Except (Option Nat) Nat}
    (h : s.load engine out = some (s', calls)) : s.Transition (.load engine out) s' calls := by
  obtain ⟨handle, hengine, h⟩ := Option.bind_eq_some_iff.mp h
  obtain ⟨e, hhandle, h⟩ := Option.bind_eq_some_iff.mp h
  cases out with
  | error err =>
      cases h
      exact .loadFailed hengine hhandle
  | ok ptr =>
      cases h
      exact .load hengine hhandle

theorem Bindings.translateBatch_cases {engine first : Nat} {second : Option Nat}
    {out : Except (Option Nat) Nat}
    (h : s.translateBatch engine first second out = some (s', calls)) :
    s.Transition (.translateBatch engine first second out) s' calls := by
  obtain ⟨handle, hengine, h⟩ := Option.bind_eq_some_iff.mp h
  obtain ⟨e, hhandle, h⟩ := Option.bind_eq_some_iff.mp h
  obtain ⟨a, hfirst, h⟩ := Option.bind_eq_some_iff.mp h
  obtain ⟨b, hsecond, h⟩ := Option.bind_eq_some_iff.mp h
  split at h
  · rename_i hsame
    cases out with
    | error err =>
        cases h
        exact .translateFailed hengine hhandle hfirst hsecond hsame
    | ok result =>
        cases h
        exact .translate hengine hhandle hfirst hsecond hsame
  · cases h
    exact .foreign

theorem Bindings.step_cases {e : BindingsEvent} (h : s.step e = some (s', calls)) :
    s.Transition e s' calls := by
  cases e with
  | new handle out => exact Bindings.new_cases h
  | load engine out => exact Bindings.load_cases h
  | translateBatch engine first second out => exact Bindings.translateBatch_cases h
  | dropModel model =>
      obtain ⟨m, hmodel, h⟩ := Option.map_eq_some_iff.mp h
      obtain ⟨hmodel, hlive⟩ := Bindings.model_eq_some.mp hmodel
      cases h
      exact .dropModel hmodel hlive
  | releaseModel model =>
      obtain ⟨m, hmodel, h⟩ := Option.bind_eq_some_iff.mp h
      split at h
      · rename_i hunloaded
        cases h
        exact .releaseModel hmodel hunloaded
      · cases h
  | dropEngine engine =>
      obtain ⟨handle, hengine, h⟩ := Option.map_eq_some_iff.mp h
      cases h
      exact .dropEngine hengine
  | dropHandle handle =>
      obtain ⟨e, hhandle, h⟩ := Option.bind_eq_some_iff.mp h
      split at h
      · rename_i hstrong
        cases h
        exact .dropHandle hhandle hstrong
      · cases h

end Transition

/-! ## Strong counts -/

/-- The value is an owner of the handle. -/
def bergamot.Model.holds (handle : Nat) (m : bergamot.Model) : Bool :=
  m.engine = handle && m.state ≠ .dropped

def Bindings.owners (s : Bindings) (handle : Nat) : Nat :=
  s.engines.count (some handle) + s.models.countP (bergamot.Model.holds handle)

/-- The strong count of a handle is the number of its owners, and a handle
with an owner is there. -/
structure Bindings.Counted (s : Bindings) : Prop where
  strong : ∀ handle h, s.handles handle = some h → h.strong = s.owners handle
  owned : ∀ handle, s.handles handle = none → s.owners handle = 0

section Counted

variable {s s' : Bindings} {calls : List DgCall} {e : BindingsEvent}

/-- One element of a list changes. -/
theorem countP_modify {α : Type*} {l : List α} {i : Nat} {a : α} (f : α → α) (p : α → Bool)
    (h : l[i]? = some a) :
    (l.modify i f).countP p + (if p a then 1 else 0) = l.countP p + if p (f a) then 1 else 0 := by
  induction l generalizing i with
  | nil => cases h
  | cons b l ih =>
      cases i with
      | zero =>
          obtain rfl := Option.some.inj h
          rw [List.modify_zero_cons, List.countP_cons, List.countP_cons]
          omega
      | succ i =>
          have := ih (i := i) h
          rw [List.modify_succ_cons, List.countP_cons, List.countP_cons]
          omega

theorem Bindings.Counted.pos (hc : s.Counted) {handle : Nat} (h : 0 < s.owners handle) :
    ∃ e, s.handles handle = some e := by
  cases hhandle : s.handles handle with
  | none => exact absurd (hc.owned handle hhandle) (by omega)
  | some e => exact ⟨e, rfl⟩

theorem Bindings.owners_pos_of_model {model : Nat} {m : bergamot.Model}
    (hmodel : s.models[model]? = some m) (hstate : m.state ≠ .dropped) :
    0 < s.owners m.engine := by
  have : 0 < s.models.countP (bergamot.Model.holds m.engine) :=
    List.countP_pos_iff.mpr ⟨m, List.mem_of_getElem? hmodel, by
      simp [bergamot.Model.holds, hstate]⟩
  rw [Bindings.owners]
  omega

theorem Bindings.owners_setState {model : Nat} {m : bergamot.Model}
    (hmodel : s.models[model]? = some m) (state : ModelState) (handle : Nat) :
    (s.setState model state).owners handle
        + (if m.holds handle then 1 else 0)
      = s.owners handle
        + if m.engine = handle ∧ state ≠ .dropped then 1 else 0 := by
  have := countP_modify (fun m : bergamot.Model => { m with state := state })
    (bergamot.Model.holds handle) hmodel
  have hnew : (if ({ m with state := state } : bergamot.Model).holds handle then 1 else 0)
      = if m.engine = handle ∧ state ≠ .dropped then 1 else 0 := by
    simp [bergamot.Model.holds]
  rw [hnew] at this
  simp only [Bindings.owners, Bindings.setState]
  omega

theorem Bindings.owners_dropEngine {engine handle : Nat}
    (hengine : s.engine engine = some handle) (handle' : Nat) :
    ({ s with engines := s.engines.set engine none } : Bindings).owners handle'
        + (if handle = handle' then 1 else 0) = s.owners handle' := by
  have hget := Bindings.engine_eq_some.mp hengine
  have hset : s.engines.set engine none = s.engines.modify engine fun _ => none := by
    rw [List.modify_eq_set]
  have := countP_modify (fun _ : Option Nat => none) (fun x => x == some handle') hget
  simp only [Bindings.owners, List.count, hset]
  simp only [beq_iff_eq, Option.some.injEq, reduceCtorEq, if_false] at this
  omega

/-- One handle changes, and its owners with it. -/
theorem Bindings.Counted.update (hc : s.Counted) {handle : Nat} {x : Option EngineHandle}
    (hhandles : s'.handles = Function.update s.handles handle x)
    (hself : s'.owners handle = x.elim 0 EngineHandle.strong)
    (hother : ∀ handle', handle' ≠ handle → s'.owners handle' = s.owners handle') :
    s'.Counted := by
  refine ⟨fun handle' h hh => ?_, fun handle' hh => ?_⟩ <;> rw [hhandles] at hh <;>
    rcases eq_or_ne handle' handle with rfl | hne
  · rw [Function.update_self] at hh
    rw [hself, hh]
    rfl
  · rw [Function.update_of_ne hne] at hh
    exact (hc.strong _ h hh).trans (hother _ hne).symm
  · rw [Function.update_self] at hh
    rw [hself, hh]
    rfl
  · rw [Function.update_of_ne hne] at hh
    exact (hother _ hne).trans (hc.owned _ hh)

/-- An owner lets go of its handle. -/
theorem Bindings.Counted.release (hc : s.Counted) {handle : Nat}
    (howners : ∀ handle', s'.owners handle' + (if handle = handle' then 1 else 0)
      = s.owners handle') (hhandles : s'.handles = s.handles) : (s'.release handle).Counted := by
  refine hc.update (by rw [Bindings.release, hhandles]) ?_ fun handle' hne => ?_
  · have hcount := howners handle
    rw [if_pos rfl] at hcount
    obtain ⟨h, hh⟩ := hc.pos (by omega : 0 < s.owners handle)
    have hstrong := hc.strong _ h hh
    rw [hh]
    show s'.owners handle = h.strong - 1
    omega
  · have hcount := howners handle'
    rw [if_neg (Ne.symm hne)] at hcount
    exact hcount

theorem Bindings.counted_init : Bindings.init.Counted where
  strong := fun _ _ h => by cases h
  owned := fun _ _ => rfl

theorem Bindings.counted_step (h : s.Transition e s' calls) (hc : s.Counted) : s'.Counted := by
  cases h with
  | createFailed | loadFailed | translate | translateFailed | foreign => exact hc
  | @create handle ptr hfree =>
      have howners : ∀ handle', Bindings.owners { s with
          handles := Function.update s.handles handle (some ⟨ptr, 1⟩)
          engines := s.engines ++ [some handle] } handle'
          = s.owners handle' + if handle = handle' then 1 else 0 := by
        intro handle'
        simp only [Bindings.owners, List.count_append, List.count_singleton, beq_iff_eq,
          Option.some.injEq]
        omega
      refine hc.update rfl ?_ fun handle' hne => ?_
      · rw [howners, if_pos rfl, hc.owned handle hfree]
        rfl
      · rw [howners, if_neg (Ne.symm hne), Nat.add_zero]
  | @load engine handle ptr h hengine hhandle =>
      have howners : ∀ handle', Bindings.owners { s with
          handles := Function.update s.handles handle (some h.retain)
          models := s.models ++ [⟨ptr, handle, .live⟩] } handle'
          = s.owners handle' + if handle = handle' then 1 else 0 := by
        intro handle'
        have hholds : bergamot.Model.holds handle' ⟨ptr, handle, .live⟩ = true
            ↔ handle = handle' := by
          simp [bergamot.Model.holds]
        simp only [Bindings.owners, List.countP_append, List.countP_singleton, hholds]
        omega
      refine hc.update rfl ?_ fun handle' hne => ?_
      · rw [howners, if_pos rfl, ← hc.strong _ h hhandle]
        rfl
      · rw [howners, if_neg (Ne.symm hne), Nat.add_zero]
  | @dropModel model m hmodel hlive =>
      have howners : ∀ handle', (s.setState model .unloaded).owners handle' = s.owners handle' := by
        intro handle'
        have := Bindings.owners_setState hmodel .unloaded handle'
        simp only [bergamot.Model.holds, hlive] at this
        simpa using this
      refine ⟨fun handle' h hh => ?_, fun handle' hh => ?_⟩ <;> rw [howners]
      · exact hc.strong _ h hh
      · exact hc.owned _ hh
  | @releaseModel model m hmodel hunloaded =>
      refine hc.release (fun handle' => ?_) rfl
      have := Bindings.owners_setState hmodel .dropped handle'
      simp only [bergamot.Model.holds, hunloaded] at this
      simpa using this
  | dropEngine hengine =>
      exact hc.release (fun handle' => Bindings.owners_dropEngine hengine handle') rfl
  | @dropHandle handle h hhandle hstrong =>
      exact hc.update rfl ((hc.strong _ h hhandle).symm.trans hstrong) fun _ _ => rfl

end Counted

/-! ## Both sides -/

/-- The engine that the handle owns. -/
def Bindings.ptr (s : Bindings) (handle : Nat) : Option Nat :=
  (s.handles handle).map EngineHandle.ptr

/-- The library has the engines of the handles, and on them the models that
are live; nothing else is left of a call. -/
structure Wired.Backed (s : Wired) : Prop where
  engines : ∀ ptr, ptr ∈ s.dg.engines ↔ ∃ handle, s.rust.ptr handle = some ptr
  apart : ∀ handle handle' ptr, s.rust.ptr handle = some ptr → s.rust.ptr handle' = some ptr →
    handle = handle'
  models : ∀ loaded, loaded ∈ s.dg.models ↔ ∃ model m, s.rust.model model = some m
    ∧ m.ptr = loaded.1 ∧ s.rust.ptr m.engine = some loaded.2
  modelsApart : ∀ model model' m m', s.rust.model model = some m → s.rust.model model' = some m' →
    m.ptr = m'.ptr → model = model'
  results : s.dg.results = []
  errors : s.dg.errors = []

section Backed

variable {s : Bindings} {dg : Dg} {rust : Bindings} {calls : List DgCall} {e : BindingsEvent}

theorem Bindings.ptr_of_handle {handle : Nat} {h : EngineHandle}
    (hhandle : s.handles handle = some h) : s.ptr handle = some h.ptr := by
  rw [Bindings.ptr, hhandle]
  rfl

theorem Bindings.ptr_update (handle : Nat) (x : Option EngineHandle) (handle' : Nat) :
    Bindings.ptr { s with handles := Function.update s.handles handle x } handle'
      = if handle' = handle then x.map EngineHandle.ptr else s.ptr handle' := by
  simp only [Bindings.ptr, Function.update_apply]
  split <;> rfl

@[simp] theorem Bindings.ptr_release (handle : Nat) : (s.release handle).ptr = s.ptr := by
  funext handle'
  refine (Bindings.ptr_update handle _ handle').trans ?_
  split
  · rename_i heq
    rw [heq, Bindings.ptr]
    cases s.handles handle <;> rfl
  · rfl

@[simp] theorem Bindings.ptr_setState (model : Nat) (state : ModelState) :
    (s.setState model state).ptr = s.ptr := rfl

@[simp] theorem Bindings.model_release (handle : Nat) : (s.release handle).model = s.model := rfl

theorem Bindings.model_setState_self {model : Nat} {state : ModelState} (hstate : state ≠ .live) :
    (s.setState model state).model model = none := by
  rw [Bindings.model, Option.filter_eq_none_iff]
  intro m hm
  rw [Bindings.setState, List.getElem?_modify_eq] at hm
  obtain ⟨m, -, rfl⟩ := Option.map_eq_some_iff.mp hm
  simpa using hstate

theorem Bindings.model_setState_of_ne {model model' : Nat} {state : ModelState}
    (hne : model' ≠ model) : (s.setState model state).model model' = s.model model' := by
  show (((s.models.modify model _)[model']?).filter _ : Option bergamot.Model) = _
  rw [List.getElem?_modify_ne _ _ (Ne.symm hne)]
  rfl

/-- A live model keeps its engine. -/
theorem Bindings.Counted.ptr_of_model (hc : s.Counted) {model : Nat} {m : bergamot.Model}
    (hmodel : s.model model = some m) : ∃ ptr, s.ptr m.engine = some ptr := by
  obtain ⟨hget, hlive⟩ := Bindings.model_eq_some.mp hmodel
  obtain ⟨h, hh⟩ := hc.pos (Bindings.owners_pos_of_model hget (by rw [hlive]; decide))
  exact ⟨h.ptr, Bindings.ptr_of_handle hh⟩

/-- What a call that failed has stored is freed. -/
theorem Dg.failed {call : DgCall} {err : Option Nat} (hout : call.out = some (.error err))
    (hallows : dg.Allows call) (herrors : dg.errors = []) :
    dg.AllowsAll (call :: take_error err) ∧ dg.run (call :: take_error err) = dg := by
  have happly : dg.apply call = { dg with errors := err.toList } := by
    cases call <;> cases hout <;> simp [Dg.apply, herrors]
  have heq : { dg with errors := [] } = dg := by rw [← herrors]
  cases err with
  | none =>
      refine ⟨⟨hallows, trivial⟩, ?_⟩
      show dg.apply call = dg
      rw [happly]
      exact heq
  | some err =>
      refine ⟨⟨hallows, ?_, ?_, trivial⟩, ?_⟩
      · rw [happly]
        exact List.mem_singleton_self err
      · rw [happly]
        exact List.mem_singleton_self err
      · show ((dg.apply call).apply (.errorMessage err)).apply (.errorFree err) = dg
        rw [happly]
        simpa [Dg.apply] using heq

/-- Values that look the same to the library. -/
theorem Wired.Backed.of_views (hb : Wired.Backed ⟨s, dg⟩) (hptr : rust.ptr = s.ptr)
    (hmodel : rust.model = s.model) : Wired.Backed ⟨rust, dg⟩ where
  engines := fun ptr => hptr ▸ hb.engines ptr
  apart := fun handle handle' ptr => hptr ▸ hb.apart handle handle' ptr
  models := fun loaded => hptr ▸ hmodel ▸ hb.models loaded
  modelsApart := fun model model' m m' => hmodel ▸ hb.modelsApart model model' m m'
  results := hb.results
  errors := hb.errors

theorem Wired.Backed.allows_translate (hb : Wired.Backed ⟨s, dg⟩) {first handle : Nat}
    {second : Option Nat} {out : Except (Option Nat) Nat} {h : EngineHandle} {a : bergamot.Model}
    {b : Option bergamot.Model} (hhandle : s.handles handle = some h)
    (hfirst : s.model first = some a) (hsecond : second.mapM s.model = some b)
    (hsame : bergamot.sameEngine handle a b = true) :
    dg.Allows (.translateBatch h.ptr a.ptr (b.map (·.ptr)) out) := by
  rw [bergamot.sameEngine, Bool.and_eq_true, decide_eq_true_eq, Option.all_eq_true] at hsame
  have hptr := Bindings.ptr_of_handle hhandle
  refine ⟨(hb.engines _).mpr ⟨handle, hptr⟩, (hb.models _).mpr ⟨first, a, hfirst, rfl, ?_⟩,
    fun model hmodel => ?_⟩
  · rw [hsame.1]
    exact hptr
  · obtain ⟨m, rfl, rfl⟩ := Option.map_eq_some_iff.mp hmodel
    have hm := hsame.2 m rfl
    rw [decide_eq_true_eq] at hm
    cases second with
    | none => cases hsecond
    | some model =>
        obtain ⟨m', hm', h'⟩ := Option.map_eq_some_iff.mp (by simpa using hsecond :
          (s.model model).map some = some (some m))
        cases h'
        refine (hb.models _).mpr ⟨model, m, hm', rfl, ?_⟩
        rw [hm]
        exact hptr

/-- A step makes calls that the header allows, each where it is made, and
both sides stay alike. -/
theorem Wired.backed_step (htr : s.Transition e rust calls) (hgives : dg.GivesAll calls)
    (hc : s.Counted) (hb : Wired.Backed ⟨s, dg⟩) :
    dg.AllowsAll calls ∧ Wired.Backed ⟨rust, dg.run calls⟩ := by
  cases htr with
  | @create handle ptr hfree =>
      have hptr := Bindings.ptr_update (s := { s with engines := s.engines ++ [some handle] })
        handle (some ⟨ptr, 1⟩)
      have hnone : s.ptr handle = none := by rw [Bindings.ptr, hfree]; rfl
      have hnew : ∀ handle', s.ptr handle' ≠ some ptr := fun handle' h =>
        hgives.1 ((hb.engines ptr).mpr ⟨handle', h⟩)
      refine ⟨⟨trivial, trivial⟩, ⟨fun ptr' => ?_, fun a b ptr' ha hb' => ?_, fun loaded => ?_,
        hb.modelsApart, hb.results, hb.errors⟩⟩
      · refine List.mem_cons.trans ⟨?_, ?_⟩
        · rintro (rfl | hmem)
          · exact ⟨handle, (hptr handle).trans (if_pos rfl)⟩
          · obtain ⟨handle', h'⟩ := (hb.engines ptr').mp hmem
            refine ⟨handle', (hptr handle').trans ((if_neg ?_).trans h')⟩
            rintro rfl
            rw [hnone] at h'
            cases h'
        · rintro ⟨handle', h'⟩
          have h' := (hptr handle').symm.trans h'
          split at h'
          · exact Or.inl (Option.some.inj h').symm
          · exact Or.inr ((hb.engines ptr').mpr ⟨handle', h'⟩)
      · have ha := (hptr a).symm.trans ha
        have hb' := (hptr b).symm.trans hb'
        split at ha <;> split at hb'
        · simp_all
        · cases ha
          exact absurd hb' (hnew b)
        · cases hb'
          exact absurd ha (hnew a)
        · exact hb.apart a b ptr' ha hb'
      · refine (hb.models loaded).trans (exists_congr fun model => exists_congr fun m =>
          and_congr_right fun hmodel => and_congr_right fun _ => ?_)
        obtain ⟨p, hp⟩ := hc.ptr_of_model hmodel
        rw [hptr m.engine, if_neg]
        · rfl
        · intro heq
          rw [heq, hnone] at hp
          cases hp
  | createFailed =>
      obtain ⟨hallows, hrun⟩ := @Dg.failed dg (.engineCreate _) _ rfl trivial hb.errors
      exact ⟨hallows, hrun.symm ▸ hb⟩
  | @load engine handle ptr h hengine hhandle =>
      have hhptr := Bindings.ptr_of_handle hhandle
      have hptr : Bindings.ptr { s with
          handles := Function.update s.handles handle (some h.retain)
          models := s.models ++ [⟨ptr, handle, .live⟩] } = s.ptr := by
        funext handle'
        refine (Bindings.ptr_update (s := { s with models := s.models ++ [⟨ptr, handle, .live⟩] })
          handle _ handle').trans ?_
        split
        · rename_i heq
          rw [heq, hhptr]
          rfl
        · rfl
      have hmodel : ∀ model m, Bindings.model { s with
          handles := Function.update s.handles handle (some h.retain)
          models := s.models ++ [⟨ptr, handle, .live⟩] } model = some m
          ↔ s.model model = some m ∨ model = s.models.length ∧ m = ⟨ptr, handle, .live⟩ := by
        intro model m
        rw [Bindings.model_eq_some, Bindings.model_eq_some]
        constructor
        · rintro ⟨hget, hlive⟩
          rcases getElem?_concat_cases hget with hold | hnew
          · exact Or.inl ⟨hold, hlive⟩
          · exact Or.inr hnew
        · rintro (⟨hget, hlive⟩ | ⟨rfl, rfl⟩)
          · refine ⟨?_, hlive⟩
            exact (List.getElem?_append_left (List.getElem?_eq_some_iff.mp hget).1).trans hget
          · exact ⟨List.getElem?_concat_length, rfl⟩
      -- the library gave an address that no live model has
      have hnew : ∀ model m, s.model model = some m → m.ptr ≠ ptr := by
        intro model m hm hp
        obtain ⟨e, he⟩ := hc.ptr_of_model hm
        exact hgives.1 (m.ptr, e) ((hb.models _).mpr ⟨model, m, hm, rfl, he⟩) hp
      refine ⟨⟨(hb.engines _).mpr ⟨handle, hhptr⟩, trivial⟩, ⟨fun ptr' => ?_, fun a b ptr' => ?_,
        fun loaded => ?_, fun model model' m m' hm hm' hp => ?_, hb.results, hb.errors⟩⟩
      · exact hptr ▸ hb.engines ptr'
      · exact hptr ▸ hb.apart a b ptr'
      · refine List.mem_cons.trans ⟨?_, ?_⟩
        · rintro (rfl | hmem)
          · refine ⟨s.models.length, _, (hmodel _ _).mpr (Or.inr ⟨rfl, rfl⟩), rfl, ?_⟩
            rw [hptr]
            exact hhptr
          · obtain ⟨model, m, hm, hp, he⟩ := (hb.models loaded).mp hmem
            exact ⟨model, m, (hmodel _ _).mpr (Or.inl hm), hp, hptr ▸ he⟩
        · rintro ⟨model, m, hm, hp, he⟩
          rw [hptr] at he
          rcases (hmodel _ _).mp hm with hm | ⟨-, rfl⟩
          · exact Or.inr ((hb.models loaded).mpr ⟨model, m, hm, hp, he⟩)
          · exact Or.inl (Prod.ext hp.symm (Option.some.inj (he.symm.trans hhptr)))
      · rcases (hmodel _ _).mp hm with hm | ⟨rfl, rfl⟩ <;>
          rcases (hmodel _ _).mp hm' with hm' | ⟨rfl, rfl⟩
        · exact hb.modelsApart model model' m m' hm hm' hp
        · exact absurd hp (hnew model m hm)
        · exact absurd hp.symm (hnew model' m' hm')
        · rfl
  | @loadFailed engine handle err h hengine hhandle =>
      obtain ⟨hallows, hrun⟩ := @Dg.failed dg (.modelLoad h.ptr (.error err)) _ rfl
        ((hb.engines _).mpr ⟨handle, Bindings.ptr_of_handle hhandle⟩) hb.errors
      exact ⟨hallows, hrun.symm ▸ hb⟩
  | @translate engine first handle result second h a b hengine hhandle hfirst hsecond hsame =>
      refine ⟨⟨hb.allows_translate hhandle hfirst hsecond hsame, List.mem_cons_self,
        List.mem_cons_self, trivial⟩, ?_⟩
      have hrun : dg.run [.translateBatch h.ptr a.ptr (b.map (·.ptr)) (.ok result),
          .resultRead result, .resultFree result] = { dg with results := [] } := by
        simp [Dg.run, Dg.apply, show dg.results = [] from hb.results]
      rw [hrun]
      exact ⟨hb.engines, hb.apart, hb.models, hb.modelsApart, rfl, hb.errors⟩
  | @translateFailed engine first handle err second h a b hengine hhandle hfirst hsecond hsame =>
      obtain ⟨hallows, hrun⟩ := @Dg.failed dg
        (.translateBatch h.ptr a.ptr (b.map (·.ptr)) (.error err)) err rfl
        (hb.allows_translate hhandle hfirst hsecond hsame) hb.errors
      exact ⟨hallows, hrun.symm ▸ hb⟩
  | foreign => exact ⟨trivial, hb⟩
  | @dropModel model m hmodel hlive =>
      have hm := Bindings.model_eq_some.mpr ⟨hmodel, hlive⟩
      obtain ⟨p, hp⟩ := hc.ptr_of_model hm
      have hview : ∀ model' m', (s.setState model .unloaded).model model' = some m'
          ↔ s.model model' = some m' ∧ model' ≠ model := by
        intro model' m'
        rcases eq_or_ne model' model with rfl | hne
        · rw [Bindings.model_setState_self (by decide)]
          simp
        · rw [Bindings.model_setState_of_ne hne]
          simp [hne]
      refine ⟨⟨⟨(m.ptr, p), (hb.models _).mpr ⟨model, m, hm, rfl, hp⟩, rfl⟩, trivial⟩,
        ⟨hb.engines, hb.apart, fun loaded => ?_, fun model₁ model₂ m₁ m₂ h₁ h₂ => ?_,
          hb.results, hb.errors⟩⟩
      · show loaded ∈ dg.models.filter (·.1 ≠ m.ptr) ↔ _
        rw [List.mem_filter, hb.models loaded, decide_eq_true_eq]
        constructor
        · rintro ⟨⟨model', m', hm', hp', he'⟩, hne⟩
          refine ⟨model', m', (hview _ _).mpr ⟨hm', ?_⟩, hp', he'⟩
          rintro rfl
          obtain rfl := Option.some.inj (hm.symm.trans hm')
          exact hne hp'.symm
        · rintro ⟨model', m', hm', hp', he'⟩
          obtain ⟨hm', hne⟩ := (hview _ _).mp hm'
          refine ⟨⟨model', m', hm', hp', he'⟩, fun heq => ?_⟩
          exact hne (hb.modelsApart model' model m' m hm' hm (hp'.trans heq))
      · exact hb.modelsApart model₁ model₂ m₁ m₂ ((hview _ _).mp h₁).1 ((hview _ _).mp h₂).1
  | @releaseModel model m hmodel hunloaded =>
      refine ⟨trivial, hb.of_views ?_ ?_⟩
      · rw [Bindings.ptr_release, Bindings.ptr_setState]
      · rw [Bindings.model_release]
        funext model'
        rcases eq_or_ne model' model with rfl | hne
        · rw [Bindings.model_setState_self (by decide), Bindings.model, hmodel]
          simp [Option.filter, hunloaded]
        · exact Bindings.model_setState_of_ne hne
  | dropEngine hengine =>
      refine ⟨trivial, hb.of_views ?_ rfl⟩
      rw [Bindings.ptr_release]
      rfl
  | @dropHandle handle h hhandle hstrong =>
      have hhptr := Bindings.ptr_of_handle hhandle
      have hptr := Bindings.ptr_update (s := s) handle none
      have hnone := (hc.strong handle h hhandle).symm.trans hstrong
      -- nobody is left to own the handle
      have hmodels : ∀ model m, s.model model = some m → m.engine ≠ handle := by
        intro model m hm heq
        obtain ⟨hget, hlive⟩ := Bindings.model_eq_some.mp hm
        have hpos := Bindings.owners_pos_of_model hget (by rw [hlive]; decide)
        rw [heq] at hpos
        omega
      refine ⟨⟨⟨(hb.engines _).mpr ⟨handle, hhptr⟩, fun loaded hmem heq => ?_⟩, trivial⟩,
        ⟨fun ptr' => ?_, fun a b ptr' ha hb' => ?_, fun loaded => ?_, hb.modelsApart, hb.results,
          hb.errors⟩⟩
      · obtain ⟨model, m, hm, -, he⟩ := (hb.models loaded).mp hmem
        exact hmodels model m hm (hb.apart _ _ _ he (heq.symm ▸ hhptr))
      · show ptr' ∈ dg.engines.filter (· ≠ h.ptr) ↔ _
        rw [List.mem_filter, hb.engines ptr', decide_eq_true_eq]
        constructor
        · rintro ⟨⟨handle', h'⟩, hne⟩
          refine ⟨handle', (hptr handle').trans ((if_neg ?_).trans h')⟩
          rintro rfl
          exact hne (Option.some.inj (h'.symm.trans hhptr))
        · rintro ⟨handle', h'⟩
          have h' := (hptr handle').symm.trans h'
          split at h'
          · cases h'
          · rename_i hne
            refine ⟨⟨handle', h'⟩, fun heq => hne ?_⟩
            exact hb.apart _ _ _ h' (heq.symm ▸ hhptr)
      · have ha := (hptr a).symm.trans ha
        have hb' := (hptr b).symm.trans hb'
        split at ha
        · cases ha
        · split at hb'
          · cases hb'
          · exact hb.apart a b ptr' ha hb'
      · refine (hb.models loaded).trans (exists_congr fun model => exists_congr fun m =>
          and_congr_right fun hmodel => and_congr_right fun _ => ?_)
        rw [hptr m.engine, if_neg (hmodels model m hmodel)]

/-! ## Whole runs -/

theorem Wired.backed_init : Wired.init.Backed := by
  constructor <;> simp [Wired.init, Bindings.init, Dg.init, Bindings.ptr, Bindings.model]

theorem Wired.backed_of_reach {s : Wired} (h : Machine.Reach Wired.step Wired.Gives Wired.init s) :
    s.rust.Counted ∧ s.Backed := by
  refine h.invariant (I := fun s : Wired => s.rust.Counted ∧ s.Backed)
    ⟨Bindings.counted_init, Wired.backed_init⟩ fun s e s' _ hok hs hi => ?_
  obtain ⟨next, hnext, rfl⟩ := Option.map_eq_some_iff.mp hs
  have htr : s.rust.Transition e next.1 next.2 := Bindings.step_cases hnext
  exact ⟨Bindings.counted_step htr hi.1,
    (Wired.backed_step htr (hok next hnext) hi.1 hi.2).2⟩

/-- With the handles everything is gone. -/
theorem Wired.Backed.eq_init {s : Wired} (hb : s.Backed)
    (hnone : ∀ handle, s.rust.handles handle = none) : s.dg = .init := by
  have hptr : ∀ handle, s.rust.ptr handle = none := fun handle => by
    rw [Bindings.ptr, hnone handle]
    rfl
  have hengines : s.dg.engines = [] := by
    refine List.eq_nil_iff_forall_not_mem.mpr fun ptr hmem => ?_
    obtain ⟨handle, hh⟩ := (hb.engines ptr).mp hmem
    rw [hptr] at hh
    cases hh
  have hmodels : s.dg.models = [] := by
    refine List.eq_nil_iff_forall_not_mem.mpr fun loaded hmem => ?_
    obtain ⟨model, m, -, -, he⟩ := (hb.models loaded).mp hmem
    rw [hptr] at he
    cases he
  have hresults := hb.results
  have herrors := hb.errors
  cases hdg : s.dg
  simp_all [Dg.init]

/-- No `Engine` and no `Model` is left. -/
structure Bindings.Dropped (s : Bindings) : Prop where
  engines : ∀ engine, s.engine engine = none
  models : ∀ m ∈ s.models, m.state = .dropped

/-- **The library is called as its header asks, and nothing is leaked.** Whatever
is done with the values, by any threads and in any order of drops, no handle is
used after it was freed or freed twice, models are translated with on their own
engine only, and an engine is destroyed after its models. When the values are
gone, what the last owners have dropped is all that there was. -/
theorem bindings_contract {s : Wired}
    (h : Machine.Reach Wired.step Wired.Gives Wired.init s) :
    (∀ e, s.Gives e → s.Allows e)
      ∧ (s.rust.Dropped → (∀ handle, s.rust.handles handle ≠ none →
          (s.rust.step (.dropHandle handle)).isSome = true)
        ∧ ((∀ handle, s.rust.handles handle = none) → s.dg = .init)) := by
  obtain ⟨hc, hb⟩ := Wired.backed_of_reach h
  refine ⟨fun e hgives next hnext => ?_, fun hdropped => ⟨fun handle hhandle => ?_, fun hnone => ?_⟩⟩
  · have htr : s.rust.Transition e next.1 next.2 := Bindings.step_cases hnext
    exact (Wired.backed_step htr (hgives next hnext) hc hb).1
  · obtain ⟨h, hh⟩ := Option.ne_none_iff_exists'.mp hhandle
    have hcount : s.rust.engines.count (some handle) = 0 := by
      rw [List.count_eq_zero]
      intro hmem
      obtain ⟨engine, hget⟩ := List.mem_iff_getElem?.mp hmem
      have := Bindings.engine_eq_some.mpr hget
      rw [hdropped.engines engine] at this
      cases this
    have hcountP : s.rust.models.countP (bergamot.Model.holds handle) = 0 := by
      rw [List.countP_eq_zero]
      intro m hmem
      simp [bergamot.Model.holds, hdropped.models m hmem]
    have hstrong : h.strong = 0 := by
      rw [hc.strong handle h hh, Bindings.owners, hcount, hcountP]
    simp [Bindings.step, hh, hstrong]
  · exact hb.eq_init hnone

/-- An engine's model outlives it on another thread; a second engine gets the
addresses that a failed load and a result had, and refuses the model. -/
theorem bindings_contract_outlived :
    ∃ s, Machine.Reach Wired.step Wired.Gives Wired.init s ∧ s.rust.engines = [none, some 17]
      ∧ s.dg.engines = [101, 100] ∧ s.dg.models = [(200, 100)]
      ∧ s.rust.step (.translateBatch 1 0 none (.ok 300)) ≠ none ∧ ∀ e, s.Gives e → s.Allows e := by
  obtain ⟨s, hreach, hs⟩ := Machine.exists_reach_of_run Wired.step Wired.Gives Wired.init
    [.new 16 (.ok 100), .load 0 (.error (some 300)), .load 0 (.ok 200),
      .translateBatch 0 0 none (.ok 300), .dropEngine 0, .new 17 (.ok 101),
      .translateBatch 1 0 none (.ok 300)]
    (fun s => decide (s.rust.engines = [none, some 17] ∧ s.dg.engines = [101, 100]
      ∧ s.dg.models = [(200, 100)]
      ∧ (s.rust.step (.translateBatch 1 0 none (.ok 300))).isSome = true)) (by decide)
  obtain ⟨hvalues, hengines, hmodels, hrefused⟩ := of_decide_eq_true hs
  exact ⟨s, hreach, hvalues, hengines, hmodels, Option.isSome_iff_ne_none.mp hrefused,
    (bindings_contract hreach).1⟩

end Backed

end Dragomand
