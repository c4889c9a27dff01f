import Dragomand.RunTranslation

/-!
# The legs of a route

`prepare_pair` chooses what to install, `plan_route` which route there is,
each by a rule of its own. They agree: a route is planned when its pair is
found, or, if it may pivot, when both legs are (`Routable`); the future of
`prepare_pair` installs a pair only when a route can use it and the stores
have just been found to have no model of it, and it asks for the route only
when every pair that the route needs was found or has been installed
(`meets_prepare_pair`).
-/

namespace Dragomand

/-! ## Planning -/

/-- The stores have a model of the pair that the engine supports. -/
def Disk.Finds (disk : Disk) (key : Key) : Prop := (disk.resolve key.1 key.2).isSome = true

/-- There is a route over the pairs that are found. -/
def Routable (found : Key → Prop) (source target : String) (allow_pivot : Bool) : Prop :=
  found (source, target)
    ∨ (allow_pivot = true ∧ source ≠ PIVOT_LANGUAGE ∧ target ≠ PIVOT_LANGUAGE
      ∧ found (source, PIVOT_LANGUAGE) ∧ found (PIVOT_LANGUAGE, target))

theorem Routable.mono {found found' : Key → Prop} {source target : String} {allow_pivot : Bool}
    (h : Routable found source target allow_pivot) (hfound : ∀ key, found key → found' key) :
    Routable found' source target allow_pivot := by
  rcases h with hdirect | ⟨hallow, hsource, htarget, hfirst, hsecond⟩
  · exact Or.inl (hfound _ hdirect)
  · exact Or.inr ⟨hallow, hsource, htarget, hfound _ hfirst, hfound _ hsecond⟩

/-- The pairs whose models a route uses. -/
def routePairs (source target : String) : Option String → List Key
  | none => [(source, target)]
  | some pivot => [(source, pivot), (pivot, target)]

section Plan

variable {disk : Disk} {source target : String} {allow_pivot : Bool}

theorem plan_route_eq_ok {pivot : Option String} :
    plan_route disk source target allow_pivot = .ok pivot
      ↔ (pivot = none ∧ disk.Finds (source, target))
        ∨ (pivot = some PIVOT_LANGUAGE ∧ ¬ disk.Finds (source, target) ∧ allow_pivot = true
          ∧ source ≠ PIVOT_LANGUAGE ∧ target ≠ PIVOT_LANGUAGE
          ∧ disk.Finds (source, PIVOT_LANGUAGE) ∧ disk.Finds (PIVOT_LANGUAGE, target)) := by
  unfold plan_route Disk.Finds
  dsimp only
  by_cases hdirect : (disk.resolve source target).isSome = true
  · rw [if_pos hdirect, Except.ok.injEq]
    simp only [hdirect, not_true_eq_false, false_and, and_false, or_false, and_true]
    exact eq_comm
  · rw [if_neg hdirect]
    by_cases hnone : (!allow_pivot || source = PIVOT_LANGUAGE || target = PIVOT_LANGUAGE) = true
    · rw [if_pos hnone]
      simp only [Bool.or_eq_true, Bool.not_eq_true', decide_eq_true_eq] at hnone
      simp only [reduceCtorEq, hdirect, and_false, false_or, false_iff]
      rintro ⟨-, -, hallow, hsource, htarget, -⟩
      rcases hnone with (hdenied | hsource') | htarget'
      · rw [hallow] at hdenied
        cases hdenied
      · exact hsource hsource'
      · exact htarget htarget'
    · rw [if_neg hnone]
      simp only [Bool.or_eq_true, Bool.not_eq_true', decide_eq_true_eq, not_or,
        Bool.not_eq_false] at hnone
      obtain ⟨⟨hallow, hsource⟩, htarget⟩ := hnone
      simp only [Bool.not_eq_true] at hdirect
      simp only [hdirect, Bool.false_eq_true, and_false, false_or, not_false_eq_true, true_and,
        hallow, hsource, htarget, ne_eq, Option.isNone_iff_eq_none]
      cases disk.resolve source PIVOT_LANGUAGE with
      | none => simp
      | some first =>
          cases disk.resolve PIVOT_LANGUAGE target with
          | none => simp
          | some second =>
              simp only [reduceCtorEq, if_false, List.append_nil, List.isEmpty_nil, if_true,
                Except.ok.injEq, Option.isSome_some, and_true]
              exact eq_comm

/-- `plan_route` plans a route when there is one. -/
theorem plan_route_iff : (∃ pivot, plan_route disk source target allow_pivot = .ok pivot)
    ↔ Routable disk.Finds source target allow_pivot := by
  simp only [plan_route_eq_ok, Routable]
  constructor
  · rintro ⟨pivot, ⟨-, hdirect⟩ | ⟨-, -, hallow, hsource, htarget, hlegs⟩⟩
    · exact Or.inl hdirect
    · exact Or.inr ⟨hallow, hsource, htarget, hlegs⟩
  · intro h
    by_cases hdirect : disk.Finds (source, target)
    · exact ⟨none, Or.inl ⟨rfl, hdirect⟩⟩
    · exact ⟨_, Or.inr ⟨rfl, hdirect, h.resolve_left hdirect⟩⟩

/-- The result is not that a model is missing. -/
def NotMissing {α : Type} (result : Except Error α) : Prop :=
  ∀ pair, result ≠ .error (.notInstalled pair)

theorem NotMissing.bind {α β : Type} {result : Except Error α} {f : α → Except Error β}
    (h : NotMissing result) (hf : ∀ a, NotMissing (f a)) : NotMissing (result.bind f) := by
  cases result with
  | ok a => exact hf a
  | error e =>
      intro pair heq
      cases heq
      exact h pair rfl

theorem NotMissing.map {α β : Type} {result : Except Error α} (h : NotMissing result)
    (f : α → β) : NotMissing (result.map f) := by
  cases result with
  | ok a => nofun
  | error e =>
      intro pair heq
      cases heq
      exact h pair rfl

theorem notMissing_model_spec (m : InstalledModel) : NotMissing (model_spec m) := by
  intro pair h
  unfold model_spec at h
  split at h <;> cases h

/-- Over stores in which nothing has gone since the route was planned, the
models of the route are found. -/
theorem notMissing_route_specs {specs : Disk} {pivot : Option String}
    (hplan : plan_route disk source target allow_pivot = .ok pivot)
    (hkept : ∀ key, disk.Finds key → specs.Finds key) :
    NotMissing (route_specs specs source target pivot) := by
  rcases plan_route_eq_ok.mp hplan with ⟨rfl, hdirect⟩ | ⟨rfl, -, -, -, -, hfirst, hsecond⟩
  · obtain ⟨m, hm⟩ := Option.isSome_iff_exists.mp (hkept _ hdirect)
    simp only [route_specs, hm]
    exact (notMissing_model_spec m).map _
  · obtain ⟨first, hfirst⟩ := Option.isSome_iff_exists.mp (hkept _ hfirst)
    obtain ⟨second, hsecond⟩ := Option.isSome_iff_exists.mp (hkept _ hsecond)
    simp only [route_specs, hfirst, hsecond]
    exact (notMissing_model_spec first).bind fun _ => (notMissing_model_spec second).map _

/-- A load that has a route does not fail for want of a model. -/
theorem Workers.ensure_loaded_found {w w' : Workers} {caller budget_mb : Nat} {specs : Disk}
    {e : Error} (hroute : Routable disk.Finds source target allow_pivot)
    (hkept : ∀ key, disk.Finds key → specs.Finds key)
    (h : w.ensure_loaded caller source target allow_pivot budget_mb disk specs
      = some (w', .failed e)) (pair : String) : e ≠ .notInstalled pair := by
  obtain ⟨pivot, hplan⟩ := plan_route_iff.mpr hroute
  unfold Workers.ensure_loaded at h
  split at h
  · cases h
  · split at h
    · cases h
    · rw [hplan] at h
      dsimp only at h
      split at h
      · rename_i hspecs
        cases h
        rintro rfl
        exact notMissing_route_specs hplan hkept pair hspecs
      · cases h

end Plan

/-! ## What a route can use -/

/-- Some route that `plan_route` plans, over some content of the stores, uses
the pair. -/
def Usable (source target : String) (allow_pivot : Bool) (key : Key) : Prop :=
  ∃ disk pivot, plan_route disk source target allow_pivot = .ok pivot
    ∧ key ∈ routePairs source target pivot

/-- Stores with a model of each of the pairs. -/
def Disk.offering (keys : List Key) : Disk where
  resolve source target :=
    if (source, target) ∈ keys then
      some ⟨.system, [], ⟨"1.0", [⟨1, true, "", 0⟩, ⟨0, true, "", 0⟩], by decide⟩,
        ⟨SCHEMA_VERSION, "", source, target, "1.0", none, none, [], "", []⟩⟩
    else none
  pair source target m h := by
    split at h
    · cases h
      rfl
    · cases h

theorem Disk.finds_offering {keys : List Key} {key : Key} :
    (Disk.offering keys).Finds key ↔ key ∈ keys := by
  unfold Disk.Finds Disk.offering
  by_cases hkey : key ∈ keys <;> simp [hkey]

section Usable

variable {source target : String} {allow_pivot : Bool}

theorem usable_direct : Usable source target allow_pivot (source, target) :=
  ⟨.offering [(source, target)], none,
    plan_route_eq_ok.mpr (Or.inl ⟨rfl, Disk.finds_offering.mpr (List.mem_singleton_self _)⟩),
    List.mem_singleton_self _⟩

theorem usable_leg (hallow : allow_pivot = true) (hsource : source ≠ PIVOT_LANGUAGE)
    (htarget : target ≠ PIVOT_LANGUAGE) {key : Key}
    (hkey : key ∈ routePairs source target (some PIVOT_LANGUAGE)) :
    Usable source target allow_pivot key := by
  refine ⟨.offering (routePairs source target (some PIVOT_LANGUAGE)), some PIVOT_LANGUAGE,
    plan_route_eq_ok.mpr (Or.inr ⟨rfl, ?_, hallow, hsource, htarget, ?_, ?_⟩), hkey⟩
  · rw [Disk.finds_offering]
    simp [routePairs, hsource, htarget]
  · rw [Disk.finds_offering]
    exact List.mem_cons_self ..
  · rw [Disk.finds_offering]
    simp [routePairs]

end Usable

/-! ## What the future asks for -/

/-- A look at the stores found the pair, or an install of it succeeded. -/
def Provided (h : Asked) (key : Key) : Prop :=
  (∃ disk, ⟨.stores, disk⟩ ∈ h ∧ disk.Finds key)
    ∨ ∃ m, ⟨.install_pair key.1 key.2, .ok m⟩ ∈ h

/-- The last question was for the stores, and they have no model of the
pair. -/
def JustMissed (h : Asked) (key : Key) : Prop :=
  ∃ h₀ disk, h = h₀ ++ [⟨.stores, disk⟩] ∧ ¬ disk.Finds key

theorem Provided.mono {h h' : Asked} {key : Key} (hp : Provided h key) (hle : h <+: h') :
    Provided h' key := by
  rcases hp with ⟨disk, hmem, hfinds⟩ | ⟨m, hmem⟩
  · exact Or.inl ⟨disk, hle.mem hmem, hfinds⟩
  · exact Or.inr ⟨m, hle.mem hmem⟩

/-- One more answer. -/
def Asked.add (h : Asked) (op : Op) (answer : op.Answer) : Asked := h ++ [⟨op, answer⟩]

theorem Asked.prefix_add (h : Asked) {op : Op} (answer : op.Answer) : h <+: h.add op answer :=
  List.prefix_append ..

theorem Asked.mem_add (h : Asked) {op : Op} (answer : op.Answer) :
    ⟨op, answer⟩ ∈ h.add op answer :=
  List.mem_append_right _ (List.mem_singleton_self _)

theorem provided_add {h : Asked} {op : Op} {answer : op.Answer} {key : Key} :
    Provided (h.add op answer) key ↔ Provided h key
      ∨ (∃ disk, (⟨op, answer⟩ : Sigma Op.Answer) = ⟨.stores, disk⟩ ∧ disk.Finds key)
      ∨ ∃ m, (⟨op, answer⟩ : Sigma Op.Answer) = ⟨.install_pair key.1 key.2, .ok m⟩ := by
  constructor
  · rintro (⟨disk, hmem, hfinds⟩ | ⟨m, hmem⟩)
    · rcases List.mem_append.mp hmem with hmem | hmem
      · exact Or.inl (Or.inl ⟨disk, hmem, hfinds⟩)
      · exact Or.inr (Or.inl ⟨disk, (List.mem_singleton.mp hmem).symm, hfinds⟩)
    · rcases List.mem_append.mp hmem with hmem | hmem
      · exact Or.inl (Or.inr ⟨m, hmem⟩)
      · exact Or.inr (Or.inr ⟨m, (List.mem_singleton.mp hmem).symm⟩)
  · rintro (hp | ⟨disk, heq, hfinds⟩ | ⟨m, heq⟩)
    · exact hp.mono (h.prefix_add _)
    · exact Or.inl ⟨disk, heq ▸ h.mem_add answer, hfinds⟩
    · exact Or.inr ⟨m, heq ▸ h.mem_add answer⟩

/-- An operation that the future of `prepare_pair` asks for after `h`. -/
def Op.FetchesMissing (source target : String) (allow_pivot : Bool) (h : Asked) : Op → Prop
  | .install_pair source' target' =>
      JustMissed h (source', target') ∧ Usable source target allow_pivot (source', target')
        ∧ ∃ disk, ⟨.stores, disk⟩ ∈ h ∧ ¬ Routable disk.Finds source target allow_pivot
  | .ensure_loaded source' target' allow_pivot' _ =>
      (source', target', allow_pivot') = (source, target, allow_pivot)
        ∧ Routable (Provided h) source target allow_pivot
  | .check_for_updates | .refresh => False
  | _ => True

section Contract

variable {source target : String} {allow_pivot : Bool} {h : Asked} {α : Type}

/-- The contract, with a condition on how the part of the future ends. -/
abbrev FetchesMissing (source target : String) (allow_pivot : Bool)
    (post : Asked → Except Error α → Prop) (h : Asked) (p : Async α) : Prop :=
  p.Meets (Op.FetchesMissing source target allow_pivot) Asked.add post h

theorem meets_require_network :
    FetchesMissing source target allow_pivot (fun h' _ => h <+: h') h require_network := by
  refine ⟨trivial, fun config => ?_⟩
  show FetchesMissing source target allow_pivot _ _ (if config.network then _ else _)
  split
  · exact h.prefix_add _
  · exact h.prefix_add _

/-- After the legs, what was provided before is, and every leg. -/
theorem meets_installLegs (legs : List Key)
    (hlegs : ∀ leg ∈ legs, Usable source target allow_pivot leg)
    (hmissed : ∃ disk, ⟨.stores, disk⟩ ∈ h ∧ ¬ Routable disk.Finds source target allow_pivot) :
    FetchesMissing source target allow_pivot
      (fun h' result => h <+: h' ∧ (result = .ok () → ∀ leg ∈ legs, Provided h' leg)) h
      (installLegs legs) := by
  induction legs generalizing h with
  | nil => exact ⟨List.prefix_rfl, fun _ => by simp⟩
  | cons leg legs ih =>
      obtain ⟨source', target'⟩ := leg
      obtain ⟨disk₀, hmem₀, hnot⟩ := hmissed
      have hrest : ∀ {h' : Asked}, h <+: h' → Provided h' (source', target') →
          FetchesMissing source target allow_pivot (fun h'' result => h <+: h''
            ∧ (result = .ok () → ∀ leg ∈ (source', target') :: legs, Provided h'' leg)) h'
            (installLegs legs) := by
        intro h' hle hleg
        refine (ih (fun leg hmem => hlegs leg (List.mem_cons_of_mem _ hmem))
          ⟨disk₀, hle.mem hmem₀, hnot⟩).mono fun h'' result hpost => ?_
        refine ⟨hle.trans hpost.1, fun hok => List.forall_mem_cons.mpr ⟨?_, hpost.2 hok⟩⟩
        exact hleg.mono hpost.1
      refine ⟨trivial, fun disk => ?_⟩
      show FetchesMissing source target allow_pivot _ (h.add .stores disk)
        (if (disk.resolve source' target').isNone then _ else _)
      have hle : h <+: h.add .stores disk := h.prefix_add disk
      split
      · rename_i hnone
        refine ⟨⟨⟨h, disk, rfl, ?_⟩, hlegs _ (List.mem_cons_self ..), disk₀, hle.mem hmem₀, hnot⟩,
          fun answer => ?_⟩
        · unfold Disk.Finds
          rw [Option.isNone_iff_eq_none.mp hnone]
          exact Bool.false_ne_true
        · have hle' : h <+: (h.add .stores disk).add (.install_pair source' target') answer :=
            hle.trans (Asked.prefix_add _ _)
          cases answer with
          | error e => exact ⟨hle', nofun⟩
          | ok m => exact hrest hle' (Or.inr ⟨m, Asked.mem_add _ _⟩)
      · rename_i hsome
        refine hrest hle (Or.inl ⟨disk, Asked.mem_add _ _, ?_⟩)
        exact Option.isSome_iff_ne_none.mpr fun hnone => hsome (by simp [hnone])

/-- What `installMissing` does once it has planned the route. -/
def installUnplanned (source target : String) (allow_pivot : Bool) :
    Except Error (Option String) → Async Unit
  | .ok _ => pure ()
  | .error _ => do
      require_network
      ask (.emit_progress (1, 10) "downloading")
      installLegs (
        if source = PIVOT_LANGUAGE || target = PIVOT_LANGUAGE || !allow_pivot then
          [(source, target)]
        else [(source, PIVOT_LANGUAGE), (PIVOT_LANGUAGE, target)])

/-- When nothing is missing any more, there is a route. -/
theorem meets_installMissing : FetchesMissing source target allow_pivot
    (fun h' result => result = .ok () → Routable (Provided h') source target allow_pivot) h
    (installMissing source target allow_pivot) := by
  refine ⟨trivial, fun disk => ?_⟩
  have hmem : ⟨.stores, disk⟩ ∈ h.add .stores disk := h.mem_add disk
  have hprovided : ∀ key, disk.Finds key → Provided (h.add .stores disk) key :=
    fun key hfinds => Or.inl ⟨disk, hmem, hfinds⟩
  show FetchesMissing source target allow_pivot _ _
    (installUnplanned source target allow_pivot (plan_route disk source target allow_pivot))
  cases hplan : plan_route disk source target allow_pivot with
  | ok pivot => exact fun _ => (plan_route_iff.mp ⟨pivot, hplan⟩).mono hprovided
  | error e =>
    have hnot : ¬ Routable disk.Finds source target allow_pivot := by
      rw [← plan_route_iff, hplan]
      rintro ⟨pivot, ⟨⟩⟩
    refine Prog.meets_bind.mpr (meets_require_network.mono fun h' result hle => ?_)
    cases result with
    | error e => exact fun herror => absurd herror (by rintro ⟨⟩)
    | ok _ =>
        refine ⟨trivial, fun emitted => ?_⟩
        have hmissed : ∃ disk, ⟨.stores, disk⟩ ∈ h'.add (.emit_progress (1, 10) "downloading") emitted
            ∧ ¬ Routable disk.Finds source target allow_pivot :=
          ⟨disk, (hle.trans (h'.prefix_add _)).mem hmem, hnot⟩
        show FetchesMissing source target allow_pivot _ _ (installLegs (if _ then _ else _))
        split
        · refine (meets_installLegs _ ?_ hmissed).mono fun h'' result hpost hok => ?_
          · rintro leg hleg
            rw [List.mem_singleton.mp hleg]
            exact usable_direct
          · exact Or.inl (hpost.2 hok _ (List.mem_singleton_self _))
        · rename_i hpivots
          simp only [Bool.or_eq_true, decide_eq_true_eq, Bool.not_eq_true', not_or,
            Bool.not_eq_false] at hpivots
          obtain ⟨⟨hsource, htarget⟩, hallow⟩ := hpivots
          refine (meets_installLegs _ ?_ hmissed).mono fun h'' result hpost hok => ?_
          · exact fun leg hleg => usable_leg hallow hsource htarget hleg
          · have hlegs := hpost.2 hok
            exact Or.inr ⟨hallow, hsource, htarget, hlegs _ (by simp), hlegs _ (by simp)⟩

/-- **`prepare_pair` fetches what its route is missing**: its future meets the
contract, whatever it is answered. -/
theorem meets_prepare_pair : FetchesMissing source target allow_pivot (fun _ _ => True) []
    (prepare_pair source target allow_pivot) := by
  refine ⟨trivial, fun started => ?_⟩
  show FetchesMissing source target allow_pivot _ _ (installMissing source target allow_pivot >>= _)
  refine Prog.meets_bind.mpr (meets_installMissing.mono fun h result hroute => ?_)
  cases result with
  | error e => trivial
  | ok _ =>
      refine ⟨trivial, fun emitted => ⟨trivial, fun config => ⟨⟨rfl, ?_⟩, fun entry => ?_⟩⟩⟩
      · exact (hroute rfl).mono fun key hkey =>
          hkey.mono ((h.prefix_add _).trans (Asked.prefix_add _ _))
      · cases entry with
        | error e => trivial
        | ok entry => exact ⟨trivial, fun _ => ⟨trivial, fun _ => ⟨trivial, fun _ => trivial⟩⟩⟩

end Contract

end Dragomand
