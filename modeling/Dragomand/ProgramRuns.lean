import Dragomand.Program

/-!
# Runs of programs

A program together with the answers it was given: `Path p h q` says that
`q` is what is left of `p` after the history `h`, oldest question first.
`Runs` is a path to the end, `Asks` a path to the next question. Both
follow the binds of a program, so that each function has one lemma about
its runs (`runs_bind`) and its callers use that.

A contract (`Prog.Meets`) speaks of all runs at once; here a run is a value
that other facts can be stated about.
-/

namespace Prog

variable {ι ε α β : Type} {ρ : ι → Type}

/-- Each question with its answer, the oldest first. -/
abbrev History (ρ : ι → Type) : Type := List (Sigma ρ)

inductive Path : Prog ρ ε α → History ρ → Prog ρ ε α → Prop
  | nil {p : Prog ρ ε α} : Path p [] p
  | cons {i : ι} {next : ρ i → Prog ρ ε α} {answer : ρ i} {h : History ρ} {q : Prog ρ ε α}
      (hpath : Path (next answer) h q) : Path (op i next) (⟨i, answer⟩ :: h) q

/-- The program has returned. -/
def Runs (p : Prog ρ ε α) (h : History ρ) (result : Except ε α) : Prop := Path p h (done result)

/-- The program is at `i`. -/
def Asks (p : Prog ρ ε α) (h : History ρ) (i : ι) : Prop := ∃ next, Path p h (op i next)

variable {p q : Prog ρ ε α} {f : α → Prog ρ ε β} {h h' : History ρ} {i : ι}

/-- One more answer. -/
theorem Path.snoc {next : ρ i → Prog ρ ε α} (hpath : Path p h (op i next)) (answer : ρ i) :
    Path p (h ++ [⟨i, answer⟩]) (next answer) := by
  generalize hq : op i next = q at hpath
  induction hpath with
  | nil => exact hq ▸ .cons .nil
  | cons _ ih => exact .cons (ih hq)

theorem path_done {result : Except ε α} : Path (done result) h q ↔ h = [] ∧ q = done result := by
  constructor
  · rintro ⟨⟩
    exact ⟨rfl, rfl⟩
  · rintro ⟨rfl, rfl⟩
    exact .nil

theorem path_op {next : ρ i → Prog ρ ε α} : Path (op i next) h q
    ↔ (h = [] ∧ q = op i next) ∨ ∃ answer h', h = ⟨i, answer⟩ :: h' ∧ Path (next answer) h' q := by
  constructor
  · rintro (_ | hpath)
    · exact Or.inl ⟨rfl, rfl⟩
    · exact Or.inr ⟨_, _, rfl, hpath⟩
  · rintro (⟨rfl, rfl⟩ | ⟨answer, h', rfl, hpath⟩)
    · exact .nil
    · exact .cons hpath

/-- The result behind a history, when it is one of the program. -/
def play [DecidableEq ι] : Prog ρ ε α → History ρ → Option (Except ε α)
  | done result, [] => some result
  | done _, _ :: _ | op _ _, [] => none
  | op i next, ⟨j, answer⟩ :: h => if hij : j = i then (next (hij ▸ answer)).play h else none

theorem runs_of_play [DecidableEq ι] {result : Except ε α} (hplay : p.play h = some result) :
    Runs p h result := by
  induction p generalizing h with
  | done result' =>
      cases h with
      | nil =>
          obtain rfl := Option.some.inj hplay
          exact .nil
      | cons => cases hplay
  | op i next ih =>
      cases h with
      | nil => cases hplay
      | cons head h =>
          obtain ⟨j, answer⟩ := head
          rw [play] at hplay
          split at hplay
          · rename_i hij
            subst hij
            exact .cons (ih answer hplay)
          · cases hplay

/-! ## Runs to the end -/

@[simp] theorem runs_done {result result' : Except ε α} :
    Runs (done result : Prog ρ ε α) h result' ↔ h = [] ∧ result' = result := by
  rw [Runs, path_done]
  exact and_congr_right fun _ => ⟨fun heq => by cases heq; rfl, fun heq => heq ▸ rfl⟩

@[simp] theorem runs_pure {a : α} {result : Except ε α} :
    Runs (pure a : Prog ρ ε α) h result ↔ h = [] ∧ result = .ok a :=
  runs_done

@[simp] theorem runs_throw {e : ε} {result : Except ε α} :
    Runs (throw e : Prog ρ ε α) h result ↔ h = [] ∧ result = .error e :=
  runs_done

@[simp] theorem runs_op {next : ρ i → Prog ρ ε α} {result : Except ε α} : Runs (op i next) h result
    ↔ ∃ answer h', h = ⟨i, answer⟩ :: h' ∧ Runs (next answer) h' result := by
  rw [Runs, path_op]
  exact or_iff_right nofun

/-- A run of a sequence is a run of its first part that fails, or one of
each part. -/
theorem runs_bind {result : Except ε β} : Runs (p >>= f) h result
    ↔ (∃ e, Runs p h (.error e) ∧ result = .error e)
      ∨ ∃ h₁ h₂ a, h = h₁ ++ h₂ ∧ Runs p h₁ (.ok a) ∧ Runs (f a) h₂ result := by
  show Runs (p.bind f) h result ↔ _
  induction p generalizing h with
  | done result₀ =>
      cases result₀ with
      | error e =>
          simp only [bind, runs_done, reduceCtorEq, and_false, false_and, exists_false, or_false]
          constructor
          · rintro ⟨rfl, rfl⟩
            exact ⟨e, ⟨rfl, rfl⟩, rfl⟩
          · rintro ⟨_, ⟨rfl, heq⟩, rfl⟩
            cases heq
            exact ⟨rfl, rfl⟩
      | ok a =>
          simp only [bind, runs_done, reduceCtorEq, and_false, false_and, exists_false, false_or]
          constructor
          · exact fun hrun => ⟨[], h, a, rfl, ⟨rfl, rfl⟩, hrun⟩
          · rintro ⟨_, h₂, _, rfl, ⟨rfl, heq⟩, hrun⟩
            cases heq
            exact hrun
  | op i next ih =>
      rw [bind, runs_op]
      simp only [ih, runs_op]
      constructor
      · rintro ⟨answer, h', rfl, ⟨e, hrun, rfl⟩ | ⟨h₁, h₂, a, rfl, hrun, hf⟩⟩
        · exact Or.inl ⟨e, ⟨answer, h', rfl, hrun⟩, rfl⟩
        · exact Or.inr ⟨⟨i, answer⟩ :: h₁, h₂, a, rfl, ⟨answer, h₁, rfl, hrun⟩, hf⟩
      · rintro (⟨e, ⟨answer, h', rfl, hrun⟩, rfl⟩ | ⟨_, h₂, a, rfl, ⟨answer, h₁, rfl, hrun⟩, hf⟩)
        · exact ⟨answer, h', rfl, Or.inl ⟨e, hrun, rfl⟩⟩
        · exact ⟨answer, h₁ ++ h₂, rfl, Or.inr ⟨h₁, h₂, a, rfl, hrun, hf⟩⟩

/-- A question asked first is answered, and the rest runs. -/
@[simp] theorem runs_ask_bind {f : ρ i → Prog ρ ε β} {result : Except ε β} :
    Runs (ask i >>= f) h result
      ↔ ∃ answer h', h = ⟨i, answer⟩ :: h' ∧ Runs (f answer) h' result :=
  runs_op

/-! ## Questions -/

@[simp] theorem asks_done {result : Except ε α} : ¬ Asks (done result : Prog ρ ε α) h i := by
  rintro ⟨next, hpath⟩
  cases (path_done.mp hpath).2

@[simp] theorem asks_pure {a : α} : ¬ Asks (pure a : Prog ρ ε α) h i := asks_done

@[simp] theorem asks_throw {e : ε} : ¬ Asks (throw e : Prog ρ ε α) h i := asks_done

@[simp] theorem asks_op {j : ι} {next : ρ j → Prog ρ ε α} : Asks (op j next) h i
    ↔ (h = [] ∧ i = j) ∨ ∃ answer h', h = ⟨j, answer⟩ :: h' ∧ Asks (next answer) h' i := by
  simp only [Asks, path_op]
  constructor
  · rintro ⟨_, ⟨rfl, heq⟩ | ⟨answer, h', rfl, hpath⟩⟩
    · cases heq
      exact Or.inl ⟨rfl, rfl⟩
    · exact Or.inr ⟨answer, h', rfl, _, hpath⟩
  · rintro (⟨rfl, rfl⟩ | ⟨answer, h', rfl, _, hpath⟩)
    · exact ⟨next, Or.inl ⟨rfl, rfl⟩⟩
    · exact ⟨_, Or.inr ⟨answer, h', rfl, hpath⟩⟩

/-- The history holds what the program has asked. -/
theorem Path.asks_of_mem (hpath : Path p h q) {x : Sigma ρ} (hx : x ∈ h) :
    ∃ h₁ h₂, h = h₁ ++ x :: h₂ ∧ Asks p h₁ x.1 := by
  induction hpath with
  | nil => cases hx
  | @cons i next answer h q hpath ih =>
      rcases List.mem_cons.mp hx with rfl | hx
      · exact ⟨[], h, rfl, next, .nil⟩
      · obtain ⟨h₁, h₂, rfl, next', hasks⟩ := ih hx
        exact ⟨⟨i, answer⟩ :: h₁, h₂, rfl, next', .cons hasks⟩

/-- A sequence asks what its first part asks, and after a run of that what
its second part does. -/
theorem asks_bind : Asks (p >>= f) h i
    ↔ Asks p h i ∨ ∃ h₁ h₂ a, h = h₁ ++ h₂ ∧ Runs p h₁ (.ok a) ∧ Asks (f a) h₂ i := by
  show Asks (p.bind f) h i ↔ _
  induction p generalizing h with
  | done result₀ =>
      cases result₀ with
      | error e => simp [bind]
      | ok a =>
          simp only [bind, runs_done, asks_done, false_or]
          constructor
          · exact fun hask => ⟨[], h, a, rfl, ⟨rfl, rfl⟩, hask⟩
          · rintro ⟨_, h₂, _, rfl, ⟨rfl, heq⟩, hask⟩
            cases heq
            exact hask
  | op j next ih =>
      rw [bind, asks_op]
      simp only [ih, asks_op, runs_op]
      constructor
      · rintro (⟨rfl, rfl⟩ | ⟨answer, h', rfl, hask | ⟨h₁, h₂, a, rfl, hrun, hf⟩⟩)
        · exact Or.inl (Or.inl ⟨rfl, rfl⟩)
        · exact Or.inl (Or.inr ⟨answer, h', rfl, hask⟩)
        · exact Or.inr ⟨⟨j, answer⟩ :: h₁, h₂, a, rfl, ⟨answer, h₁, rfl, hrun⟩, hf⟩
      · rintro ((⟨rfl, rfl⟩ | ⟨answer, h', rfl, hask⟩) |
          ⟨_, h₂, a, rfl, ⟨answer, h₁, rfl, hrun⟩, hf⟩)
        · exact Or.inl ⟨rfl, rfl⟩
        · exact Or.inr ⟨answer, h', rfl, Or.inl hask⟩
        · exact Or.inr ⟨answer, h₁ ++ h₂, rfl, Or.inr ⟨h₁, h₂, a, rfl, hrun, hf⟩⟩

@[simp] theorem asks_ask_bind {j : ι} {f : ρ j → Prog ρ ε β} : Asks (ask j >>= f) h i
    ↔ (h = [] ∧ i = j) ∨ ∃ answer h', h = ⟨j, answer⟩ :: h' ∧ Asks (f answer) h' i :=
  asks_op

/-! ## What a program may ask -/

/-- Every question of the program, after whatever answers, meets `P`. -/
def Only (P : ι → Prop) (p : Prog ρ ε α) : Prop := ∀ h i, p.Asks h i → P i

variable {P : ι → Prop}

theorem only_done {result : Except ε α} : Only P (done result : Prog ρ ε α) :=
  fun _ _ hask => absurd hask asks_done

theorem only_pure {a : α} : Only P (pure a : Prog ρ ε α) := only_done

theorem only_throw {e : ε} : Only P (throw e : Prog ρ ε α) := only_done

theorem only_op {next : ρ i → Prog ρ ε α} (hi : P i) (hnext : ∀ answer, Only P (next answer)) :
    Only P (op i next) := by
  intro h j hask
  rcases asks_op.mp hask with ⟨-, rfl⟩ | ⟨answer, h', -, hask⟩
  · exact hi
  · exact hnext answer h' j hask

theorem Only.bind (hp : Only P p) (hf : ∀ a, Only P (f a)) : Only P (p >>= f) := by
  intro h i hask
  rcases asks_bind.mp hask with hask | ⟨_, h₂, a, -, -, hask⟩
  · exact hp h i hask
  · exact hf a h₂ i hask

theorem only_ask_bind {f : ρ i → Prog ρ ε β} (hi : P i) (hf : ∀ answer, Only P (f answer)) :
    Only P (ask i >>= f) :=
  only_op hi hf

theorem Only.mono {Q : ι → Prop} (hp : Only P p) (h : ∀ i, P i → Q i) : Only Q p :=
  fun _ i hask => h i (hp _ i hask)

/-- A program that asks only what a contract allows, and what leaves its
history as it is, meets it. -/
theorem Only.meets {σ : Type*} {pre : σ → ι → Prop} {update : σ → (i : ι) → ρ i → σ}
    {post : σ → Except ε α → Prop} {s : σ} (hp : Only P p)
    (h : ∀ i, P i → pre s i ∧ ∀ answer, update s i answer = s) (hpost : ∀ result, post s result) :
    Meets pre update post s p := by
  induction p with
  | done result => exact hpost result
  | op i next ih =>
      obtain ⟨hpre, hupdate⟩ := h i (hp [] i (asks_op.mpr (Or.inl ⟨rfl, rfl⟩)))
      refine ⟨hpre, fun answer => ?_⟩
      rw [hupdate]
      exact ih answer fun h' j hask => hp _ j (asks_op.mpr (Or.inr ⟨answer, h', rfl, hask⟩))

/-- The history of such a program holds such questions only. -/
theorem Only.mem (hp : Only P p) (hpath : Path p h q) : ∀ x ∈ h, P x.1 := by
  induction hpath with
  | nil => simp
  | @cons i next answer h q hpath ih =>
      intro x hx
      rcases List.mem_cons.mp hx with rfl | hx
      · exact hp [] i (asks_op.mpr (Or.inl ⟨rfl, rfl⟩))
      · exact ih (fun h' j hask => hp _ j (asks_op.mpr (Or.inr ⟨answer, h', rfl, hask⟩))) x hx

end Prog
