import Mathlib.Data.Finset.Card
import Mathlib.Data.Fintype.Basic
import Dragomand.Machine

/-!
# Tasks, worker threads and a blocking lock

Tasks of an executor with `W` worker threads, and one lock that blocks the
thread that waits for it. A task gives its thread back at an `await` that is
not ready, and keeps what it has locked. It can go on when a thread polls
it, and a thread that is blocked polls nothing.

`deadlockFree_iff` says for which programs no run comes to a point where
every thread is blocked and the lock is held by a task that no thread runs.
-/

namespace WorkerPool

/-! ## Programs -/

inductive Op where
  | await
  | lock
  | unlock
deriving DecidableEq, Repr

/-- The lock is not taken twice, and released by who holds it. -/
def Disciplined : Bool → List Op → Prop
  | _, [] => True
  | held, .await :: ops => Disciplined held ops
  | held, .lock :: ops => held = false ∧ Disciplined true ops
  | held, .unlock :: ops => held = true ∧ Disciplined false ops

/-- Some `await` has the lock. -/
def awaitsInside : Bool → List Op → Bool
  | _, [] => false
  | held, .await :: ops => held || awaitsInside held ops
  | _, .lock :: ops => awaitsInside true ops
  | _, .unlock :: ops => awaitsInside false ops

/-! ## States -/

inductive Mode where
  /-- to be polled -/
  | waiting
  | running
  /-- its thread waits for the lock -/
  | blocked
  | returned
deriving DecidableEq, Repr

structure Task where
  rest : List Op
  mode : Mode
  holds : Bool
deriving DecidableEq, Repr

/-- It has a thread. -/
def Task.busy (t : Task) : Bool := t.mode = .running || t.mode = .blocked

structure Pool (ι : Type*) where
  tasks : ι → Task

inductive Event (ι : Type*) where
  | poll (i : ι)
  /-- an `await` that does not wait -/
  | ready (i : ι)
  | suspend (i : ι)
  | lock (i : ι)
  | acquire (i : ι)
  | unlock (i : ι)
  /-- at the end, on an error, or cancelled -/
  | leave (i : ι)

namespace Pool

variable {ι : Type*} [Fintype ι] [DecidableEq ι]

def init (ops : ι → List Op) : Pool ι := ⟨fun i => ⟨ops i, .waiting, false⟩⟩

def set (s : Pool ι) (i : ι) (t : Task) : Pool ι := ⟨Function.update s.tasks i t⟩

/-- The threads that are not free. -/
def busy (s : Pool ι) : Nat := (Finset.univ.filter fun i => (s.tasks i).busy).card

def blocked (s : Pool ι) : Finset ι := Finset.univ.filter fun i => (s.tasks i).mode = .blocked

def locked (s : Pool ι) : Bool := decide (∃ i, (s.tasks i).holds = true)

def step (W : Nat) (s : Pool ι) : Event ι → Option (Pool ι)
  | .poll i =>
      if (s.tasks i).mode = .waiting ∧ s.busy < W then
        some (s.set i { s.tasks i with mode := .running })
      else none
  | .ready i =>
      match s.tasks i with
      | ⟨.await :: ops, .running, holds⟩ => some (s.set i ⟨ops, .running, holds⟩)
      | _ => none
  | .suspend i =>
      match s.tasks i with
      | ⟨.await :: ops, .running, holds⟩ => some (s.set i ⟨ops, .waiting, holds⟩)
      | _ => none
  | .lock i =>
      match s.tasks i with
      | ⟨.lock :: ops, .running, holds⟩ =>
          some (s.set i (if s.locked then ⟨.lock :: ops, .blocked, holds⟩
            else ⟨ops, .running, true⟩))
      | _ => none
  | .acquire i =>
      match s.tasks i with
      | ⟨.lock :: ops, .blocked, _⟩ =>
          if s.locked then none else some (s.set i ⟨ops, .running, true⟩)
      | _ => none
  | .unlock i =>
      match s.tasks i with
      | ⟨.unlock :: ops, .running, _⟩ => some (s.set i ⟨ops, .running, false⟩)
      | _ => none
  | .leave i =>
      match s.tasks i with
      | ⟨_, .running, _⟩ => some (s.set i ⟨[], .returned, false⟩)
      | _ => none

/-- Every thread waits for the lock, and no thread runs the task that has
it. -/
def Deadlocked (W : Nat) (s : Pool ι) : Prop :=
  s.blocked.card = W ∧ ∃ i, (s.tasks i).holds = true ∧ (s.tasks i).mode = .waiting

instance (W : Nat) (s : Pool ι) : Decidable (s.Deadlocked W) := by
  unfold Deadlocked
  infer_instance

/-! ## What one step can do -/

inductive Change (s : Pool ι) (W : Nat) (i : ι) : Task → Prop
  | poll (hmode : (s.tasks i).mode = .waiting) (hfree : s.busy < W) :
      Change s W i { s.tasks i with mode := .running }
  | ready {ops : List Op} {holds : Bool} (h : s.tasks i = ⟨.await :: ops, .running, holds⟩) :
      Change s W i ⟨ops, .running, holds⟩
  | suspend {ops : List Op} {holds : Bool} (h : s.tasks i = ⟨.await :: ops, .running, holds⟩) :
      Change s W i ⟨ops, .waiting, holds⟩
  | block {ops : List Op} {holds : Bool} (h : s.tasks i = ⟨.lock :: ops, .running, holds⟩)
      (hlocked : s.locked = true) : Change s W i ⟨.lock :: ops, .blocked, holds⟩
  | lock {ops : List Op} {mode : Mode} {holds : Bool} (h : s.tasks i = ⟨.lock :: ops, mode, holds⟩)
      (hmode : mode = .running ∨ mode = .blocked) (hlocked : s.locked = false) :
      Change s W i ⟨ops, .running, true⟩
  | unlock {ops : List Op} {holds : Bool} (h : s.tasks i = ⟨.unlock :: ops, .running, holds⟩) :
      Change s W i ⟨ops, .running, false⟩
  | leave {ops : List Op} {holds : Bool} (h : s.tasks i = ⟨ops, .running, holds⟩) :
      Change s W i ⟨[], .returned, false⟩

variable {W : Nat} {s s' : Pool ι} {e : Event ι}

theorem step_cases (h : s.step W e = some s') : ∃ i t, s.Change W i t ∧ s' = s.set i t := by
  unfold step at h
  split at h
  · rename_i i
    split at h
    · rename_i hguard
      cases h
      exact ⟨i, _, .poll hguard.1 hguard.2, rfl⟩
    · cases h
  · rename_i i
    split at h
    · rename_i ops holds htask
      cases h
      exact ⟨i, _, .ready htask, rfl⟩
    · cases h
  · rename_i i
    split at h
    · rename_i ops holds htask
      cases h
      exact ⟨i, _, .suspend htask, rfl⟩
    · cases h
  · rename_i i
    split at h
    · rename_i ops holds htask
      cases h
      by_cases hlocked : s.locked = true
      · exact ⟨i, _, .block htask hlocked, by rw [if_pos hlocked]⟩
      · exact ⟨i, _, .lock htask (Or.inl rfl) (by simpa using hlocked), by rw [if_neg hlocked]⟩
    · cases h
  · rename_i i
    split at h
    · rename_i ops holds htask
      split at h
      · cases h
      · rename_i hlocked
        cases h
        exact ⟨i, _, .lock htask (Or.inr rfl) (by simpa using hlocked), rfl⟩
    · cases h
  · rename_i i
    split at h
    · rename_i ops holds htask
      cases h
      exact ⟨i, _, .unlock htask, rfl⟩
    · cases h
  · rename_i i
    split at h
    · rename_i ops holds htask
      cases h
      exact ⟨i, _, .leave htask, rfl⟩
    · cases h

omit [Fintype ι] in
@[simp] theorem set_self (i : ι) (t : Task) : (s.set i t).tasks i = t := Function.update_self ..

omit [Fintype ι] in
theorem set_of_ne {i j : ι} (h : j ≠ i) (t : Task) : (s.set i t).tasks j = s.tasks j :=
  Function.update_of_ne h ..

omit [DecidableEq ι] in
theorem locked_of {i : ι} (h : (s.tasks i).holds = true) : s.locked = true :=
  decide_eq_true ⟨i, h⟩

/-- A property of single tasks that their own steps keep holds in every
run. -/
theorem forall_of_reach {ops : ι → List Op} {I : ι → Task → Prop}
    (hinit : ∀ i, I i ⟨ops i, .waiting, false⟩)
    (hstep : ∀ (s : Pool ι) i t, s.Change W i t → I i (s.tasks i) → I i t)
    (h : Machine.Reach (step W) Machine.anyStep (init ops) s) (i : ι) : I i (s.tasks i) := by
  refine @Machine.Reach.invariant _ _ _ _ _ _ (fun s => ∀ i, I i (s.tasks i)) h ?_ ?_ i
  · exact hinit
  · intro s e s' _ _ hs hI j
    obtain ⟨k, t, hchange, rfl⟩ := step_cases hs
    by_cases hj : j = k
    · subst hj
      rw [set_self]
      exact hstep s j t hchange (hI j)
    · rw [set_of_ne hj]
      exact hI j

/-! ## Where there is no deadlock -/

section Free

variable {ops : ι → List Op}

/-- Who waits for the lock, or has it, takes it in its program. -/
theorem takes_of_reach (h : Machine.Reach (step W) Machine.anyStep (init ops) s) (i : ι)
    (hi : (s.tasks i).mode = .blocked ∨ (s.tasks i).holds = true) : Op.lock ∈ ops i := by
  have hinv := forall_of_reach (I := fun i t => t.rest <:+ ops i
    ∧ (t.mode = .blocked ∨ t.holds = true → Op.lock ∈ ops i)) (fun i => ⟨List.suffix_refl _, by simp⟩)
    (fun s i t hchange hI => ?_) h i
  · exact hinv.2 hi
  · obtain ⟨hrest, htakes⟩ := hI
    cases hchange with
    | poll hmode => exact ⟨hrest, fun ht => htakes (ht.imp (by simp) id)⟩
    | ready htask =>
        rw [htask] at hrest htakes
        exact ⟨(List.suffix_cons ..).trans hrest, fun ht => htakes (ht.imp (by simp) id)⟩
    | suspend htask =>
        rw [htask] at hrest htakes
        exact ⟨(List.suffix_cons ..).trans hrest, fun ht => htakes (ht.imp (by simp) id)⟩
    | block htask =>
        rw [htask] at hrest
        exact ⟨hrest, fun _ => hrest.subset (List.mem_cons_self ..)⟩
    | lock htask =>
        rw [htask] at hrest
        exact ⟨(List.suffix_cons ..).trans hrest, fun _ => hrest.subset (List.mem_cons_self ..)⟩
    | unlock htask =>
        rw [htask] at hrest
        exact ⟨(List.suffix_cons ..).trans hrest, by simp⟩
    | leave => exact ⟨List.nil_suffix .., by simp⟩

theorem not_deadlocked_of_few (hfew : (Finset.univ.filter fun i => Op.lock ∈ ops i).card ≤ W)
    (h : Machine.Reach (step W) Machine.anyStep (init ops) s) : ¬ s.Deadlocked W := by
  rintro ⟨hblocked, i, hholds, hwaiting⟩
  have hnot : i ∉ s.blocked := by
    simp [blocked, hwaiting]
  have hsubset : insert i s.blocked ⊆ Finset.univ.filter fun i => Op.lock ∈ ops i := by
    intro j hj
    refine Finset.mem_filter.mpr ⟨Finset.mem_univ _, takes_of_reach h j ?_⟩
    rcases Finset.mem_insert.mp hj with rfl | hj
    · exact Or.inr hholds
    · exact Or.inl (Finset.mem_filter.mp hj).2
  have hcard := Finset.card_le_card hsubset
  rw [Finset.card_insert_of_notMem hnot, hblocked] at hcard
  omega

/-- Who has the lock is not left waiting. -/
theorem not_deadlocked_of_none (hnone : ∀ i, awaitsInside false (ops i) = false)
    (h : Machine.Reach (step W) Machine.anyStep (init ops) s) : ¬ s.Deadlocked W := by
  rintro ⟨-, i, hholds, hwaiting⟩
  have hinv := forall_of_reach (I := fun _ t => awaitsInside t.holds t.rest = false
    ∧ (t.holds = true → t.mode ≠ .waiting)) (fun i => ⟨hnone i, by simp⟩)
    (fun s i t hchange hI => ?_) h i
  · exact hinv.2 hholds hwaiting
  · obtain ⟨hinside, hmode⟩ := hI
    cases hchange with
    | poll hwaiting => exact ⟨hinside, by simp⟩
    | ready htask =>
        rw [htask] at hinside
        exact ⟨(Bool.or_eq_false_iff.mp hinside).2, by simp⟩
    | @suspend ops holds htask =>
        rw [htask] at hinside
        obtain ⟨hheld, hrest⟩ := Bool.or_eq_false_iff.mp hinside
        exact ⟨hrest, fun hholds => by rw [hheld] at hholds; cases hholds⟩
    | block htask =>
        rw [htask] at hinside
        exact ⟨hinside, by simp⟩
    | lock htask =>
        rw [htask] at hinside
        exact ⟨hinside, by simp⟩
    | unlock htask =>
        rw [htask] at hinside
        exact ⟨hinside, by simp⟩
    | leave => exact ⟨rfl, by simp⟩

end Free

/-! ## Where there is one -/

section Reachable

variable {ops : ι → List Op}

/-- A task alone runs to an `await` that has the lock. -/
theorem exists_waiting {i : ι} (rest : List Op) :
    ∀ (s : Pool ι) (held : Bool), s.tasks i = ⟨rest, .running, held⟩ →
      (∀ j, j ≠ i → (s.tasks j).holds = false) → Disciplined held rest →
      awaitsInside held rest = true →
      ∃ rest', Machine.Reach (step W) Machine.anyStep s (s.set i ⟨rest', .waiting, true⟩) := by
  induction rest with
  | nil => exact fun s held _ _ _ hinside => by cases hinside
  | cons op rest ih =>
      intro s held htask hothers hdisciplined hinside
      -- what is left to do after one more step
      have hgo : ∀ (e : Event ι) (held' : Bool), s.step W e = some (s.set i ⟨rest, .running, held'⟩) →
          Disciplined held' rest → awaitsInside held' rest = true →
          ∃ rest', Machine.Reach (step W) Machine.anyStep s (s.set i ⟨rest', .waiting, true⟩) := by
        intro e held' hs hdisciplined hinside
        obtain ⟨rest', hreach⟩ := ih (s.set i ⟨rest, .running, held'⟩) held' (set_self ..)
          (fun j hj => by rw [set_of_ne hj]; exact hothers j hj) hdisciplined hinside
        rw [show (s.set i ⟨rest, .running, held'⟩).set i ⟨rest', .waiting, true⟩
          = s.set i ⟨rest', .waiting, true⟩ from congrArg Pool.mk (Function.update_idem ..)] at hreach
        exact ⟨rest', (Machine.Reach.one trivial hs).trans hreach⟩
      cases op with
      | await =>
          cases held with
          | true =>
              refine ⟨rest, .one (e := .suspend i) trivial ?_⟩
              unfold step
              simp only [htask]
          | false =>
              refine hgo (.ready i) false ?_ hdisciplined hinside
              unfold step
              simp only [htask]
      | lock =>
          obtain ⟨rfl, hrest⟩ := hdisciplined
          have hfree : s.locked = false := by
            refine decide_eq_false ?_
            rintro ⟨j, hj⟩
            by_cases hji : j = i
            · rw [hji, htask] at hj
              cases hj
            · cases (hothers j hji).symm.trans hj
          refine hgo (.lock i) true ?_ hrest hinside
          unfold step
          simp only [htask, hfree]
          rfl
      | unlock =>
          refine hgo (.unlock i) false ?_ hdisciplined.2 hinside
          unfold step
          simp only [htask]

/-- A task that takes the lock runs until it is blocked. -/
theorem exists_blocked {i : ι} (rest : List Op) :
    ∀ s : Pool ι, s.tasks i = ⟨rest, .running, false⟩ →
      (∃ j, j ≠ i ∧ (s.tasks j).holds = true) → Disciplined false rest → Op.lock ∈ rest →
      ∃ rest', Machine.Reach (step W) Machine.anyStep s (s.set i ⟨rest', .blocked, false⟩) := by
  induction rest with
  | nil => exact fun s _ _ _ hlock => by cases hlock
  | cons op rest ih =>
      intro s htask hholder hdisciplined hlock
      obtain ⟨j, hji, hj⟩ := id hholder
      cases op with
      | await =>
          have hs : s.step W (.ready i) = some (s.set i ⟨rest, .running, false⟩) := by
            unfold step
            simp only [htask]
          obtain ⟨rest', hreach⟩ := ih (s.set i ⟨rest, .running, false⟩) (set_self ..)
            ⟨j, hji, by rw [set_of_ne hji]; exact hj⟩ hdisciplined (by simpa using hlock)
          rw [show (s.set i ⟨rest, .running, false⟩).set i ⟨rest', .blocked, false⟩
            = s.set i ⟨rest', .blocked, false⟩ from
              congrArg Pool.mk (Function.update_idem ..)] at hreach
          exact ⟨rest', (Machine.Reach.one trivial hs).trans hreach⟩
      | lock =>
          refine ⟨.lock :: rest, .one (e := .lock i) trivial ?_⟩
          unfold step
          simp only [htask, locked_of hj]
          rfl
      | unlock => cases hdisciplined.1

/-- Beside a task that waits with the lock, as many are blocked as there are
threads. -/
theorem exists_all_blocked {i : ι} (s₀ : Pool ι) (hdisciplined : ∀ j, Disciplined false (ops j))
    (hi : (s₀.tasks i).holds = true ∧ (s₀.tasks i).mode = .waiting)
    (hothers : ∀ j, j ≠ i → s₀.tasks j = ⟨ops j, .waiting, false⟩) (B : Finset ι) (hiB : i ∉ B)
    (hB : ∀ j ∈ B, Op.lock ∈ ops j) (hcard : B.card ≤ W) :
    ∃ s, Machine.Reach (step W) Machine.anyStep s₀ s ∧ s.tasks i = s₀.tasks i
      ∧ (∀ j ∈ B, (s.tasks j).mode = .blocked)
      ∧ ∀ j, j ∉ B → j ≠ i → s.tasks j = ⟨ops j, .waiting, false⟩ := by
  induction B using Finset.induction_on with
  | empty => exact ⟨s₀, .init, rfl, by simp, fun j _ hj => hothers j hj⟩
  | insert j B hj ih =>
      have hne : i ≠ j := fun h => hiB (h ▸ Finset.mem_insert_self ..)
      rw [Finset.card_insert_of_notMem hj] at hcard
      obtain ⟨s, hreach, hsame, hblocked, hwaiting⟩ := ih
        (fun h => hiB (Finset.mem_insert_of_mem h))
        (fun k hk => hB k (Finset.mem_insert_of_mem hk)) (by omega)
      have htask := hwaiting j hj hne.symm
      -- the blocked tasks are all that have a thread
      have hbusy : s.busy = B.card := by
        refine congrArg Finset.card (Finset.ext fun k => ?_)
        rw [Finset.mem_filter]
        refine ⟨fun hk => ?_, fun hk => ⟨Finset.mem_univ _, ?_⟩⟩
        · by_contra hkB
          by_cases hki : k = i
          · simp [Task.busy, hki, hsame, hi.2] at hk
          · simp [Task.busy, hwaiting k hkB hki] at hk
        · simp [Task.busy, hblocked k hk]
      have hpoll : s.step W (.poll j) = some (s.set j ⟨ops j, .running, false⟩) := by
        unfold step
        simp only [htask, hbusy]
        exact if_pos ⟨trivial, by omega⟩
      obtain ⟨rest, hrun⟩ := exists_blocked (W := W) (ops j) (s.set j ⟨ops j, .running, false⟩)
        (set_self ..) ⟨i, hne, by rw [set_of_ne hne, hsame]; exact hi.1⟩ (hdisciplined j)
        (hB j (Finset.mem_insert_self ..))
      rw [show (s.set j ⟨ops j, .running, false⟩).set j ⟨rest, .blocked, false⟩
        = s.set j ⟨rest, .blocked, false⟩ from congrArg Pool.mk (Function.update_idem ..)] at hrun
      refine ⟨_, (hreach.tail trivial hpoll).trans hrun, ?_, fun k hk => ?_, fun k hk hki => ?_⟩
      · rw [set_of_ne hne, hsame]
      · by_cases hkj : k = j
        · rw [hkj, set_self]
        · rw [set_of_ne hkj]
          exact hblocked k (Finset.mem_of_mem_insert_of_ne hk hkj)
      · rw [Finset.mem_insert, not_or] at hk
        rw [set_of_ne hk.1]
        exact hwaiting k hk.2 hki

variable (ops) in
theorem exists_deadlocked (hW : 1 ≤ W) (hdisciplined : ∀ j, Disciplined false (ops j)) {i : ι}
    (hi : awaitsInside false (ops i) = true) (hi' : Op.lock ∈ ops i)
    (hmany : W < (Finset.univ.filter fun j => Op.lock ∈ ops j).card) :
    ∃ s, Machine.Reach (step W) Machine.anyStep (init ops) s ∧ s.Deadlocked W := by
  have hidle : (init ops).busy = 0 := by
    simp [busy, init, Task.busy]
  have hpoll : (init ops).step W (.poll i)
      = some ((init ops).set i ⟨ops i, .running, false⟩) := by
    unfold step
    exact if_pos ⟨rfl, by omega⟩
  obtain ⟨rest, hrun⟩ := exists_waiting (W := W) (ops i) ((init ops).set i ⟨ops i, .running, false⟩)
    false (set_self ..) (fun j hj => by rw [set_of_ne hj]; rfl) (hdisciplined i) hi
  rw [show ((init ops).set i ⟨ops i, .running, false⟩).set i ⟨rest, .waiting, true⟩
    = (init ops).set i ⟨rest, .waiting, true⟩ from
      congrArg Pool.mk (Function.update_idem ..)] at hrun
  have hmem : i ∈ Finset.univ.filter fun j => Op.lock ∈ ops j :=
    Finset.mem_filter.mpr ⟨Finset.mem_univ _, hi'⟩
  obtain ⟨B, hB, hcard⟩ := Finset.exists_subset_card_eq
    (s := (Finset.univ.filter fun j => Op.lock ∈ ops j).erase i) (n := W)
    (by rw [Finset.card_erase_of_mem hmem]; omega)
  have hiB : i ∉ B := fun h => (Finset.mem_erase.mp (hB h)).1 rfl
  obtain ⟨s, hreach, hsame, hblocked, hwaiting⟩ := exists_all_blocked (W := W)
    ((init ops).set i ⟨rest, .waiting, true⟩) hdisciplined (by simp)
    (fun j hj => set_of_ne hj _) B hiB
    (fun j hj => (Finset.mem_filter.mp (Finset.mem_erase.mp (hB hj)).2).2) hcard.le
  rw [set_self] at hsame
  refine ⟨s, ((Machine.Reach.one trivial hpoll).trans hrun).trans hreach, ?_, i, ?_⟩
  · rw [← hcard]
    refine congrArg Finset.card (Finset.ext fun k => ?_)
    rw [blocked, Finset.mem_filter]
    refine ⟨fun hk => ?_, fun hk => ⟨Finset.mem_univ _, hblocked k hk⟩⟩
    by_contra hkB
    by_cases hki : k = i
    · rw [hki, hsame] at hk
      cases hk.2
    · rw [hwaiting k hkB hki] at hk
      cases hk.2
  · rw [hsame]
    exact ⟨rfl, rfl⟩

end Reachable

theorem lock_mem_of_awaitsInside {ops : List Op} (h : awaitsInside false ops = true) :
    Op.lock ∈ ops := by
  induction ops with
  | nil => cases h
  | cons op ops ih =>
      cases op with
      | await => exact List.mem_cons_of_mem _ (ih h)
      | lock => exact List.mem_cons_self ..
      | unlock => exact List.mem_cons_of_mem _ (ih h)

/-- No run deadlocks exactly when no task awaits with the lock, or no more
take it than there are threads. -/
theorem deadlockFree_iff {ops : ι → List Op} (hW : 1 ≤ W)
    (hdisciplined : ∀ i, Disciplined false (ops i)) :
    (∀ s, Machine.Reach (step W) Machine.anyStep (init ops) s → ¬ s.Deadlocked W)
      ↔ (∀ i, awaitsInside false (ops i) = false)
        ∨ (Finset.univ.filter fun i => Op.lock ∈ ops i).card ≤ W := by
  constructor
  · intro h
    by_contra hnot
    simp only [not_or, not_forall, Bool.not_eq_false, not_le] at hnot
    obtain ⟨⟨i, hi⟩, hmany⟩ := hnot
    obtain ⟨s, hreach, hdead⟩ :=
      exists_deadlocked ops hW hdisciplined hi (lock_mem_of_awaitsInside hi) hmany
    exact h s hreach hdead
  · rintro (hnone | hfew) s hreach
    · exact not_deadlocked_of_none hnone hreach
    · exact not_deadlocked_of_few hfew hreach

/-! ## It lasts -/

theorem busy_set (i : ι) (t : Task) : (s.set i t).busy ≤ (insert i
    (Finset.univ.filter fun j => (s.tasks j).busy)).card := by
  refine Finset.card_le_card fun j hj => ?_
  by_cases hji : j = i
  · exact hji ▸ Finset.mem_insert_self ..
  · rw [Finset.mem_filter, set_of_ne hji] at hj
    exact Finset.mem_insert_of_mem (Finset.mem_filter.mpr hj)

/-- Each thread has one task. -/
theorem busy_le_of_reach {ops : ι → List Op}
    (h : Machine.Reach (step W) Machine.anyStep (init ops) s) : s.busy ≤ W := by
  refine @Machine.Reach.invariant _ _ _ _ _ _ (fun s => s.busy ≤ W) h ?_ ?_
  · simp [busy, init, Task.busy]
  · intro s e s' _ _ hs hle
    obtain ⟨i, t, hchange, rfl⟩ := step_cases hs
    refine (busy_set i t).trans ?_
    have hbusy : (s.tasks i).busy = true →
        (insert i (Finset.univ.filter fun j => (s.tasks j).busy)).card ≤ W := by
      intro hi
      have hmem : i ∈ Finset.univ.filter fun j => (s.tasks j).busy :=
        Finset.mem_filter.mpr ⟨Finset.mem_univ _, hi⟩
      rw [Finset.insert_eq_of_mem hmem]
      exact hle
    cases hchange with
    | poll hmode hfree => exact (Finset.card_insert_le ..).trans hfree
    | ready htask | suspend htask | block htask | unlock htask | leave htask =>
        exact hbusy (by rw [htask]; rfl)
    | lock htask hmode =>
        refine hbusy ?_
        rw [htask]
        rcases hmode with rfl | rfl <;> rfl

/-- In a deadlock nothing happens any more. -/
theorem Deadlocked.step_eq_none {ops : ι → List Op}
    (h : Machine.Reach (step W) Machine.anyStep (init ops) s) (hd : s.Deadlocked W) (e : Event ι) :
    s.step W e = none := by
  obtain ⟨hblocked, i, hholds, -⟩ := hd
  have hle := busy_le_of_reach h
  have hsubset : s.blocked ⊆ Finset.univ.filter fun j => (s.tasks j).busy := by
    intro j hj
    refine Finset.mem_filter.mpr ⟨Finset.mem_univ _, ?_⟩
    simp [Task.busy, (Finset.mem_filter.mp hj).2]
  have hall : s.blocked = Finset.univ.filter fun j => (s.tasks j).busy :=
    Finset.eq_of_subset_of_card_le hsubset (by rw [hblocked]; exact hle)
  have hbusy : s.busy = W := by rw [← hblocked, hall]; rfl
  have hrunning : ∀ j, (s.tasks j).mode ≠ .running := by
    intro j hj
    have hmem : j ∈ s.blocked := by
      rw [hall]
      exact Finset.mem_filter.mpr ⟨Finset.mem_univ _, by simp [Task.busy, hj]⟩
    rw [(Finset.mem_filter.mp hmem).2] at hj
    cases hj
  cases hs : s.step W e with
  | none => rfl
  | some s' =>
      obtain ⟨j, t, hchange, -⟩ := step_cases hs
      cases hchange with
      | poll hmode hfree => omega
      | ready htask | suspend htask | block htask | unlock htask | leave htask =>
          exact absurd (by rw [htask]) (hrunning j)
      | lock htask hmode hlocked => cases (locked_of hholds).symm.trans hlocked

end Pool

end WorkerPool
