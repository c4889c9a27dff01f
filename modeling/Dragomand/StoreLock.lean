import Dragomand.WorkerPool

/-!
# The store lock and the runtime

The calls that take the lock of the user store, as the worker threads of the
runtime see them: where they await, and where `lock_user` blocks the thread
(`flock` excludes descriptors opened separately, also in one process).
`install` has the lock while it awaits its downloads.
-/

namespace Dragomand

open WorkerPool

/-- How often one `install_pair` awaits: in `available`, and for files. -/
structure Leg where
  available : Nat
  downloads : Nat
deriving DecidableEq, Repr

/-- The calls, with the awaits that are not those of an `install_pair`. -/
inductive StoreCall where
  | installPair (leg : Leg) (answering : Nat)
  | preparePair (downloading : Nat) (legs : List Leg) (loading : Nat)
  | removePair (unloading : Nat)
deriving DecidableEq, Repr

def awaits (n : Nat) : List Op := List.replicate n .await

def Leg.install_pair (leg : Leg) : List Op :=
  awaits leg.available ++ .lock :: (awaits leg.downloads ++ [.unlock])

namespace StoreCall

def ops : StoreCall → List Op
  | .installPair leg answering => leg.install_pair ++ awaits answering
  | .preparePair downloading legs loading =>
      awaits downloading ++ (legs.flatMap Leg.install_pair ++ awaits loading)
  | .removePair unloading => awaits unloading ++ [.lock, .unlock]

/-- The call takes the lock. -/
def locks : StoreCall → Bool
  | .installPair _ _ | .removePair _ => true
  | .preparePair _ legs _ => !legs.isEmpty

/-- The call downloads files. -/
def downloads : StoreCall → Bool
  | .installPair leg _ => decide (0 < leg.downloads)
  | .preparePair _ legs _ => legs.any fun leg => decide (0 < leg.downloads)
  | .removePair _ => false

end StoreCall

/-! ## What the calls do with the lock -/

section Ops

variable {ops : List Op}

@[simp] theorem disciplined_awaits (n : Nat) (held : Bool) :
    Disciplined held (awaits n ++ ops) ↔ Disciplined held ops := by
  induction n with
  | zero => rfl
  | succ n ih => exact ih

@[simp] theorem awaitsInside_awaits (n : Nat) (held : Bool) :
    awaitsInside held (awaits n ++ ops) = (held && decide (0 < n) || awaitsInside held ops) := by
  induction n with
  | zero => simp [awaits]
  | succ n ih =>
      show (held || awaitsInside held (awaits n ++ ops)) = _
      rw [ih]
      cases held <;> simp

@[simp] theorem lock_mem_awaits (n : Nat) : Op.lock ∉ awaits n := by
  simp [awaits]

@[simp] theorem disciplined_install_pair (leg : Leg) :
    Disciplined false (leg.install_pair ++ ops) ↔ Disciplined false ops := by
  unfold Leg.install_pair
  simp [Disciplined]

@[simp] theorem awaitsInside_install_pair (leg : Leg) :
    awaitsInside false (leg.install_pair ++ ops)
      = (decide (0 < leg.downloads) || awaitsInside false ops) := by
  unfold Leg.install_pair
  simp [awaitsInside]

theorem lock_mem_install_pair (leg : Leg) : Op.lock ∈ leg.install_pair := by
  simp [Leg.install_pair]

end Ops

namespace StoreCall

theorem disciplined_ops (call : StoreCall) : Disciplined false call.ops := by
  have hawaits : ∀ n held, Disciplined held (awaits n) := by
    intro n held
    rw [← List.append_nil (awaits n), disciplined_awaits]
    trivial
  cases call with
  | installPair leg answering => exact (disciplined_install_pair leg).mpr (hawaits ..)
  | preparePair downloading legs loading =>
      refine (disciplined_awaits ..).mpr ?_
      induction legs with
      | nil => exact hawaits ..
      | cons leg legs ih =>
          rw [List.flatMap_cons, List.append_assoc, disciplined_install_pair]
          exact ih
  | removePair unloading => exact (disciplined_awaits ..).mpr ⟨rfl, rfl, trivial⟩

theorem awaitsInside_ops (call : StoreCall) : awaitsInside false call.ops = call.downloads := by
  have hawaits : ∀ n, awaitsInside false (awaits n) = false := by
    intro n
    rw [← List.append_nil (awaits n), awaitsInside_awaits]
    rfl
  cases call with
  | installPair leg answering => simp [ops, downloads, hawaits]
  | preparePair downloading legs loading =>
      have hlegs : awaitsInside false (legs.flatMap Leg.install_pair ++ awaits loading)
          = legs.any fun leg => decide (0 < leg.downloads) := by
        induction legs with
        | nil => exact hawaits loading
        | cons leg legs ih =>
            rw [List.flatMap_cons, List.append_assoc, awaitsInside_install_pair, ih, List.any_cons]
      simp [ops, downloads, hlegs]
  | removePair unloading => simp [ops, downloads, awaitsInside]

theorem lock_mem_ops (call : StoreCall) : Op.lock ∈ call.ops ↔ call.locks = true := by
  cases call with
  | installPair leg answering => simp [ops, locks, lock_mem_install_pair]
  | preparePair downloading legs loading =>
      cases legs with
      | nil => simp [ops, locks]
      | cons leg legs => simp [ops, locks, lock_mem_install_pair]
  | removePair unloading => simp [ops, locks]

end StoreCall

/-! ## Deadlocks -/

/-- **The store lock cannot deadlock the runtime** exactly when no call
downloads, or no more calls take the lock than there are threads. -/
theorem store_lock_free_iff {ι : Type} [Fintype ι] [DecidableEq ι] {W : Nat} (hW : 1 ≤ W)
    (calls : ι → StoreCall) :
    (∀ s, Machine.Reach (Pool.step W) Machine.anyStep (Pool.init fun i => (calls i).ops) s →
        ¬ s.Deadlocked W)
      ↔ (∀ i, (calls i).downloads = false)
        ∨ (Finset.univ.filter fun i => (calls i).locks = true).card ≤ W := by
  rw [Pool.deadlockFree_iff hW fun i => (calls i).disciplined_ops]
  simp only [StoreCall.awaitsInside_ops, StoreCall.lock_mem_ops]

/-- An installation and a removal. -/
def twoCalls (i : Fin 2) : StoreCall :=
  if i = 0 then .installPair ⟨1, 2⟩ 1 else .removePair 1

theorem store_lock_free_two : ¬ ∃ s, Machine.Reach (Pool.step 2) Machine.anyStep
      (Pool.init fun i => (twoCalls i).ops) s ∧ s.Deadlocked 2 := by
  rintro ⟨s, hreach, hdead⟩
  exact (store_lock_free_iff (by decide) twoCalls).mpr (Or.inr (by decide)) s hreach hdead

/-- Nine clients install on eight threads, and nothing happens any more. -/
theorem store_lock_deadlocks : ∃ s, Machine.Reach (Pool.step 8) Machine.anyStep
      (Pool.init fun _ : Fin 9 => (StoreCall.installPair ⟨1, 2⟩ 1).ops) s
    ∧ s.Deadlocked 8 ∧ ∀ e, s.step 8 e = none := by
  obtain ⟨s, hreach, hdead⟩ := Pool.exists_deadlocked (W := 8) (i := 0)
    (fun _ : Fin 9 => (StoreCall.installPair ⟨1, 2⟩ 1).ops) (by decide)
    (fun _ => StoreCall.disciplined_ops _) (by decide) (by decide) (by decide)
  exact ⟨s, hreach, hdead, hdead.step_eq_none hreach⟩

end Dragomand
