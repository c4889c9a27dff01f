import Mathlib.Data.List.Induction
import Mathlib.Data.List.Sort
import Mathlib.Order.Compare

/-!
# The first and the last of the greatest

In a list whose elements are compared, `FirstMax` and `LastMax` are the
first and the last element that no other exceeds. A stable sort that puts
the greatest in front puts the first of them there, and a loop that keeps
the greater of two, or the later one on a tie, ends with the last of them.
-/

namespace Maxima

variable {α : Type*} {cmp : α → α → Ordering} {l : List α} {m : α}

def FirstMax (cmp : α → α → Ordering) (l : List α) (m : α) : Prop :=
  ∃ before after, l = before ++ m :: after ∧ (∀ x ∈ before, cmp x m = .lt)
    ∧ ∀ x ∈ after, (cmp x m).isLE = true

def LastMax (cmp : α → α → Ordering) (l : List α) (m : α) : Prop :=
  ∃ before after, l = before ++ m :: after ∧ (∀ x ∈ before, (cmp x m).isLE = true)
    ∧ ∀ x ∈ after, cmp x m = .lt

theorem FirstMax.mem (h : FirstMax cmp l m) : m ∈ l := by
  obtain ⟨before, after, rfl, -⟩ := h
  simp

theorem LastMax.mem (h : LastMax cmp l m) : m ∈ l := by
  obtain ⟨before, after, rfl, -⟩ := h
  simp

variable [Std.TransCmp cmp]

theorem FirstMax.isLE (h : FirstMax cmp l m) {x : α} (hx : x ∈ l) : (cmp x m).isLE = true := by
  obtain ⟨before, after, rfl, hbefore, hafter⟩ := h
  rcases List.mem_append.mp hx with hx | hx
  · rw [hbefore x hx]
    rfl
  · rcases List.mem_cons.mp hx with rfl | hx
    · exact Std.ReflCmp.isLE_rfl
    · exact hafter x hx

theorem LastMax.isLE (h : LastMax cmp l m) {x : α} (hx : x ∈ l) : (cmp x m).isLE = true := by
  obtain ⟨before, after, rfl, hbefore, hafter⟩ := h
  rcases List.mem_append.mp hx with hx | hx
  · exact hbefore x hx
  · rcases List.mem_cons.mp hx with rfl | hx
    · exact Std.ReflCmp.isLE_rfl
    · rw [hafter x hx]
      rfl

theorem isLE_of_not_lt {a b : α} (h : cmp a b ≠ .lt) : (cmp b a).isLE = true := by
  rw [@Std.OrientedCmp.eq_swap _ cmp _]
  cases hcmp : cmp a b with
  | lt => exact absurd hcmp h
  | eq => rfl
  | gt => rfl

variable (cmp) in
theorem exists_firstMax (hl : l ≠ []) : ∃ m, FirstMax cmp l m := by
  induction l with
  | nil => exact absurd rfl hl
  | cons a l ih =>
      by_cases hnil : l = []
      · exact ⟨a, [], [], by rw [hnil]; rfl, by simp, by simp⟩
      · obtain ⟨m, hm⟩ := ih hnil
        by_cases hcmp : cmp a m = .lt
        · obtain ⟨before, after, rfl, hbefore, hafter⟩ := hm
          exact ⟨m, a :: before, after, rfl, List.forall_mem_cons.mpr ⟨hcmp, hbefore⟩, hafter⟩
        · refine ⟨a, [], l, rfl, by simp, fun x hx => ?_⟩
          exact Std.TransCmp.isLE_trans (hm.isLE hx) (isLE_of_not_lt hcmp)

variable (cmp) in
theorem exists_lastMax (hl : l ≠ []) : ∃ m, LastMax cmp l m := by
  induction l using List.reverseRecOn with
  | nil => exact absurd rfl hl
  | append_singleton l a ih =>
      by_cases hnil : l = []
      · exact ⟨a, [], [], by rw [hnil], by simp, by simp⟩
      · obtain ⟨m, hm⟩ := ih hnil
        by_cases hcmp : cmp a m = .lt
        · obtain ⟨before, after, rfl, hbefore, hafter⟩ := hm
          refine ⟨m, before, after ++ [a], by simp, hbefore, fun x hx => ?_⟩
          rcases List.mem_append.mp hx with hx | hx
          · exact hafter x hx
          · rwa [List.mem_singleton.mp hx]
        · refine ⟨a, l, [], rfl, fun x hx => ?_, by simp⟩
          exact Std.TransCmp.isLE_trans (hm.isLE hx) (isLE_of_not_lt hcmp)

/-- The first and the last are equally great. -/
theorem FirstMax.cmp_eq {a b : α} (ha : FirstMax cmp l a) (hb : LastMax cmp l b) :
    cmp a b = .eq := by
  have hab := hb.isLE ha.mem
  have hba := ha.isLE hb.mem
  rw [@Std.OrientedCmp.eq_swap _ cmp _] at hba
  cases hcmp : cmp a b with
  | eq => rfl
  | lt =>
      rw [hcmp] at hba
      cases hba
  | gt =>
      rw [hcmp] at hab
      cases hab

/-! ## Sorting -/

/-- The first of the greatest is in front of the rest, once sorted. -/
theorem FirstMax.head_insertionSort {r : α → α → Prop} [DecidableRel r]
    (hr : ∀ a b, r a b ↔ (cmp b a).isLE = true) (h : FirstMax cmp l m) :
    (l.insertionSort r).head? = some m := by
  obtain ⟨before, after, rfl, hbefore, hafter⟩ := h
  induction before with
  | nil =>
      rw [List.nil_append,
        List.insertionSort_cons_of_forall_rel r fun x hx => (hr m x).mpr (hafter x hx)]
      rfl
  | cons a before ih =>
      obtain ⟨ha, hbefore⟩ := List.forall_mem_cons.mp hbefore
      have hhead := ih hbefore
      rw [List.cons_append, List.insertionSort_cons]
      cases hsorted : (before ++ m :: after).insertionSort r with
      | nil =>
          rw [hsorted] at hhead
          cases hhead
      | cons h rest =>
          rw [hsorted] at hhead
          obtain rfl := Option.some.inj hhead
          have hnot : ¬ r a h := by
            rw [hr, @Std.OrientedCmp.eq_swap _ cmp _, ha]
            decide
          rw [List.orderedInsert_cons, if_neg hnot]
          rfl

/-! ## Loops -/

omit [Std.TransCmp cmp] in
theorem foldl_stays [Std.OrientedCmp cmp] {b : α} :
    ∀ {after : List α}, (∀ x ∈ after, cmp x b = .lt) →
      after.foldl (fun best b => if cmp best b = .gt then best else b) b = b
  | [], _ => rfl
  | x :: after, h => by
      obtain ⟨hx, hafter⟩ := List.forall_mem_cons.mp h
      rw [List.foldl_cons, if_pos (Std.OrientedCmp.gt_of_lt hx)]
      exact foldl_stays hafter

/-! ## Which one it is -/

variable {P : α → Prop}

/-- An element without the property is less than one with it, or as great
and not after it. -/
def OutdoneLast (cmp : α → α → Ordering) (l : List α) (P : α → Prop) : Prop :=
  ∀ x ∈ l, ¬ P x → ∃ before y after, l = before ++ y :: after ∧ P y
    ∧ (cmp x y = .lt ∨ (cmp x y = .eq ∧ x ∉ after))

/-- An element without the property is less than one with it, or as great
and not before it. -/
def OutdoneFirst (cmp : α → α → Ordering) (l : List α) (P : α → Prop) : Prop :=
  ∀ x ∈ l, ¬ P x → ∃ before y after, l = before ++ y :: after ∧ P y
    ∧ (cmp x y = .lt ∨ (cmp x y = .eq ∧ x ∉ before))

theorem LastMax.holds_iff (h : LastMax cmp l m) : P m ↔ OutdoneLast cmp l P := by
  obtain ⟨before, after, hl, hbefore, hafter⟩ := id h
  constructor
  · intro hm x hx hnot
    refine ⟨before, m, after, hl, hm, ?_⟩
    have hle := h.isLE hx
    cases hcmp : cmp x m with
    | lt => exact Or.inl rfl
    | gt =>
        rw [hcmp] at hle
        cases hle
    | eq =>
        refine Or.inr ⟨rfl, fun hmem => ?_⟩
        rw [hafter x hmem] at hcmp
        cases hcmp
  · intro hall
    by_contra hnot
    obtain ⟨before', y, after', hl', hy, hbeats⟩ := hall m h.mem hnot
    have hle := h.isLE (x := y) (by rw [hl']; simp)
    rcases hbeats with hlt | ⟨heq, hmem⟩
    · rw [@Std.OrientedCmp.eq_swap _ cmp _, hlt] at hle
      cases hle
    · -- `y` is after `m`, where all is less
      have hy' : y ∈ after := by
        rw [hl, List.append_eq_append_iff] at hl'
        rcases hl' with ⟨mid, hbefore', hrest⟩ | ⟨mid, hbefore', hrest⟩
        · cases mid with
          | nil =>
              obtain ⟨rfl, -⟩ := List.cons.inj hrest
              exact absurd hy hnot
          | cons a mid =>
              obtain ⟨-, rfl⟩ := List.cons.inj hrest
              simp
        · cases mid with
          | nil =>
              obtain ⟨rfl, -⟩ := List.cons.inj hrest
              exact absurd hy hnot
          | cons a mid =>
              obtain ⟨-, rfl⟩ := List.cons.inj hrest
              simp at hmem
      rw [@Std.OrientedCmp.eq_swap _ cmp _, hafter y hy'] at heq
      cases heq

theorem FirstMax.holds_iff (h : FirstMax cmp l m) : P m ↔ OutdoneFirst cmp l P := by
  obtain ⟨before, after, hl, hbefore, hafter⟩ := id h
  constructor
  · intro hm x hx hnot
    refine ⟨before, m, after, hl, hm, ?_⟩
    have hle := h.isLE hx
    cases hcmp : cmp x m with
    | lt => exact Or.inl rfl
    | gt =>
        rw [hcmp] at hle
        cases hle
    | eq =>
        refine Or.inr ⟨rfl, fun hmem => ?_⟩
        rw [hbefore x hmem] at hcmp
        cases hcmp
  · intro hall
    by_contra hnot
    obtain ⟨before', y, after', hl', hy, hbeats⟩ := hall m h.mem hnot
    have hle := h.isLE (x := y) (by rw [hl']; simp)
    rcases hbeats with hlt | ⟨heq, hmem⟩
    · rw [@Std.OrientedCmp.eq_swap _ cmp _, hlt] at hle
      cases hle
    · -- `y` is before `m`, where all is less
      have hy' : y ∈ before := by
        rw [hl, List.append_eq_append_iff] at hl'
        rcases hl' with ⟨mid, hbefore', hrest⟩ | ⟨mid, hbefore', hrest⟩
        · cases mid with
          | nil =>
              obtain ⟨rfl, -⟩ := List.cons.inj hrest
              exact absurd hy hnot
          | cons a mid =>
              obtain ⟨rfl, -⟩ := List.cons.inj hrest
              rw [hbefore'] at hmem
              simp at hmem
        · cases mid with
          | nil =>
              obtain ⟨rfl, -⟩ := List.cons.inj hrest
              exact absurd hy hnot
          | cons a mid =>
              obtain ⟨rfl, -⟩ := List.cons.inj hrest
              rw [hbefore']
              simp
      rw [@Std.OrientedCmp.eq_swap _ cmp _, hbefore y hy'] at heq
      cases heq

end Maxima
