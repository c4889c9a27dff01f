import Mathlib.Data.List.Forall2
import Mathlib.Data.List.Pairwise
import Mathlib.Order.Compare
import Mathlib.Tactic.TypeStar

/-!
# Maps as sorted lists

A map with ordered keys, as the list of its entries in the order of the
keys. `alter` gives one entry a new value, from its old one if it has one.
Keys that compare equal are one key, so that a comparison may look at a part
of the key only; the key that came first is the one kept.
-/

namespace SortedMap

variable {κ ν : Type*} {cmp : κ → κ → Ordering} {key : κ} {f : Option ν → ν}

def alter (cmp : κ → κ → Ordering) (key : κ) (f : Option ν → ν) :
    List (κ × ν) → List (κ × ν)
  | [] => [(key, f none)]
  | (key', value) :: rest =>
      match cmp key key' with
      | .lt => (key, f none) :: (key', value) :: rest
      | .eq => (key', f (some value)) :: rest
      | .gt => (key', value) :: alter cmp key f rest

/-- The keys stay, and get one more. -/
theorem key_of_mem_alter {l : List (κ × ν)} {entry : κ × ν} (h : entry ∈ alter cmp key f l) :
    entry.1 = key ∨ ∃ value, (entry.1, value) ∈ l := by
  induction l with
  | nil => exact Or.inl (by simp [alter] at h; simp [h])
  | cons head rest ih =>
      rw [alter] at h
      split at h
      · rcases List.mem_cons.mp h with rfl | hold
        · exact Or.inl rfl
        · exact Or.inr ⟨entry.2, hold⟩
      · rcases List.mem_cons.mp h with rfl | hold
        · exact Or.inr ⟨_, List.mem_cons_self ..⟩
        · exact Or.inr ⟨entry.2, List.mem_cons_of_mem _ hold⟩
      · rcases List.mem_cons.mp h with rfl | hold
        · exact Or.inr ⟨_, List.mem_cons_self ..⟩
        · rcases ih hold with hkey | ⟨value, hmem⟩
          · exact Or.inl hkey
          · exact Or.inr ⟨value, List.mem_cons_of_mem _ hmem⟩

/-- A value is an old one or the new one. -/
theorem value_of_mem_alter {l : List (κ × ν)} {entry : κ × ν} (h : entry ∈ alter cmp key f l) :
    entry ∈ l ∨ entry.2 = f none ∨ ∃ old ∈ l, entry.2 = f (some old.2) := by
  induction l with
  | nil => exact Or.inr (Or.inl (by simp [alter] at h; simp [h]))
  | cons head rest ih =>
      rw [alter] at h
      split at h
      · rcases List.mem_cons.mp h with rfl | hold
        · exact Or.inr (Or.inl rfl)
        · exact Or.inl hold
      · rcases List.mem_cons.mp h with rfl | hold
        · exact Or.inr (Or.inr ⟨_, List.mem_cons_self .., rfl⟩)
        · exact Or.inl (List.mem_cons_of_mem _ hold)
      · rcases List.mem_cons.mp h with rfl | hold
        · exact Or.inl (List.mem_cons_self ..)
        · rcases ih hold with hmem | hnew | ⟨old, hmem, hvalue⟩
          · exact Or.inl (List.mem_cons_of_mem _ hmem)
          · exact Or.inr (Or.inl hnew)
          · exact Or.inr (Or.inr ⟨old, List.mem_cons_of_mem _ hmem, hvalue⟩)

/-! ## Sorted lists -/

def Sorted (cmp : κ → κ → Ordering) (l : List (κ × ν)) : Prop :=
  l.Pairwise fun a b => cmp a.1 b.1 = .lt

theorem Sorted.nil : Sorted cmp ([] : List (κ × ν)) := List.Pairwise.nil

section Sorted

variable [Std.TransCmp cmp] {l : List (κ × ν)}

/-- A key has one value. -/
theorem Sorted.unique (h : Sorted cmp l) {a b : κ × ν} (ha : a ∈ l) (hb : b ∈ l)
    (heq : cmp a.1 b.1 = .eq) : a = b := by
  by_contra hne
  have hlt : cmp a.1 b.1 = .lt ∨ cmp b.1 a.1 = .lt := by
    refine List.Pairwise.forall_of_forall_of_flip (R := fun a b : κ × ν =>
      a ≠ b → cmp a.1 b.1 = .lt ∨ cmp b.1 a.1 = .lt) ?_ ?_ ?_ ha hb hne
    · exact fun x _ hx => absurd rfl hx
    · exact h.imp fun hab _ => Or.inl hab
    · exact h.imp fun hab _ => Or.inr hab
  rcases hlt with hlt | hlt
  · rw [heq] at hlt
    cases hlt
  · rw [Std.OrientedCmp.eq_symm heq] at hlt
    cases hlt

theorem Sorted.alter (h : Sorted cmp l) : Sorted cmp (SortedMap.alter cmp key f l) := by
  induction l with
  | nil => exact List.pairwise_singleton ..
  | cons head rest ih =>
      obtain ⟨hhead, hrest⟩ := List.pairwise_cons.mp h
      rw [SortedMap.alter]
      split
      · rename_i hlt
        refine List.pairwise_cons.mpr ⟨fun e he => ?_, h⟩
        rcases List.mem_cons.mp he with rfl | he
        · exact hlt
        · exact Std.TransCmp.lt_trans hlt (hhead e he)
      · exact List.pairwise_cons.mpr ⟨hhead, hrest⟩
      · rename_i hgt
        refine List.pairwise_cons.mpr ⟨fun e he => ?_, ih hrest⟩
        rcases key_of_mem_alter he with hkey | ⟨value, hmem⟩
        · rw [hkey]
          exact Std.OrientedCmp.lt_of_gt hgt
        · exact hhead (e.1, value) hmem

/-- What is in the map after one entry has changed. -/
theorem Sorted.mem_alter (h : Sorted cmp l) {k : κ} {v : ν} :
    (k, v) ∈ SortedMap.alter cmp key f l ↔ (cmp key k ≠ .eq ∧ (k, v) ∈ l)
      ∨ (cmp key k = .eq ∧ ((∃ old, (k, old) ∈ l ∧ v = f (some old))
        ∨ (k = key ∧ (∀ e ∈ l, cmp key e.1 ≠ .eq) ∧ v = f none))) := by
  have hself : cmp key key = .eq := Std.ReflCmp.compare_self
  induction l with
  | nil =>
      simp only [SortedMap.alter, List.mem_singleton, Prod.mk.injEq, List.not_mem_nil, and_false,
        false_and, exists_false, false_or, false_imp_iff, implies_true, true_and]
      refine ⟨?_, fun h => h.2⟩
      rintro ⟨rfl, rfl⟩
      exact ⟨hself, rfl, rfl⟩
  | cons head rest ih =>
      obtain ⟨k₀, v₀⟩ := head
      obtain ⟨hhead, hrest⟩ := List.pairwise_cons.mp h
      rw [SortedMap.alter]
      cases hcmp : cmp key k₀ with
      | lt =>
          -- every key of the list is greater
          have hlt : ∀ e ∈ (k₀, v₀) :: rest, cmp key e.1 = .lt := by
            intro e he
            rcases List.mem_cons.mp he with rfl | he
            · exact hcmp
            · exact Std.TransCmp.lt_trans hcmp (hhead e he)
          have hne : ∀ e ∈ (k₀, v₀) :: rest, cmp key e.1 ≠ .eq := by
            intro e he heq
            rw [hlt e he] at heq
            cases heq
          dsimp only
          rw [List.mem_cons, Prod.mk.injEq]
          constructor
          · rintro (⟨rfl, rfl⟩ | hmem)
            · exact Or.inr ⟨hself, Or.inr ⟨rfl, hne, rfl⟩⟩
            · exact Or.inl ⟨hne _ hmem, hmem⟩
          · rintro (⟨-, hmem⟩ | ⟨heq, ⟨old, hmem, -⟩ | ⟨rfl, -, rfl⟩⟩)
            · exact Or.inr hmem
            · exact absurd heq (hne _ hmem)
            · exact Or.inl ⟨rfl, rfl⟩
      | eq =>
          have hne : ∀ e ∈ rest, cmp key e.1 ≠ .eq := by
            intro e he heq
            rw [Std.TransCmp.lt_of_eq_of_lt hcmp (hhead e he)] at heq
            cases heq
          dsimp only
          rw [List.mem_cons, Prod.mk.injEq]
          constructor
          · rintro (⟨rfl, rfl⟩ | hmem)
            · exact Or.inr ⟨hcmp, Or.inl ⟨v₀, List.mem_cons_self .., rfl⟩⟩
            · exact Or.inl ⟨hne _ hmem, List.mem_cons_of_mem _ hmem⟩
          · rintro (⟨hkne, hmem⟩ | ⟨heq, ⟨old, hmem, rfl⟩ | ⟨rfl, hall, -⟩⟩)
            · rcases List.mem_cons.mp hmem with heq | hmem
              · obtain ⟨rfl, -⟩ := Prod.mk.inj heq
                exact absurd hcmp hkne
              · exact Or.inr hmem
            · rcases List.mem_cons.mp hmem with heq' | hmem
              · obtain ⟨rfl, rfl⟩ := Prod.mk.inj heq'
                exact Or.inl ⟨rfl, rfl⟩
              · exact absurd heq (hne _ hmem)
            · exact absurd hcmp (hall _ (List.mem_cons_self ..))
      | gt =>
          have hne : cmp key k₀ ≠ .eq := by rw [hcmp]; decide
          have hiff := ih hrest
          dsimp only
          rw [List.mem_cons, Prod.mk.injEq]
          simp only [hiff]
          constructor
          · rintro (⟨rfl, rfl⟩ | ⟨hkne, hmem⟩ | ⟨heq, ⟨old, hmem, hv⟩ | ⟨hk, hall, hv⟩⟩)
            · exact Or.inl ⟨hne, List.mem_cons_self ..⟩
            · exact Or.inl ⟨hkne, List.mem_cons_of_mem _ hmem⟩
            · exact Or.inr ⟨heq, Or.inl ⟨old, List.mem_cons_of_mem _ hmem, hv⟩⟩
            · exact Or.inr ⟨heq, Or.inr ⟨hk, List.forall_mem_cons.mpr ⟨hne, hall⟩, hv⟩⟩
          · rintro (⟨hkne, hmem⟩ | ⟨heq, ⟨old, hmem, hv⟩ | ⟨hk, hall, hv⟩⟩)
            · rcases List.mem_cons.mp hmem with heq | hmem
              · exact Or.inl (Prod.mk.inj heq)
              · exact Or.inr (Or.inl ⟨hkne, hmem⟩)
            · rcases List.mem_cons.mp hmem with heq' | hmem
              · obtain ⟨rfl, -⟩ := Prod.mk.inj heq'
                exact absurd heq hne
              · exact Or.inr (Or.inr ⟨heq, Or.inl ⟨old, hmem, hv⟩⟩)
            · exact Or.inr (Or.inr ⟨heq, Or.inr ⟨hk, (List.forall_mem_cons.mp hall).2, hv⟩⟩)

/-! ## Lookup and groups -/

def get (cmp : κ → κ → Ordering) (l : List (κ × ν)) (key : κ) : Option ν :=
  (l.find? fun entry => cmp key entry.1 = .eq).map Prod.snd

theorem Sorted.get_of_mem (h : Sorted cmp l) {k k' : κ} {v : ν} (hmem : (k', v) ∈ l)
    (hk : cmp k k' = .eq) : get cmp l k = some v := by
  have hfound : (l.find? fun entry => cmp k entry.1 = .eq).isSome = true :=
    List.find?_isSome.mpr ⟨(k', v), hmem, decide_eq_true hk⟩
  obtain ⟨entry, hentry⟩ := Option.isSome_iff_exists.mp hfound
  have heq : cmp k entry.1 = .eq := by simpa using List.find?_some hentry
  have hsame := h.unique hmem (List.mem_of_find?_eq_some hentry)
    (Std.TransCmp.eq_trans (Std.OrientedCmp.eq_symm hk) heq)
  rw [get, hentry, ← hsame]
  rfl

omit [Std.TransCmp cmp] in
theorem get_eq_none {k : κ} (hnone : ∀ e ∈ l, cmp k e.1 ≠ .eq) : get cmp l k = none := by
  rw [get, List.find?_eq_none.mpr fun e he => by simpa using hnone e he]
  rfl

theorem Sorted.get_alter (h : Sorted cmp l) (k : κ) :
    get cmp (SortedMap.alter cmp key f l) k
      = if cmp key k = .eq then some (f (get cmp l k)) else get cmp l k := by
  have halter : Sorted cmp (SortedMap.alter cmp key f l) := h.alter
  by_cases hk : cmp key k = .eq
  · rw [if_pos hk]
    have hk' := Std.OrientedCmp.eq_symm hk
    by_cases hold : ∃ e ∈ l, cmp k e.1 = .eq
    · obtain ⟨⟨k', old⟩, hmem, heq⟩ := hold
      rw [h.get_of_mem hmem heq]
      exact halter.get_of_mem (h.mem_alter.mpr
        (Or.inr ⟨Std.TransCmp.eq_trans hk heq, Or.inl ⟨old, hmem, rfl⟩⟩)) heq
    · have hnone : ∀ e ∈ l, cmp k e.1 ≠ .eq := fun e he heq => hold ⟨e, he, heq⟩
      rw [get_eq_none hnone]
      refine halter.get_of_mem (show (key, _) ∈ _ from
        h.mem_alter.mpr (Or.inr ⟨Std.ReflCmp.compare_self,
        Or.inr ⟨rfl, fun e he heq => ?_, rfl⟩⟩)) hk'
      exact hnone e he (Std.TransCmp.eq_trans hk' heq)
  · rw [if_neg hk]
    have hother : ∀ {k'}, cmp k k' = .eq → cmp key k' ≠ .eq := fun heq heq' =>
      hk (Std.TransCmp.eq_trans heq' (Std.OrientedCmp.eq_symm heq))
    by_cases hold : ∃ e ∈ l, cmp k e.1 = .eq
    · obtain ⟨⟨k', old⟩, hmem, heq⟩ := hold
      rw [h.get_of_mem hmem heq]
      exact halter.get_of_mem (h.mem_alter.mpr (Or.inl ⟨hother heq, hmem⟩)) heq
    · rw [get_eq_none fun e he heq => hold ⟨e, he, heq⟩]
      refine get_eq_none fun e he heq => ?_
      rcases h.mem_alter.mp (show (e.1, e.2) ∈ _ from he) with ⟨-, hmem⟩ | ⟨hself, -⟩
      · exact hold ⟨_, hmem, heq⟩
      · exact hother heq hself

/-- Of the entries with a key, a loop over them all sees the one of it. -/
theorem Sorted.foldl_filter {μ : Type*} {g : ν → μ} (h : Sorted cmp l) {k : κ} {old : Option μ} :
    (l.filter fun entry => cmp entry.1 k = .eq).foldl (fun _ entry => some (g entry.2)) old
      = ((get cmp l k).map g).or old := by
  induction l generalizing old with
  | nil => rfl
  | cons entry rest ih =>
      obtain ⟨hhead, hrest⟩ := List.pairwise_cons.mp h
      by_cases hk : cmp entry.1 k = .eq
      · -- the keys after it are greater
        have hnil : rest.filter (fun e => cmp e.1 k = .eq) = [] := by
          refine List.filter_eq_nil_iff.mpr fun e he heq => ?_
          have hlt := hhead e he
          rw [Std.TransCmp.eq_trans hk (Std.OrientedCmp.eq_symm (of_decide_eq_true heq))] at hlt
          cases hlt
        rw [List.filter_cons_of_pos (by simpa using hk), hnil,
          h.get_of_mem (List.mem_cons_self ..) (Std.OrientedCmp.eq_symm hk)]
        rfl
      · have hk' : ¬ cmp k entry.1 = .eq := fun heq => hk (Std.OrientedCmp.eq_symm heq)
        have hget : get cmp (entry :: rest) k = get cmp rest k := by
          unfold get
          rw [List.find?_cons_of_neg (by simpa using hk')]
        rw [List.filter_cons_of_neg (by simpa using hk), ih hrest, hget]

variable {α : Type*} {keyOf : α → κ}

/-- Changing entry after entry, each value goes through the changes of its
own key. -/
theorem Sorted.get_foldl_alter {g : α → Option ν → ν} (elements : List α) (h : Sorted cmp l)
    (k : κ) :
    get cmp (elements.foldl (fun l a => SortedMap.alter cmp (keyOf a) (g a) l) l) k
      = (elements.filter fun a => cmp (keyOf a) k = .eq).foldl (fun v a => some (g a v))
          (get cmp l k) := by
  induction elements generalizing l with
  | nil => rfl
  | cons a elements ih =>
      rw [List.foldl_cons, ih h.alter, h.get_alter]
      by_cases hk : cmp (keyOf a) k = .eq
      · rw [if_pos hk, List.filter_cons_of_pos (by simpa using hk), List.foldl_cons]
      · rw [if_neg hk, List.filter_cons_of_neg (by simpa using hk)]

/-- The elements under the key of each, in their order. -/
def group (cmp : κ → κ → Ordering) (keyOf : α → κ) (elements : List α) : List (κ × List α) :=
  elements.foldl (fun groups a =>
    SortedMap.alter cmp (keyOf a) (fun group => group.getD [] ++ [a]) groups) []

/-- A group has all the elements of its key. -/
theorem get_group (elements : List α) (k : κ) :
    get cmp (group cmp keyOf elements) k =
      if elements.filter (fun a => cmp (keyOf a) k = .eq) = [] then none
      else some (elements.filter fun a => cmp (keyOf a) k = .eq) := by
  have hfold : ∀ (l : List α) (v : Option (List α)),
      l.foldl (fun v a => some (v.getD [] ++ [a])) v = if l = [] then v else some (v.getD [] ++ l) := by
    intro l
    induction l with
    | nil => exact fun v => rfl
    | cons a l ih =>
        intro v
        rw [List.foldl_cons, ih, if_neg (List.cons_ne_nil a l)]
        by_cases hl : l = []
        · rw [if_pos hl, hl]
        · rw [if_neg hl]
          simp
  rw [group, Sorted.get_foldl_alter elements .nil, hfold]
  rfl

theorem sorted_foldl_alter {g : α → Option ν → ν} (elements : List α) (h : Sorted cmp l) :
    Sorted cmp (elements.foldl (fun l a => SortedMap.alter cmp (keyOf a) (g a) l) l) := by
  induction elements generalizing l with
  | nil => exact h
  | cons a elements ih => exact ih h.alter

theorem sorted_group (elements : List α) : Sorted cmp (group cmp keyOf elements) :=
  sorted_foldl_alter elements .nil

end Sorted

/-! ## Related maps -/

section Related

variable [Std.TransCmp cmp] {μ : Type*} {R : ν → μ → Prop} {l : List (κ × ν)} {l' : List (κ × μ)}

omit [Std.TransCmp cmp] in
theorem mem_of_get {k : κ} {v : ν} (h : get cmp l k = some v) :
    ∃ k', (k', v) ∈ l ∧ cmp k k' = .eq := by
  obtain ⟨⟨k', v'⟩, hfound, rfl⟩ := Option.map_eq_some_iff.mp h
  exact ⟨k', List.mem_of_find?_eq_some hfound, by simpa using List.find?_some hfound⟩

/-- The entries after the first have greater keys. -/
theorem Sorted.get_tail {head : κ × ν} {rest : List (κ × ν)} (h : Sorted cmp (head :: rest))
    (k : κ) :
    get cmp rest k = if cmp k head.1 = .eq then none else get cmp (head :: rest) k := by
  obtain ⟨hhead, hrest⟩ := List.pairwise_cons.mp h
  split
  · rename_i heq
    refine get_eq_none fun e he heq' => ?_
    have hlt := Std.TransCmp.lt_of_eq_of_lt heq (hhead e he)
    rw [heq'] at hlt
    cases hlt
  · rename_i hne
    unfold get
    rw [List.find?_cons_of_neg (by simpa using hne)]

/-- A key of the map is not before the first one. -/
theorem Sorted.not_lt_head {head : κ × ν} {rest : List (κ × ν)} (h : Sorted cmp (head :: rest))
    {k : κ} {v : ν} (hget : get cmp (head :: rest) k = some v) : cmp k head.1 ≠ .lt := by
  intro hlt
  obtain ⟨k', hmem, hk⟩ := mem_of_get hget
  have hlt' : cmp k k' = .lt := by
    rcases List.mem_cons.mp hmem with heq | hmem
    · rw [← heq] at hlt
      exact hlt
    · exact Std.TransCmp.lt_trans hlt ((List.pairwise_cons.mp h).1 _ hmem)
  rw [hk] at hlt'
  cases hlt'

/-- Maps whose values are related key by key have related entries in the same
places. -/
theorem Sorted.forall₂_of_get (h : Sorted cmp l) (h' : Sorted cmp l')
    (hget : ∀ k, Option.Rel R (get cmp l k) (get cmp l' k)) :
    List.Forall₂ (fun a b => cmp a.1 b.1 = .eq ∧ R a.2 b.2) l l' := by
  induction l generalizing l' with
  | nil =>
      cases l' with
      | nil => exact .nil
      | cons b l' =>
          have hb := hget b.1
          rw [h'.get_of_mem (List.mem_cons_self ..) Std.ReflCmp.compare_self] at hb
          cases hb
  | cons a l ih =>
      have ha := hget a.1
      rw [h.get_of_mem (List.mem_cons_self ..) Std.ReflCmp.compare_self] at ha
      cases l' with
      | nil => cases ha
      | cons b l' =>
          have hb := hget b.1
          rw [h'.get_of_mem (List.mem_cons_self ..) Std.ReflCmp.compare_self] at hb
          -- each map has the other's first key
          have hnot : cmp a.1 b.1 ≠ .lt := by
            generalize hother : get cmp (b :: l') a.1 = other at ha
            cases ha
            exact h'.not_lt_head hother
          have hnot' : cmp b.1 a.1 ≠ .lt := by
            generalize hother : get cmp (a :: l) b.1 = other at hb
            cases hb
            exact h.not_lt_head hother
          have heq : cmp a.1 b.1 = .eq := by
            cases hcmp : cmp a.1 b.1 with
            | lt => exact absurd hcmp hnot
            | eq => rfl
            | gt => exact absurd (Std.OrientedCmp.lt_of_gt hcmp) hnot'
          rw [h'.get_of_mem (List.mem_cons_self ..) heq] at ha
          refine .cons ⟨heq, by cases ha; assumption⟩ (ih (List.pairwise_cons.mp h).2
            (List.pairwise_cons.mp h').2 fun k => ?_)
          rw [h.get_tail, h'.get_tail]
          by_cases hk : cmp k a.1 = .eq
          · rw [if_pos hk, if_pos (Std.TransCmp.eq_trans hk heq)]
            exact .none
          · rw [if_neg hk,
              if_neg fun hkb => hk (Std.TransCmp.eq_trans hkb (Std.OrientedCmp.eq_symm heq))]
            exact hget k

end Related
end SortedMap
