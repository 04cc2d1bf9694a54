import Mathlib.Data.List.Sort

/-!
# Sorting and removing repetitions

A list that is sorted and freed of adjacent repetitions depends on its elements only.
-/

namespace SortedSet

section Adjacent

variable {α : Type} [DecidableEq α]

/-- Of equal elements that follow each other only one is kept. -/
def dedupAdjacent : List α → List α
  | [] => []
  | [a] => [a]
  | a :: b :: l => if a = b then dedupAdjacent (b :: l) else a :: dedupAdjacent (b :: l)

def sortDedup (cmp : α → α → Ordering) (l : List α) : List α :=
  dedupAdjacent (l.mergeSort fun a b => (cmp a b).isLE)

theorem mem_dedupAdjacent {l : List α} {a : α} : a ∈ dedupAdjacent l ↔ a ∈ l := by
  fun_induction dedupAdjacent l with
  | case1 => rfl
  | case2 b => rfl
  | case3 b l ih => simp [ih]
  | case4 b c l hne ih => rw [List.mem_cons, ih, List.mem_cons (l := c :: l)]

theorem dedupAdjacent_sublist (l : List α) : (dedupAdjacent l).Sublist l := by
  fun_induction dedupAdjacent l with
  | case1 => exact .slnil
  | case2 b => exact .refl _
  | case3 b l ih => exact ih.cons _
  | case4 b c l hne ih => exact ih.cons_cons _

theorem dedupAdjacent_nodup {r : α → α → Prop} (hanti : ∀ a b, r a b → r b a → a = b) {l : List α}
    (h : l.Pairwise r) : (dedupAdjacent l).Nodup := by
  fun_induction dedupAdjacent l with
  | case1 => exact List.nodup_nil
  | case2 b => exact List.nodup_singleton b
  | case3 b l ih => exact ih h.tail
  | case4 b c l hne ih =>
      refine List.nodup_cons.mpr ⟨fun hmem => ?_, ih h.tail⟩
      rw [List.pairwise_cons, List.pairwise_cons] at h
      rcases List.mem_cons.mp (mem_dedupAdjacent.mp hmem) with heq | hl
      · exact hne heq
      · exact hne (hanti b c (h.1 c List.mem_cons_self) (h.2.1 b hl))

theorem mem_sortDedup {cmp : α → α → Ordering} {l : List α} {a : α} :
    a ∈ sortDedup cmp l ↔ a ∈ l := by
  rw [sortDedup, mem_dedupAdjacent, List.mem_mergeSort]

end Adjacent

section Sorted

variable {α : Type} {cmp : α → α → Ordering} [Std.TransCmp cmp]

theorem pairwise_mergeSort (l : List α) :
    (l.mergeSort fun a b => (cmp a b).isLE).Pairwise fun a b => (cmp a b).isLE = true := by
  apply List.pairwise_mergeSort
  · intro a b c hab hbc
    exact Std.TransCmp.isLE_trans hab hbc
  · intro a b
    have hswap : cmp b a = (cmp a b).swap := Std.OrientedCmp.eq_swap
    rw [hswap]
    cases cmp a b <;> rfl

variable [Std.LawfulEqCmp cmp]

theorem isLE_antisymm {a b : α} (hab : (cmp a b).isLE = true) (hba : (cmp b a).isLE = true) : a = b := by
  have hswap : cmp b a = (cmp a b).swap := Std.OrientedCmp.eq_swap
  rw [hswap] at hba
  refine Std.LawfulEqCmp.eq_of_compare (?_ : cmp a b = .eq)
  cases h : cmp a b with
  | eq => rfl
  | lt => rw [h] at hba; cases hba
  | gt => rw [h] at hab; cases hab

/-- Lists are sorted to one list exactly when they are permutations of each other. -/
theorem mergeSort_eq_iff {l l' : List α} :
    (l.mergeSort fun a b => (cmp a b).isLE) = (l'.mergeSort fun a b => (cmp a b).isLE) ↔ l.Perm l' := by
  constructor
  · intro h
    have hperm := (List.mergeSort_perm l fun a b => (cmp a b).isLE).symm
    rw [h] at hperm
    exact hperm.trans (List.mergeSort_perm l' _)
  · intro h
    have hperm := ((List.mergeSort_perm l fun a b => (cmp a b).isLE).trans h).trans
      (List.mergeSort_perm l' fun a b => (cmp a b).isLE).symm
    exact hperm.eq_of_pairwise (fun a b _ _ => isLE_antisymm) (pairwise_mergeSort l)
      (pairwise_mergeSort l')

/-- The result depends on the elements only, not on their order or number. -/
theorem sortDedup_congr [DecidableEq α] {l l' : List α} (h : ∀ a, a ∈ l ↔ a ∈ l') :
    sortDedup cmp l = sortDedup cmp l' := by
  have hanti : ∀ a b : α, (cmp a b).isLE = true → (cmp b a).isLE = true → a = b :=
    fun _ _ => isLE_antisymm
  have hnodup : ∀ l : List α, (sortDedup cmp l).Nodup := fun l =>
    dedupAdjacent_nodup hanti (pairwise_mergeSort l)
  have hperm : (sortDedup cmp l).Perm (sortDedup cmp l') := by
    rw [List.perm_ext_iff_of_nodup (hnodup l) (hnodup l')]
    intro a
    exact mem_sortDedup.trans ((h a).trans mem_sortDedup.symm)
  exact hperm.eq_of_pairwise (fun a b _ _ => hanti a b)
    ((pairwise_mergeSort l).sublist (dedupAdjacent_sublist _))
    ((pairwise_mergeSort l').sublist (dedupAdjacent_sublist _))

end Sorted

end SortedSet
