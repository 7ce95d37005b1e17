/-!
# Sorting by a key

`sortBy` orders a list by a natural number key. It is stable: elements with equal keys keep their
order. Main statements: the result is a permutation of the list, its keys do not decrease, and the
elements of one key stand in their old order.
-/

namespace NameResolution

variable {α : Type}

/-- Puts `a` in front of the first element whose key is not below that of `a`. -/
def insertBy (key : α → Nat) (a : α) : List α → List α
  | [] => [a]
  | b :: bs => if key a ≤ key b then a :: b :: bs else b :: insertBy key a bs

/-- Orders a list by a key and keeps the order of elements with equal keys. -/
def sortBy (key : α → Nat) (l : List α) : List α := l.foldr (insertBy key) []

@[simp] theorem sortBy_nil (key : α → Nat) : sortBy key [] = [] := rfl

@[simp] theorem sortBy_cons (key : α → Nat) (a : α) (l : List α) :
    sortBy key (a :: l) = insertBy key a (sortBy key l) := rfl

/-- Inserting an entry loses nothing. -/
theorem perm_insertBy (key : α → Nat) (a : α) (l : List α) :
    (insertBy key a l).Perm (a :: l) := by
  induction l with
  | nil => exact .refl _
  | cons b bs ih =>
      rw [insertBy]
      split
      · exact .refl _
      · exact (ih.cons b).trans (.swap a b bs)

/-- Sorting rearranges the list. -/
theorem perm_sortBy (key : α → Nat) (l : List α) : (sortBy key l).Perm l := by
  induction l with
  | nil => exact .refl _
  | cons a l ih => exact (perm_insertBy key a _).trans (ih.cons a)

/-- Inserting an entry keeps the list sorted. -/
theorem pairwise_insertBy {key : α → Nat} (a : α) {l : List α}
    (h : l.Pairwise (key · ≤ key ·)) : (insertBy key a l).Pairwise (key · ≤ key ·) := by
  induction l with
  | nil => simp [insertBy]
  | cons b bs ih =>
      rw [List.pairwise_cons] at h
      rw [insertBy]
      split
      · next hab =>
        refine List.pairwise_cons.2 ⟨fun c hc => ?_, List.pairwise_cons.2 h⟩
        rcases List.mem_cons.1 hc with rfl | hc
        · exact hab
        · exact Nat.le_trans hab (h.1 c hc)
      · next hab =>
        refine List.pairwise_cons.2 ⟨fun c hc => ?_, ih h.2⟩
        rcases List.mem_cons.1 ((perm_insertBy key a bs).mem_iff.1 hc) with rfl | hc
        · omega
        · exact h.1 c hc

/-- The keys of a sorted list do not decrease. -/
theorem pairwise_sortBy (key : α → Nat) (l : List α) :
    (sortBy key l).Pairwise (key · ≤ key ·) := by
  induction l with
  | nil => exact .nil
  | cons a l ih => exact pairwise_insertBy a ih

/-- An entry is inserted in front of those with the same key. -/
theorem filter_insertBy (key : α → Nat) (k : Nat) (a : α) (l : List α) :
    (insertBy key a l).filter (key · == k) = (a :: l).filter (key · == k) := by
  induction l with
  | nil => rfl
  | cons b bs ih =>
      rw [insertBy]
      split
      · rfl
      · next hab =>
        rw [List.filter_cons, ih]
        have hne : key a ≠ key b := by omega
        by_cases ha : key a = k <;> by_cases hb : key b = k <;> simp_all

/-- Elements with one key keep their order. -/
theorem filter_sortBy (key : α → Nat) (k : Nat) (l : List α) :
    (sortBy key l).filter (key · == k) = l.filter (key · == k) := by
  induction l with
  | nil => rfl
  | cons a l ih => rw [sortBy_cons, filter_insertBy, List.filter_cons, List.filter_cons, ih]

end NameResolution
