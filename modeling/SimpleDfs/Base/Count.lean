import Mathlib.Data.Set.Card

/-!
# Counting where a property holds

Two ways to count that an invariant over processes and messages needs. `countAt p f` is the number
of indices at which `f` has the property `p`, for a table of processes that changes at one index at
a time; it is meaningful when these indices are finitely many. For messages in flight, `List.countP`
counts those with a property, and a delivered message is erased from the list. Both are stated as an
equation between sums, so that the numbers before and after a step can be compared by linear
arithmetic.
-/

section Table

variable {ι α : Type*} {p : α → Prop} {f : ι → α}

/-- The number of indices at which `f` has the property `p`. -/
noncomputable def countAt (p : α → Prop) (f : ι → α) : ℕ := {i | p (f i)}.ncard

/-- A change at one index leaves finitely many indices with the property. -/
theorem finite_update [DecidableEq ι] (h : {i | p (f i)}.Finite) (i : ι) (a : α) :
    {j | p (Function.update f i a j)}.Finite := by
  refine (h.insert i).subset fun j hj => ?_
  by_cases hji : j = i
  · exact Or.inl hji
  · rw [Set.mem_ofPred_eq, Function.update_of_ne hji] at hj
    exact Or.inr hj

/-- The count after a change at one index: the old value leaves and the new one enters. -/
theorem countAt_update [DecidableEq ι] [DecidablePred p] (h : {i | p (f i)}.Finite) (i : ι)
    (a : α) : countAt p (Function.update f i a) + (if p (f i) then 1 else 0) =
      countAt p f + if p a then 1 else 0 := by
  -- The indices other than `i` are counted on both sides.
  have hrest : ∀ g : ι → α, (∀ j, j ≠ i → g j = f j) →
      countAt p g = ({j | p (f j)} \ {i}).ncard + if p (g i) then 1 else 0 := by
    intro g hg
    by_cases hi : p (g i)
    · have hset : {j | p (g j)} = insert i ({j | p (f j)} \ {i}) := by
        ext j
        by_cases hj : j = i
        · simp [hj, hi]
        · simp [hj, hg j hj]
      have hcard := Set.ncard_insert_of_notMem (a := i) (s := {j | p (f j)} \ {i})
        (by simp) h.sdiff
      rw [countAt, hset, hcard, if_pos hi]
    · have hset : {j | p (g j)} = {j | p (f j)} \ {i} := by
        ext j
        by_cases hj : j = i
        · simp [hj, hi]
        · simp [hj, hg j hj]
      rw [countAt, hset, if_neg hi]
      rfl
  have hnew := hrest (Function.update f i a) fun j hj => Function.update_of_ne hj a f
  have hold := hrest f fun _ _ => rfl
  rw [Function.update_self] at hnew
  omega

/-- An index with the property is counted. -/
theorem countAt_pos (h : {i | p (f i)}.Finite) {i : ι} (hi : p (f i)) : 0 < countAt p f :=
  (Set.ncard_pos h).mpr ⟨i, hi⟩

/-- A change of the values that keeps the property keeps the count. -/
theorem countAt_congr {g : ι → α} (h : ∀ i, p (g i) ↔ p (f i)) : countAt p g = countAt p f := by
  have hset : {i | p (g i)} = {i | p (f i)} := Set.ext h
  rw [countAt, hset, countAt]

/-- Nothing is counted when no index has the property. -/
theorem countAt_eq_zero (h : ∀ i, ¬ p (f i)) : countAt p f = 0 := by
  have hset : {i | p (f i)} = ∅ := Set.eq_empty_of_forall_notMem h
  rw [countAt, hset, Set.ncard_empty]

end Table

/-- The count without one occurrence of an element. -/
theorem countP_erase_add {α : Type*} [DecidableEq α] {p : α → Bool} {l : List α} {a : α}
    (h : a ∈ l) : (l.erase a).countP p + (if p a then 1 else 0) = l.countP p := by
  rw [List.countP_erase]
  by_cases hp : p a = true
  · have hpos : 0 < l.countP p := List.countP_pos_iff.mpr ⟨a, h, hp⟩
    simp only [h, hp, and_self, if_true]
    omega
  · simp [hp]
