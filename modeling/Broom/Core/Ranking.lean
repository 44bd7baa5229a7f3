import Mathlib.Data.List.Sort
import Mathlib.Data.List.TakeWhile

/-!
# Lists sorted by one order and read by another

A bounded list is kept sorted by one relation, and every insertion drops what exceeds the
bound. Whether it is also sorted by a second relation is decided at each insertion, by
comparing the new element with the ones that are there; what is dropped is then last in
the second order too.
-/

namespace Broom.Core

variable {α : Type*} {r s : α → α → Prop} [DecidableRel r]

/-- An insertion keeps a second order exactly when the place of the new element is right in
it with respect to every other element. -/
theorem pairwise_orderedInsert_iff [IsTrans α r] {l : List α} (a : α) (hr : l.Pairwise r)
    (hs : l.Pairwise s) :
    (l.orderedInsert r a).Pairwise s ↔ ∀ x ∈ l, if r a x then s a x else s x a := by
  induction l with
  | nil => simp
  | cons b l ih =>
    obtain ⟨hb, hr⟩ := List.pairwise_cons.mp hr
    obtain ⟨hsb, hsl⟩ := List.pairwise_cons.mp hs
    by_cases hab : r a b
    · -- what stands behind the place of the insertion is behind the new element
      have hall : ∀ x ∈ b :: l, r a x := by
        intro x hx
        rcases List.mem_cons.mp hx with rfl | hx
        · exact hab
        · exact trans_of r hab (hb x hx)
      rw [List.orderedInsert_cons_of_le r l hab, List.pairwise_cons, and_iff_left hs]
      exact forall₂_congr fun x hx => by rw [if_pos (hall x hx)]
    · rw [List.orderedInsert_of_not_le r l hab, List.pairwise_cons, ih hr hsl,
        List.forall_mem_cons, if_neg hab]
      refine and_congr_left fun _ => ⟨fun h => h a ((List.mem_orderedInsert r).mpr (.inl rfl)), ?_⟩
      intro hba x hx
      rcases (List.mem_orderedInsert r).mp hx with rfl | hx
      · exact hba
      · exact hsb x hx

/-- With one element too many, a list is sorted exactly when the part that is kept is sorted
and what is dropped comes after all of it. -/
theorem pairwise_iff_take {l : List α} {n : Nat} (hlen : l.length ≤ n + 1) :
    l.Pairwise s ↔ (l.take n).Pairwise s ∧
      (n < l.length → ∃ e, l.Perm (l.take n ++ [e]) ∧ ∀ x ∈ l.take n, s x e) := by
  by_cases hn : n < l.length
  · obtain ⟨last, hlast⟩ : ∃ last, l.drop n = [last] :=
      List.length_eq_one_iff.mp (by rw [List.length_drop]; omega)
    have hl : l = l.take n ++ [last] := by rw [← hlast, List.take_append_drop]
    have hpair : l.Pairwise s ↔ (l.take n).Pairwise s ∧ ∀ x ∈ l.take n, s x last := by
      conv_lhs => rw [hl]
      simp [List.pairwise_append]
    rw [hpair, forall_prop_of_true hn]
    refine and_congr_right fun _ => ⟨fun h => ⟨last, by rw [← hl], h⟩, ?_⟩
    rintro ⟨e, hperm, he⟩
    rw [hl] at hperm
    have hlastperm : List.Perm [last] [e] := by
      have htake : (l.take n ++ [last]).take n = l.take n := by rw [← hl]
      rw [htake] at hperm
      exact (List.perm_append_left_iff _).mp hperm
    obtain rfl : last = e := List.singleton_inj.mp (List.perm_singleton.mp hlastperm)
    exact he
  · rw [List.take_of_length_le (by omega)]
    exact ⟨fun h => ⟨h, fun hlt => absurd hlt hn⟩, And.left⟩

/-- The first element of a list is among the first of the sorted list if few of the others
come before it. -/
theorem mem_take_insertionSort {a : α} {l : List α} {n : Nat}
    (h : (l.filter fun b => ¬ r a b).length < n) :
    a ∈ ((a :: l).insertionSort r).take n := by
  have hbefore : ((l.insertionSort r).takeWhile fun b => ¬ r a b).length < n := by
    refine Nat.lt_of_le_of_lt ?_ h
    rw [← ((List.perm_insertionSort r l).filter _).length_eq]
    have hself := List.filter_eq_self.mpr fun b hb =>
      List.mem_takeWhile_imp (l := l.insertionSort r) (p := fun b => decide ¬ r a b) (x := b) hb
    rw [← hself]
    exact ((List.takeWhile_prefix _).sublist.filter _).length_le
  rw [List.insertionSort_cons, List.orderedInsert_eq_take_drop, List.take_append]
  refine List.mem_append_right _ ?_
  rw [← Nat.succ_pred_eq_of_pos (Nat.sub_pos_of_lt hbefore), List.take_succ_cons]
  exact List.mem_cons_self ..

end Broom.Core
