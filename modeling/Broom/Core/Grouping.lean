import Mathlib.Data.List.Induction
import Broom.Core.OrderedMap

/-!
# Groups

A loop that puts each element into the group of its key, groups in the order of their first
element. Every element ends up in exactly one group, in its old order.
-/

namespace Broom.Core

variable {K α : Type} [DecidableEq K]

/-- Put an element at the end of the group of a key. -/
def push (k : K) (a : α) (groups : List (K × List α)) : List (K × List α) :=
  setEntry k ((groups.lookup k).getD [] ++ [a]) groups

/-- Group a list by a key. -/
def group (key : α → K) (l : List α) : List (K × List α) :=
  l.foldl (fun groups a => push (key a) a groups) []

theorem group_concat (key : α → K) (l : List α) (a : α) :
    group key (l ++ [a]) = push (key a) a (group key l) := by
  rw [group, List.foldl_append]
  rfl

/-- The groups have one element more. -/
theorem flatMap_push_perm (k : K) (a : α) (groups : List (K × List α)) :
    ((push k a groups).flatMap Prod.snd).Perm (groups.flatMap Prod.snd ++ [a]) := by
  induction groups with
  | nil => exact .refl _
  | cons g groups ih =>
    rw [push, setEntry]
    by_cases hk : g.1 = k
    · have hlookup : (g :: groups).lookup k = some g.2 := by
        rw [List.lookup_cons, ← hk, beq_self_eq_true]
      rw [if_pos hk, hlookup, Option.getD_some, List.flatMap_cons, List.flatMap_cons,
        List.append_assoc, List.append_assoc]
      exact List.perm_append_comm.append_left g.2
    · have hlookup : (g :: groups).lookup k = groups.lookup k := by
        have hne : (k == g.1) = false := beq_false_of_ne (Ne.symm hk)
        rw [List.lookup_cons, hne]
      rw [if_neg hk, hlookup, List.flatMap_cons, List.flatMap_cons, List.append_assoc]
      exact ih.append_left g.2

/-- Grouping loses nothing and adds nothing. -/
theorem flatMap_group_perm (key : α → K) (l : List α) :
    ((group key l).flatMap Prod.snd).Perm l := by
  induction l using List.reverseRecOn with
  | nil => exact .refl _
  | append_singleton l a ih =>
    rw [group_concat]
    exact (flatMap_push_perm _ _ _).trans (ih.append_right [a])

end Broom.Core
