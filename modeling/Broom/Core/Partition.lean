import Mathlib.Algebra.BigOperators.Group.List.Lemmas
import Mathlib.Algebra.GroupWithZero.Nat
import Mathlib.Data.List.Dedup
import Mathlib.Data.List.Perm.Lattice

/-!
# What is done and what is left

A list of distinct things splits into those that are done and those that are left, and the
counts of both parts by any key add up. Counting by distinct keys counts everything once.
-/

namespace Broom.Core

section

variable {α : Type} [DecidableEq α]

/-- What is left of a list when some of it is done. -/
def left (done all : List α) : List α := all.filter fun a => !done.any fun d => d = a

theorem mem_left {done all : List α} {a : α} : a ∈ left done all ↔ a ∈ all ∧ a ∉ done := by
  rw [left, List.mem_filter, Bool.not_eq_true', List.any_eq_false]
  refine and_congr_right fun _ => ⟨fun h ha => h a ha (decide_eq_true rfl), fun h d hd heq => ?_⟩
  exact h (of_decide_eq_true heq ▸ hd)

/-- What is done and what is left make up the whole. -/
theorem append_left_perm {done all : List α} (hdone : done.Nodup) (hall : all.Nodup)
    (hsub : ∀ a ∈ done, a ∈ all) : (done ++ left done all).Perm all := by
  have hnodup : (done ++ left done all).Nodup :=
    List.nodup_append'.mpr ⟨hdone, hall.filter _, fun a ha hleft => (mem_left.mp hleft).2 ha⟩
  refine (List.perm_ext_iff_of_nodup hnodup hall).mpr fun a => ?_
  rw [List.mem_append, mem_left]
  constructor
  · rintro (ha | ⟨ha, -⟩)
    · exact hsub a ha
    · exact ha
  · intro ha
    by_cases hmem : a ∈ done
    · exact .inl hmem
    · exact .inr ⟨ha, hmem⟩

/-- The distinct elements, in the order in which they come first, are distinct. -/
theorem nodup_eraseDups (l : List α) : l.eraseDups.Nodup := by
  induction hn : l.length using Nat.strong_induction_on generalizing l with
  | _ n ih =>
    cases l with
    | nil => simp
    | cons a l =>
      rw [List.eraseDups_cons, List.nodup_cons]
      have hlt : (l.filter fun b => !b == a).length < n := by
        have hle := List.length_filter_le (fun b => !b == a) l
        rw [← hn, List.length_cons]
        omega
      exact ⟨by simp, ih _ hlt _ rfl⟩

end

/-- Counting by distinct keys counts everything once. -/
theorem sum_countP_eraseDups {α K : Type} [DecidableEq K] (key : α → K) (l : List α) :
    ((l.map key).eraseDups.map fun k => l.countP fun a => key a = k).sum = l.length := by
  have hperm : (l.map key).eraseDups.Perm (l.map key).dedup :=
    (List.perm_ext_iff_of_nodup (nodup_eraseDups _) (List.nodup_dedup _)).mpr fun k => by simp
  have hcount (k : K) : l.countP (fun a => key a = k) = (l.map key).count k := by
    rw [List.count, List.countP_map]
    exact List.countP_congr fun a _ => by simp
  rw [List.map_congr_left fun k _ => hcount k, (hperm.map _).sum_eq,
    List.sum_map_count_dedup_eq_length, List.length_map]

end Broom.Core
