import Mathlib.Data.List.Count
import Mathlib.Data.List.Nodup

/-!
# Cutting words

A word is cut either at a separator letter or into pieces of bounded length.
Three words joined with a separator between neighbours are recovered by cutting
at the first two separators as soon as the first two words are free of it, and
the number of separators in a join bounds what its parts may contain. Cutting
into chunks loses nothing and makes no empty chunk. Nothing here depends on what
the letters are.
-/

namespace Broom.Core

/-! ## Separators -/

section separator

variable {α : Type*} [DecidableEq α]

/-- Cut a word at its first separator; a word without one cannot be cut. -/
def cutFirst (sep : α) : List α → Option (List α × List α)
  | [] => none
  | a :: w => if a = sep then some ([], w) else (cutFirst sep w).map fun p => (a :: p.1, p.2)

/-- Cut a word at its first two separators. -/
def cutTwice (sep : α) (w : List α) : Option (List α × List α × List α) :=
  (cutFirst sep w).bind fun p => (cutFirst sep p.2).map fun q => (p.1, q.1, q.2)

/-- Cut a word at its separators into at most `n` parts; the last part is not cut. -/
def splitN (sep : α) : Nat → List α → List (List α)
  | 0, _ => []
  | 1, w => [w]
  | n + 2, w =>
    match cutFirst sep w with
    | none => [w]
    | some p => p.1 :: splitN sep (n + 1) p.2

/-- Three words with one separator between neighbours. -/
def joinThree (sep : α) (a b c : List α) : List α := a ++ sep :: (b ++ sep :: c)

/-- The first cut of a join falls after its separator-free first word. -/
theorem cutFirst_append {sep : α} {a : List α} (w : List α) (ha : sep ∉ a) :
    cutFirst sep (a ++ sep :: w) = some (a, w) := by
  induction a with
  | nil => simp [cutFirst]
  | cons x a ih =>
    rw [List.mem_cons, not_or] at ha
    simp [cutFirst, Ne.symm ha.1, ih ha.2]

/-- A cut loses no letter. -/
theorem eq_append_of_cutFirst {sep : α} {w a r : List α} (h : cutFirst sep w = some (a, r)) :
    w = a ++ sep :: r := by
  induction w generalizing a r with
  | nil => simp [cutFirst] at h
  | cons x w ih =>
    by_cases hx : x = sep
    · simp only [cutFirst, hx, ite_true, Option.some.injEq, Prod.mk.injEq] at h
      obtain ⟨rfl, rfl⟩ := h
      simp [hx]
    · simp only [cutFirst, hx, ite_false, Option.map_eq_some_iff] at h
      obtain ⟨p, hp, he⟩ := h
      obtain ⟨rfl, rfl⟩ := Prod.mk.inj he
      rw [ih hp, List.cons_append]

/-- A letter of a word is the separator or part of a piece between separators. -/
theorem mem_splitOn {sep c : α} {w : List α} (hc : c ∈ w) :
    c = sep ∨ ∃ part ∈ w.splitOn sep, c ∈ part := by
  induction w with
  | nil => cases hc
  | cons x w ih =>
    rw [List.splitOn_cons_eq_if_modifyHead]
    split
    · rename_i hx
      rcases List.mem_cons.mp hc with rfl | hc
      · exact .inl (beq_iff_eq.mp hx)
      · exact (ih hc).imp_right fun ⟨part, hp, hcp⟩ => ⟨part, List.mem_cons_of_mem _ hp, hcp⟩
    · cases hparts : w.splitOn sep with
      | nil => exact absurd hparts (List.splitOn_ne_nil _ _)
      | cons first parts =>
        rw [hparts] at ih
        rcases List.mem_cons.mp hc with rfl | hc
        · exact .inr ⟨_, List.mem_cons_self .., List.mem_cons_self ..⟩
        · refine (ih hc).imp_right ?_
          rintro ⟨part, hp, hcp⟩
          rcases List.mem_cons.mp hp with rfl | hp
          · exact ⟨_, List.mem_cons_self .., List.mem_cons_of_mem _ hcp⟩
          · exact ⟨part, List.mem_cons_of_mem _ hp, hcp⟩

/-- A word can be cut exactly when it contains the separator. -/
theorem cutFirst_isSome_iff {sep : α} {w : List α} : (cutFirst sep w).isSome ↔ sep ∈ w := by
  induction w with
  | nil => simp [cutFirst]
  | cons x w ih =>
    by_cases hx : x = sep
    · simp [cutFirst, hx]
    · simp [cutFirst, hx, ih, Ne.symm hx]

/-- The word before the first cut holds no separator. -/
theorem not_mem_of_cutFirst {sep : α} {w a r : List α} (h : cutFirst sep w = some (a, r)) :
    sep ∉ a := by
  induction w generalizing a r with
  | nil => simp [cutFirst] at h
  | cons x w ih =>
    by_cases hx : x = sep
    · simp only [cutFirst, hx, ite_true, Option.some.injEq, Prod.mk.injEq] at h
      simp [← h.1]
    · simp only [cutFirst, hx, ite_false, Option.map_eq_some_iff] at h
      obtain ⟨p, hp, he⟩ := h
      obtain ⟨rfl, rfl⟩ := Prod.mk.inj he
      simpa [Ne.symm hx] using ih hp

/-- The first part ends at the first separator. -/
theorem splitN_append {sep : α} (n : Nat) {a : List α} (w : List α) (ha : sep ∉ a) :
    splitN sep (n + 2) (a ++ sep :: w) = a :: splitN sep (n + 1) w := by
  rw [splitN, cutFirst_append w ha]

/-- With a second part there is a separator before it, and none in the first. -/
theorem eq_append_of_splitN {sep : α} {n : Nat} {w a b : List α} {parts : List (List α)}
    (h : splitN sep (n + 2) w = a :: b :: parts) :
    ∃ r, w = a ++ sep :: r ∧ sep ∉ a ∧ splitN sep (n + 1) r = b :: parts := by
  rw [splitN] at h
  cases hcut : cutFirst sep w with
  | none => simp [hcut] at h
  | some p =>
    rw [hcut] at h
    obtain ⟨rfl, hrest⟩ := List.cons.inj h
    exact ⟨p.2, eq_append_of_cutFirst hcut, not_mem_of_cutFirst hcut, hrest⟩

/-- The last piece begins behind the last separator. -/
theorem getLast_splitOn_append {sep : α} (x : List α) {a : List α} (ha : sep ∉ a) :
    ((x ++ sep :: a).splitOn sep).getLast? = some a := by
  rw [List.splitOn_append_cons_self, List.splitOn_eq_singleton ha, List.getLast?_append,
    List.getLast?_singleton, Option.some_or]

/-- A word with a separator has a last one. -/
theorem exists_last_sep {sep : α} {w : List α} (h : sep ∈ w) :
    ∃ x a, w = x ++ sep :: a ∧ sep ∉ a := by
  induction w with
  | nil => cases h
  | cons c w ih =>
    by_cases hw : sep ∈ w
    · obtain ⟨x, a, rfl, ha⟩ := ih hw
      exact ⟨c :: x, a, rfl, ha⟩
    · obtain rfl := (List.mem_cons.mp h).resolve_right hw
      exact ⟨[], w, rfl, hw⟩

/-- Cutting a join at its first two separators recovers its words. -/
theorem cutTwice_joinThree {sep : α} {a b : List α} (c : List α) (ha : sep ∉ a) (hb : sep ∉ b) :
    cutTwice sep (joinThree sep a b c) = some (a, b, c) := by
  simp [cutTwice, joinThree, cutFirst_append _ ha, cutFirst_append _ hb]

/-- The join of the three parts of a word is the word. -/
theorem joinThree_of_cutTwice {sep : α} {w a b c : List α}
    (h : cutTwice sep w = some (a, b, c)) : joinThree sep a b c = w := by
  simp only [cutTwice, Option.bind_eq_some_iff, Option.map_eq_some_iff] at h
  obtain ⟨⟨a', r⟩, hp, ⟨b', c'⟩, hq, he⟩ := h
  obtain ⟨rfl, rfl, rfl⟩ : a' = a ∧ b' = b ∧ c' = c := by simpa using he
  have hr : r = b' ++ sep :: c' := eq_append_of_cutFirst hq
  rw [eq_append_of_cutFirst hp, hr, joinThree]

/-- A join has the separators of its parts and two more. -/
theorem count_joinThree (sep : α) (a b c : List α) :
    (joinThree sep a b c).count sep = a.count sep + b.count sep + c.count sep + 2 := by
  simp only [joinThree, List.count_append, List.count_cons_self]
  omega

/-- A word with two separators can be cut twice. -/
theorem exists_cutTwice {sep : α} {w : List α} (h : 2 ≤ w.count sep) :
    ∃ a b c, cutTwice sep w = some (a, b, c) := by
  have hw : sep ∈ w := List.count_pos_iff.mp (by omega)
  obtain ⟨⟨a, r⟩, hp⟩ := Option.isSome_iff_exists.mp (cutFirst_isSome_iff.mpr hw)
  have hcount := congrArg (List.count sep) (eq_append_of_cutFirst hp)
  rw [List.count_append, List.count_cons_self,
    List.count_eq_zero_of_not_mem (not_mem_of_cutFirst hp)] at hcount
  have hr : sep ∈ r := List.count_pos_iff.mp (by omega)
  obtain ⟨⟨b, c⟩, hq⟩ := Option.isSome_iff_exists.mp (cutFirst_isSome_iff.mpr hr)
  exact ⟨a, b, c, by simp [cutTwice, hp, hq]⟩

/-- Joins whose first two words are separator-free are equal only part by part. -/
theorem joinThree_inj {sep : α} {a b c a' b' c' : List α} (ha : sep ∉ a) (hb : sep ∉ b)
    (ha' : sep ∉ a') (hb' : sep ∉ b') (h : joinThree sep a b c = joinThree sep a' b' c') :
    a = a' ∧ b = b' ∧ c = c' := by
  have hcut := congrArg (cutTwice sep) h
  rw [cutTwice_joinThree c ha hb, cutTwice_joinThree c' ha' hb'] at hcut
  simpa using hcut

/-- A join equal to one of three separator-free words has separator-free words. -/
theorem not_mem_of_joinThree_eq {sep : α} {a b c a' b' c' : List α}
    (ha : sep ∉ a) (hb : sep ∉ b) (hc : sep ∉ c)
    (h : joinThree sep a' b' c' = joinThree sep a b c) : sep ∉ a' ∧ sep ∉ b' ∧ sep ∉ c' := by
  have hcount := congrArg (List.count sep) h
  simp only [count_joinThree, List.count_eq_zero_of_not_mem ha,
    List.count_eq_zero_of_not_mem hb, List.count_eq_zero_of_not_mem hc] at hcount
  refine ⟨?_, ?_, ?_⟩ <;> exact List.count_eq_zero.mp (by omega)

end separator

/-! ## Chunks -/

section chunks

variable {α : Type*}

/-- Cut off pieces of length `n` until the word is used up, at most `fuel` times. -/
def chunksAux (n : Nat) : Nat → List α → List (List α)
  | 0, _ => []
  | _ + 1, [] => []
  | fuel + 1, a :: w => (a :: w).take n :: chunksAux n fuel ((a :: w).drop n)

/-- Consecutive pieces of length `n`, the last one possibly shorter. A bound of zero
leaves the word in one piece. -/
def chunks (n : Nat) (w : List α) : List (List α) :=
  if n = 0 then [w] else chunksAux n w.length w

private theorem flatten_chunksAux {n : Nat} (hn : 0 < n) {fuel : Nat} {w : List α}
    (h : w.length ≤ fuel) : (chunksAux n fuel w).flatten = w := by
  induction fuel generalizing w with
  | zero =>
    obtain rfl : w = [] := List.length_eq_zero_iff.mp (by omega)
    rfl
  | succ fuel ih =>
    cases w with
    | nil => rfl
    | cons a w =>
      have hd : ((a :: w).drop n).length ≤ fuel := by
        simp only [List.length_drop, List.length_cons] at h ⊢
        omega
      rw [chunksAux, List.flatten_cons, ih hd, List.take_append_drop]

/-- The chunks of a word are the word. -/
theorem flatten_chunks (n : Nat) (w : List α) : (chunks n w).flatten = w := by
  by_cases hn : n = 0
  · simp [chunks, hn]
  · rw [chunks, if_neg hn]
    exact flatten_chunksAux (by omega) (Nat.le_refl _)

private theorem ne_nil_of_mem_chunksAux {n : Nat} (hn : 0 < n) {fuel : Nat} {w : List α} :
    [] ∉ chunksAux n fuel w := by
  induction fuel generalizing w with
  | zero => simp [chunksAux]
  | succ fuel ih =>
    cases w with
    | nil => simp [chunksAux]
    | cons a w =>
      rw [chunksAux, List.mem_cons, not_or]
      refine ⟨?_, ih⟩
      intro h
      have hlen := congrArg List.length h
      simp only [List.length_nil, List.length_take, List.length_cons] at hlen
      omega

/-- A nonempty word has no empty chunk. -/
theorem ne_nil_of_mem_chunks {n : Nat} {w : List α} (hw : w ≠ []) : [] ∉ chunks n w := by
  by_cases hn : n = 0
  · simp [chunks, hn, Ne.symm hw]
  · rw [chunks, if_neg hn]
    exact ne_nil_of_mem_chunksAux (by omega)

private theorem length_le_of_mem_chunksAux {n fuel : Nat} {w c : List α}
    (hc : c ∈ chunksAux n fuel w) : c.length ≤ n := by
  induction fuel generalizing w with
  | zero => simp [chunksAux] at hc
  | succ fuel ih =>
    cases w with
    | nil => simp [chunksAux] at hc
    | cons a w =>
      rcases List.mem_cons.mp hc with rfl | hc
      · exact List.length_take_le ..
      · exact ih hc

/-- No chunk exceeds a positive bound. -/
theorem length_le_of_mem_chunks {n : Nat} (hn : 0 < n) {w c : List α} (hc : c ∈ chunks n w) :
    c.length ≤ n := by
  rw [chunks, if_neg (by omega)] at hc
  exact length_le_of_mem_chunksAux hc

end chunks

end Broom.Core
