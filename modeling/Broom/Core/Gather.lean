import Mathlib.Data.List.AList
import Mathlib.Data.List.Induction
import Broom.Core.OrderedMap

/-!
# Loops that collect

A loop that appends what it finds to a list and stops at the first error, and a loop that
enters what it finds into a map. If nothing fails, the order of the first does not matter but
for the order of the list, and that of the second does not matter for keys that occur once.
-/

namespace Broom.Core

variable {ε α β K V : Type}

/-- Append what each element yields; the first error ends the loop. -/
def gather (f : α → Except ε (List β)) (l : List α) : Except ε (List β) :=
  l.foldlM (fun acc a => (f a).map (acc ++ ·)) []

/-- What an element yields, if it yields something. -/
def yields (f : α → Except ε (List β)) (a : α) : List β := ((f a).toOption).getD []

theorem foldlM_gather {f : α → Except ε (List β)} {l : List α}
    (h : ∀ a ∈ l, ∃ p, f a = .ok p) (acc : List β) :
    l.foldlM (fun acc a => (f a).map (acc ++ ·)) acc = .ok (acc ++ l.flatMap (yields f)) := by
  induction l generalizing acc with
  | nil => exact congrArg Except.ok (List.append_nil acc).symm
  | cons a l ih =>
    obtain ⟨p, hp⟩ := h a (List.mem_cons_self ..)
    have hyield : yields f a = p := by rw [yields, hp]; rfl
    rw [List.foldlM_cons, hp, List.flatMap_cons, hyield, ← List.append_assoc]
    exact ih (fun b hb => h b (List.mem_cons_of_mem _ hb)) (acc ++ p)

/-- The loop without an error. -/
theorem gather_eq {f : α → Except ε (List β)} {l : List α} (h : ∀ a ∈ l, ∃ p, f a = .ok p) :
    gather f l = .ok (l.flatMap (yields f)) := foldlM_gather h []

/-- A loop that ends well has met no error. -/
theorem ok_of_gather {f : α → Except ε (List β)} {l : List α} {r : List β}
    (h : gather f l = .ok r) : ∀ a ∈ l, ∃ p, f a = .ok p := by
  rw [gather] at h
  generalize ([] : List β) = acc at h
  induction l generalizing acc with
  | nil => nofun
  | cons a l ih =>
    rw [List.foldlM_cons] at h
    cases ha : f a with
    | error e =>
      rw [ha] at h
      cases h
    | ok p =>
      rw [ha] at h
      intro b hb
      rcases List.mem_cons.mp hb with rfl | hb
      · exact ⟨p, ha⟩
      · exact ih (acc ++ p) h b hb

theorem gather_ok_iff {f : α → Except ε (List β)} {l : List α} {r : List β} :
    gather f l = .ok r ↔ (∀ a ∈ l, ∃ p, f a = .ok p) ∧ r = l.flatMap (yields f) := by
  constructor
  · intro h
    have hok := ok_of_gather h
    rw [gather_eq hok] at h
    exact ⟨hok, (Except.ok.inj h).symm⟩
  · rintro ⟨hok, rfl⟩
    exact gather_eq hok

variable [DecidableEq K]

/-- Enter pairs into a map; the last one of a key counts. -/
def enter (m : PlainMap K V) (ps : List (K × V)) : PlainMap K V :=
  ps.foldl (fun m p => m.insert p.1 p.2) m

/-- A key that occurs once has its only value. -/
theorem lookup_enter_iff {k : K} {v : V} {ps : List (K × V)}
    (h : ∀ p ∈ ps, ∀ q ∈ ps, p.1 = k → q.1 = k → p = q) :
    (enter ∅ ps).lookup k = some v ↔ (k, v) ∈ ps := by
  induction ps using List.reverseRecOn with
  | nil => simp [enter]
  | append_singleton ps p ih =>
    have henter : enter ∅ (ps ++ [p]) = (enter ∅ ps).insert p.1 p.2 := by
      rw [enter, List.foldl_append]
      rfl
    rw [henter]
    by_cases hp : p.1 = k
    · subst hp
      rw [AList.lookup_insert, Option.some.injEq]
      constructor
      · rintro rfl
        simp
      · intro hmem
        exact congrArg Prod.snd (h p (by simp) _ hmem rfl rfl)
    · have hne : (k, v) ≠ p := fun he => hp (congrArg Prod.fst he).symm
      rw [AList.lookup_insert_ne (Ne.symm hp), ih fun p' hp' q hq => h p'
        (List.mem_append_left _ hp') q (List.mem_append_left _ hq)]
      simp [hne]

/-- Values may be changed before they are entered, or after. -/
theorem lookup_enter_map {V' : Type} (g : V → V') {k : K} {ps : List (K × V)} :
    (enter ∅ (ps.map fun p => (p.1, g p.2))).lookup k = ((enter ∅ ps).lookup k).map g := by
  induction ps using List.reverseRecOn with
  | nil => rfl
  | append_singleton ps p ih =>
    simp only [enter, List.map_append, List.foldl_append, List.map_cons, List.map_nil,
      List.foldl_cons, List.foldl_nil] at ih ⊢
    by_cases hp : p.1 = k
    · subst hp
      rw [AList.lookup_insert, AList.lookup_insert, Option.map_some]
    · rw [AList.lookup_insert_ne (Ne.symm hp), AList.lookup_insert_ne (Ne.symm hp), ih]

/-- A key has a value if it was entered. -/
theorem isSome_lookup_enter {k : K} {ps : List (K × V)} :
    ((enter ∅ ps).lookup k).isSome ↔ k ∈ ps.map Prod.fst := by
  induction ps using List.reverseRecOn with
  | nil => simp [enter]
  | append_singleton ps p ih =>
    have henter : enter ∅ (ps ++ [p]) = (enter ∅ ps).insert p.1 p.2 := by
      rw [enter, List.foldl_append]
      rfl
    rw [henter, List.map_append, List.mem_append, ← ih]
    by_cases hp : p.1 = k
    · subst hp
      simp
    · rw [AList.lookup_insert_ne (Ne.symm hp)]
      simp [Ne.symm hp]

/-- A value that a key has was entered with it. -/
theorem mem_of_lookup_enter {k : K} {v : V} {ps : List (K × V)}
    (h : (enter ∅ ps).lookup k = some v) : (k, v) ∈ ps := by
  induction ps using List.reverseRecOn with
  | nil => simp [enter] at h
  | append_singleton ps p ih =>
    have henter : enter ∅ (ps ++ [p]) = (enter ∅ ps).insert p.1 p.2 := by
      rw [enter, List.foldl_append]
      rfl
    rw [henter] at h
    by_cases hp : p.1 = k
    · subst hp
      rw [AList.lookup_insert] at h
      obtain rfl := Option.some.inj h
      exact List.mem_append_right _ (List.mem_singleton_self p)
    · rw [AList.lookup_insert_ne (Ne.symm hp)] at h
      exact List.mem_append_left _ (ih h)

end Broom.Core
