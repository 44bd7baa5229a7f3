import Broom.Core.Program
import Broom.Core.Transition
import Mathlib.Logic.Relation

/-!
# Threads over a shared world

Calls start threads at any time. Each thread runs its program one operation a step, and
every operation is one critical section on the shared world. A protocol says which
operations a program may issue next; with it an invariant of the world can speak of what
each thread is in the middle of, and of what has happened since.
-/

namespace Broom.Core

variable {σ ε Call Op : Type} {Ans : Op → Type} {α β Q : Type}

/-! ## Machines -/

/-- What calls run, and what changes the world. -/
structure Machine (σ ε Call Op : Type) (Ans : Op → Type) (α : Type) where
  program : Call → Prog Op Ans α
  /-- The world after an operation with some answer, if the answer is possible. -/
  perform : σ → Act Ans → Option σ
  /-- The world after something that no call does. -/
  happen : σ → ε → Option σ

/-- The world and the threads started so far; a thread is named by its position. -/
structure Threads (σ Op : Type) (Ans : Op → Type) (α : Type) where
  world : σ
  threads : List (Prog Op Ans α) := []

/-- One step of some thread, of the surroundings, or a new call. -/
inductive Threads.Step (M : Machine σ ε Call Op Ans α) :
    Threads σ Op Ans α → Threads σ Op Ans α → Prop
  | call {w ts} (c : Call) : Step M ⟨w, ts⟩ ⟨w, ts ++ [M.program c]⟩
  | happen {w w' ts} {e : ε} (h : M.happen w e = some w') : Step M ⟨w, ts⟩ ⟨w', ts⟩
  | perform {w w' ts} {i : Nat} {op : Op} {next : Ans op → Prog Op Ans α} {r : Ans op}
      (hi : ts[i]? = some (.call op next)) (h : M.perform w ⟨op, r⟩ = some w') :
    Step M ⟨w, ts⟩ ⟨w', ts.set i (next r)⟩

/-- Any number of steps. -/
abbrev Threads.Runs (M : Machine σ ε Call Op Ans α) :
    Threads σ Op Ans α → Threads σ Op Ans α → Prop := Relation.ReflTransGen (Step M)

/-- What all steps keep, all runs keep. -/
theorem Threads.Runs.invariant {M : Machine σ ε Call Op Ans α} {s s' : Threads σ Op Ans α}
    (hrun : Runs M s s') (Inv : Threads σ Op Ans α → Prop) (hinit : Inv s)
    (hstep : ∀ s s', Step M s s' → Inv s → Inv s') : Inv s' := by
  induction hrun with
  | refl => exact hinit
  | tail _ hs ih => exact hstep _ _ hs ih

/-- A step with everything that is open about it. -/
inductive Move (ε Call : Type) {Op : Type} (Ans : Op → Type)
  | call (c : Call)
  | happen (e : ε)
  | perform (i : Nat) (a : Act Ans)

/-- Take a step, if it is possible. -/
def Threads.move [DecidableEq Op] (M : Machine σ ε Call Op Ans α) (s : Threads σ Op Ans α) :
    Move ε Call Ans → Option (Threads σ Op Ans α)
  | .call c => some ⟨s.world, s.threads ++ [M.program c]⟩
  | .happen e => (M.happen s.world e).map fun w => ⟨w, s.threads⟩
  | .perform i ⟨op, r⟩ =>
    match s.threads[i]? with
    | some (.call op' next) =>
      if h : op' = op then
        (M.perform s.world ⟨op, r⟩).map fun w => ⟨w, s.threads.set i (next (h ▸ r))⟩
      else none
    | _ => none

theorem Threads.step_of_move [DecidableEq Op] {M : Machine σ ε Call Op Ans α}
    {s s' : Threads σ Op Ans α} {m : Move ε Call Ans} (h : s.move M m = some s') :
    Step M s s' := by
  cases m with
  | call c => exact Option.some.inj h ▸ .call c
  | happen e =>
    obtain ⟨w, hw, rfl⟩ := Option.map_eq_some_iff.mp h
    exact .happen hw
  | perform i a =>
    obtain ⟨op, r⟩ := a
    simp only [move] at h
    split at h
    · rename_i op' next hi
      split at h
      · rename_i hop
        subst hop
        obtain ⟨w, hw, rfl⟩ := Option.map_eq_some_iff.mp h
        exact .perform hi hw
      · cases h
    · cases h

/-- Moves make a run. -/
theorem Threads.runs_of_moves [DecidableEq Op] {M : Machine σ ε Call Op Ans α}
    {s s' : Threads σ Op Ans α} {ms : List (Move ε Call Ans)}
    (h : execute (Threads.move M) s ms = some s') : Runs M s s' :=
  invariant_of_execute h (Runs M s) .refl fun _ _ _ hs hrun => hrun.tail (step_of_move hs)

/-- A call that nothing interrupts is one of the runs of its thread. -/
theorem Threads.runs_of_atomic {M : Machine σ ε Call Op Ans α} {answer : σ → (op : Op) → Ans op}
    {w w' : σ} {ts : List (Prog Op Ans α)} {p : Prog Op Ans α} {a : α}
    (h : Prog.atomic answer M.perform w p = some (a, w')) :
    Runs M ⟨w, ts ++ [p]⟩ ⟨w', ts ++ [.ret a]⟩ := by
  induction p generalizing w with
  | ret b =>
    obtain ⟨rfl, rfl⟩ := Prod.mk.inj (Option.some.inj h)
    exact .refl
  | call op next ih =>
    obtain ⟨w₁, hw, hrest⟩ := Option.bind_eq_some_iff.mp h
    refine .head (.perform (List.getElem?_concat_length ..) hw) ?_
    rw [List.set_append_right _ _ (Nat.le_refl _), Nat.sub_self]
    exact ih (answer w op) hrest

/-- What a thread's own steps keep of it and the world, and what all other steps keep of the world
beside it, holds of the thread in every run. -/
theorem Threads.Runs.thread {M : Machine σ ε Call Op Ans α} {s s' : Threads σ Op Ans α}
    (hrun : Runs M s s') {k : Nat} (R : σ → Prog Op Ans α → Prop)
    (hhappen : ∀ w e w' p, M.happen w e = some w' → R w p → R w' p)
    (hothers : ∀ w a w' p, M.perform w a = some w' → R w p → R w' p)
    (hown : ∀ w op next r w', M.perform w ⟨op, r⟩ = some w' → R w (.call op next) → R w' (next r))
    (hinit : ∃ p, s.threads[k]? = some p ∧ R s.world p) :
    ∃ p, s'.threads[k]? = some p ∧ R s'.world p := by
  refine hrun.invariant (fun t => ∃ p, t.threads[k]? = some p ∧ R t.world p) hinit ?_
  rintro t t' hstep ⟨p, hk, hR⟩
  cases hstep with
  | call c =>
    have hlt := (List.getElem?_eq_some_iff.mp hk).1
    exact ⟨p, (List.getElem?_append_left hlt).trans hk, hR⟩
  | happen h => exact ⟨p, hk, hhappen _ _ _ _ h hR⟩
  | @perform w w' ts i op next r hi h =>
    by_cases hik : i = k
    · subst hik
      obtain rfl := Option.some.inj (hi.symm.trans hk)
      exact ⟨next r, List.getElem?_set_self (List.getElem?_eq_some_iff.mp hk).1,
        hown _ _ _ _ _ h hR⟩
    · exact ⟨p, (List.getElem?_set_ne hik).trans hk, hothers _ _ _ _ h hR⟩

/-! ## Protocols -/

/-- Which operations may come next, and what they lead to. -/
structure Protocol (Q Op : Type) (Ans : Op → Type) where
  allowed : Q → Op → Prop
  next : Q → Act Ans → Q

/-- From a position on, the program keeps to the protocol, and ends where it should. -/
def Prog.Follows (P : Protocol Q Op Ans) (post : α → Q → Prop) : Q → Prog Op Ans α → Prop
  | q, .ret a => post a q
  | q, .call op next => P.allowed q op ∧ ∀ r, (next r).Follows P post (P.next q ⟨op, r⟩)

section protocol

variable {P : Protocol Q Op Ans} {post : α → Q → Prop} {q : Q}

@[simp] theorem Prog.follows_pure {a : α} :
    (pure a : Prog Op Ans α).Follows P post q ↔ post a q := Iff.rfl

/-- A sequence keeps to the protocol if its second part does wherever the first part ends. -/
theorem Prog.Follows.bind {p : Prog Op Ans α} {f : α → Prog Op Ans β} {post : β → Q → Prop}
    (h : p.Follows P (fun a q' => (f a).Follows P post q') q) : (p >>= f).Follows P post q := by
  change (p.bind f).Follows P post q
  induction p generalizing q with
  | ret a => exact h
  | call op next ih => exact ⟨h.1, fun r => ih r (h.2 r)⟩

theorem Prog.Follows.mono {p : Prog Op Ans α} {post post' : α → Q → Prop}
    (h : p.Follows P post q) (hpost : ∀ a q, post a q → post' a q) : p.Follows P post' q := by
  induction p generalizing q with
  | ret a => exact hpost a q h
  | call op next ih => exact ⟨h.1, fun r => ih r (h.2 r)⟩

/-- Every thread is somewhere in the protocol. -/
structure Tracks (P : Protocol Q Op Ans) (post : α → Q → Prop) (qs : List Q)
    (ts : List (Prog Op Ans α)) : Prop where
  length : qs.length = ts.length
  follows : ∀ (i : Nat) q p, qs[i]? = some q → ts[i]? = some p → p.Follows P post q

theorem tracks_nil : Tracks P post [] ([] : List (Prog Op Ans α)) := ⟨rfl, by simp⟩

theorem Tracks.append {qs : List Q} {ts : List (Prog Op Ans α)} (h : Tracks P post qs ts)
    {p : Prog Op Ans α} (hp : p.Follows P post q) : Tracks P post (qs ++ [q]) (ts ++ [p]) := by
  refine ⟨by simp [h.length], fun i q' p' hq hp' => ?_⟩
  rcases Nat.lt_trichotomy i qs.length with hlt | rfl | hgt
  · rw [List.getElem?_append_left hlt] at hq
    rw [List.getElem?_append_left (h.length ▸ hlt)] at hp'
    exact h.follows i q' p' hq hp'
  · rw [List.getElem?_concat_length] at hq
    rw [h.length, List.getElem?_concat_length] at hp'
    obtain rfl := Option.some.inj hq
    obtain rfl := Option.some.inj hp'
    exact hp
  · rw [List.getElem?_eq_none (by simp only [List.length_append, List.length_singleton]; omega)]
      at hq
    cases hq

/-- The position of a thread that is there. -/
theorem Tracks.get {qs : List Q} {ts : List (Prog Op Ans α)} (h : Tracks P post qs ts) {i : Nat}
    {p : Prog Op Ans α} (hi : ts[i]? = some p) : ∃ q, qs[i]? = some q ∧ p.Follows P post q := by
  have hlt : i < qs.length := h.length ▸ (List.getElem?_eq_some_iff.mp hi).1
  exact ⟨qs[i], List.getElem?_eq_getElem hlt, h.follows i _ p (List.getElem?_eq_getElem hlt) hi⟩

theorem Tracks.set {qs : List Q} {ts : List (Prog Op Ans α)} (h : Tracks P post qs ts) {i : Nat}
    {p : Prog Op Ans α} (hp : p.Follows P post q) : Tracks P post (qs.set i q) (ts.set i p) := by
  refine ⟨by simp [h.length], fun k q' p' hq hp' => ?_⟩
  rw [List.getElem?_set] at hq hp'
  split at hq
  · rename_i hik
    rw [if_pos hik] at hp'
    split at hq
    · split at hp'
      · obtain rfl := Option.some.inj hq
        obtain rfl := Option.some.inj hp'
        exact hp
      · cases hp'
    · cases hq
  · rename_i hik
    rw [if_neg hik] at hp'
    exact h.follows k q' p' hq hp'

/-- If every call keeps to a protocol, an invariant of the world and of all positions holds in
every run once each allowed operation keeps it. -/
theorem Threads.Runs.tracked {M : Machine σ ε Call Op Ans α} {q₀ : Q}
    (hprogram : ∀ c, (M.program c).Follows P post q₀) (Inv : σ → List Q → Prop)
    (hcall : ∀ w qs, Inv w qs → Inv w (qs ++ [q₀]))
    (hhappen : ∀ w qs e w', M.happen w e = some w' → Inv w qs → Inv w' qs)
    (hperform : ∀ w qs i q a w', qs[i]? = some q → P.allowed q a.1 →
      M.perform w a = some w' → Inv w qs → Inv w' (qs.set i (P.next q a)))
    {s s' : Threads σ Op Ans α} (hrun : Runs M s s')
    (hinit : ∃ qs, Tracks P post qs s.threads ∧ Inv s.world qs) :
    ∃ qs, Tracks P post qs s'.threads ∧ Inv s'.world qs := by
  refine hrun.invariant (fun t => ∃ qs, Tracks P post qs t.threads ∧ Inv t.world qs) hinit ?_
  rintro t t' hstep ⟨qs, htracks, hinv⟩
  cases hstep with
  | call c => exact ⟨qs ++ [q₀], htracks.append (hprogram c), hcall _ _ hinv⟩
  | happen h => exact ⟨qs, htracks, hhappen _ _ _ _ h hinv⟩
  | @perform w w' ts i op next r hi h =>
    obtain ⟨q, hq, hallowed, hnext⟩ := htracks.get hi
    exact ⟨qs.set i (P.next q ⟨op, r⟩), htracks.set (hnext r),
      hperform w qs i q ⟨op, r⟩ w' hq hallowed h hinv⟩

end protocol

/-! ## Threads and their calls -/

/-- Threads with the calls that started them. -/
structure Clients (σ Call Op : Type) (Ans : Op → Type) (α : Type) extends Threads σ Op Ans α where
  calls : List Call := []

/-- The call that a step starts. -/
def Move.started : Move ε Call Ans → List Call
  | .call c => [c]
  | .happen _ | .perform _ _ => []

section clients

variable [DecidableEq Op] {M : Machine σ ε Call Op Ans α} {P : Protocol Q Op Ans}
  {post : α → Q → Prop} {s s' : Clients σ Call Op Ans α} {m : Move ε Call Ans}

/-- Take a step, if it is possible. -/
def Clients.move (M : Machine σ ε Call Op Ans α) (s : Clients σ Call Op Ans α)
    (m : Move ε Call Ans) : Option (Clients σ Call Op Ans α) :=
  (s.toThreads.move M m).map fun t => { t with calls := s.calls ++ m.started }

theorem Clients.step_of_move (h : s.move M m = some s') :
    Threads.Step M s.toThreads s'.toThreads := by
  obtain ⟨t, ht, rfl⟩ := Option.map_eq_some_iff.mp h
  exact Threads.step_of_move ht

/-- What a step of one thread is. -/
theorem Clients.perform_of_move {i : Nat} {a : Act Ans} (h : s.move M (.perform i a) = some s') :
    ∃ next, s.threads[i]? = some (.call a.1 next) ∧ M.perform s.world a = some s'.world ∧
      s'.threads = s.threads.set i (next a.2) ∧ s'.calls = s.calls := by
  obtain ⟨t, ht, rfl⟩ := Option.map_eq_some_iff.mp h
  obtain ⟨op, r⟩ := a
  simp only [Threads.move] at ht
  split at ht
  · rename_i op' next hi
    split at ht
    · rename_i hop
      subst hop
      obtain ⟨w, hw, rfl⟩ := Option.map_eq_some_iff.mp ht
      exact ⟨next, hi, hw, rfl, List.append_nil _⟩
    · cases ht
  · cases ht

/-- Every call keeps to a protocol from a position of its own. An invariant of the run so far, of
the threads it has led to and of all positions holds in every run once each step keeps it. -/
theorem Clients.tracked {start : Call → Q}
    (hprogram : ∀ c, (M.program c).Follows P post (start c))
    {step : Clients σ Call Op Ans α → Move ε Call Ans → Option (Clients σ Call Op Ans α)}
    (hmove : ∀ s m s', step s m = some s' → s.move M m = some s')
    (Inv : List (Move ε Call Ans) → Clients σ Call Op Ans α → List Q → Prop)
    {s₀ : Clients σ Call Op Ans α}
    (hcall : ∀ past s qs c s', execute step s₀ past = some s → step s (.call c) = some s' →
      Inv past s qs → Inv (past ++ [.call c]) s' (qs ++ [start c]))
    (hhappen : ∀ past s qs e s', execute step s₀ past = some s → step s (.happen e) = some s' →
      Inv past s qs → Inv (past ++ [.happen e]) s' qs)
    (hperform : ∀ past s qs i q a s', execute step s₀ past = some s → qs[i]? = some q →
      P.allowed q a.1 → step s (.perform i a) = some s' → Inv past s qs →
      Inv (past ++ [.perform i a]) s' (qs.set i (P.next q a)))
    {ms : List (Move ε Call Ans)} (hrun : execute step s₀ ms = some s)
    (hinit : ∃ qs, Tracks P post qs s₀.threads ∧ Inv [] s₀ qs) :
    ∃ qs, Tracks P post qs s.threads ∧ Inv ms s qs := by
  have hall := (along_of_forall (fun _ _ _ => trivial) :
    Along step (fun _ _ => True) s₀ ms).invariant_history hrun
      (fun past s => execute step s₀ past = some s ∧
        ∃ qs, Tracks P post qs s.threads ∧ Inv past s qs) ⟨execute_nil s₀, hinit⟩ ?_
  · exact hall.2
  · rintro past t m t' hstep - ⟨hpast, qs, htracks, hinv⟩
    refine ⟨execute_concat hpast hstep, ?_⟩
    have hm := hmove t m t' hstep
    cases m with
    | call c =>
      refine ⟨qs ++ [start c], ?_, hcall past t qs c t' hpast hstep hinv⟩
      obtain ⟨u, hu, rfl⟩ := Option.map_eq_some_iff.mp hm
      obtain rfl := Option.some.inj hu
      exact htracks.append (hprogram c)
    | happen e =>
      refine ⟨qs, ?_, hhappen past t qs e t' hpast hstep hinv⟩
      obtain ⟨u, hu, rfl⟩ := Option.map_eq_some_iff.mp hm
      obtain ⟨w, -, rfl⟩ := Option.map_eq_some_iff.mp hu
      exact htracks
    | perform i a =>
      obtain ⟨next, hi, -, hthreads, -⟩ := perform_of_move hm
      obtain ⟨q, hq, hallowed, hnext⟩ := htracks.get hi
      refine ⟨qs.set i (P.next q a), ?_, hperform past t qs i q a t' hpast hq hallowed hstep hinv⟩
      rw [hthreads]
      exact htracks.set (hnext a.2)

end clients

end Broom.Core
