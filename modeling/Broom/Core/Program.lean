import Mathlib.Tactic.Common

/-!
# Sequential programs over external operations

A program issues operations and goes on with their answers, so it is a tree that
branches on what the outside world replies. Its executions are lists of answered
operations: they say what one thread did and leave open when, and among which
steps of other threads, it did it.
-/

namespace Broom.Core

variable {Op : Type} {Ans : Op → Type} {α β σ : Type}

/-- A program that issues operations and continues with their answers. -/
inductive Prog (Op : Type) (Ans : Op → Type) (α : Type)
  | ret (a : α)
  | call (op : Op) (next : Ans op → Prog Op Ans α)

/-- An operation with the answer it got. -/
abbrev Act (Ans : Op → Type) := (op : Op) × Ans op

namespace Prog

/-- Run a program and continue with its result. -/
def bind : Prog Op Ans α → (α → Prog Op Ans β) → Prog Op Ans β
  | .ret a, f => f a
  | .call op next, f => .call op fun r => (next r).bind f

instance : Monad (Prog Op Ans) where
  pure := .ret
  bind := Prog.bind

/-- Issue one operation and return its answer. -/
def perform (op : Op) : Prog Op Ans (Ans op) := .call op .ret

/-- The program has performed `τ` and goes on as `q`. -/
inductive Steps : Prog Op Ans α → List (Act Ans) → Prog Op Ans α → Prop
  | refl (p) : Steps p [] p
  | call {op next r τ q} : Steps (next r) τ q → Steps (.call op next) (⟨op, r⟩ :: τ) q

/-- A complete execution: the program has performed `τ` and returned `a`. -/
def Exec (p : Prog Op Ans α) (τ : List (Act Ans)) (a : α) : Prop := Steps p τ (.ret a)

/-- Every operation the program may issue, whatever the answers, meets `P`. -/
def Always (P : Op → Prop) : Prog Op Ans α → Prop
  | .ret _ => True
  | .call op next => P op ∧ ∀ r, (next r).Always P

/-- The execution of a program whose operations an oracle answers. -/
def replay (oracle : (op : Op) → Ans op) : Prog Op Ans α → List (Act Ans) × α
  | .ret a => ([], a)
  | .call op next =>
    (⟨op, oracle op⟩ :: ((next (oracle op)).replay oracle).1, ((next (oracle op)).replay oracle).2)

/-- Every program returns, whatever answers it gets. -/
theorem exec_replay (oracle : (op : Op) → Ans op) (p : Prog Op Ans α) :
    p.Exec (p.replay oracle).1 (p.replay oracle).2 := by
  induction p with
  | ret a => exact .refl _
  | call op next ih => exact .call (ih (oracle op))

/-- The oracle's answers are those of the trace. -/
theorem answer_of_mem_replay {oracle : (op : Op) → Ans op} {p : Prog Op Ans α} {a : Act Ans}
    (h : a ∈ (p.replay oracle).1) : a.2 = oracle a.1 := by
  induction p with
  | ret b => simp [replay] at h
  | call op next ih =>
    rcases List.mem_cons.mp h with rfl | h
    · rfl
    · exact ih _ h

/-! ## Executions of compound programs -/

@[simp] theorem exec_ret {a b : α} {τ : List (Act Ans)} :
    Exec (.ret a : Prog Op Ans α) τ b ↔ τ = [] ∧ a = b := by
  constructor
  · intro h
    cases h
    exact ⟨rfl, rfl⟩
  · rintro ⟨rfl, rfl⟩
    exact .refl _

@[simp] theorem exec_pure {a b : α} {τ : List (Act Ans)} :
    Exec (pure a : Prog Op Ans α) τ b ↔ τ = [] ∧ a = b := exec_ret

theorem exec_call {op : Op} {next : Ans op → Prog Op Ans α} {τ : List (Act Ans)} {b : α} :
    Exec (.call op next) τ b ↔ ∃ r τ', τ = ⟨op, r⟩ :: τ' ∧ Exec (next r) τ' b := by
  constructor
  · intro h
    cases h with
    | call h => exact ⟨_, _, rfl, h⟩
  · rintro ⟨r, τ', rfl, h⟩
    exact .call h

@[simp] theorem exec_perform {op : Op} {τ : List (Act Ans)} {r : Ans op} :
    Exec (perform op : Prog Op Ans (Ans op)) τ r ↔ τ = [⟨op, r⟩] := by
  simp only [perform, exec_call, exec_ret]
  constructor
  · rintro ⟨r', τ', rfl, rfl, rfl⟩
    rfl
  · rintro rfl
    exact ⟨r, [], rfl, rfl, rfl⟩

/-- A sequence executes its first part to a result and the second part from there. -/
theorem exec_bind {p : Prog Op Ans α} {f : α → Prog Op Ans β} {τ : List (Act Ans)} {b : β} :
    Exec (p >>= f) τ b ↔
      ∃ τ₁ a τ₂, τ = τ₁ ++ τ₂ ∧ Exec p τ₁ a ∧ Exec (f a) τ₂ b := by
  change Exec (p.bind f) τ b ↔ _
  induction p generalizing τ with
  | ret a =>
    constructor
    · intro h
      exact ⟨[], a, τ, rfl, .refl _, h⟩
    · rintro ⟨τ₁, a', τ₂, rfl, h, hf⟩
      obtain ⟨rfl, rfl⟩ := exec_ret.mp h
      exact hf
  | call op next ih =>
    simp only [bind, exec_call, ih]
    constructor
    · rintro ⟨r, τ', rfl, τ₁, a, τ₂, rfl, h, hf⟩
      exact ⟨⟨op, r⟩ :: τ₁, a, τ₂, rfl, ⟨r, τ₁, rfl, h⟩, hf⟩
    · rintro ⟨_, a, τ₂, rfl, ⟨r, τ₁, rfl, h⟩, hf⟩
      exact ⟨r, τ₁ ++ τ₂, rfl, τ₁, a, τ₂, rfl, h, hf⟩

/-! ## Uninterrupted executions -/

/-- Run a program with nothing in between; the state it meets answers each operation. -/
def atomic (answer : σ → (op : Op) → Ans op) (perform : σ → Act Ans → Option σ) :
    σ → Prog Op Ans α → Option (α × σ)
  | s, .ret a => some (a, s)
  | s, .call op next =>
    (perform s ⟨op, answer s op⟩).bind fun s' => atomic answer perform s' (next (answer s op))

section atomic

variable {answer : σ → (op : Op) → Ans op} {act : σ → Act Ans → Option σ} {s : σ}

@[simp] theorem atomic_pure {a : α} :
    atomic answer act s (pure a : Prog Op Ans α) = some (a, s) := rfl

theorem atomic_perform {op : Op} : atomic answer act s (perform op : Prog Op Ans (Ans op)) =
    (act s ⟨op, answer s op⟩).map fun s' => (answer s op, s') := by
  rw [perform, atomic]
  exact (Option.map_eq_bind ..).symm

/-- The second part of a sequence starts where the first one ends. -/
theorem atomic_bind {p : Prog Op Ans α} {f : α → Prog Op Ans β} :
    atomic answer act s (p >>= f) =
      (atomic answer act s p).bind fun (a, s') => atomic answer act s' (f a) := by
  change atomic answer act s (p.bind f) = _
  induction p generalizing s with
  | ret a => rfl
  | call op next ih =>
    rw [bind, atomic, atomic, Option.bind_assoc]
    exact Option.bind_congr fun s' _ => ih (answer s op)

end atomic

/-! ## Properties of every operation -/

@[simp] theorem always_pure {P : Op → Prop} {a : α} :
    (pure a : Prog Op Ans α).Always P := trivial

@[simp] theorem always_perform {P : Op → Prop} {op : Op} :
    (perform op : Prog Op Ans (Ans op)).Always P ↔ P op := by
  simp [perform, Always]

/-- A program goes on with something that it can return. -/
theorem Always.bind_exec {P : Op → Prop} {p : Prog Op Ans α} {f : α → Prog Op Ans β}
    (hp : p.Always P) (hf : ∀ τ a, p.Exec τ a → (f a).Always P) : (p >>= f).Always P := by
  change (p.bind f).Always P
  induction p with
  | ret a => exact hf [] a (.refl _)
  | call op next ih =>
    exact ⟨hp.1, fun r => ih r (hp.2 r) fun τ a h => hf (⟨op, r⟩ :: τ) a (.call h)⟩

theorem Always.bind {P : Op → Prop} {p : Prog Op Ans α} {f : α → Prog Op Ans β}
    (hp : p.Always P) (hf : ∀ a, (f a).Always P) : (p >>= f).Always P :=
  hp.bind_exec fun _ a _ => hf a

end Prog

end Broom.Core
