import Mathlib.Data.Option.Basic

/-!
# Guarded transition systems

A system is a partial step function: a state either takes an action or refuses it.
Runs are lists of actions. A condition on the steps of a run is a predicate of the
state before the step and its action; an invariant that conditioned steps keep holds
at the end of every run whose steps all meet the condition.
-/

namespace Broom.Core

variable {σ α : Type}

/-- The state after a list of actions, none of them refused. -/
def execute (step : σ → α → Option σ) (s : σ) : List α → Option σ
  | [] => some s
  | a :: as => (step s a).bind fun s' => execute step s' as

/-- The steps of a run, each with the state it starts from. -/
def moments (step : σ → α → Option σ) (s : σ) : List α → List (σ × α)
  | [] => []
  | a :: as =>
    (s, a) :: match step s a with
      | none => []
      | some s' => moments step s' as

/-- Every step of a run meets a condition. -/
def Along (step : σ → α → Option σ) (P : σ → α → Prop) (s : σ) : List α → Prop
  | [] => True
  | a :: as => P s a ∧ ∀ s', step s a = some s' → Along step P s' as

/-- Whether a run meets a condition can be computed. -/
instance Along.decidable (step : σ → α → Option σ) (P : σ → α → Prop) [∀ s a, Decidable (P s a)] :
    ∀ (s : σ) (as : List α), Decidable (Along step P s as)
  | _, [] => .isTrue trivial
  | s, a :: as =>
    match h : step s a with
    | none => decidable_of_iff (P s a) ⟨fun hp => ⟨hp, by simp [h]⟩, And.left⟩
    | some s' =>
      have := Along.decidable step P s' as
      decidable_of_iff (P s a ∧ Along step P s' as)
        ⟨fun hp => ⟨hp.1, by simpa [h] using hp.2⟩, fun hp => ⟨hp.1, hp.2 s' h⟩⟩

section

variable {step : σ → α → Option σ} {P : σ → α → Prop} {s s' : σ}

/-- A result with a property that can be computed. -/
theorem exists_of_any {P : σ → Prop} [DecidablePred P] {o : Option σ}
    (h : o.any (fun s => decide (P s)) = true) : ∃ s, o = some s ∧ P s := by
  obtain ⟨s, hs, hP⟩ := (Option.any_eq_true _ _).mp h
  exact ⟨s, hs, of_decide_eq_true hP⟩

theorem execute_nil (s : σ) : execute step s [] = some s := rfl

/-- Runs compose. -/
theorem execute_append (as bs : List α) :
    execute step s (as ++ bs) = (execute step s as).bind fun s' => execute step s' bs := by
  induction as generalizing s with
  | nil => rfl
  | cons a as ih =>
    rw [List.cons_append, execute, execute, Option.bind_assoc]
    exact Option.bind_congr fun s' _ => ih

/-- One more step. -/
theorem execute_concat {as : List α} {a : α} {s₁ : σ} (hrun : execute step s as = some s₁)
    (hs : step s₁ a = some s') : execute step s (as ++ [a]) = some s' := by
  rw [execute_append, hrun, Option.bind_some, execute, hs]
  rfl

/-- The last step of a run. -/
theorem of_execute_concat {as : List α} {a : α} (hrun : execute step s (as ++ [a]) = some s') :
    ∃ s₁, execute step s as = some s₁ ∧ step s₁ a = some s' := by
  rw [execute_append] at hrun
  obtain ⟨s₁, hrun₁, hlast⟩ := Option.bind_eq_some_iff.mp hrun
  obtain ⟨s₂, hs, hend⟩ := Option.bind_eq_some_iff.mp hlast
  exact ⟨s₁, hrun₁, Option.some.inj hend ▸ hs⟩

@[simp] theorem moments_singleton (s : σ) (a : α) : moments step s [a] = [(s, a)] := by
  simp only [moments]
  split <;> rfl

/-- The moments of a run and of one that goes on from where it ends. -/
theorem moments_append {as : List α} (hrun : execute step s as = some s') (bs : List α) :
    moments step s (as ++ bs) = moments step s as ++ moments step s' bs := by
  induction as generalizing s with
  | nil =>
    obtain rfl := Option.some.inj hrun
    rfl
  | cons a as ih =>
    obtain ⟨s₁, hs, hrest⟩ := Option.bind_eq_some_iff.mp hrun
    simp only [List.cons_append, moments, hs, ih hrest]

/-- A step that meets the condition, and a run from there on. -/
theorem Along.cons {a : α} {as : List α} (ha : P s a) (hs : step s a = some s')
    (h : Along step P s' as) : Along step P s (a :: as) :=
  ⟨ha, fun _ hs' => Option.some.inj (hs.symm.trans hs') ▸ h⟩

/-- A run meets two conditions together. -/
theorem Along.and {Q : σ → α → Prop} {as : List α} (h : Along step P s as)
    (h' : Along step Q s as) : Along step (fun s a => P s a ∧ Q s a) s as := by
  induction as generalizing s with
  | nil => trivial
  | cons a as ih => exact ⟨⟨h.1, h'.1⟩, fun s' hs => ih (h.2 s' hs) (h'.2 s' hs)⟩

/-- Runs that meet a condition compose. -/
theorem Along.append {as bs : List α} (h : Along step P s as)
    (hrun : execute step s as = some s') (h' : Along step P s' bs) :
    Along step P s (as ++ bs) := by
  induction as generalizing s with
  | nil => exact Option.some.inj hrun ▸ h'
  | cons a as ih =>
    obtain ⟨s₁, hs, hrest⟩ := Option.bind_eq_some_iff.mp hrun
    exact .cons h.1 hs (ih (h.2 s₁ hs) hrest)

/-- A run's first part meets what the whole meets. -/
theorem Along.of_append {as bs : List α} (h : Along step P s (as ++ bs)) :
    Along step P s as := by
  induction as generalizing s with
  | nil => trivial
  | cons a as ih => exact ⟨h.1, fun s' hs => ih (h.2 s' hs)⟩

/-- A run's last part meets what the whole meets. -/
theorem Along.after {as bs : List α} (h : Along step P s (as ++ bs))
    (hrun : execute step s as = some s') : Along step P s' bs := by
  induction as generalizing s with
  | nil => exact Option.some.inj hrun ▸ h
  | cons a as ih =>
    obtain ⟨s₁, hs, hrest⟩ := Option.bind_eq_some_iff.mp hrun
    exact ih (h.2 s₁ hs) hrest

/-- What conditioned steps keep, runs of conditioned steps keep. -/
theorem Along.invariant {as : List α} (h : Along step P s as) (hrun : execute step s as = some s')
    (Inv : σ → Prop) (hinit : Inv s)
    (hstep : ∀ s a s', step s a = some s' → P s a → Inv s → Inv s') :
    Inv s' := by
  induction as generalizing s with
  | nil => exact Option.some.inj hrun ▸ hinit
  | cons a as ih =>
    obtain ⟨s₁, hs, hrest⟩ := Option.bind_eq_some_iff.mp hrun
    exact ih (h.2 s₁ hs) hrest (hstep s a s₁ hs h.1 hinit)

/-- An invariant may speak of the actions taken so far. -/
theorem Along.invariant_history {as past : List α} (h : Along step P s as)
    (hrun : execute step s as = some s') (Inv : List α → σ → Prop) (hinit : Inv past s)
    (hstep : ∀ past s a s', step s a = some s' → P s a → Inv past s → Inv (past ++ [a]) s') :
    Inv (past ++ as) s' := by
  induction as generalizing s past with
  | nil =>
    rw [List.append_nil]
    exact Option.some.inj hrun ▸ hinit
  | cons a as ih =>
    obtain ⟨s₁, hs, hrest⟩ := Option.bind_eq_some_iff.mp hrun
    rw [List.append_cons]
    exact ih (h.2 s₁ hs) hrest (hstep past s a s₁ hs h.1 hinit)

/-- What a kept invariant says of every step holds along the run. -/
theorem Along.imp {Q : σ → α → Prop} {as : List α} (h : Along step P s as)
    (hrun : execute step s as = some s') (Inv : σ → Prop) (hinit : Inv s)
    (hstep : ∀ s a s', step s a = some s' → P s a → Inv s → Inv s')
    (himp : ∀ s a s', step s a = some s' → Inv s → Q s a) : Along step Q s as := by
  induction as generalizing s with
  | nil => trivial
  | cons a as ih =>
    obtain ⟨s₁, hs, hrest⟩ := Option.bind_eq_some_iff.mp hrun
    exact .cons (himp s a s₁ hs hinit) hs (ih (h.2 s₁ hs) hrest (hstep s a s₁ hs h.1 hinit))

/-- A condition on the actions alone holds along a run of such actions. -/
theorem along_of_forall {as : List α} (h : ∀ a ∈ as, ∀ s, P s a) : Along step P s as := by
  induction as generalizing s with
  | nil => trivial
  | cons a as ih =>
    exact ⟨h a (List.mem_cons_self ..) s, fun _ _ => ih fun b hb => h b (List.mem_cons_of_mem _ hb)⟩

/-- What all steps keep, all runs keep. -/
theorem invariant_of_execute {as : List α} (hrun : execute step s as = some s')
    (Inv : σ → Prop) (hinit : Inv s) (hstep : ∀ s a s', step s a = some s' → Inv s → Inv s') :
    Inv s' :=
  (along_of_forall fun _ _ _ => trivial : Along step (fun _ _ => True) s as).invariant hrun Inv
    hinit fun s a s' h _ => hstep s a s' h

/-- A measure that no step raises by more than one takes every value on its way up. -/
theorem exists_moment {f : σ → Nat} {as : List α} {n : Nat}
    (hstep : ∀ s a s', step s a = some s' → f s' ≤ f s + 1) (hrun : execute step s as = some s')
    (hlo : f s ≤ n) (hhi : n ≤ f s') :
    ∃ past rest s₁, as = past ++ rest ∧ execute step s past = some s₁ ∧
      execute step s₁ rest = some s' ∧ f s₁ = n := by
  induction as generalizing s with
  | nil =>
    obtain rfl := Option.some.inj hrun
    exact ⟨[], [], s, rfl, rfl, rfl, Nat.le_antisymm hlo hhi⟩
  | cons a as ih =>
    rcases Nat.eq_or_lt_of_le hlo with heq | hlt
    · exact ⟨[], a :: as, s, rfl, rfl, hrun, heq⟩
    · obtain ⟨s₁, hs, hrest⟩ := Option.bind_eq_some_iff.mp hrun
      obtain ⟨past, rest, s₂, rfl, hpast, hlast, hf⟩ :=
        ih hrest (Nat.le_trans (hstep s a s₁ hs) hlt)
      refine ⟨a :: past, rest, s₂, rfl, ?_, hlast, hf⟩
      rw [execute, hs]
      exact hpast

/-- Two conditions that agree in every state that an invariant allows hold of the same runs. -/
theorem along_congr {Q : σ → α → Prop} {as : List α} (Inv : σ → Prop) (hinit : Inv s)
    (hstep : ∀ s a s', step s a = some s' → Inv s → Inv s')
    (hiff : ∀ s a, Inv s → (P s a ↔ Q s a)) : Along step P s as ↔ Along step Q s as := by
  induction as generalizing s with
  | nil => rfl
  | cons a as ih =>
    exact and_congr (hiff s a hinit) (forall₂_congr fun s' hs => ih (hstep s a s' hs hinit))

end

end Broom.Core
