import Broom.Core.Program
import Mathlib.Data.List.Nodup
import Mathlib.Data.List.Perm.Basic

/-!
# Interleaved programs under a concurrency limit

A pool starts its waiting programs in order, keeps at most `limit` of them active
and lets the active ones take turns operation by operation. Its trace records
which program performed what, with the steps of the environment in between. A
complete run restricted to one program is an execution of that program alone, so
what is known of single executions carries over to every interleaving.
-/

namespace Broom.Core

variable {Op : Type} {Ans : Op → Type} {ε α : Type}

/-- One step of a pool's trace: of the environment, or of the program with a number. -/
inductive Label (ε : Type) {Op : Type} (Ans : Op → Type)
  | env (e : ε)
  | act (i : Nat) (a : Act Ans)

namespace Label

/-- The answered operation of program `i`, if the step is one of its own. -/
def own (i : Nat) : Label ε Ans → Option (Act Ans)
  | .env _ => none
  | .act j a => if j = i then some a else none

/-- The answered operation of the step, whichever program performed it. -/
def act? : Label ε Ans → Option (Act Ans)
  | .env _ => none
  | .act _ a => some a

end Label

/-- The part of a trace that program `i` performed. -/
def project (i : Nat) (τ : List (Label ε Ans)) : List (Act Ans) := τ.filterMap (Label.own i)

/-- All answered operations of a trace in their order. -/
def acts (τ : List (Label ε Ans)) : List (Act Ans) := τ.filterMap Label.act?

/-- Numbered programs that wait, run, or have returned. -/
structure Pool (Op : Type) (Ans : Op → Type) (α : Type) where
  waiting : List (Nat × Prog Op Ans α)
  active : List (Nat × Prog Op Ans α) := []
  finished : List (Nat × α) := []

namespace Pool

/-- A pool whose programs are numbered in order and have not started. -/
def ofList (jobs : List (Prog Op Ans α)) : Pool Op Ans α where
  waiting := jobs.zipIdx.map fun p => (p.2, p.1)

/-- The programs that have not returned. -/
def unfinished (p : Pool Op Ans α) : List (Nat × Prog Op Ans α) := p.active ++ p.waiting

/-- One scheduling step, with the part it adds to the trace. -/
inductive Step (limit : Nat) :
    Pool Op Ans α → List (Label ε Ans) → Pool Op Ans α → Prop
  | start {job waiting active finished} (h : active.length < limit) :
      Step limit ⟨job :: waiting, active, finished⟩ [] ⟨waiting, active ++ [job], finished⟩
  | act {i op next r waiting before after finished} :
      Step limit ⟨waiting, before ++ (i, .call op next) :: after, finished⟩ [.act i ⟨op, r⟩]
        ⟨waiting, before ++ (i, next r) :: after, finished⟩
  | finish {i a waiting before after finished} :
      Step limit ⟨waiting, before ++ (i, .ret a) :: after, finished⟩ []
        ⟨waiting, before ++ after, finished ++ [(i, a)]⟩
  | env {p} (e : ε) : Step limit p [.env e] p

/-- A run of the pool with its whole trace. -/
inductive Run (limit : Nat) : Pool Op Ans α → List (Label ε Ans) → Pool Op Ans α → Prop
  | refl (p) : Run limit p [] p
  | step {p q r τ τ'} : Step limit p τ q → Run limit q τ' r → Run limit p (τ ++ τ') r

/-- Runs compose. -/
theorem Run.trans {limit : Nat} {p q r : Pool Op Ans α} {τ τ' : List (Label ε Ans)}
    (h : Run limit p τ q) (h' : Run limit q τ' r) : Run limit p (τ ++ τ') r := by
  induction h with
  | refl p => exact h'
  | step hstep _ ih =>
    rw [List.append_assoc]
    exact .step hstep (ih h')

/-- Every program of the pool has returned. -/
def Complete (p : Pool Op Ans α) : Prop := p.unfinished = []

/-! ## A single program inside a run -/

@[simp] theorem project_nil (i : Nat) : project i ([] : List (Label ε Ans)) = [] := rfl

@[simp] theorem project_env (i : Nat) (e : ε) (τ : List (Label ε Ans)) :
    project i (.env e :: τ) = project i τ := rfl

theorem project_act (i j : Nat) (a : Act Ans) (τ : List (Label ε Ans)) :
    project i (.act j a :: τ) = if j = i then a :: project i τ else project i τ := by
  by_cases h : j = i <;> simp [project, Label.own, h]

/-- A number no step of the trace carries has an empty part. -/
theorem project_eq_nil {i : Nat} {τ : List (Label ε Ans)} (h : ∀ a, .act i a ∉ τ) :
    project i τ = [] := by
  induction τ with
  | nil => rfl
  | cons l τ ih =>
    have ht := ih fun a ha => h a (List.mem_cons_of_mem _ ha)
    cases l with
    | env e => exact ht
    | act j a =>
      rw [project_act, ht, if_neg]
      rintro rfl
      exact h a (List.mem_cons_self ..)

/-- Where numbers do not repeat, a number has one program. -/
theorem eq_of_mem_middle {i : Nat} {p q : Prog Op Ans α} {before after : List (Nat × Prog Op Ans α)}
    (hn : ((before ++ (i, p) :: after).map Prod.fst).Nodup)
    (hq : (i, q) ∈ before ++ (i, p) :: after) : q = p := by
  rw [List.map_append, List.map_cons, List.nodup_middle, List.nodup_cons, ← List.map_append] at hn
  rw [List.mem_append, List.mem_cons] at hq
  have hout : (i, q) ∉ before ++ after := fun h => hn.1 (List.mem_map.mpr ⟨_, h, rfl⟩)
  rw [List.mem_append] at hout
  rcases hq with hq | hq | hq
  · exact absurd (Or.inl hq) hout
  · exact (Prod.mk.inj hq).2
  · exact absurd (Or.inr hq) hout

/-- What a complete run says of the programs it started with: each number returns
once, each result is that of an execution of its program on its own part of the
trace, and no step has a foreign number. -/
structure Summarised (p r : Pool Op Ans α) (τ : List (Label ε Ans)) : Prop where
  numbers : (r.finished.map Prod.fst).Perm
    (p.finished.map Prod.fst ++ p.unfinished.map Prod.fst)
  executed : ∀ i a, (i, a) ∈ r.finished →
    (i, a) ∈ p.finished ∨ ∃ q, (i, q) ∈ p.unfinished ∧ q.Exec (project i τ) a
  own : ∀ i a, .act i a ∈ τ → i ∈ p.unfinished.map Prod.fst

/-- An operation of an active program is the first of its part of the trace. -/
theorem Summarised.act {i : Nat} {op : Op} {a : Ans op} {next : Ans op → Prog Op Ans α}
    {waiting before after : List (Nat × Prog Op Ans α)} {finished : List (Nat × α)}
    {r : Pool Op Ans α} {τ : List (Label ε Ans)}
    (h : Summarised ⟨waiting, before ++ (i, next a) :: after, finished⟩ r τ)
    (hn : ((before ++ (i, next a) :: (after ++ waiting)).map Prod.fst).Nodup) :
    Summarised ⟨waiting, before ++ (i, .call op next) :: after, finished⟩ r
      (.act i ⟨op, a⟩ :: τ) := by
  refine ⟨by simpa [unfinished] using h.numbers, fun j b hj => ?_, fun j b hj => ?_⟩
  · rcases h.executed j b hj with hf | ⟨q, hq, he⟩
    · exact Or.inl hf
    · simp only [unfinished, List.append_assoc, List.cons_append] at hq ⊢
      rw [project_act]
      by_cases hij : i = j
      · subst hij
        obtain rfl := eq_of_mem_middle hn hq
        refine Or.inr ⟨.call op next, by simp, ?_⟩
        rw [if_pos rfl]
        exact .call he
      · refine Or.inr ⟨q, ?_, by rwa [if_neg hij]⟩
        simpa [Ne.symm hij] using hq
  · have hown := h.own
    simp only [unfinished, List.append_assoc, List.cons_append, List.map_append,
      List.map_cons] at hown ⊢
    rcases List.mem_cons.mp hj with he | hj
    · obtain ⟨rfl, -⟩ : j = i ∧ _ := by simpa using he
      simp
    · exact hown j b hj

/-- A program that has returned performs nothing more. -/
theorem Summarised.finish {i : Nat} {a : α} {waiting before after : List (Nat × Prog Op Ans α)}
    {finished : List (Nat × α)} {r : Pool Op Ans α} {τ : List (Label ε Ans)}
    (h : Summarised ⟨waiting, before ++ after, finished ++ [(i, a)]⟩ r τ)
    (hn : ((before ++ (i, .ret a) :: (after ++ waiting)).map Prod.fst).Nodup) :
    Summarised ⟨waiting, before ++ (i, .ret a) :: after, finished⟩ r τ := by
  have hown := h.own
  have hex := h.executed
  have hnum := h.numbers
  simp only [unfinished, List.append_assoc, List.cons_append, List.map_append, List.map_cons,
    List.nil_append, List.map_nil] at hown hex hnum hn
  rw [List.nodup_middle, List.nodup_cons] at hn
  refine ⟨?_, fun j b hj => ?_, fun j b hj => ?_⟩
  · simp only [unfinished, List.append_assoc, List.cons_append, List.map_append, List.map_cons]
    exact hnum.trans (List.Perm.append_left _ List.perm_middle.symm)
  · simp only [unfinished, List.append_assoc, List.cons_append]
    rcases hex j b hj with hf | ⟨q, hq, he⟩
    · rcases List.mem_append.mp hf with hf | hf
      · exact Or.inl hf
      · obtain ⟨rfl, rfl⟩ : j = i ∧ b = a := by simpa using hf
        refine Or.inr ⟨.ret b, by simp, ?_⟩
        rw [project_eq_nil fun c hc => hn.1 (by simpa using hown j c hc)]
        exact .refl _
    · refine Or.inr ⟨q, ?_, he⟩
      rcases List.mem_append.mp hq with hq | hq
      · exact List.mem_append_left _ hq
      · exact List.mem_append_right _ (List.mem_cons_of_mem _ hq)
  · simp only [unfinished, List.append_assoc, List.cons_append, List.map_append, List.map_cons]
    rcases List.mem_append.mp (hown j b hj) with hj | hj
    · exact List.mem_append_left _ hj
    · exact List.mem_append_right _ (List.mem_cons_of_mem _ hj)

/-- In a complete run every program executes on its own part of the trace. -/
theorem Run.summarised {limit : Nat} {p r : Pool Op Ans α} {τ : List (Label ε Ans)}
    (hrun : Run limit p τ r) (hc : r.Complete) (hn : (p.unfinished.map Prod.fst).Nodup) :
    Summarised p r τ := by
  induction hrun with
  | refl p => exact ⟨by rw [hc]; simp, fun i a h => Or.inl h, by simp⟩
  | step hstep hrest ih =>
    cases hstep with
    | start h =>
      have he := ih hc (by simpa [unfinished] using hn)
      exact ⟨by simpa [unfinished] using he.numbers, by simpa [unfinished] using he.executed,
        by simpa [unfinished] using he.own⟩
    | env e =>
      have he := ih hc hn
      exact ⟨he.numbers, he.executed, by simpa using he.own⟩
    | act =>
      simp only [unfinished, List.append_assoc, List.cons_append] at hn
      exact (ih hc (by simpa [unfinished] using hn)).act (by simpa using hn)
    | finish =>
      simp only [unfinished, List.append_assoc, List.cons_append] at hn
      refine (ih hc ?_).finish hn
      simp only [unfinished, List.append_assoc]
      exact hn.sublist (((List.sublist_cons_self _ _).append_left _).map _)

theorem unfinished_ofList (jobs : List (Prog Op Ans α)) :
    (ofList jobs).unfinished = jobs.zipIdx.map fun p => (p.2, p.1) := rfl

theorem numbers_ofList (jobs : List (Prog Op Ans α)) :
    (ofList jobs).unfinished.map Prod.fst = List.range jobs.length := by
  rw [unfinished_ofList, List.map_map]
  exact List.zipIdx_map_snd 0 jobs ▸ (List.range_eq_range' ▸ rfl)

/-- A complete run of a numbered list of programs returns each number once, each
with the result of an execution of its program on its own part of the trace. -/
theorem Run.summarised_ofList {limit : Nat} {jobs : List (Prog Op Ans α)}
    {r : Pool Op Ans α} {τ : List (Label ε Ans)} (hrun : Run limit (ofList jobs) τ r)
    (hc : r.Complete) :
    (r.finished.map Prod.fst).Perm (List.range jobs.length) ∧
      (∀ i a, (i, a) ∈ r.finished → ∃ q, jobs[i]? = some q ∧ q.Exec (project i τ) a) ∧
      ∀ i a, .act i a ∈ τ → i ∈ List.range jobs.length := by
  have hs := hrun.summarised hc (by rw [numbers_ofList]; exact List.nodup_range)
  refine ⟨?_, fun i a hi => ?_, fun i a hi => ?_⟩
  · have hn := hs.numbers
    rw [numbers_ofList] at hn
    exact hn
  · rcases hs.executed i a hi with h | ⟨q, hq, he⟩
    · simp [ofList] at h
    · refine ⟨q, ?_, he⟩
      obtain ⟨p, hp, hpe⟩ := List.mem_map.mp hq
      obtain ⟨rfl, rfl⟩ := Prod.mk.inj hpe
      exact List.mem_zipIdx_iff_getElem?.mp hp
  · rw [← numbers_ofList]
    exact hs.own i a hi

/-- One active program may run while nothing else happens. -/
theorem Run.of_steps {limit i : Nat} {p q : Prog Op Ans α} {τ : List (Act Ans)}
    {waiting : List (Nat × Prog Op Ans α)} {finished : List (Nat × α)} (h : p.Steps τ q) :
    Run limit ⟨waiting, [(i, p)], finished⟩ (τ.map (Label.act i) : List (Label ε Ans))
      ⟨waiting, [(i, q)], finished⟩ := by
  induction h with
  | refl p => exact .refl _
  | @call op next r τ q h ih =>
    have hstep : Step limit ⟨waiting, [] ++ (i, .call op next) :: [], finished⟩
        ([.act i ⟨op, r⟩] : List (Label ε Ans)) ⟨waiting, [] ++ (i, next r) :: [], finished⟩ := .act
    exact .step hstep ih

/-- The next waiting program may start and run to its end. -/
theorem Run.next {limit i : Nat} {p : Prog Op Ans α} {τ : List (Act Ans)} {a : α}
    {waiting : List (Nat × Prog Op Ans α)} {finished : List (Nat × α)}
    (hlimit : 0 < limit) (h : p.Exec τ a) :
    Run limit ⟨(i, p) :: waiting, [], finished⟩ (τ.map (Label.act i) : List (Label ε Ans))
      ⟨waiting, [], finished ++ [(i, a)]⟩ := by
  have hfinish : Step limit ⟨waiting, [] ++ (i, .ret a) :: [], finished⟩ ([] : List (Label ε Ans))
      ⟨waiting, [] ++ [], finished ++ [(i, a)]⟩ := .finish
  have hrun := (Run.of_steps h).trans (.step hfinish (.refl _))
  rw [List.append_nil, List.append_nil] at hrun
  exact .step (.start hlimit) hrun

/-- A single program runs to its end. -/
theorem Run.single {limit : Nat} {p : Prog Op Ans α} {τ : List (Act Ans)} {a : α}
    (hlimit : 0 < limit) (h : p.Exec τ a) :
    Run limit (ofList [p]) (τ.map (Label.act 0) : List (Label ε Ans)) ⟨[], [], [(0, a)]⟩ :=
  Run.next hlimit h

/-- The trace of numbered programs run one after another against an oracle. -/
def sequential (oracle : (op : Op) → Ans op) (jobs : List (Nat × Prog Op Ans α)) :
    List (Label ε Ans) :=
  jobs.flatMap fun job => (job.2.replay oracle).1.map (Label.act job.1)

/-- Waiting programs may run one after another. -/
theorem Run.sequential {limit : Nat} (hlimit : 0 < limit) (oracle : (op : Op) → Ans op)
    (waiting : List (Nat × Prog Op Ans α)) (finished : List (Nat × α)) :
    Run limit ⟨waiting, [], finished⟩ (Pool.sequential oracle waiting : List (Label ε Ans))
      ⟨[], [], finished ++ waiting.map fun job => (job.1, (job.2.replay oracle).2)⟩ := by
  induction waiting generalizing finished with
  | nil =>
    rw [List.map_nil, List.append_nil]
    exact .refl _
  | cons job waiting ih =>
    have hrest := ih (finished ++ [(job.1, (job.2.replay oracle).2)])
    rw [List.append_assoc, List.singleton_append] at hrest
    exact (Run.next hlimit (job.2.exec_replay oracle)).trans hrest

/-! ## All programs of a run together -/

@[simp] theorem acts_nil : acts ([] : List (Label ε Ans)) = [] := rfl

@[simp] theorem acts_env (e : ε) (τ : List (Label ε Ans)) : acts (.env e :: τ) = acts τ := rfl

@[simp] theorem acts_act (i : Nat) (a : Act Ans) (τ : List (Label ε Ans)) :
    acts (.act i a :: τ) = a :: acts τ := rfl

@[simp] theorem acts_append (τ τ' : List (Label ε Ans)) : acts (τ ++ τ') = acts τ ++ acts τ' :=
  List.filterMap_append

theorem mem_acts {a : Act Ans} {τ : List (Label ε Ans)} : a ∈ acts τ ↔ ∃ i, .act i a ∈ τ := by
  induction τ with
  | nil => simp
  | cons l τ ih => cases l <;> simp [ih, exists_or, eq_comm]

theorem mem_project {i : Nat} {a : Act Ans} {τ : List (Label ε Ans)} :
    a ∈ project i τ ↔ .act i a ∈ τ := by
  induction τ with
  | nil => simp
  | cons l τ ih =>
    cases l with
    | env e => simp [ih]
    | act j b =>
      rw [project_act]
      by_cases h : j = i <;> simp [h, ih, Ne.symm]

/-- A program's part of a trace is in the order of the whole. -/
theorem project_sublist_acts (i : Nat) (τ : List (Label ε Ans)) :
    (project i τ).Sublist (acts τ) := by
  induction τ with
  | nil => exact .refl _
  | cons l τ ih =>
    cases l with
    | env e => exact ih
    | act j a =>
      rw [project_act, acts_act]
      split
      · exact ih.cons_cons a
      · exact ih.cons a

private theorem flatMap_cons_perm {i : Nat} {a : Act Ans} {f : Nat → List (Act Ans)}
    {is : List Nat} (hn : is.Nodup) (hi : i ∈ is) :
    (is.flatMap fun j => if i = j then a :: f j else f j).Perm (a :: is.flatMap f) := by
  obtain ⟨s, t, rfl⟩ := List.append_of_mem hi
  rw [List.nodup_middle, List.nodup_cons, List.mem_append, not_or] at hn
  have hout (u : List Nat) (hu : i ∉ u) :
      u.flatMap (fun j => if i = j then a :: f j else f j) = u.flatMap f := by
    apply List.flatMap_congr
    intro j hj
    rw [if_neg]
    rintro rfl
    exact hu hj
  rw [List.flatMap_append, List.flatMap_cons, hout s hn.1.1, hout t hn.1.2, if_pos rfl,
    List.cons_append, List.flatMap_append, List.flatMap_cons]
  exact List.perm_middle

/-- A trace holds exactly the operations of its programs, whatever their order. -/
theorem acts_perm {is : List Nat} (hn : is.Nodup) {τ : List (Label ε Ans)}
    (h : ∀ i a, .act i a ∈ τ → i ∈ is) : (acts τ).Perm (is.flatMap fun i => project i τ) := by
  induction τ with
  | nil => simp
  | cons l τ ih =>
    have ht := ih fun i a ha => h i a (List.mem_cons_of_mem _ ha)
    cases l with
    | env e => exact ht
    | act i a =>
      have hi := h i a (List.mem_cons_self ..)
      rw [acts_act]
      refine (ht.cons a).trans ?_
      simp only [project_act]
      exact (flatMap_cons_perm hn hi).symm

/-- What every operation of the programs meets, every operation of a run meets. -/
theorem Run.always {P : Op → Prop} {limit : Nat} {p r : Pool Op Ans α}
    {τ : List (Label ε Ans)} (hrun : Run limit p τ r)
    (hp : ∀ i q, (i, q) ∈ p.unfinished → q.Always P) :
    ∀ a ∈ acts τ, P a.1 := by
  induction hrun with
  | refl p => simp
  | step hstep hrest ih =>
    cases hstep with
    | start h => exact ih (by simpa [unfinished] using hp)
    | env e => exact ih hp
    | @act i op next r waiting before after finished =>
      have hhead : (Prog.call op next).Always P := hp i _ (by simp [unfinished])
      rw [acts_append]
      intro a ha
      rcases List.mem_append.mp ha with ha | ha
      · obtain rfl : a = ⟨op, r⟩ := by simpa [acts, Label.act?] using ha
        exact hhead.1
      · refine ih (fun j q hq => ?_) a ha
        simp only [unfinished, List.append_assoc, List.cons_append, List.mem_append,
          List.mem_cons] at hq
        rcases hq with hq | hq | hq
        · exact hp j q (by simp [unfinished, hq])
        · obtain ⟨rfl, rfl⟩ := Prod.mk.inj hq
          exact hhead.2 r
        · exact hp j q (by
            simp only [unfinished, List.append_assoc, List.cons_append, List.mem_append,
              List.mem_cons]
            exact Or.inr (Or.inr hq))
    | @finish i a waiting before after finished =>
      refine ih fun j q hq => hp j q ?_
      simp only [unfinished, List.append_assoc, List.cons_append, List.mem_append,
        List.mem_cons] at hq ⊢
      rcases hq with hq | hq
      · exact Or.inl hq
      · exact Or.inr (Or.inr hq)

/-- In a sequential run every step is a program's, and its answer is the oracle's. -/
theorem answered_of_mem_sequential {oracle : (op : Op) → Ans op}
    {jobs : List (Nat × Prog Op Ans α)} {l : Label ε Ans} (h : l ∈ sequential oracle jobs) :
    ∃ i a, l = .act i a ∧ a.2 = oracle a.1 := by
  obtain ⟨job, -, hj⟩ := List.mem_flatMap.mp h
  obtain ⟨a, ha, rfl⟩ := List.mem_map.mp hj
  exact ⟨job.1, a, rfl, Prog.answer_of_mem_replay ha⟩

end Pool

end Broom.Core
