import Broom.Core.Pool

/-!
# Schedules do not matter to programs that share nothing

An oracle answers an operation from what the program itself did before. A program
has one execution under an oracle. If every program of a pool is answered so, then
whatever the schedule each one performs that execution, the operations of the run
are those of all of them together, and so are the results.
-/

namespace Broom.Core

variable {Op : Type} {Ans : Op → Type} {ε α : Type}

/-- Answers from the operations a program has performed so far. -/
abbrev Oracle (Ans : Op → Type) := List (Act Ans) → (op : Op) → Ans op

/-- Every operation of a trace is answered as the oracle says, after a history. -/
def Oracle.Answers (oracle : Oracle Ans) (history τ : List (Act Ans)) : Prop :=
  ∀ before a after, τ = before ++ a :: after → a.2 = oracle (history ++ before) a.1

namespace Prog

/-- The execution of a program under an oracle, after a history. -/
def follow (oracle : Oracle Ans) : List (Act Ans) → Prog Op Ans α → List (Act Ans) × α
  | _, .ret a => ([], a)
  | history, .call op next =>
    let a : Act Ans := ⟨op, oracle history op⟩
    let rest := (next a.2).follow oracle (history ++ [a])
    (a :: rest.1, rest.2)

/-- An execution that the oracle answers is the one under the oracle. -/
theorem follow_of_exec {oracle : Oracle Ans} {p : Prog Op Ans α} {history τ : List (Act Ans)}
    {a : α} (h : p.Exec τ a) (hans : oracle.Answers history τ) :
    p.follow oracle history = (τ, a) := by
  induction p generalizing history τ with
  | ret b =>
    obtain ⟨rfl, rfl⟩ := exec_ret.mp h
    rfl
  | call op next ih =>
    obtain ⟨r, τ', rfl, hrest⟩ := exec_call.mp h
    obtain rfl : r = oracle history op := by simpa using hans [] ⟨op, r⟩ τ' rfl
    have htail : oracle.Answers (history ++ [⟨op, oracle history op⟩]) τ' := by
      intro before b after he
      rw [List.append_assoc]
      exact hans (⟨op, oracle history op⟩ :: before) b after (by rw [he]; rfl)
    rw [follow, ih _ hrest htail]

end Prog

namespace Pool

/-- A position in a program's part of a trace is one of the whole trace. -/
theorem exists_of_project_eq {i : Nat} {τ : List (Label ε Ans)} {before after : List (Act Ans)}
    {a : Act Ans} (h : project i τ = before ++ a :: after) :
    ∃ σ σ', τ = σ ++ .act i a :: σ' ∧ project i σ = before := by
  induction τ generalizing before with
  | nil => simp at h
  | cons l τ ih =>
    cases l with
    | env e =>
      obtain ⟨σ, σ', rfl, hσ⟩ := ih h
      exact ⟨.env e :: σ, σ', rfl, hσ⟩
    | act j b =>
      rw [project_act] at h
      split at h
      · rename_i hij
        subst hij
        cases before with
        | nil =>
          obtain ⟨rfl, -⟩ := List.cons.inj h
          exact ⟨[], τ, rfl, rfl⟩
        | cons c before =>
          obtain ⟨rfl, hrest⟩ := List.cons.inj h
          obtain ⟨σ, σ', rfl, rfl⟩ := ih hrest
          exact ⟨.act j b :: σ, σ', rfl, by rw [project_act, if_pos rfl]⟩
      · rename_i hij
        obtain ⟨σ, σ', rfl, hσ⟩ := ih h
        exact ⟨.act j b :: σ, σ', rfl, by rw [project_act, if_neg hij, hσ]⟩

/-- What a complete run does if the oracle answers each program's part of it: every
program performs its execution under the oracle, and the operations and the results
of the run are those of all these executions. -/
theorem Run.follow {limit : Nat} {jobs : List (Prog Op Ans α)} {r : Pool Op Ans α}
    {τ : List (Label ε Ans)} {oracle : Oracle Ans} (hrun : Run limit (ofList jobs) τ r)
    (hc : r.Complete) (hans : ∀ i, oracle.Answers [] (project i τ)) :
    (∀ i q, jobs[i]? = some q → project i τ = (q.follow oracle []).1) ∧
      (acts τ).Perm (jobs.flatMap fun q => (q.follow oracle []).1) ∧
      (r.finished.map Prod.snd).Perm (jobs.map fun q => (q.follow oracle []).2) := by
  obtain ⟨hn, he, ho⟩ := hrun.summarised_ofList hc
  have hpart : ∀ i a, (i, a) ∈ r.finished →
      ∃ q, jobs[i]? = some q ∧ q.follow oracle [] = (project i τ, a) := by
    intro i a hi
    obtain ⟨q, hq, hexec⟩ := he i a hi
    exact ⟨q, hq, Prog.follow_of_exec hexec (hans i)⟩
  have hproject : ∀ i q, jobs[i]? = some q → project i τ = (q.follow oracle []).1 := by
    intro i q hq
    have hlt : i < jobs.length := (List.getElem?_eq_some_iff.mp hq).1
    obtain ⟨⟨_, a⟩, hmem, rfl⟩ :=
      List.mem_map.mp (hn.mem_iff.mpr (List.mem_range.mpr hlt) : i ∈ r.finished.map Prod.fst)
    obtain ⟨q', hq', hfollow⟩ := hpart _ a hmem
    obtain rfl : q = q' := Option.some.inj (hq.symm.trans hq')
    rw [hfollow]
  refine ⟨hproject, ?_, ?_⟩
  · refine (acts_perm List.nodup_range ho).trans (List.Perm.of_eq ?_)
    rw [List.range_eq_range', ← List.zipIdx_map_snd 0 jobs, List.flatMap_map]
    conv_rhs => rw [← List.zipIdx_map_fst 0 jobs, List.flatMap_map]
    apply List.flatMap_congr
    rintro ⟨q, i⟩ hmem
    exact hproject i q (List.mem_zipIdx_iff_getElem?.mp hmem)
  · let result (i : Nat) : Option α := jobs[i]?.map fun q => (q.follow oracle []).2
    have hfinished : (r.finished.map Prod.snd).map some =
        (r.finished.map Prod.fst).map result := by
      rw [List.map_map, List.map_map]
      apply List.map_congr_left
      rintro ⟨i, a⟩ hmem
      obtain ⟨q, hq, hfollow⟩ := hpart i a hmem
      simp [result, hq, hfollow]
    have hjobs : (List.range jobs.length).map result =
        (jobs.map fun q => (q.follow oracle []).2).map some := by
      rw [List.range_eq_range', ← List.zipIdx_map_snd 0 jobs, List.map_map, List.map_map]
      conv_rhs => rw [← List.zipIdx_map_fst 0 jobs, List.map_map]
      apply List.map_congr_left
      rintro ⟨q, i⟩ hmem
      simp [result, List.mem_zipIdx_iff_getElem?.mp hmem]
    rw [← List.map_perm_map_iff fun _ _ => Option.some.inj, hfinished, ← hjobs]
    exact hn.map result

end Pool

end Broom.Core
