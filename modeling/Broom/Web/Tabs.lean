import Broom.Web.Tracker
import Mathlib.Data.List.DropRight

/-!
# The history under several tabs

Every tab has its own serial chain, and all tabs share one stored value. An operation
that writes reads the value in one transaction and sets it in another one, and the
transactions of other tabs come in between.
-/

namespace Broom.Web

open Broom.Core

/-! ## Tabs -/

/-- An operation that has read the value and is going to set it. -/
structure Reading where
  op : HistoryOp
  /-- The time after the read. -/
  now : Int
  all : List HistoryEntry

/-- The serial chain of one tab: the link that is under way, and those to come. -/
structure Tab where
  reading : Option Reading := none
  queue : List HistoryOp := []

structure Browser where
  stored : List HistoryEntry := []
  tabs : Nat → Tab := fun _ => {}

/-- The operation sets the value after it has read it. -/
def HistoryOp.writes (rt : Runtime) (now : Int) (all : List HistoryEntry) : HistoryOp → Bool
  | .save _ | .delete _ => true
  | .markLost alive => all.any (isLost rt alive now 60000)
  | .get _ | .list | .clear => false

/-- What the next step of the browser is. -/
inductive TabAction
  /-- A tab puts an operation at the end of its chain. -/
  | serial (t : Nat) (op : HistoryOp)
  /-- The next operation of a tab reads the value. -/
  | get (t : Nat) (now : Int)
  /-- The operation of a tab that is under way sets the value. -/
  | set (t : Nat)
  /-- The next operation of a tab removes the value. -/
  | del (t : Nat)

def Browser.setTab (b : Browser) (t : Nat) (tab : Tab) : Browser :=
  { b with tabs := Function.update b.tabs t tab }

/-- One transaction, or a new link of a chain. -/
def Browser.step (rt : Runtime) (b : Browser) : TabAction → Option Browser
  | .serial t op => some (b.setTab t { b.tabs t with queue := (b.tabs t).queue ++ [op] })
  | .get t now =>
    match b.tabs t with
    | ⟨some _, _⟩ | ⟨none, []⟩ | ⟨none, .clear :: _⟩ => none
    | ⟨none, op :: queue⟩ =>
      -- an operation that does not write is done
      some (b.setTab t
        ⟨if op.writes rt now b.stored then some ⟨op, now, b.stored⟩ else none, queue⟩)
  | .set t =>
    match b.tabs t with
    | ⟨some r, queue⟩ => some { b.setTab t ⟨none, queue⟩ with stored := r.op.apply rt r.now r.all }
    | ⟨none, _⟩ => none
  | .del t =>
    match b.tabs t with
    | ⟨none, .clear :: queue⟩ => some { b.setTab t ⟨none, queue⟩ with stored := [] }
    | _ => none

/-! ## What is on record -/

/-- The operation that a step completes by setting or removing the value. -/
def Browser.landed (b : Browser) : TabAction → Option HistoryOp
  | .set t => (b.tabs t).reading.map Reading.op
  | .del _ => some .clear
  | .serial _ _ | .get _ _ => none

/-- The operations that landed, in their order. -/
def landings (ms : List (Browser × TabAction)) : List HistoryOp :=
  ms.filterMap fun m => m.1.landed m.2

/-- The step is a read of the tab. -/
def TabAction.reads (t : Nat) : TabAction → Bool
  | .get t' _ => t' = t
  | _ => false

/-- The operations that landed since a tab last read the value. -/
def since (t : Nat) (ms : List (Browser × TabAction)) : List HistoryOp :=
  landings (ms.rtakeWhile fun m => !m.2.reads t)

/-- The operation deletes, clears or saves the entry with some id. -/
def HistoryOp.touches (id : String) : HistoryOp → Bool
  | .save entry => entry.id = id
  | .delete id' => id' = id
  | .clear => true
  | .get _ | .markLost _ | .list => false

/-- The entry was saved, and not deleted, cleared or saved again. -/
def Stands (e : HistoryEntry) (ops : List HistoryOp) : Prop :=
  ∃ before after, ops = before ++ .save e :: after ∧ ∀ op ∈ after, op.touches e.id = false

/-- A stored entry is the saved one; the server may have lost its unfinished run since. -/
def IsEntry (e y : HistoryEntry) : Prop :=
  y = e ∨ isHistoryTerminal e.state = false ∧ y = { e with state := .lost }

/-- What an operation makes of an entry that it keeps. -/
def HistoryOp.mark (rt : Runtime) (now : Int) (x : HistoryEntry) : HistoryOp → HistoryEntry
  | .markLost alive => if isLost rt alive now 60000 x then { x with state := .lost } else x
  | _ => x

section properties

variable (rt : Runtime) (b : Browser) (τ : List TabAction)

/-- At all times fewer entries are stored than the history may hold. -/
def HasRoom : Prop :=
  ∀ past b', past <+: τ → execute (Browser.step rt) b past = some b' →
    b'.stored.length < maxHistory

/-- At all times every saved entry is stored. -/
def NoLostUpdate : Prop :=
  ∀ past b', past <+: τ → execute (Browser.step rt) b past = some b' →
    ∀ e, Stands e (landings (moments (Browser.step rt) b past)) → ∃ y ∈ b'.stored, IsEntry e y

/-- An operation sets the value only if no save has landed since it read the value, except of
entries that were removed or saved again since, that it removes or saves itself, or that it has
read as they were saved. -/
def NoSaveBetween : Prop :=
  ∀ past t b' r, past ++ [.set t] <+: τ → execute (Browser.step rt) b past = some b' →
    (b'.tabs t).reading = some r →
    ∀ e, Stands e (since t (moments (Browser.step rt) b past)) → r.op.touches e.id = false →
      ∃ x ∈ r.all, IsEntry e (r.op.mark rt r.now x)

end properties

/-! ## Operations that landed -/

section landed

variable {e : HistoryEntry} {op : HistoryOp} {ops : List HistoryOp} {t : Nat}
  {m : Browser × TabAction} {ms : List (Browser × TabAction)}

theorem not_stands_nil : ¬ Stands e [] := by
  rintro ⟨before, after, h, -⟩
  simp at h

/-- An entry stands if it was saved last, or stood and was not touched. -/
theorem stands_concat :
    Stands e (ops ++ [op]) ↔ op = .save e ∨ Stands e ops ∧ op.touches e.id = false := by
  constructor
  · rintro ⟨before, after, h, hafter⟩
    rcases List.eq_nil_or_concat after with rfl | ⟨after, last, rfl⟩
    · obtain ⟨-, h⟩ := List.append_inj' h rfl
      exact .inl (List.singleton_inj.mp h)
    · rw [List.concat_eq_append] at h hafter
      rw [← List.cons_append, ← List.append_assoc] at h
      obtain ⟨rfl, hlast⟩ := List.append_inj' h rfl
      obtain rfl := List.singleton_inj.mp hlast
      exact .inr ⟨⟨before, after, rfl, fun op hop => hafter op (List.mem_append_left _ hop)⟩,
        hafter op (by simp)⟩
  · rintro (rfl | ⟨⟨before, after, rfl, hafter⟩, hop⟩)
    · exact ⟨ops, [], rfl, by simp⟩
    · refine ⟨before, after ++ [op], by simp, fun op' hop' => ?_⟩
      rcases List.mem_append.mp hop' with hop' | hop'
      · exact hafter op' hop'
      · exact List.mem_singleton.mp hop' ▸ hop

theorem Stands.of_suffix {ops' : List HistoryOp} (h : Stands e ops) (hs : ops <:+ ops') :
    Stands e ops' := by
  obtain ⟨before, after, rfl, hafter⟩ := h
  obtain ⟨first, rfl⟩ := hs
  exact ⟨first ++ before, after, by simp, hafter⟩

theorem landings_concat : landings (ms ++ [m]) = landings ms ++ (m.1.landed m.2).toList := by
  rw [landings, List.filterMap_append]
  rfl

theorem since_concat : since t (ms ++ [m]) =
    if m.2.reads t then [] else since t ms ++ (m.1.landed m.2).toList := by
  rw [since, List.rtakeWhile_concat]
  cases m.2.reads t with
  | true => rfl
  | false => exact landings_concat

theorem since_suffix : since t ms <:+ landings ms :=
  (List.rtakeWhile_suffix _ ms).filterMap _

end landed

/-! ## Lists that operations write -/

section writes

variable {rt : Runtime} {now : Int} {all : List HistoryEntry} {e x y : HistoryEntry}
  {op : HistoryOp}

theorem mem_write (h : (write all).length < maxHistory) : e ∈ write all ↔ e ∈ all := by
  have hall : all.length ≤ maxHistory := by
    simp only [write, List.length_take] at h
    omega
  rw [write, List.take_of_length_le hall]

/-- If nothing is cut off, an operation writes the entry that it saves, and what it makes of the
entries that it does not touch. -/
theorem mem_apply (hroom : (op.apply rt now all).length < maxHistory)
    (hwrites : op.writes rt now all = true) :
    y ∈ op.apply rt now all ↔
      op = .save y ∨ ∃ x ∈ all, op.touches x.id = false ∧ y = op.mark rt now x := by
  cases op with
  | get | list | clear => cases hwrites
  | save entry =>
    rw [HistoryOp.apply, saveHistory, mem_write hroom, (List.perm_insertionSort _ _).mem_iff]
    simp only [HistoryOp.touches, HistoryOp.mark, List.mem_cons, List.mem_filter,
      decide_eq_true_eq, decide_eq_false_iff_not, HistoryOp.save.injEq]
    refine or_congr eq_comm ⟨fun h => ⟨y, h.1, Ne.symm h.2, rfl⟩, ?_⟩
    rintro ⟨x, hx, hid, rfl⟩
    exact ⟨hx, Ne.symm hid⟩
  | delete id =>
    rw [HistoryOp.apply, deleteHistory, mem_write hroom]
    simp only [HistoryOp.touches, HistoryOp.mark, List.mem_filter, decide_eq_true_eq,
      decide_eq_false_iff_not, reduceCtorEq, false_or]
    refine ⟨fun h => ⟨y, h.1, Ne.symm h.2, rfl⟩, ?_⟩
    rintro ⟨x, hx, hid, rfl⟩
    exact ⟨hx, Ne.symm hid⟩
  | markLost alive =>
    have hany : all.any (isLost rt alive now 60000) = true := hwrites
    rw [HistoryOp.apply, markLostHistory, if_pos hany] at hroom ⊢
    rw [mem_write hroom, List.mem_map]
    simp only [HistoryOp.touches, HistoryOp.mark, reduceCtorEq, false_or, true_and]
    exact exists_congr fun x => and_congr_right fun _ => eq_comm

theorem IsEntry.id_eq (h : IsEntry e y) : y.id = e.id := by
  rcases h with rfl | ⟨-, rfl⟩ <;> rfl

/-- Marking leaves the saved entry what it is. -/
theorem IsEntry.mark (h : IsEntry e x) : IsEntry e (op.mark rt now x) := by
  cases op with
  | markLost alive =>
    rw [HistoryOp.mark]
    split
    · rename_i hlost
      have hopen : isHistoryTerminal x.state = false := by
        cases hx : isHistoryTerminal x.state with
        | true => simp [isLost, hx] at hlost
        | false => rfl
      rcases h with rfl | ⟨-, rfl⟩
      · exact .inr ⟨hopen, rfl⟩
      · cases hopen
    · exact h
  | _ => exact h

theorem id_mark : (op.mark rt now x).id = x.id := by
  cases op with
  | markLost alive =>
    rw [HistoryOp.mark]
    split <;> rfl
  | _ => rfl

end writes

/-! ## Steps -/

section steps

variable {rt : Runtime} {b b' : Browser} {t : Nat} {now : Int}

theorem step_get (h : b.step rt (.get t now) = some b') :
    ∃ op queue, b.tabs t = ⟨none, op :: queue⟩ ∧ b' = b.setTab t
      ⟨if op.writes rt now b.stored then some ⟨op, now, b.stored⟩ else none, queue⟩ := by
  simp only [Browser.step] at h
  split at h
  · cases h
  · cases h
  · cases h
  · rename_i op queue _ htab
    exact ⟨op, queue, htab, (Option.some.inj h).symm⟩

theorem step_set (h : b.step rt (.set t) = some b') :
    ∃ r queue, b.tabs t = ⟨some r, queue⟩ ∧
      b' = { b.setTab t ⟨none, queue⟩ with stored := r.op.apply rt r.now r.all } := by
  simp only [Browser.step] at h
  split at h
  · rename_i r queue htab
    exact ⟨r, queue, htab, (Option.some.inj h).symm⟩
  · cases h

theorem step_del (h : b.step rt (.del t) = some b') :
    ∃ queue, b.tabs t = ⟨none, .clear :: queue⟩ ∧
      b' = { b.setTab t ⟨none, queue⟩ with stored := [] } := by
  simp only [Browser.step] at h
  split at h
  · rename_i queue htab
    exact ⟨queue, htab, (Option.some.inj h).symm⟩
  · cases h

/-- A reading of a changed tab is its new one, or that of another tab. -/
theorem reading_setTab {tab : Tab} {r : Reading} {t' : Nat} {stored : List HistoryEntry}
    (h : (({ b.setTab t tab with stored := stored } : Browser).tabs t').reading = some r) :
    t' = t ∧ tab.reading = some r ∨ t' ≠ t ∧ (b.tabs t').reading = some r := by
  by_cases ht : t' = t
  · subst ht
    exact .inl ⟨rfl, by simpa [Browser.setTab] using h⟩
  · exact .inr ⟨ht, by simpa [Browser.setTab, ht] using h⟩

theorem apply_of_not_writes {op : HistoryOp} {all : List HistoryEntry}
    (h : op.writes rt now all = false) (hclear : op ≠ .clear) : op.apply rt now all = all := by
  cases op with
  | get | list => rfl
  | save | delete => cases h
  | clear => exact absurd rfl hclear
  | markLost alive => exact if_neg (Bool.eq_false_iff.mp h)

/-- A link of the chain that nothing interrupts does what it does with one tab. -/
theorem execute_link {op : HistoryOp} {queue : List HistoryOp}
    (htab : b.tabs t = ⟨none, op :: queue⟩) (now : Int) :
    ∃ τ b', execute (Browser.step rt) b τ = some b' ∧ b'.tabs t = ⟨none, queue⟩ ∧
      b'.stored = op.apply rt now b.stored := by
  by_cases hclear : op = .clear
  · subst hclear
    refine ⟨[.del t], { b.setTab t ⟨none, queue⟩ with stored := [] }, ?_, ?_, rfl⟩
    · simp only [execute, Browser.step, htab, Option.bind_some]
    · exact Function.update_self ..
  · have hget : b.step rt (.get t now) = some (b.setTab t
        ⟨if op.writes rt now b.stored then some ⟨op, now, b.stored⟩ else none, queue⟩) := by
      cases op with
      | clear => exact absurd rfl hclear
      | _ => simp only [Browser.step, htab]
    cases hwrites : op.writes rt now b.stored with
    | false =>
      rw [hwrites, if_neg Bool.false_ne_true] at hget
      refine ⟨[.get t now], b.setTab t ⟨none, queue⟩, ?_, Function.update_self ..,
        (apply_of_not_writes hwrites hclear).symm⟩
      simp only [execute, hget, Option.bind_some]
    | true =>
      rw [hwrites, if_pos rfl] at hget
      let read := b.setTab t ⟨some ⟨op, now, b.stored⟩, queue⟩
      let done := { read.setTab t ⟨none, queue⟩ with stored := op.apply rt now b.stored }
      have hset : read.step rt (.set t) = some done := by
        simp only [read, done, Browser.step, Browser.setTab, Function.update_self]
      refine ⟨[.get t now, .set t], done, ?_, Function.update_self .., rfl⟩
      simp only [execute, hget, Option.bind_some]
      rw [hset, Option.bind_some]

/-- An operation that has read the value is going to set it. -/
def Browser.Sound (rt : Runtime) (b : Browser) : Prop :=
  ∀ t r, (b.tabs t).reading = some r → r.op.writes rt r.now r.all = true

theorem Browser.Sound.step {a : TabAction} (h : b.Sound rt) (hstep : b.step rt a = some b') :
    b'.Sound rt := by
  intro t' r hr
  cases a with
  | serial t op =>
    obtain rfl := Option.some.inj hstep
    rcases reading_setTab hr with ⟨rfl, hr⟩ | ⟨-, hr⟩
    · exact h t' r hr
    · exact h t' r hr
  | get t now =>
    obtain ⟨op, queue, -, rfl⟩ := step_get hstep
    rcases reading_setTab hr with ⟨-, hr⟩ | ⟨-, hr⟩
    · obtain ⟨hwrites, rfl⟩ := Option.ite_some_none_eq_some.mp hr
      exact hwrites
    · exact h t' r hr
  | set t =>
    obtain ⟨r', queue, -, rfl⟩ := step_set hstep
    rcases reading_setTab hr with ⟨-, ⟨⟩⟩ | ⟨-, hr⟩
    exact h t' r hr
  | del t =>
    obtain ⟨queue, -, rfl⟩ := step_del hstep
    rcases reading_setTab hr with ⟨-, ⟨⟩⟩ | ⟨-, hr⟩
    exact h t' r hr

theorem sound_of_run {all : List HistoryEntry} {τ : List TabAction}
    (hrun : execute (Browser.step rt) { stored := all } τ = some b) : b.Sound rt :=
  invariant_of_execute hrun (Browser.Sound rt) (fun _ _ h => by cases h)
    fun _ _ _ hstep h => h.step hstep

end steps

/-! ## Runs -/

/-- Saved entries are stored, and an operation that is under way has read those that were
saved before it read the value. -/
structure Kept (ms : List (Browser × TabAction)) (b : Browser) : Prop where
  stored : ∀ e, Stands e (landings ms) → ∃ y ∈ b.stored, IsEntry e y
  reading : ∀ t r, (b.tabs t).reading = some r → ∀ e, Stands e (landings ms) →
    Stands e (since t ms) ∨ ∃ x ∈ r.all, IsEntry e x

section runs

variable {rt : Runtime} {b b' : Browser} {ms : List (Browser × TabAction)} {e : HistoryEntry}

/-- What stands was saved since a read of the tab, or had been read, also one step later. -/
theorem stands_since {t : Nat} {m : Browser × TabAction} {P : HistoryEntry → Prop}
    (h : ∀ e, Stands e (landings ms) → Stands e (since t ms) ∨ P e) (hreads : m.2.reads t = false) :
    ∀ e, Stands e (landings (ms ++ [m])) → Stands e (since t (ms ++ [m])) ∨ P e := by
  intro e he
  rw [landings_concat] at he
  rw [since_concat, hreads, if_neg Bool.false_ne_true]
  cases hop : m.1.landed m.2 with
  | none =>
    rw [hop, Option.toList_none, List.append_nil] at he
    rw [Option.toList_none, List.append_nil]
    exact h e he
  | some op =>
    rw [hop, Option.toList_some, stands_concat] at he
    rw [Option.toList_some, stands_concat]
    rcases he with hsave | ⟨he, huntouched⟩
    · exact .inl (.inl hsave)
    · exact (h e he).imp_left fun hs => .inr ⟨hs, huntouched⟩

/-- A step keeps what there is to keep if the value does. -/
theorem Kept.step {a : TabAction} (h : Kept ms b) (hstep : b.step rt a = some b')
    (hstored : ∀ e, Stands e (landings (ms ++ [(b, a)])) → ∃ y ∈ b'.stored, IsEntry e y) :
    Kept (ms ++ [(b, a)]) b' := by
  refine ⟨hstored, fun t' r hr => ?_⟩
  cases a with
  | serial t op =>
    obtain rfl := Option.some.inj hstep
    have hold : (b.tabs t').reading = some r := by
      rcases reading_setTab hr with ⟨rfl, hr⟩ | ⟨-, hr⟩ <;> exact hr
    exact stands_since (h.reading t' r hold) rfl
  | get t now =>
    obtain ⟨op, queue, -, rfl⟩ := step_get hstep
    rcases reading_setTab hr with ⟨rfl, hread⟩ | ⟨ht, hold⟩
    · obtain ⟨-, rfl⟩ := Option.ite_some_none_eq_some.mp hread
      exact fun e he => .inr (hstored e he)
    · exact stands_since (h.reading t' r hold) (decide_eq_false (Ne.symm ht))
  | set t =>
    obtain ⟨r', queue, -, rfl⟩ := step_set hstep
    rcases reading_setTab hr with ⟨-, ⟨⟩⟩ | ⟨-, hr⟩
    exact stands_since (h.reading t' r hr) rfl
  | del t =>
    obtain ⟨queue, -, rfl⟩ := step_del hstep
    rcases reading_setTab hr with ⟨-, ⟨⟩⟩ | ⟨-, hr⟩
    exact stands_since (h.reading t' r hr) rfl

theorem landed_set {t : Nat} {r : Reading} (hr : (b.tabs t).reading = some r) :
    b.landed (.set t) = some r.op := by
  rw [Browser.landed, hr]
  rfl

/-- A set keeps what stands if the operation had read what was saved since its read. -/
theorem stored_set {t : Nat} {r : Reading} (h : Kept ms b) (hr : (b.tabs t).reading = some r)
    (hstep : b.step rt (.set t) = some b') (hsound : b.Sound rt)
    (hroom : b'.stored.length < maxHistory)
    (hbetween : ∀ e, Stands e (since t ms) → r.op.touches e.id = false →
      ∃ x ∈ r.all, IsEntry e (r.op.mark rt r.now x)) :
    ∀ e, Stands e (landings (ms ++ [(b, .set t)])) → ∃ y ∈ b'.stored, IsEntry e y := by
  intro e he
  obtain ⟨r', queue, htab, rfl⟩ := step_set hstep
  obtain rfl : r' = r := by simpa [htab] using hr
  have happly {y : HistoryEntry} := mem_apply (y := y) hroom (hsound t r' hr)
  rw [landings_concat, landed_set hr, Option.toList_some, stands_concat] at he
  rcases he with hsave | ⟨he, huntouched⟩
  · exact ⟨e, happly.mpr (.inl hsave), .inl rfl⟩
  · obtain ⟨x, hx, hmark⟩ : ∃ x ∈ r'.all, IsEntry e (r'.op.mark rt r'.now x) := by
      rcases h.reading t r' hr e he with hsince | ⟨x, hx, hxe⟩
      · exact hbetween e hsince huntouched
      · exact ⟨x, hx, hxe.mark⟩
    refine ⟨_, happly.mpr (.inr ⟨x, hx, ?_, rfl⟩), hmark⟩
    rwa [← id_mark, hmark.id_eq]

/-- A step other than a set keeps what stands. -/
theorem stored_of_not_set {a : TabAction} (h : Kept ms b) (hstep : b.step rt a = some b')
    (ha : ∀ t, a ≠ .set t) :
    ∀ e, Stands e (landings (ms ++ [(b, a)])) → ∃ y ∈ b'.stored, IsEntry e y := by
  intro e he
  rw [landings_concat] at he
  cases a with
  | serial t op =>
    obtain rfl := Option.some.inj hstep
    exact h.stored e (by simpa [Browser.landed] using he)
  | get t now =>
    obtain ⟨op, queue, -, rfl⟩ := step_get hstep
    exact h.stored e (by simpa [Browser.landed] using he)
  | set t => exact absurd rfl (ha t)
  | del t =>
    rcases stands_concat.mp he with ⟨⟨⟩⟩ | ⟨-, ⟨⟩⟩

/-- An operation that has read the value can set it. -/
theorem exists_set {t : Nat} {r : Reading} (hr : (b.tabs t).reading = some r) :
    ∃ b', b.step rt (.set t) = some b' ∧ b'.stored = r.op.apply rt r.now r.all := by
  obtain ⟨queue, htab⟩ : ∃ queue, b.tabs t = ⟨some r, queue⟩ := ⟨(b.tabs t).queue, by rw [← hr]⟩
  refine ⟨{ b.setTab t ⟨none, queue⟩ with stored := r.op.apply rt r.now r.all }, ?_, rfl⟩
  simp only [Browser.step, htab]

/-- If no save comes between, the saved entries are kept at all times. -/
theorem kept_of_run {all : List HistoryEntry} {τ : List TabAction}
    (hroom : HasRoom rt { stored := all } τ) (hbetween : NoSaveBetween rt { stored := all } τ)
    (past : List TabAction) (hpast : past <+: τ) (b : Browser)
    (hrun : execute (Browser.step rt) { stored := all } past = some b) :
    Kept (moments (Browser.step rt) { stored := all } past) b := by
  induction past using List.reverseRecOn generalizing b with
  | nil =>
    obtain rfl := Option.some.inj hrun
    exact ⟨fun e he => absurd he not_stands_nil, fun t r hr => by cases hr⟩
  | append_singleton past a ih =>
    obtain ⟨b₁, hrun₁, hstep⟩ := of_execute_concat hrun
    have hkept := ih ((List.prefix_append past [a]).trans hpast) b₁ hrun₁
    rw [moments_append hrun₁, moments_singleton]
    refine hkept.step hstep ?_
    cases a with
    | set t =>
      obtain ⟨r, queue, htab, -⟩ := step_set hstep
      have hr : (b₁.tabs t).reading = some r := by rw [htab]
      exact stored_set hkept hr hstep (sound_of_run hrun₁) (hroom _ b hpast hrun)
        (hbetween past t b₁ r hpast hrun₁ hr)
    | _ => exact stored_of_not_set hkept hstep nofun

end runs

/-- While the history has room: no update is lost, if and only if no save lands between the read
and the write of another operation. -/
theorem no_lost_update_iff {rt : Runtime} {all : List HistoryEntry} {τ : List TabAction}
    (hroom : HasRoom rt { stored := all } τ) :
    NoLostUpdate rt { stored := all } τ ↔ NoSaveBetween rt { stored := all } τ := by
  constructor
  · intro h past t b r hpast hrun hr e hsince huntouched
    obtain ⟨b', hstep, hstored⟩ := exists_set hr
    have hfull := execute_concat hrun hstep
    have hstands : Stands e (landings (moments (Browser.step rt) { stored := all }
        (past ++ [.set t]))) := by
      rw [moments_append hrun, moments_singleton, landings_concat, landed_set hr,
        Option.toList_some, stands_concat]
      exact .inr ⟨hsince.of_suffix since_suffix, huntouched⟩
    obtain ⟨y, hy, hye⟩ := h _ b' hpast hfull e hstands
    have hshort := hroom _ b' hpast hfull
    rw [hstored] at hy hshort
    rcases (mem_apply hshort (sound_of_run hrun t r hr)).mp hy with hsave | ⟨x, hx, -, rfl⟩
    · -- an entry that the operation saves itself is touched
      rw [hsave] at huntouched
      exact absurd hye.id_eq (of_decide_eq_false huntouched)
    · exact ⟨x, hx, hye⟩
  · intro hbetween past b hpast hrun
    exact (kept_of_run hroom hbetween past hpast b hrun).stored

/-- The tab of an action. -/
def TabAction.tab : TabAction → Nat
  | .serial t _ | .get t _ | .set t | .del t => t

/-- Nothing lands in between if there are no other tabs. -/
theorem since_of_one_tab {rt : Runtime} {b₀ b : Browser} {past : List TabAction} {t : Nat}
    {r : Reading} (ht : ∀ a ∈ past, a.tab = t)
    (hrun : execute (Browser.step rt) b₀ past = some b) (hr : (b.tabs t).reading = some r) :
    since t (moments (Browser.step rt) b₀ past) = [] := by
  induction past using List.reverseRecOn generalizing b r with
  | nil => rfl
  | append_singleton past a ih =>
    obtain ⟨b₁, hrun₁, hstep⟩ := of_execute_concat hrun
    have hpast : ∀ a ∈ past, a.tab = t := fun a ha => ht a (List.mem_append_left _ ha)
    have ha : a.tab = t := ht a (by simp)
    rw [moments_append hrun₁, moments_singleton, since_concat]
    cases a with
    | serial t' op =>
      obtain rfl := Option.some.inj hstep
      have hold : (b₁.tabs t).reading = some r := by
        rcases reading_setTab hr with ⟨rfl, hold⟩ | ⟨-, hold⟩ <;> exact hold
      rw [ih hpast hrun₁ hold]
      rfl
    | get t' now => exact if_pos (decide_eq_true ha)
    | set t' =>
      obtain ⟨r', queue, -, rfl⟩ := step_set hstep
      rcases reading_setTab hr with ⟨-, ⟨⟩⟩ | ⟨hne, -⟩
      exact absurd ha.symm hne
    | del t' =>
      obtain ⟨queue, -, rfl⟩ := step_del hstep
      rcases reading_setTab hr with ⟨-, ⟨⟩⟩ | ⟨hne, -⟩
      exact absurd ha.symm hne

/-- The chain is enough for one tab. -/
theorem kept_of_one_tab {rt : Runtime} {all : List HistoryEntry} {τ : List TabAction}
    (hroom : HasRoom rt { stored := all } τ) {t : Nat} (ht : ∀ a ∈ τ, a.tab = t) :
    NoLostUpdate rt { stored := all } τ := by
  have hbetween : NoSaveBetween rt { stored := all } τ := by
    intro past t' b r hpast hrun hr e hsince
    obtain rfl : t' = t := ht (.set t') (hpast.subset (by simp))
    have hmine : ∀ a ∈ past, a.tab = t' := fun a ha => ht a (hpast.subset (by simp [ha]))
    rw [since_of_one_tab hmine hrun hr] at hsince
    exact absurd hsince not_stands_nil
  exact fun past b hpast hrun => (kept_of_run hroom hbetween past hpast b hrun).stored

private def browserRuntime : Runtime := ⟨compare, fun _ => none⟩

/-- The record of a finished scan. -/
private def finishedScan (id : String) : HistoryEntry where
  id := id
  kind := .scan
  accountId := "123456789012"
  createdAt := "2024-01-01T00:00:00Z"
  finishedAt := some "2024-01-01T00:01:00Z"
  state := .job .succeeded
  regions := ["us-east-1"]
  resourceTypes := ["sqs"]
  olderThan := none
  selected := none
  summary := none
  found := some []
  results := some []
  errors := some []
  error := none

private def TabAction.sets : TabAction → Bool
  | .set _ => true
  | _ => false

/-- Two tabs store their records one after the other. -/
private def turnsOfTabs : List TabAction :=
  [.serial 0 (.save (finishedScan "a")), .serial 1 (.save (finishedScan "b")), .get 0 0, .set 0,
    .get 1 0, .set 1]

/-- Both records are kept. -/
theorem turns_kept : NoLostUpdate browserRuntime {} turnsOfTabs := by
  have hroom : HasRoom browserRuntime {} turnsOfTabs := by
    intro past b hpast hrun
    have hall : ∀ past ∈ turnsOfTabs.inits, ∀ b ∈ execute (Browser.step browserRuntime) {} past,
        b.stored.length < maxHistory := by decide +kernel
    exact hall past ((List.mem_inits ..).mpr hpast) b hrun
  refine (no_lost_update_iff hroom).mpr ?_
  rintro past t b r hpast - - e hsince -
  have hall : ∀ k < turnsOfTabs.length, (turnsOfTabs[k]?).any TabAction.sets →
      ∀ t ∈ (turnsOfTabs[k]?).map TabAction.tab, (since t (moments
        (Browser.step browserRuntime) {} (turnsOfTabs.take k))).isEmpty = true := by
    decide +kernel
  obtain ⟨rest, hτ⟩ := hpast
  have hempty := hall past.length (by rw [← hτ]; simp)
  rw [← hτ] at hempty
  have hnone : since t (moments (Browser.step browserRuntime) {} past) = [] := by
    simpa [TabAction.sets, TabAction.tab] using hempty
  exact absurd (hnone ▸ hsince) not_stands_nil

/-- Two tabs read the empty history, and then each stores its own record. -/
private def racingTabs : List TabAction :=
  [.serial 0 (.save (finishedScan "a")), .serial 1 (.save (finishedScan "b")), .get 0 0, .get 1 0,
    .set 0, .set 1]

/-- The record of the first tab is lost. -/
theorem update_lost : HasRoom browserRuntime {} racingTabs ∧
    ¬ NoLostUpdate browserRuntime {} racingTabs := by
  constructor
  · intro past b hpast hrun
    have hall : ∀ past ∈ racingTabs.inits, ∀ b ∈ execute (Browser.step browserRuntime) {} past,
        b.stored.length < maxHistory := by decide +kernel
    exact hall past ((List.mem_inits ..).mpr hpast) b hrun
  · intro h
    obtain ⟨b, hrun, hids⟩ := exists_of_any
      (o := execute (Browser.step browserRuntime) {} racingTabs)
      (P := fun b => b.stored.map HistoryEntry.id = ["b"]) (by decide +kernel)
    obtain ⟨y, hy, hye⟩ := h racingTabs b (List.prefix_refl _) hrun (finishedScan "a")
      ⟨[], [.save (finishedScan "b")], rfl, by simp [HistoryOp.touches, finishedScan]⟩
    have hid : y.id ∈ b.stored.map HistoryEntry.id := List.mem_map_of_mem hy
    rw [hids, hye.id_eq] at hid
    exact absurd hid (by simp [finishedScan])

end Broom.Web
