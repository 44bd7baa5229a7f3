import Broom.Sessions.Teardown

/-!
# Idle sessions

A check drops a session whose idle timer has run out and which has no job at that moment.
A job renews the timer only when a check meets it, so a session whose last job has just
ended may be dropped. And the check is not the drop: what happens in between, while other
calls do as they like, is not seen any more.
-/

namespace Broom.Sessions

open Broom.Core

/-! ## What a call has found -/

/-- A call that is no deletion: the time it goes by, the session found idle that it asks the
jobs of next, and the sessions that it has found stale. -/
structure Look where
  time : Nat := 0
  asking : Option String := none
  stale : List String := []

/-- The call removes sessions on purpose. -/
def Call.explicit : Call → Bool
  | .delete _ | .close => true
  | .create _ | .get _ | .touch _ | .credentials _ | .reap _ => false

/-- Where a call starts. -/
def Call.look : Call → Option Look
  | .delete _ | .close => none
  | .reap now => some { time := now }
  | .create _ | .get _ | .touch _ | .credentials _ => some {}

/-- What a check has found, and asks or does next. -/
def Look.inspected (q : Look) (id : String) : Bool × Bool × Bool → Look
  | (closed, hard, idle) =>
    if closed ∨ hard then { q with stale := id :: q.stale }
    else if idle then { q with asking := some id } else q

/-- A check goes by the call's own time, asks for the jobs of what it found idle, and only what
was found stale is removed; a call that deletes is free. -/
def checks : Protocol (Option Look) SessionOp SessionOp.Ans where
  allowed
    | none, _ => True
    | some q, op =>
      match q.asking with
      | some id => op = .busy id
      | none =>
        match op with
        | .inspect _ now => now = q.time
        | .busy _ => False
        | .remove id => id ∈ q.stale
        | _ => True
  next
    | none, _ => none
    | some q, ⟨.now, t⟩ => some { q with time := t }
    | some q, ⟨.inspect id _, r⟩ => some (q.inspected id r)
    | some q, ⟨.busy id, b⟩ =>
      some { q with asking := none, stale := if b then q.stale else id :: q.stale }
    | some q, _ => some q

section follows

variable {α β : Type} {q : Look} {id : String} {now : Nat}

/-- Operations that are no part of a check and no removal change nothing of the look. -/
def SessionOp.plain : SessionOp → Bool
  | .now | .inspect _ _ | .busy _ | .remove _ => false
  | .newToken | .register _ _ _ | .lookup _ | .touch _ _ | .close _ | .onClose _ | .list
  | .credentials _ => true

end follows

/-! ## Runs -/

/-- The store's callers with the calls they make. -/
abbrev Calls := Clients World Call SessionOp SessionOp.Ans Result

/-- A new call, an operation of one, or what happens by itself. -/
abbrev StoreMove := Move Happening Call SessionOp.Ans

/-- A tick is handled no earlier than it fires. -/
def due (w : World) : StoreMove → Bool
  | .call (.reap now) => now ≤ w.clock
  | _ => true

/-- One step of the store with all its callers. -/
def storeStep (c : Config) (s : Calls) (m : StoreMove) : Option Calls :=
  if due s.world m then s.move (machine c) m else none

/-- The step with which a `Get` or a `Touch` of the session succeeds. -/
def serves (id : String) (s : Calls) : StoreMove → Bool
  | .perform i ⟨.touch id' _, _⟩ =>
    id' = id ∧ (s.calls[i]? = some (.get id) ∨ s.calls[i]? = some (.touch id))
  | _ => false

/-- The step takes the session out of the map before its hard expiry, and not on purpose. -/
def drops (id : String) (s : Calls) : StoreMove → Bool
  | .perform i ⟨.remove id', found⟩ =>
    id' = id ∧ found ∧ (s.calls[i]?).any (fun call : Call => !call.explicit) ∧
      (s.world.objects id).any fun o => s.world.clock ≤ o.expiresAt
  | _ => false

/-- A moment: the calls so far, and what happens next. -/
abbrev Moment := Calls × StoreMove

/-- The session has a job in flight, or a successful `Get` or `Touch`. -/
def Moment.Active (id : String) (m : Moment) : Prop :=
  0 < m.1.world.jobs id ∨ serves id m.1 m.2 = true

instance (id : String) (m : Moment) : Decidable (m.Active id) :=
  inferInstanceAs (Decidable (_ ∨ _))

section

variable (c : Config) (id : String) (s₀ : Calls) (τ : List StoreMove)

/-- From a call's check to its drop of the session, the session is not active, or the idle TTL
passes after that. -/
def Undisturbed : Prop :=
  ∀ past i now r gap rest s s',
    τ = past ++ (.perform i ⟨.inspect id now, r⟩ :: gap) ++
      .perform i ⟨.remove id, true⟩ :: rest →
    execute (storeStep c) s₀ past = some s →
    execute (storeStep c) s (.perform i ⟨.inspect id now, r⟩ :: gap) = some s' →
    drops id s' (.perform i ⟨.remove id, true⟩) = true →
    ∀ x ∈ moments (storeStep c) s
        (.perform i ⟨.inspect id now, r⟩ :: gap ++ [.perform i ⟨.remove id, true⟩]),
      Moment.Active id x → x.1.world.clock + c.idleTTL ≤ s'.world.clock

end

/-! ## Checks before drops -/

/-- A thread has looked at a session, by a time of the past, and found it closed, past its hard
expiry or idle. -/
def Looked (c : Config) (s₀ : Calls) (past : List StoreMove) (i : Nat) (id : String) : Prop :=
  ∃ before now r gap s, past = before ++ .perform i ⟨.inspect id now, r⟩ :: gap ∧
    execute (storeStep c) s₀ before = some s ∧ now ≤ s.world.clock ∧
    (r.1 = true ∨ r.2.1 = true ∨ r.2.2 = true)

/-- Each call goes by a time of the past, and has looked at what it has found. -/
structure Watched (c : Config) (s₀ : Calls) (past : List StoreMove) (s : Calls)
    (qs : List (Option Look)) : Prop where
  length : qs.length = s.calls.length
  looks : ∀ (i : Nat) (call : Call), s.calls[i]? = some call → call.explicit = false →
    qs[i]? ≠ some none
  time : ∀ (i : Nat) q, qs[i]? = some (some q) → q.time ≤ s.world.clock
  looked : ∀ (i : Nat) q id, qs[i]? = some (some q) → id ∈ q.stale ∨ q.asking = some id →
    Looked c s₀ past i id

section runs

variable {c : Config} {s₀ s s' : Calls} {past : List StoreMove} {m : StoreMove} {id : String}
  {qs : List (Option Look)}

/-- No operation and no other event turns the clock back. -/
theorem clock_perform {w w' : World} {a : Act SessionOp.Ans} (hw : w.perform c a = some w') :
    w'.clock = w.clock := by
  cases World.moves_of_perform hw with
  | look | register | remove | onClose => rfl
  | touch hw | close hw =>
    obtain ⟨s, -, rfl⟩ := update_some hw
    rfl

theorem Looked.more {i : Nat} (h : Looked c s₀ past i id) : Looked c s₀ (past ++ [m]) i id := by
  obtain ⟨before, now, r, gap, s, rfl, hrest⟩ := h
  exact ⟨before, now, r, gap ++ [m], s, by simp, hrest⟩

/-- A new call has looked at nothing, and a tick is from the past. -/
theorem Watched.call (h : Watched c s₀ past s qs) {call : Call}
    (hdue : due s.world (.call call) = true) {ts : List (SessionM Result)} :
    Watched c s₀ (past ++ [.call call])
      { world := s.world, threads := ts, calls := s.calls ++ [call] } (qs ++ [call.look]) := by
  have hlast {q : Option Look} {i : Nat} (hi : (qs ++ [call.look])[i]? = some q) :
      qs[i]? = some q ∨ call.look = q := by
    rcases Nat.lt_or_ge i qs.length with hlt | hge
    · exact .inl (by rwa [List.getElem?_append_left hlt] at hi)
    · rw [List.getElem?_append_right hge, List.getElem?_singleton] at hi
      split at hi
      · exact .inr (Option.some.inj hi)
      · cases hi
  have hlook {q : Look} (hq : call.look = some q) :
      q.time ≤ s.world.clock ∧ q.asking = none ∧ q.stale = [] := by
    cases call with
    | delete | close => cases hq
    | reap now =>
      obtain rfl := Option.some.inj hq
      exact ⟨of_decide_eq_true hdue, rfl, rfl⟩
    | _ =>
      obtain rfl := Option.some.inj hq
      exact ⟨Nat.zero_le _, rfl, rfl⟩
  refine ⟨by simp [h.length], fun i call' hi hexp hnone => ?_, fun i q hi => ?_,
    fun i q id hi hq => ?_⟩
  · rcases Nat.lt_trichotomy i s.calls.length with hlt | rfl | hgt
    · rw [List.getElem?_append_left hlt] at hi
      rw [List.getElem?_append_left (h.length ▸ hlt)] at hnone
      exact h.looks i call' hi hexp hnone
    · rw [List.getElem?_concat_length] at hi
      rw [← h.length, List.getElem?_concat_length] at hnone
      obtain rfl := Option.some.inj hi
      have hfree := Option.some.inj hnone
      cases call with
      | delete | close => cases hexp
      | _ => cases hfree
    · rw [List.getElem?_eq_none (by simp only [List.length_append, List.length_singleton]; omega)]
        at hi
      cases hi
  · rcases hlast hi with hold | hnew
    · exact h.time i q hold
    · exact (hlook hnew).1
  · rcases hlast hi with hold | hnew
    · exact (h.looked i q id hold hq).more
    · obtain ⟨-, hnone, hnil⟩ := hlook hnew
      simp [hnone, hnil] at hq

/-- The session that is asked for its jobs was found idle before. -/
theorem mem_of_asked {l : Look} {id' : String} {b : Bool}
    (ha : checks.allowed (some l) (.busy id'))
    (hid : id ∈ (if b then l.stale else id' :: l.stale) ∨ none = some id) :
    id ∈ l.stale ∨ l.asking = some id := by
  have hasking : l.asking = some id' := by
    cases hl : l.asking with
    | none => simp [checks, hl] at ha
    | some id₁ =>
      simp only [checks, hl] at ha
      rw [SessionOp.busy.inj ha]
  rcases hid with hid | hid
  · cases b with
    | true => exact .inl hid
    | false => exact (List.mem_cons.mp hid).elim (fun heq => .inr (heq ▸ hasking)) .inl
  · cases hid

/-- What a look finds, it has looked at. -/
theorem looked_inspected {l : Look} {i : Nat} {id' : String} {now : Nat} {r : Bool × Bool × Bool}
    (htime : l.time ≤ s.world.clock)
    (hold : ∀ id, id ∈ l.stale ∨ l.asking = some id →
      Looked c s₀ (past ++ [.perform i ⟨.inspect id' now, r⟩]) i id)
    (ha : checks.allowed (some l) (.inspect id' now))
    (hpast : execute (storeStep c) s₀ past = some s) :
    (l.inspected id' r).time ≤ s.world.clock ∧
      ∀ id, id ∈ (l.inspected id' r).stale ∨ (l.inspected id' r).asking = some id →
        Looked c s₀ (past ++ [.perform i ⟨.inspect id' now, r⟩]) i id := by
  have hnow : now = l.time := by
    cases hl : l.asking with
    | none => simpa only [checks, hl] using ha
    | some id₁ => simp [checks, hl] at ha
  have hnew (hr : r.1 = true ∨ r.2.1 = true ∨ r.2.2 = true) :
      Looked c s₀ (past ++ [.perform i ⟨.inspect id' now, r⟩]) i id' :=
    ⟨past, now, r, [], s, rfl, hpast, hnow ▸ htime, hr⟩
  obtain ⟨closed, hard, idle⟩ := r
  dsimp only [Look.inspected]
  split
  · rename_i hdead
    refine ⟨htime, fun id hid => ?_⟩
    rcases hid with hid | hid
    · rcases List.mem_cons.mp hid with rfl | hid
      · exact hnew (hdead.imp_right .inl)
      · exact hold id (.inl hid)
    · exact hold id (.inr hid)
  · split
    · rename_i hidle
      refine ⟨htime, fun id hid => ?_⟩
      rcases hid with hid | hid
      · exact hold id (.inl hid)
      · exact Option.some.inj hid ▸ hnew (.inr (.inr hidle))
    · exact ⟨htime, hold⟩

/-- What a call finds, it has looked at. -/
theorem Watched.perform (h : Watched c s₀ past s qs)
    (hpast : execute (storeStep c) s₀ past = some s) {i : Nat} {q : Option Look}
    {a : Act SessionOp.Ans} (hi : qs[i]? = some q)
    (ha : checks.allowed q a.1) {w : World} {ts : List (SessionM Result)}
    (hw : s.world.perform c a = some w) :
    Watched c s₀ (past ++ [.perform i a]) { world := w, threads := ts, calls := s.calls }
      (qs.set i (checks.next q a)) := by
  have hclock := clock_perform hw
  have hset {q' : Option Look} {k : Nat} (hk : (qs.set i (checks.next q a))[k]? = some q') :
      k = i ∧ checks.next q a = q' ∨ qs[k]? = some q' := by
    rw [List.getElem?_set] at hk
    split at hk
    · rename_i hik
      exact .inl ⟨hik.symm, (Option.ite_some_none_eq_some.mp hk).2⟩
    · exact .inr hk
  have hnext {l : Look} (hl : checks.next q a = some l) : l.time ≤ s.world.clock ∧
      ∀ id, id ∈ l.stale ∨ l.asking = some id →
        Looked c s₀ (past ++ [.perform i a]) i id := by
    cases q with
    | none => cases hl
    | some l₀ =>
      have htime := h.time i l₀ hi
      have hold (id : String) (hid : id ∈ l₀.stale ∨ l₀.asking = some id) :=
        (h.looked i l₀ id hi hid).more (m := .perform i a)
      obtain ⟨op, r⟩ := a
      cases op with
      | now =>
        obtain rfl := Option.some.inj hl
        obtain ⟨rfl, -⟩ := Option.ite_some_none_eq_some.mp hw
        exact ⟨Nat.le_refl _, hold⟩
      | inspect id' now =>
        obtain rfl := Option.some.inj hl
        exact looked_inspected htime hold ha hpast
      | busy id' =>
        obtain rfl := Option.some.inj hl
        refine ⟨htime, fun id hid => hold id ?_⟩
        exact mem_of_asked ha hid
      | _ =>
        obtain rfl := Option.some.inj hl
        exact ⟨htime, hold⟩
  refine ⟨by simpa using h.length, fun k call hk hexp hnone => ?_, fun k l hk => ?_,
    fun k l id hk hl => ?_⟩
  · rcases hset hnone with ⟨rfl, hfree⟩ | hold
    · cases q with
      | none => exact h.looks k call hk hexp hi
      | some l =>
        obtain ⟨op, r⟩ := a
        cases op <;> cases hfree
    · exact h.looks k call hk hexp hold
  · rcases hset hk with ⟨rfl, hnew⟩ | hold
    · exact (hnext hnew).1.trans hclock.ge
    · exact (h.time k l hold).trans hclock.ge
  · rcases hset hk with ⟨rfl, hnew⟩ | hold
    · exact (hnext hnew).2 id hl
    · exact (h.looked k l id hold hl).more

end runs

/-- A session is created, and a job of it starts. After 61 minutes a tick renews the timer. -/
private def busyHour : List StoreMove :=
  [.call (.create {}), .perform 0 ⟨.newToken, some "a"⟩, .perform 0 ⟨.now, (0 : Nat)⟩,
    .perform 0 ⟨.register "a" {} 0, ()⟩, .happen (.jobStarts "a"), .happen (.advance 61),
    .call (.reap 61), .perform 1 ⟨.list, ["a"]⟩,
    .perform 1 ⟨.inspect "a" 61, (false, false, true)⟩, .perform 1 ⟨.busy "a", true⟩,
    .perform 1 ⟨.touch "a" 61, ()⟩]

/-- A tick finds the session idle and without a job, and deletes it. -/
private def lastTick (now : Nat) : List StoreMove :=
  [.call (.reap now), .perform 2 ⟨.list, ["a"]⟩,
    .perform 2 ⟨.inspect "a" now, (false, false, true)⟩, .perform 2 ⟨.busy "a", false⟩,
    .perform 2 ⟨.remove "a", true⟩]

/-- The job ends after 119 minutes; three minutes later comes a tick. -/
private def busyRun : List StoreMove :=
  busyHour ++ [.happen (.advance 58), .happen (.jobEnds "a"), .happen (.advance 3)] ++
    (lastTick 122).dropLast

end Broom.Sessions
