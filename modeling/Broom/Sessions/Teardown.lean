import Broom.Sessions.Store

/-!
# Tearing sessions down

A thread that has taken a session out of the map closes it and reports it, and nobody
else does. So every session is in the map, or in the hands of one thread, or reported
once and closed.
-/

namespace Broom.Sessions

open Broom.Core

/-! ## The protocol of a teardown -/

/-- What a thread is in the middle of. -/
inductive Stage
  | idle
  | closing (id : String)
  | reporting (id : String)
  deriving DecidableEq, Repr

/-- The session that a thread is tearing down. -/
def Stage.holding : Stage → Option String
  | .idle => none
  | .closing id | .reporting id => some id

/-- A thread that has taken a session out of the map closes it next and then reports it;
otherwise it does neither. -/
def teardown : Protocol Stage SessionOp SessionOp.Ans where
  allowed
    | .idle, .close _ => False
    | .idle, .onClose _ => False
    | .idle, _ => True
    | .closing id, op => op = .close id
    | .reporting id, op => op = .onClose id
  next
    | .idle, ⟨.remove id, true⟩ => .closing id
    | .idle, _ => .idle
    | .closing id, _ => .reporting id
    | .reporting _, _ => .idle

/-- The operations that have no part in a teardown. -/
def SessionOp.neutral : SessionOp → Bool
  | .remove _ | .close _ | .onClose _ => false
  | .now | .newToken | .register _ _ _ | .lookup _ | .inspect _ _ | .busy _ | .touch _ _ | .list
  | .credentials _ => true

theorem SessionOp.neutral_of_looks {op : SessionOp} (h : op.looks = true) :
    op.neutral = true := by
  cases op <;> first | rfl | cases h

section follows

variable {α β : Type} {q : Stage}

/-- The program starts and ends outside a teardown. -/
def Tidy (p : SessionM α) : Prop := p.Follows teardown (fun _ q => q = .idle) .idle

theorem tidy_pure (a : α) : Tidy (pure a : SessionM α) := rfl

theorem Tidy.bind {p : SessionM α} {f : α → SessionM β} (hp : Tidy p) (hf : ∀ a, Tidy (f a)) :
    Tidy (p >>= f) := by
  refine Prog.Follows.bind (Prog.Follows.mono hp ?_)
  rintro a q rfl
  exact hf a

theorem tidy_ask {op : SessionOp} (h : op.neutral = true) : Tidy (ask op) := by
  cases op with
  | remove | close | onClose => cases h
  | _ => exact ⟨trivial, fun _ => rfl⟩

theorem tidy_delete (id : String) : Tidy (delete id) := by
  refine ⟨trivial, fun found => ?_⟩
  cases found with
  | true => exact ⟨rfl, fun _ => ⟨rfl, fun _ => rfl⟩⟩
  | false => exact tidy_pure ()

theorem tidy_expired (id : String) (now : Nat) : Tidy (expired id now) := by
  refine Tidy.bind (tidy_ask rfl) fun ⟨closed, hard, idle⟩ => ?_
  dsimp only
  split
  · exact tidy_pure true
  · split
    · refine Tidy.bind (tidy_ask rfl) fun busy => ?_
      split
      · exact Tidy.bind (tidy_ask rfl) fun _ => tidy_pure false
      · exact tidy_pure idle
    · exact tidy_pure idle

theorem tidy_staleOf (now : Nat) (ids : List String) : Tidy (staleOf now ids) := by
  induction ids with
  | nil => exact tidy_pure []
  | cons id ids ih =>
    refine Tidy.bind (tidy_expired id now) fun stale => ?_
    split
    · exact Tidy.bind ih fun stale => tidy_pure (id :: stale)
    · exact ih

theorem tidy_deleteAll (ids : List String) : Tidy (deleteAll ids) := by
  induction ids with
  | nil => exact tidy_pure ()
  | cons id ids ih => exact Tidy.bind (tidy_delete id) fun _ => ih

/-- No call leaves a teardown unfinished, or does half of one. -/
theorem tidy_program (call : Call) : Tidy call.program := by
  cases call with
  | create creds =>
    refine Tidy.bind (tidy_ask rfl) fun token => ?_
    cases token with
    | none => exact tidy_pure _
    | some token =>
      exact Tidy.bind (tidy_ask rfl) fun now => Tidy.bind (tidy_ask rfl) fun _ => tidy_pure _
  | get id =>
    refine Tidy.bind (tidy_ask rfl) fun found => ?_
    split
    · refine Tidy.bind (tidy_ask rfl) fun now => Tidy.bind (tidy_expired id now) fun stale => ?_
      split
      · exact Tidy.bind (tidy_delete id) fun _ => tidy_pure _
      · exact Tidy.bind (tidy_ask rfl) fun _ => tidy_pure _
    · exact tidy_pure _
  | touch id =>
    refine Tidy.bind (tidy_ask rfl) fun found => ?_
    split
    · exact Tidy.bind (tidy_ask rfl) fun now => Tidy.bind (tidy_ask rfl) fun _ => tidy_pure _
    · exact tidy_pure _
  | credentials id => exact Tidy.bind (tidy_ask rfl) fun _ => tidy_pure _
  | delete id => exact Tidy.bind (tidy_delete id) fun _ => tidy_pure _
  | reap now =>
    exact Tidy.bind (tidy_ask rfl) fun live => Tidy.bind (tidy_staleOf now live) fun stale =>
      Tidy.bind (tidy_deleteAll stale) fun _ => tidy_pure _
  | close =>
    exact Tidy.bind (tidy_ask rfl) fun ids => Tidy.bind (tidy_deleteAll ids) fun _ => tidy_pure _

end follows

/-! ## The world and all stages -/

/-- The session was created. -/
def World.Created (w : World) (id : String) : Prop := ∃ s, w.objects id = some s

/-- The session is closed, and nothing is left of its credentials. -/
def World.Closed (w : World) (id : String) : Prop :=
  ∃ s, w.objects id = some s ∧ s.closed = true ∧ s.creds = {}

/-- A thread is tearing a session down. -/
def Holds (qs : List Stage) (i : Nat) (id : String) : Prop := qs[i]?.bind Stage.holding = some id

/-- Every created session is in the map, or held by one thread, or reported once and closed. -/
structure Accounted (w : World) (qs : List Stage) : Prop where
  known : ∀ id ∈ w.sessions, w.Created id ∧ id ∉ w.notified
  held : ∀ i id, Holds qs i id → w.Created id ∧ id ∉ w.sessions ∧ id ∉ w.notified
  alone : ∀ i k id, Holds qs i id → Holds qs k id → i = k
  closed : ∀ (i : Nat) id, qs[i]? = some (.reporting id) → w.Closed id
  reported : ∀ id ∈ w.notified, w.Closed id
  once : w.notified.Nodup
  all : ∀ id, w.Created id → id ∈ w.sessions ∨ (∃ i, Holds qs i id) ∨ id ∈ w.notified

section accounted

variable {w w' : World} {qs : List Stage} {id : String} {i : Nat}

theorem World.Closed.created (h : w.Closed id) : w.Created id := by
  obtain ⟨s, hs, -⟩ := h
  exact ⟨s, hs⟩

theorem accounted_empty (clock : Nat) : Accounted { clock := clock } [] where
  known := by simp
  held := by simp [Holds]
  alone := by simp [Holds]
  closed := by simp
  reported := by simp
  once := List.nodup_nil
  all := by simp [World.Created]

theorem holds_set {q q' : Stage} (hi : qs[i]? = some q) (k : Nat) :
    Holds (qs.set i q') k id ↔ if k = i then q'.holding = some id else Holds qs k id := by
  have hlt : i < qs.length := (List.getElem?_eq_some_iff.mp hi).1
  unfold Holds
  split
  · rename_i hki
    subst hki
    rw [List.getElem?_set_self hlt, Option.bind_some]
  · rename_i hki
    rw [List.getElem?_set_ne (Ne.symm hki)]

/-- A thread that is idle and stays so is no matter. -/
theorem set_idle (hi : qs[i]? = some .idle) : qs.set i .idle = qs := by
  obtain ⟨hlt, hq⟩ := List.getElem?_eq_some_iff.mp hi
  rw [← hq, List.set_getElem_self]

/-- Sessions and reports are as they were, and what was closed still is. -/
theorem Accounted.of_same (h : Accounted w qs) (hsessions : w'.sessions = w.sessions)
    (hnotified : w'.notified = w.notified) (hcreated : ∀ id, w'.Created id ↔ w.Created id)
    (hclosed : ∀ id, w.Closed id → w'.Closed id) : Accounted w' qs where
  known := by simpa only [hsessions, hnotified, hcreated] using h.known
  held := by simpa only [hsessions, hnotified, hcreated] using h.held
  alone := h.alone
  closed i id hi := hclosed id (h.closed i id hi)
  reported id hid := hclosed id (h.reported id (hnotified ▸ hid))
  once := hnotified ▸ h.once
  all := by simpa only [hsessions, hnotified, hcreated] using h.all

/-- A new call starts idle. -/
theorem Accounted.call (h : Accounted w qs) : Accounted w (qs ++ [.idle]) := by
  have hlast {q : Stage} {k : Nat} (hk : (qs ++ [Stage.idle])[k]? = some q) :
      qs[k]? = some q ∨ q = .idle := by
    rcases Nat.lt_or_ge k qs.length with hlt | hge
    · exact .inl (by rwa [List.getElem?_append_left hlt] at hk)
    · rw [List.getElem?_append_right hge, List.getElem?_singleton] at hk
      split at hk
      · exact .inr (Option.some.inj hk).symm
      · cases hk
  have hholds (k : Nat) (id : String) : Holds (qs ++ [.idle]) k id ↔ Holds qs k id := by
    constructor
    · intro hk
      obtain ⟨q, hq, hid⟩ := Option.bind_eq_some_iff.mp hk
      rcases hlast hq with hold | rfl
      · exact Option.bind_eq_some_iff.mpr ⟨q, hold, hid⟩
      · cases hid
    · intro hk
      obtain ⟨q, hq, hid⟩ := Option.bind_eq_some_iff.mp hk
      have hlt := (List.getElem?_eq_some_iff.mp hq).1
      exact Option.bind_eq_some_iff.mpr ⟨q, (List.getElem?_append_left hlt).trans hq, hid⟩
  refine ⟨h.known, ?_, ?_, fun k id hk => ?_, h.reported, h.once, ?_⟩
  · simpa only [hholds] using h.held
  · simpa only [hholds] using h.alone
  · rcases hlast hk with hold | ⟨⟨⟩⟩
    exact h.closed k id hold
  · simpa only [hholds] using h.all

/-! ## Changes of one session -/

theorem created_update {f : Session → Session} (h : w.update id f = some w') (id' : String) :
    w'.Created id' ↔ w.Created id' := by
  obtain ⟨s, hs, rfl⟩ := update_some h
  by_cases hid : id' = id
  · subst hid
    simp [World.Created, hs]
  · simp [World.Created, hid]

theorem closed_update {f : Session → Session} (h : w.update id f = some w')
    (hf : ∀ s : Session, s.closed = true → s.creds = {} → (f s).closed = true ∧ (f s).creds = {})
    {id' : String} (hclosed : w.Closed id') : w'.Closed id' := by
  obtain ⟨s, hs, rfl⟩ := update_some h
  obtain ⟨s', hs', hc, hcreds⟩ := hclosed
  by_cases hid : id' = id
  · subst hid
    obtain rfl := Option.some.inj (hs.symm.trans hs')
    exact ⟨f s, by simp, hf s hc hcreds⟩
  · exact ⟨s', by simp [hid, hs'], hc, hcreds⟩

theorem Accounted.touch (h : Accounted w qs) {now : Nat}
    (hw : w.update id (fun s => { s with lastSeen := now }) = some w') : Accounted w' qs := by
  obtain ⟨s, hs, rfl⟩ := update_some hw
  exact h.of_same rfl rfl (created_update hw) fun id' => closed_update hw fun s hc hz => ⟨hc, hz⟩

/-- A new session is in the map. -/
theorem Accounted.register (h : Accounted w qs) {s : Session} (hnew : w.objects id = none) :
    Accounted { w with sessions := insert id w.sessions
                       objects := Function.update w.objects id (some s) } qs := by
  have hne {id' : String} (hc : w.Created id') : id' ≠ id := by
    rintro rfl
    obtain ⟨s', hs'⟩ := hc
    rw [hnew] at hs'
    cases hs'
  have hcreated {id' : String} (hc : w.Created id') :
      ∃ s', Function.update w.objects id (some s) id' = some s' := by
    rw [Function.update_of_ne (hne hc)]
    exact hc
  have hclosed {id' : String} (hc : w.Closed id') :
      ∃ s', Function.update w.objects id (some s) id' = some s' ∧ s'.closed = true ∧
        s'.creds = {} := by
    rw [Function.update_of_ne (hne hc.created)]
    exact hc
  refine ⟨fun id' hid' => ?_, fun k id' hk => ?_, h.alone,
    fun k id' hk => hclosed (h.closed k id' hk), fun id' hid' => hclosed (h.reported id' hid'),
    h.once, fun id' hc => ?_⟩
  · rcases Finset.mem_insert.mp hid' with rfl | hold
    · exact ⟨⟨s, Function.update_self ..⟩, fun hn => hne (h.reported _ hn).created rfl⟩
    · exact ⟨hcreated (h.known id' hold).1, (h.known id' hold).2⟩
  · obtain ⟨hc, hout, hn⟩ := h.held k id' hk
    refine ⟨hcreated hc, fun hin => ?_, hn⟩
    rcases Finset.mem_insert.mp hin with rfl | hin
    · exact hne hc rfl
    · exact hout hin
  · by_cases hid : id' = id
    · exact .inl (hid ▸ Finset.mem_insert_self ..)
    · obtain ⟨s', hs'⟩ := hc
      have hold : w.objects id' = some s' := (Function.update_of_ne hid ..).symm.trans hs'
      exact (h.all id' ⟨s', hold⟩).imp_left (Finset.mem_insert_of_mem ·)

/-! ## The steps of a teardown -/

/-- The thread that takes a session out of the map holds it. -/
theorem Accounted.remove (h : Accounted w qs) (hi : qs[i]? = some .idle) (hid : id ∈ w.sessions) :
    Accounted { w with sessions := w.sessions.erase id } (qs.set i (.closing id)) := by
  have hmine {k : Nat} {id' : String} (hk : Holds (qs.set i (.closing id)) k id') :
      k = i ∧ id' = id ∨ k ≠ i ∧ Holds qs k id' := by
    rw [holds_set hi] at hk
    split at hk
    · exact .inl ⟨‹_›, (Option.some.inj hk).symm⟩
    · exact .inr ⟨‹_›, hk⟩
  have hfree {k : Nat} (hk : Holds qs k id) : False := (h.held k id hk).2.1 hid
  refine ⟨fun id' hid' => h.known id' (Finset.mem_of_mem_erase hid'), fun k id' hk => ?_,
    fun k l id' hk hl => ?_, fun k id' hk => ?_, h.reported, h.once, fun id' hc => ?_⟩
  · rcases hmine hk with ⟨rfl, rfl⟩ | ⟨-, hk⟩
    · exact ⟨(h.known _ hid).1, Finset.notMem_erase _ _, (h.known _ hid).2⟩
    · obtain ⟨hc, hout, hn⟩ := h.held k id' hk
      exact ⟨hc, fun hin => hout (Finset.mem_of_mem_erase hin), hn⟩
  · rcases hmine hk with ⟨rfl, rfl⟩ | ⟨-, hk'⟩
    · rcases hmine hl with ⟨rfl, -⟩ | ⟨-, hl'⟩
      · rfl
      · exact absurd hl' hfree
    · rcases hmine hl with ⟨rfl, rfl⟩ | ⟨-, hl'⟩
      · exact absurd hk' hfree
      · exact h.alone k l id' hk' hl'
  · rw [List.getElem?_set] at hk
    split at hk
    · split at hk <;> cases hk
    · exact h.closed k id' hk
  · by_cases hid' : id' = id
    · refine .inr (.inl ⟨i, (holds_set hi i).mpr ?_⟩)
      rw [if_pos rfl, hid']
      rfl
    · rcases h.all id' hc with hin | ⟨k, hk⟩ | hn
      · exact .inl (Finset.mem_erase.mpr ⟨hid', hin⟩)
      · refine .inr (.inl ⟨k, (holds_set hi k).mpr ?_⟩)
        split
        · rename_i hki
          rw [Holds, hki, hi] at hk
          cases hk
        · exact hk
      · exact .inr (.inr hn)

/-- Closing a session leaves it with its thread. -/
theorem Accounted.close (h : Accounted w qs) (hi : qs[i]? = some (.closing id))
    (hw : w.update id (fun s => { s with closed := true, creds := s.creds.zero }) = some w') :
    Accounted w' (qs.set i (.reporting id)) := by
  have hcreated := created_update hw
  have hclosed {id' : String} (hc : w.Closed id') : w'.Closed id' :=
    closed_update hw (fun s _ hz => ⟨rfl, by rw [hz]; rfl⟩) hc
  obtain ⟨s, hs, rfl⟩ := update_some hw
  have hholds (k : Nat) (id' : String) :
      Holds (qs.set i (.reporting id)) k id' ↔ Holds qs k id' := by
    rw [holds_set hi]
    split
    · rename_i hki
      subst hki
      rw [Holds, hi]
      rfl
    · rfl
  refine ⟨by simpa only [hcreated] using h.known, by simpa only [hholds, hcreated] using h.held,
    by simpa only [hholds] using h.alone, fun k id' hk => ?_,
    fun id' hid' => hclosed (h.reported id' hid'), h.once,
    by simpa only [hholds, hcreated] using h.all⟩
  rw [List.getElem?_set] at hk
  split at hk
  · split at hk
    · cases hk
      exact ⟨{ s with closed := true, creds := s.creds.zero }, by simp, rfl, rfl⟩
    · cases hk
  · exact hclosed (h.closed k id' hk)

/-- A reported session was reported once. -/
theorem Accounted.report (h : Accounted w qs) (hi : qs[i]? = some (.reporting id)) :
    Accounted { w with notified := w.notified ++ [id] } (qs.set i .idle) := by
  have hmine : Holds qs i id := by
    rw [Holds, hi]
    rfl
  obtain ⟨hc, hout, hn⟩ := h.held i id hmine
  have hother {k : Nat} {id' : String} (hk : Holds (qs.set i .idle) k id') :
      k ≠ i ∧ Holds qs k id' := by
    rw [holds_set hi] at hk
    split at hk
    · cases hk
    · exact ⟨‹_›, hk⟩
  refine ⟨fun id' hid' => ⟨(h.known id' hid').1, fun hmem => ?_⟩, fun k id' hk => ?_,
    fun k l id' hk hl => h.alone k l id' (hother hk).2 (hother hl).2, fun k id' hk => ?_,
    fun id' hid' => ?_, ?_, fun id' hcreated => ?_⟩
  · rcases List.mem_append.mp hmem with hold | hlast
    · exact (h.known id' hid').2 hold
    · exact hout (List.mem_singleton.mp hlast ▸ hid')
  · obtain ⟨hki, hk⟩ := hother hk
    obtain ⟨hc', hout', hn'⟩ := h.held k id' hk
    refine ⟨hc', hout', fun hmem => ?_⟩
    rcases List.mem_append.mp hmem with hold | hlast
    · exact hn' hold
    · exact hki (h.alone k i id (List.mem_singleton.mp hlast ▸ hk) hmine)
  · rw [List.getElem?_set] at hk
    split at hk
    · split at hk <;> cases hk
    · exact h.closed k id' hk
  · rcases List.mem_append.mp hid' with hold | hlast
    · exact h.reported id' hold
    · exact List.mem_singleton.mp hlast ▸ h.closed i id hi
  · refine List.nodup_append'.mpr ⟨h.once, List.nodup_singleton id, ?_⟩
    rwa [List.disjoint_singleton]
  · rcases h.all id' hcreated with hin | ⟨k, hk⟩ | hold
    · exact .inl hin
    · by_cases hki : k = i
      · rw [Holds, hki, hi] at hk
        exact .inr (.inr (List.mem_append_right _ (Option.some.inj hk ▸ List.mem_singleton_self _)))
      · exact .inr (.inl ⟨k, (holds_set hi k).mpr (by rwa [if_neg hki])⟩)
    · exact .inr (.inr (List.mem_append_left _ hold))

/-- Operations without a part in a teardown keep the account. -/
theorem Accounted.neutral {c : Config} (h : Accounted w qs) {a : Act SessionOp.Ans}
    (ha : a.1.neutral = true) (hw : w.perform c a = some w') : Accounted w' qs := by
  cases World.moves_of_perform hw with
  | look => exact h
  | register hnew => exact h.register hnew
  | touch hw => exact h.touch hw
  | remove | close | onClose => cases ha

/-- Whatever a thread may do at its stage keeps the account. -/
theorem Accounted.perform {c : Config} (h : Accounted w qs) {q : Stage} {a : Act SessionOp.Ans}
    (hi : qs[i]? = some q) (ha : teardown.allowed q a.1) (hw : w.perform c a = some w') :
    Accounted w' (qs.set i (teardown.next q a)) := by
  cases q with
  | idle =>
    cases hneutral : a.1.neutral with
    | true =>
      have hnext : teardown.next .idle a = .idle := by
        obtain ⟨op, r⟩ := a
        cases op <;> first | rfl | cases hneutral
      rw [hnext, set_idle hi]
      exact h.neutral hneutral hw
    | false =>
      cases World.moves_of_perform hw with
      | close | onClose => cases ha
      | @remove id =>
        by_cases hid : id ∈ w.sessions
        · rw [decide_eq_true hid]
          exact h.remove hi hid
        · rw [decide_eq_false hid, Finset.erase_eq_of_notMem hid]
          change Accounted w (qs.set i .idle)
          rwa [set_idle hi]
      | look hlook => cases hneutral.symm.trans (SessionOp.neutral_of_looks hlook)
      | register | touch => cases hneutral
  | closing id =>
    obtain ⟨op, r⟩ := a
    obtain rfl : op = .close id := ha
    exact h.close hi hw
  | reporting id =>
    obtain ⟨op, r⟩ := a
    obtain rfl : op = .onClose id := ha
    exact Option.some.inj hw ▸ h.report hi

theorem Accounted.happen (h : Accounted w qs) {e : Happening} (hw : w.happen e = some w') :
    Accounted w' qs := by
  have hsame {w'' : World} (hobjects : w''.objects = w.objects)
      (hsessions : w''.sessions = w.sessions) (hnotified : w''.notified = w.notified) :
      Accounted w'' qs := by
    refine h.of_same hsessions hnotified (fun id => ?_) fun id hc => ?_
    · rw [World.Created, World.Created, hobjects]
    · rwa [World.Closed, hobjects]
  cases e with
  | advance d => exact Option.some.inj hw ▸ hsame rfl rfl rfl
  | jobStarts id => exact Option.some.inj hw ▸ hsame rfl rfl rfl
  | jobEnds id => exact (Option.ite_some_none_eq_some.mp hw).2 ▸ hsame rfl rfl rfl

/-! ## Open sessions -/

/-- The sessions in the map are open. -/
def World.Open (w : World) : Prop :=
  ∀ id ∈ w.sessions, ∃ s, w.objects id = some s ∧ s.closed = false

/-- A session changes, and stays open if it is in the map. -/
theorem World.Open.update (h : w.Open) {f : Session → Session} (hw : w.update id f = some w')
    (hf : id ∈ w.sessions → ∀ s : Session, s.closed = false → (f s).closed = false) :
    w'.Open := by
  obtain ⟨s, hs, rfl⟩ := update_some hw
  intro id' hid'
  obtain ⟨s', hs', hopen⟩ := h id' hid'
  by_cases hid : id' = id
  · subst hid
    obtain rfl := Option.some.inj (hs.symm.trans hs')
    exact ⟨f s, Function.update_self .., hf hid' s hopen⟩
  · exact ⟨s', (Function.update_of_ne hid ..).trans hs', hopen⟩

/-- Operations that close no session of the map leave it open. -/
theorem World.Open.perform {c : Config} (h : w.Open) {a : Act SessionOp.Ans}
    (hclose : ∀ id, a.1 = .close id → id ∉ w.sessions) (hw : w.perform c a = some w') :
    w'.Open := by
  cases World.moves_of_perform hw with
  | look => exact h
  | @register token _ _ _ _ =>
    intro id' hid'
    by_cases hid : id' = token
    · subst hid
      exact ⟨_, Function.update_self .., rfl⟩
    · obtain ⟨s, hs, hopen⟩ := h id' (Finset.mem_of_mem_insert_of_ne hid' hid)
      exact ⟨s, (Function.update_of_ne hid ..).trans hs, hopen⟩
  | touch hw => exact h.update hw fun _ s ho => ho
  | close hw => exact h.update hw fun hin => absurd hin (hclose _ rfl)
  | remove => exact fun id hid => h id (Finset.mem_of_mem_erase hid)
  | onClose => exact h

end accounted

/-! ## All runs -/

/-- The threads of the store's callers. -/
abbrev Callers := Threads World SessionOp SessionOp.Ans Result

/-- A thread is in the middle of tearing a session down: it closes or reports it next. -/
def TearingDown (s : Callers) (id : String) : Prop :=
  ∃ (i : Nat) (op : SessionOp) (next : op.Ans → SessionM Result),
    s.threads[i]? = some (.call op next) ∧ (op = .close id ∨ op = .onClose id)

section runs

variable {c : Config} {clock : Nat} {s s' : Callers} {id : String}

/-- In every run the sessions are accounted for. -/
theorem accounted_of_runs (hrun : Threads.Runs (machine c) ⟨{ clock := clock }, []⟩ s) :
    ∃ qs, Tracks teardown (fun _ q => q = .idle) qs s.threads ∧ Accounted s.world qs :=
  hrun.tracked tidy_program Accounted (fun _ _ h => h.call) (fun _ _ _ _ hw h => h.happen hw)
    (fun _ _ _ _ _ _ hi ha hw h => h.perform hi ha hw) ⟨[], tracks_nil, accounted_empty clock⟩

theorem happen_keeps {w w' : World} {e : Happening} (hw : w.happen e = some w') :
    w'.objects = w.objects ∧ w'.sessions = w.sessions := by
  cases e with
  | advance d => exact Option.some.inj hw ▸ ⟨rfl, rfl⟩
  | jobStarts id => exact Option.some.inj hw ▸ ⟨rfl, rfl⟩
  | jobEnds id => exact (Option.ite_some_none_eq_some.mp hw).2 ▸ ⟨rfl, rfl⟩

/-- A thread that holds a session is about to close or to report it. -/
theorem tearingDown_of_holds {qs : List Stage}
    (htracks : Tracks teardown (fun (_ : Result) q => q = .idle) qs s.threads) {i : Nat}
    (h : Holds qs i id) : TearingDown s id := by
  obtain ⟨q, hq, hid⟩ := Option.bind_eq_some_iff.mp h
  have hlt : i < s.threads.length := htracks.length ▸ (List.getElem?_eq_some_iff.mp hq).1
  have hp := List.getElem?_eq_getElem hlt
  have hfollows := htracks.follows i q _ hq hp
  cases hprog : s.threads[i] with
  | ret r =>
    rw [hprog] at hfollows
    obtain rfl : q = .idle := hfollows
    cases hid
  | call op next =>
    rw [hprog] at hfollows hp
    refine ⟨i, op, next, hp, ?_⟩
    cases q with
    | idle => cases hid
    | closing id' =>
      obtain rfl := Option.some.inj hid
      exact .inl hfollows.1
    | reporting id' =>
      obtain rfl := Option.some.inj hid
      exact .inr hfollows.1

/-- Operations keep what was created and what was closed, and put no session back. -/
theorem perform_keeps {w w' : World} {a : Act SessionOp.Ans} (hw : w.perform c a = some w')
    (hc : w.Created id) : w'.Created id ∧ (w.Closed id → w'.Closed id) ∧
      (id ∉ w.sessions → id ∉ w'.sessions) := by
  have hupdate {id' : String} {f : Session → Session} (hw : w.update id' f = some w')
      (hf : ∀ s : Session, s.closed = true → s.creds = {} →
        (f s).closed = true ∧ (f s).creds = {}) :
      w'.Created id ∧ (w.Closed id → w'.Closed id) ∧ (id ∉ w.sessions → id ∉ w'.sessions) := by
    refine ⟨(created_update hw id).mpr hc, closed_update hw hf, ?_⟩
    obtain ⟨s, -, rfl⟩ := update_some hw
    exact fun hout => hout
  cases World.moves_of_perform hw with
  | look | onClose => exact ⟨hc, fun h => h, fun h => h⟩
  | @register token _ _ _ hnew =>
    obtain ⟨s, hs⟩ := hc
    have hne : id ≠ token := by
      rintro rfl
      rw [hnew] at hs
      cases hs
    refine ⟨⟨s, (Function.update_of_ne hne ..).trans hs⟩, fun ⟨s', hs', hcl⟩ => ?_, fun hout => ?_⟩
    · exact ⟨s', (Function.update_of_ne hne ..).trans hs', hcl⟩
    · exact fun hin => (Finset.mem_insert.mp hin).elim hne hout
  | touch hw => exact hupdate hw fun s hcl hz => ⟨hcl, hz⟩
  | close hw => exact hupdate hw fun s _ hz => ⟨rfl, by rw [hz]; rfl⟩
  | remove => exact ⟨hc, fun h => h, fun hout hin => hout (Finset.mem_of_mem_erase hin)⟩

/-- A session that is out of the map stays out, and one that is closed stays closed. -/
theorem runs_keep (hrun : Threads.Runs (machine c) s s') (hc : s.world.Created id) :
    s'.world.Created id ∧ (s.world.Closed id → s'.world.Closed id) ∧
      (id ∉ s.world.sessions → id ∉ s'.world.sessions) := by
  refine hrun.invariant (fun t => t.world.Created id ∧ (s.world.Closed id → t.world.Closed id) ∧
    (id ∉ s.world.sessions → id ∉ t.world.sessions)) ⟨hc, fun h => h, fun h => h⟩ ?_
  rintro t t' hstep ⟨htc, hcl, hout⟩
  cases hstep with
  | call => exact ⟨htc, hcl, hout⟩
  | happen h =>
    obtain ⟨hobjects, hsessions⟩ := happen_keeps h
    unfold World.Created World.Closed at *
    rw [hobjects, hsessions]
    exact ⟨htc, hcl, hout⟩
  | perform hi h =>
    obtain ⟨htc', hcl', hout'⟩ := perform_keeps h htc
    exact ⟨htc', fun h => hcl' (hcl h), fun h => hout' (hout h)⟩

/-- One thread of a call, while a condition lasts that nobody ends. -/
theorem thread_of_runs {call : Call} (hrun : Threads.Runs (machine c)
      ⟨s.world, s.threads ++ [call.program]⟩ s') (R : World → SessionM Result → Prop)
    (hhappen : ∀ w e w' p, World.happen w e = some w' → R w p → R w' p)
    (hothers : ∀ w a w' p, World.perform c w a = some w' → R w p → R w' p)
    (hown : ∀ w op next r w', World.perform c w ⟨op, r⟩ = some w' → R w (.call op next) →
      R w' (next r))
    (hinit : R s.world call.program) {p : SessionM Result}
    (hp : s'.threads[s.threads.length]? = some p) : R s'.world p := by
  obtain ⟨p', hp', hR⟩ := hrun.thread R hhappen hothers hown
    ⟨call.program, List.getElem?_concat_length .., hinit⟩
  exact Option.some.inj (hp'.symm.trans hp) ▸ hR

/-- When a call of `Delete` has returned, the session is out of the map. -/
theorem deleted_of_returned (hrun : Threads.Runs (machine c)
      ⟨s.world, s.threads ++ [(Call.delete id).program]⟩ s') (hc : s.world.Created id) {r : Result}
    (hr : s'.threads[s.threads.length]? = some (.ret r)) : id ∉ s'.world.sessions := by
  have hR := thread_of_runs hrun (fun w p => w.Created id ∧
    (p = (Call.delete id).program ∨ id ∉ w.sessions)) ?_ ?_ ?_ ⟨hc, .inl rfl⟩ hr
  · exact hR.2.resolve_left nofun
  · rintro w e w' p hw ⟨hwc, hp⟩
    obtain ⟨hobjects, hsessions⟩ := happen_keeps hw
    exact ⟨by rwa [World.Created, hobjects], hsessions ▸ hp⟩
  · rintro w a w' p hw ⟨hwc, hp⟩
    obtain ⟨hwc', -, hout⟩ := perform_keeps hw hwc
    exact ⟨hwc', hp.imp_right hout⟩
  · rintro w op next r w' hw ⟨hwc, hp | hout⟩
    · refine ⟨(perform_keeps hw hwc).1, .inr ?_⟩
      obtain ⟨rfl, -⟩ := Prog.call.inj hp
      obtain ⟨-, rfl⟩ := Option.ite_some_none_eq_some.mp hw
      exact Finset.notMem_erase _ _
    · obtain ⟨hwc', -, hout'⟩ := perform_keeps hw hwc
      exact ⟨hwc', .inr (hout' hout)⟩

/-- A call of `Get` for a session that is out of the map finds nothing. -/
theorem notFound_of_get (hrun : Threads.Runs (machine c)
      ⟨s.world, s.threads ++ [(Call.get id).program]⟩ s') (hc : s.world.Created id)
    (hout : id ∉ s.world.sessions) {r : Result}
    (hr : s'.threads[s.threads.length]? = some (.ret r)) : r = .session none := by
  have hR := thread_of_runs hrun (fun w p => w.Created id ∧ id ∉ w.sessions ∧
    (p = (Call.get id).program ∨ p = .ret (.session none))) ?_ ?_ ?_ ⟨hc, hout, .inl rfl⟩ hr
  · rcases hR.2.2 with hp | hp
    · cases hp
    · exact Prog.ret.inj hp
  · rintro w e w' p hw ⟨hwc, hwout, hp⟩
    obtain ⟨hobjects, hsessions⟩ := happen_keeps hw
    exact ⟨by rwa [World.Created, hobjects], by rwa [hsessions], hp⟩
  · rintro w a w' p hw ⟨hwc, hwout, hp⟩
    obtain ⟨hwc', -, hout'⟩ := perform_keeps hw hwc
    exact ⟨hwc', hout' hwout, hp⟩
  · rintro w op next r w' hw ⟨hwc, hwout, hp | hp⟩
    · obtain ⟨hwc', -, hout'⟩ := perform_keeps hw hwc
      refine ⟨hwc', hout' hwout, .inr ?_⟩
      obtain ⟨rfl, hnext⟩ := Prog.call.inj hp
      obtain ⟨hfound, -⟩ := Option.ite_some_none_eq_some.mp hw
      obtain rfl : r = false := hfound.trans (decide_eq_false hwout)
      rw [eq_of_heq hnext]
      rfl
    · cases hp

/-- Asking for the credentials of a closed session gives nothing. -/
theorem notFound_of_credentials (hrun : Threads.Runs (machine c)
      ⟨s.world, s.threads ++ [(Call.credentials id).program]⟩ s') (hc : s.world.Closed id)
    {r : Result} (hr : s'.threads[s.threads.length]? = some (.ret r)) :
    r = .credentials {} (some .notFound) := by
  have hR := thread_of_runs hrun (fun w p => w.Closed id ∧
    (p = (Call.credentials id).program ∨ p = .ret (.credentials {} (some .notFound)))) ?_ ?_ ?_
    ⟨hc, .inl rfl⟩ hr
  · rcases hR.2 with hp | hp
    · cases hp
    · exact Prog.ret.inj hp
  · rintro w e w' p hw ⟨hwc, hp⟩
    exact ⟨by rwa [World.Closed, (happen_keeps hw).1], hp⟩
  · rintro w a w' p hw ⟨hwc, hp⟩
    exact ⟨(perform_keeps hw hwc.created).2.1 hwc, hp⟩
  · rintro w op next r w' hw ⟨hwc, hp | hp⟩
    · refine ⟨(perform_keeps hw hwc.created).2.1 hwc, .inr ?_⟩
      obtain ⟨rfl, hnext⟩ := Prog.call.inj hp
      obtain ⟨s, hs, hcl, -⟩ := hwc
      obtain ⟨s', hs', hw⟩ := Option.bind_eq_some_iff.mp hw
      obtain rfl := Option.some.inj (hs.symm.trans hs')
      obtain ⟨hans, -⟩ := Option.ite_some_none_eq_some.mp hw
      obtain rfl : r = ({}, some .notFound) := by rw [hans, Session.credentials, if_pos hcl]
      rw [eq_of_heq hnext]
      rfl
    · cases hp

end runs

/-- In every interleaving of the calls: a session is reported at most once, and never while it is
in the map; one that has left the map is reported unless its teardown is under way. When it is
reported and ever after its credentials are gone, for whoever holds it and whoever asks. And a
`Get` that starts after a `Delete` has returned finds nothing. -/
theorem teardown_once {c : Config} {clock : Nat} {s : Callers}
    (hrun : Threads.Runs (machine c) ⟨{ clock := clock }, []⟩ s) (id : String) :
    s.world.notified.count id ≤ 1 ∧
    (id ∈ s.world.sessions → id ∉ s.world.notified) ∧
    (s.world.Created id → id ∉ s.world.sessions → ¬ TearingDown s id →
      s.world.notified.count id = 1) ∧
    ((id ∈ s.world.notified ∨ ∃ (i : Nat) (next : Unit → SessionM Result),
        s.threads[i]? = some (.call (.onClose id) next)) →
      ∀ s', Threads.Runs (machine c) s s' →
        (∃ obj, s'.world.objects id = some obj ∧ obj.credentials = ({}, some .notFound)) ∧
        ∀ s'' r, Threads.Runs (machine c)
            ⟨s'.world, s'.threads ++ [(Call.credentials id).program]⟩ s'' →
          s''.threads[s'.threads.length]? = some (.ret r) →
          r = .credentials {} (some .notFound)) ∧
    (s.world.Created id → ∀ s₁ r₁ s₂ s₃ r₃,
      Threads.Runs (machine c) ⟨s.world, s.threads ++ [(Call.delete id).program]⟩ s₁ →
      s₁.threads[s.threads.length]? = some (.ret r₁) → Threads.Runs (machine c) s₁ s₂ →
      Threads.Runs (machine c) ⟨s₂.world, s₂.threads ++ [(Call.get id).program]⟩ s₃ →
      s₃.threads[s₂.threads.length]? = some (.ret r₃) → r₃ = .session none) := by
  obtain ⟨qs, htracks, hacc⟩ := accounted_of_runs hrun
  refine ⟨List.nodup_iff_count_le_one.mp hacc.once id, fun hid => (hacc.known id hid).2,
    fun hc hout hno => ?_, fun hreport s' hlater => ?_,
    fun hc s₁ r₁ s₂ s₃ r₃ hdel hr₁ hmid hget hr₃ => ?_⟩
  · rcases hacc.all id hc with hin | ⟨i, hi⟩ | hn
    · exact absurd hin hout
    · exact absurd (tearingDown_of_holds htracks hi) hno
    · exact List.count_eq_one_of_mem hacc.once hn
  · have hclosed : s.world.Closed id := by
      rcases hreport with hn | ⟨i, next, hi⟩
      · exact hacc.reported id hn
      · obtain ⟨q, hq, hallowed, -⟩ := htracks.get hi
        cases q with
        | idle => exact hallowed.elim
        | closing id' => cases hallowed
        | reporting id' =>
          cases hallowed
          exact hacc.closed i id hq
    have hlast := (runs_keep hlater hclosed.created).2.1 hclosed
    refine ⟨?_, fun s'' r hcred hr => notFound_of_credentials hcred hlast hr⟩
    obtain ⟨obj, hobj, hcl, -⟩ := hlast
    exact ⟨obj, hobj, by rw [Session.credentials, if_pos hcl]⟩
  · have hout₁ := deleted_of_returned hdel hc hr₁
    have hkeep := runs_keep hdel hc
    obtain ⟨hc₂, -, hout₂⟩ := runs_keep hmid hkeep.1
    exact notFound_of_get hget hc₂ (hout₂ hout₁) hr₃

/-- A session is created, and two calls of `Delete` meet. -/
private def deletedMoves : List (Move Happening Call SessionOp.Ans) :=
  [.call (.create {}), .perform 0 ⟨.newToken, some "a"⟩, .perform 0 ⟨.now, (1 : Nat)⟩,
    .perform 0 ⟨.register "a" {} 1, ()⟩, .call (.delete "a"), .call (.delete "a"),
    .perform 2 ⟨.remove "a", true⟩, .perform 1 ⟨.remove "a", false⟩, .perform 2 ⟨.close "a", ()⟩,
    .perform 2 ⟨.onClose "a", ()⟩]

/-- The thread is about to close or report the session. -/
private def tears (id : String) : SessionM Result → Bool
  | .call (.close id') _ | .call (.onClose id') _ => id' = id
  | _ => false

/-- Two concurrent deletions report the session once. -/
theorem deleted_reported_once : ∃ s : Callers,
    Threads.Runs (machine ⟨60, 600⟩) ⟨{ clock := 1 }, []⟩ s ∧ s.world.notified.count "a" = 1 := by
  obtain ⟨s, hs, hall⟩ := exists_of_any
    (o := execute (Threads.move (machine ⟨60, 600⟩)) ⟨{ clock := 1 }, []⟩ deletedMoves)
    (P := fun s => (s.world.objects "a").isSome ∧ "a" ∉ s.world.sessions ∧
      ∀ p ∈ s.threads, tears "a" p = false) (by decide +kernel)
  have hrun := Threads.runs_of_moves hs
  refine ⟨s, hrun, (teardown_once hrun "a").2.2.1 (Option.isSome_iff_exists.mp hall.1) hall.2.1 ?_⟩
  rintro ⟨i, op, next, hi, hop⟩
  have htears := hall.2.2 _ (List.mem_of_getElem? hi)
  rcases hop with rfl | rfl
  · exact absurd htears (by simp [tears])
  · exact absurd htears (by simp [tears])

end Broom.Sessions
