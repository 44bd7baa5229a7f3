import Broom.Core.Threads
import Mathlib.Data.Finset.Erase
import Mathlib.Data.Finset.Insert
import Mathlib.Logic.Function.Basic

/-!
# The store of sessions

Sessions hold credentials in memory. Every call is a program whose operations are the
critical sections of two locks, the store's and the session's own; in between, other
calls do as they like. The clock, the jobs of a session and the random tokens belong to
the surroundings.
-/

namespace Broom.Sessions

open Broom.Core

/-! ## Data -/

structure Credentials where
  accessKeyId : String := ""
  secretAccessKey : String := ""
  sessionToken : String := ""
  deriving DecidableEq, Repr

/-- Overwrite the secret material. -/
def Credentials.zero (c : Credentials) : Credentials :=
  { c with accessKeyId := "", secretAccessKey := "", sessionToken := "" }

/-- The session was not found or has expired. -/
inductive SessionError
  | notFound
  deriving DecidableEq, Repr

/-- One authenticated browser session. -/
structure Session where
  creds : Credentials
  /-- The hard expiry; the idle timer is renewed on each touch. -/
  expiresAt : Nat
  lastSeen : Nat
  closed : Bool := false
  deriving DecidableEq, Repr

/-- The settings of a store. -/
structure Config where
  idleTTL : Nat
  maxTTL : Nat

/-- The store, all sessions ever created, and what else there is. -/
structure World where
  clock : Nat
  /-- The sessions in the map. -/
  sessions : Finset String := ∅
  /-- Every session that was created. Some call may still hold one that left the map. -/
  objects : String → Option Session := fun _ => none
  /-- The number of unfinished jobs of a session. -/
  jobs : String → Nat := fun _ => 0
  /-- The calls of `onClose` so far. -/
  notified : List String := []

/-! ## Operations -/

/-- One critical section, or one look at the surroundings. -/
inductive SessionOp
  | now
  /-- A random token, if there is enough entropy. -/
  | newToken
  | register (token : String) (creds : Credentials) (now : Nat)
  | lookup (id : String)
  /-- Whether a session is closed, past its hard expiry, and idle. -/
  | inspect (id : String) (now : Nat)
  | busy (id : String)
  | touch (id : String) (now : Nat)
  /-- Whether the session was in the map; it is not any more. -/
  | remove (id : String)
  | close (id : String)
  | onClose (id : String)
  | list
  | credentials (id : String)
  deriving DecidableEq, Repr

abbrev SessionOp.Ans : SessionOp → Type
  | .now => Nat
  | .newToken => Option String
  | .lookup _ | .busy _ | .remove _ => Bool
  | .inspect _ _ => Bool × Bool × Bool
  | .list => List String
  | .credentials _ => Credentials × Option SessionError
  | .register _ _ _ | .touch _ _ | .close _ | .onClose _ => Unit

abbrev SessionM := Prog SessionOp SessionOp.Ans

/-- Perform one operation. -/
def ask (op : SessionOp) : SessionM op.Ans := Prog.perform op

/-- What a session's credentials are to its holder. -/
def Session.credentials (s : Session) : Credentials × Option SessionError :=
  if s.closed then ({}, some .notFound) else (s.creds, none)

/-- One session changes. -/
def World.update (w : World) (id : String) (f : Session → Session) : Option World :=
  (w.objects id).map fun s => { w with objects := Function.update w.objects id (some (f s)) }

/-- The world after an operation with some answer, if the answer is possible. -/
def World.perform (c : Config) (w : World) : Act SessionOp.Ans → Option World
  | ⟨.now, t⟩ => if t = w.clock then some w else none
  | ⟨.newToken, _⟩ => some w
  | ⟨.register token creds now, _⟩ =>
    -- tokens are random, and new
    if w.objects token = none then
      some { w with
        sessions := insert token w.sessions
        objects := Function.update w.objects token
          (some { creds := creds, expiresAt := now + c.maxTTL, lastSeen := now }) }
    else none
  | ⟨.lookup id, found⟩ => if found = decide (id ∈ w.sessions) then some w else none
  | ⟨.inspect id now, (closed, hard, idle)⟩ => do
    let s ← w.objects id
    if closed = s.closed ∧ hard = decide (s.expiresAt < now) ∧
        idle = decide (s.lastSeen + c.idleTTL < now) then some w else none
  | ⟨.busy id, b⟩ => if b = decide (0 < w.jobs id) then some w else none
  | ⟨.touch id now, _⟩ => w.update id fun s => { s with lastSeen := now }
  | ⟨.remove id, found⟩ =>
    if found = decide (id ∈ w.sessions) then some { w with sessions := w.sessions.erase id }
    else none
  | ⟨.close id, _⟩ => w.update id fun s => { s with closed := true, creds := s.creds.zero }
  | ⟨.onClose id, _⟩ => some { w with notified := w.notified ++ [id] }
  | ⟨.list, ids⟩ => if ids.Nodup ∧ ids.toFinset = w.sessions then some w else none
  | ⟨.credentials id, r⟩ => do
    let s ← w.objects id
    if r = s.credentials then some w else none

/-- What happens by itself. -/
inductive Happening
  /-- Time passes. -/
  | advance (d : Nat)
  | jobStarts (id : String)
  | jobEnds (id : String)
  deriving DecidableEq, Repr

def World.happen (w : World) : Happening → Option World
  | .advance d => some { w with clock := w.clock + d }
  | .jobStarts id => some { w with jobs := Function.update w.jobs id (w.jobs id + 1) }
  | .jobEnds id =>
    if 0 < w.jobs id then some { w with jobs := Function.update w.jobs id (w.jobs id - 1) }
    else none

/-! ## What operations do -/

theorem update_some {w w' : World} {id : String} {f : Session → Session}
    (h : w.update id f = some w') : ∃ s, w.objects id = some s ∧
      w' = { w with objects := Function.update w.objects id (some (f s)) } := by
  obtain ⟨s, hs, rfl⟩ := Option.map_eq_some_iff.mp h
  exact ⟨s, hs, rfl⟩

/-- The operation leaves the world alone. -/
def SessionOp.looks : SessionOp → Bool
  | .register _ _ _ | .touch _ _ | .remove _ | .close _ | .onClose _ => false
  | .now | .newToken | .lookup _ | .inspect _ _ | .busy _ | .list | .credentials _ => true

/-- What the operations do to the world. -/
inductive World.Moves (c : Config) (w : World) : Act SessionOp.Ans → World → Prop
  | look {a : Act SessionOp.Ans} (ha : a.1.looks = true) : Moves c w a w
  | register {token : String} {creds : Credentials} {now : Nat} {r : Unit}
    (hnew : w.objects token = none) : Moves c w ⟨.register token creds now, r⟩
      { w with
        sessions := insert token w.sessions
        objects := Function.update w.objects token
          (some { creds := creds, expiresAt := now + c.maxTTL, lastSeen := now }) }
  | touch {id : String} {now : Nat} {r : Unit} {w' : World}
    (hw : w.update id (fun s => { s with lastSeen := now }) = some w') :
    Moves c w ⟨.touch id now, r⟩ w'
  | remove {id : String} : Moves c w ⟨.remove id, decide (id ∈ w.sessions)⟩
      { w with sessions := w.sessions.erase id }
  | close {id : String} {r : Unit} {w' : World}
    (hw : w.update id (fun s => { s with closed := true, creds := s.creds.zero }) = some w') :
    Moves c w ⟨.close id, r⟩ w'
  | onClose {id : String} {r : Unit} :
    Moves c w ⟨.onClose id, r⟩ { w with notified := w.notified ++ [id] }

theorem World.moves_of_perform {c : Config} {w w' : World} {a : Act SessionOp.Ans}
    (hw : w.perform c a = some w') : w.Moves c a w' := by
  obtain ⟨op, r⟩ := a
  cases op with
  | register token creds now =>
    obtain ⟨hnew, rfl⟩ := Option.ite_some_none_eq_some.mp hw
    exact .register hnew
  | touch id now => exact .touch hw
  | remove id =>
    obtain ⟨rfl, rfl⟩ := Option.ite_some_none_eq_some.mp hw
    exact .remove
  | close id => exact .close hw
  | onClose id => exact Option.some.inj hw ▸ .onClose
  | newToken => exact Option.some.inj hw ▸ .look rfl
  | inspect id now =>
    obtain ⟨closed, hard, idle⟩ := r
    obtain ⟨s, -, hw⟩ := Option.bind_eq_some_iff.mp hw
    exact (Option.ite_some_none_eq_some.mp hw).2 ▸ .look rfl
  | credentials id =>
    obtain ⟨s, -, hw⟩ := Option.bind_eq_some_iff.mp hw
    exact (Option.ite_some_none_eq_some.mp hw).2 ▸ .look rfl
  | now | lookup | busy | list =>
    exact (Option.ite_some_none_eq_some.mp hw).2 ▸ .look rfl

/-! ## Calls -/

/-- What calls return. -/
inductive Result
  | done
  /-- The new session, if there was a token. -/
  | created (id : Option String)
  /-- A live session, or the error that there is none. -/
  | session (id : Option String)
  | credentials (creds : Credentials) (err : Option SessionError)
  deriving DecidableEq, Repr

/-- Register a new session. -/
def create (creds : Credentials) : SessionM Result := do
  match ← ask .newToken with
  | none => return .created none
  | some token =>
    let now ← ask .now
    ask (.register token creds now)
    return .created (some token)

/-- Close and remove a session; it is safe to call twice. -/
def delete (id : String) : SessionM Unit := do
  if ← ask (.remove id) then
    ask (.close id)
    ask (.onClose id)

/-- Whether a session should be dropped; the idle timer of a busy one is renewed. -/
def expired (id : String) (now : Nat) : SessionM Bool := do
  let (closed, hard, idle) ← ask (.inspect id now)
  if closed ∨ hard then return true
  if idle then
    if ← ask (.busy id) then
      ask (.touch id now)
      return false
  return idle

/-- A live session, whose idle timer is renewed. -/
def get (id : String) : SessionM Result := do
  if ← ask (.lookup id) then
    let now ← ask .now
    if ← expired id now then
      delete id
      return .session none
    ask (.touch id now)
    return .session (some id)
  else return .session none

/-- Renew the idle timer of a live session. -/
def touch (id : String) : SessionM Result := do
  if ← ask (.lookup id) then
    let now ← ask .now
    ask (.touch id now)
  return .done

/-- A copy of the credentials. -/
def credentials (id : String) : SessionM Result := do
  let (creds, err) ← ask (.credentials id)
  return .credentials creds err

/-- The sessions among some that should be dropped. -/
def staleOf (now : Nat) : List String → SessionM (List String)
  | [] => return []
  | id :: ids => do
    if ← expired id now then
      let stale ← staleOf now ids
      return id :: stale
    else staleOf now ids

def deleteAll : List String → SessionM Unit
  | [] => return ()
  | id :: ids => do
    delete id
    deleteAll ids

/-- One tick of the reaper. -/
def reap (now : Nat) : SessionM Result := do
  let live ← ask .list
  let stale ← staleOf now live
  deleteAll stale
  return .done

/-- Zero every session. -/
def close : SessionM Result := do
  let ids ← ask .list
  deleteAll ids
  return .done

/-- The calls of the store. -/
inductive Call
  | create (creds : Credentials)
  | get (id : String)
  | touch (id : String)
  | credentials (id : String)
  | delete (id : String)
  | reap (now : Nat)
  | close
  deriving DecidableEq, Repr

def Call.program : Call → SessionM Result
  | .create creds => Sessions.create creds
  | .get id => Sessions.get id
  | .touch id => Sessions.touch id
  | .credentials id => Sessions.credentials id
  | .delete id => do
    Sessions.delete id
    return .done
  | .reap now => Sessions.reap now
  | .close => Sessions.close

/-- The store with all its callers. -/
def machine (c : Config) : Machine World Happening Call SessionOp SessionOp.Ans Result where
  program := Call.program
  perform := World.perform c
  happen := World.happen

end Broom.Sessions
