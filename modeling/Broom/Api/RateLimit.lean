import Broom.Core.FixedWindow
import Broom.Core.OrderedMap

/-!
# The limit on sign-ins

All addresses share one map of buckets, and a call that finds too many of them drops
the expired ones. A dropped bucket is as good as an expired one, so to each address the
limiter is a counter of its own.
-/

namespace Broom.Api

open Broom.Core Broom.Core.FixedWindow

/-! ## The limiter -/

structure IPLimiter where
  limit : Nat
  window : Nat
  buckets : PlainMap String Bucket

def newIPLimiter (limit window : Nat) : IPLimiter := ⟨limit, window, ∅⟩

/-- The limiter of a server, with a window of a minute in nanoseconds. -/
def sessionLimiter (sessionRatePerMin : Int) : IPLimiter :=
  newIPLimiter (if sessionRatePerMin ≤ 0 then 10 else sessionRatePerMin.toNat) 60000000000

/-- Drop the expired buckets. -/
def purge (now : Nat) (buckets : PlainMap String Bucket) : PlainMap String Bucket :=
  buckets.entries.foldl (fun rest e => if e.2.reset < now then rest.erase e.1 else rest) buckets

/-- The buckets that a call works on: if there are too many, those that have not expired. -/
def IPLimiter.tidied (l : IPLimiter) (now : Nat) : PlainMap String Bucket :=
  if 10000 < l.buckets.keys.length then purge now l.buckets else l.buckets

/-- Whether an address may make another request now. -/
def IPLimiter.allow (l : IPLimiter) (now : Nat) (ip : String) : Bool × IPLimiter :=
  let buckets := l.tidied now
  match buckets.lookup ip with
  | none => (true, { l with buckets := buckets.insert ip ⟨1, now + l.window⟩ })
  | some b =>
    if b.reset < now then (true, { l with buckets := buckets.insert ip ⟨1, now + l.window⟩ })
    else if l.limit ≤ b.count then (false, { l with buckets := buckets })
    else (true, { l with buckets := buckets.insert ip { b with count := b.count + 1 } })

/-- A call of the limiter. -/
structure Call where
  now : Nat
  ip : String

/-- A call with the answer to it, and the limiter after it. -/
structure Served where
  call : Call
  allowed : Bool
  after : IPLimiter

/-- Serve calls one after the other. -/
def IPLimiter.serve : IPLimiter → List Call → List Served
  | _, [] => []
  | l, c :: calls =>
    let answer := l.allow c.now c.ip
    ⟨c, answer.1, answer.2⟩ :: answer.2.serve calls

/-- The end of the window that a call fell into. -/
def Served.reset (s : Served) : Option Nat := (s.after.buckets.lookup s.call.ip).map Bucket.reset

/-- The call was allowed within a closed interval. -/
def Served.within (t t' : Nat) (s : Served) : Bool :=
  s.allowed && decide (t ≤ s.call.now ∧ s.call.now ≤ t')

/-- The call was allowed in the window that ends at some moment. -/
def Served.allowedUntil (r : Nat) (s : Served) : Bool := s.allowed && decide (s.reset = some r)

/-! ## The clean-up -/

theorem lookup_foldl_erase (now : Nat) (ip : String) (es : List (Sigma fun _ : String => Bucket))
    (map : PlainMap String Bucket) :
    (es.foldl (fun rest e => if e.2.reset < now then rest.erase e.1 else rest) map).lookup ip =
      if ∃ e ∈ es, e.1 = ip ∧ e.2.reset < now then none else map.lookup ip := by
  induction es generalizing map with
  | nil => simp
  | cons e es ih =>
    rw [List.foldl_cons, ih]
    by_cases htail : ∃ e ∈ es, e.1 = ip ∧ e.2.reset < now
    · obtain ⟨e', he', hgone⟩ := htail
      rw [if_pos ⟨e', he', hgone⟩, if_pos ⟨e', List.mem_cons_of_mem e he', hgone⟩]
    · rw [if_neg htail]
      by_cases hexpired : e.2.reset < now
      · rw [if_pos hexpired]
        by_cases hip : e.1 = ip
        · rw [if_pos ⟨e, List.mem_cons_self, hip, hexpired⟩, hip, AList.lookup_erase]
        · rw [if_neg (by simpa [hip] using htail), AList.lookup_erase_ne (Ne.symm hip)]
      · rw [if_neg hexpired, if_neg (by simpa [hexpired] using htail)]

/-- The clean-up drops the expired buckets and nothing else. -/
theorem lookup_purge (now : Nat) (ip : String) (buckets : PlainMap String Bucket) :
    (purge now buckets).lookup ip =
      (buckets.lookup ip).filter fun b => !decide (b.reset < now) := by
  rw [purge, lookup_foldl_erase]
  cases hb : buckets.lookup ip with
  | none => simp
  | some b =>
    have hmem : (⟨ip, b⟩ : Sigma fun _ : String => Bucket) ∈ buckets.entries :=
      AList.mem_lookup_iff.mp hb
    by_cases hexpired : b.reset < now
    · rw [if_pos ⟨_, hmem, rfl, hexpired⟩]
      simp [Option.filter_some, hexpired]
    · rw [if_neg]
      · simp [Option.filter_some, hexpired]
      · rintro ⟨⟨k, b'⟩, hmem', rfl, hexpired'⟩
        obtain rfl : b' = b := Option.some.inj ((AList.mem_lookup_iff.mpr hmem').symm.trans hb)
        exact hexpired hexpired'

/-! ## One address -/

/-- A bucket is what a counter of its own would have, or missing once that has expired. -/
def Agrees (now : Nat) (bucket state : Option Bucket) : Prop :=
  bucket = state ∨ bucket = none ∧ ∃ b ∈ state, b.reset < now

theorem Agrees.mono {now now' : Nat} {bucket state : Option Bucket} (h : Agrees now bucket state)
    (hle : now ≤ now') : Agrees now' bucket state :=
  h.imp_right fun ⟨hnone, b, hb, hlt⟩ => ⟨hnone, b, hb, hlt.trans_le hle⟩

/-- The answer is that of the counter. -/
theorem Agrees.call {limit window now : Nat} {bucket state : Option Bucket}
    (h : Agrees now bucket state) :
    FixedWindow.call limit window bucket now = FixedWindow.call limit window state now := by
  rcases h with rfl | ⟨rfl, b, hb, hlt⟩
  · rfl
  · obtain rfl : state = some b := hb
    exact (call_of_expired hlt).symm

theorem Agrees.tidied {l : IPLimiter} {now : Nat} {ip : String} {state : Option Bucket}
    (h : Agrees now (l.buckets.lookup ip) state) :
    Agrees now ((l.tidied now).lookup ip) state := by
  unfold IPLimiter.tidied
  split
  · rw [lookup_purge]
    rcases h with rfl | ⟨hnone, hstate⟩
    · cases l.buckets.lookup ip with
      | none => exact .inl rfl
      | some b =>
        by_cases hexpired : b.reset < now
        · exact .inr ⟨by simp [Option.filter_some, hexpired], b, rfl, hexpired⟩
        · exact .inl (by simp [Option.filter_some, hexpired])
    · rw [hnone]
      exact .inr ⟨rfl, hstate⟩
  · exact h

/-- A call is answered from the bucket of its address, and changes no other one. -/
structure IPLimiter.Allows (l : IPLimiter) (now : Nat) (ip : String) (a : Answer)
    (l' : IPLimiter) : Prop where
  limit : l'.limit = l.limit
  window : l'.window = l.window
  own : l'.buckets.lookup ip = some a.bucket
  others : ∀ ip' ≠ ip, l'.buckets.lookup ip' = (l.tidied now).lookup ip'

theorem IPLimiter.allow_spec (l : IPLimiter) (now : Nat) (ip : String) :
    (l.allow now ip).1 =
        (FixedWindow.call l.limit l.window ((l.tidied now).lookup ip) now).allowed ∧
      l.Allows now ip (FixedWindow.call l.limit l.window ((l.tidied now).lookup ip) now)
        (l.allow now ip).2 := by
  have hinsert (b : Bucket) : l.Allows now ip ⟨now, true, b⟩
      { l with buckets := (l.tidied now).insert ip b } :=
    ⟨rfl, rfl, AList.lookup_insert _, fun ip' hne => AList.lookup_insert_ne hne⟩
  cases hb : (l.tidied now).lookup ip with
  | none =>
    simp only [IPLimiter.allow, hb]
    exact ⟨rfl, hinsert _⟩
  | some b =>
    rcases @call_cases l.limit l.window b now with ⟨hlt, he⟩ | ⟨hle, hfull, he⟩ | ⟨hle, hroom, he⟩
    · simp only [IPLimiter.allow, hb, he, if_pos hlt]
      exact ⟨trivial, hinsert _⟩
    · simp only [IPLimiter.allow, hb, he, if_neg hle.not_gt, if_pos hfull]
      exact ⟨trivial, rfl, rfl, hb, fun _ _ => rfl⟩
    · simp only [IPLimiter.allow, hb, he, if_neg hle.not_gt, if_neg hroom.not_ge]
      exact ⟨trivial, hinsert _⟩

/-- A bucket agrees with its counter after a call of any address. -/
theorem Agrees.allow {l : IPLimiter} {now : Nat} {ip ip' : String} {state : Option Bucket}
    (h : Agrees now (l.buckets.lookup ip) state) (hne : ip ≠ ip') :
    Agrees now ((l.allow now ip').2.buckets.lookup ip) state := by
  rw [(l.allow_spec now ip').2.others ip hne]
  exact h.tidied

/-- A served call of one address is the answer of the address's own counter. -/
def Served.Is (s : Served) (a : Answer) : Prop :=
  s.call.now = a.now ∧ s.allowed = a.allowed ∧
    s.after.buckets.lookup s.call.ip = some a.bucket

/-- The calls of one address are served as its own counter would. -/
theorem serve_is {calls : List Call} {l : IPLimiter} {ip : String} {state : Option Bucket}
    (hsorted : calls.Pairwise fun c c' => c.now ≤ c'.now)
    (h : ∀ c ∈ calls, Agrees c.now (l.buckets.lookup ip) state) :
    List.Forall₂ Served.Is ((l.serve calls).filter fun s => s.call.ip = ip)
      (answers l.limit l.window state ((calls.filter fun c => c.ip = ip).map Call.now)) := by
  induction calls generalizing l state with
  | nil => exact .nil
  | cons c calls ih =>
    obtain ⟨hle, hsorted⟩ := List.pairwise_cons.mp hsorted
    have hc := h c List.mem_cons_self
    obtain ⟨hallowed, hspec⟩ := l.allow_spec c.now c.ip
    by_cases hip : c.ip = ip
    · have hcall : FixedWindow.call l.limit l.window ((l.tidied c.now).lookup c.ip) c.now =
          FixedWindow.call l.limit l.window state c.now := hip ▸ hc.tidied.call
      rw [hcall] at hallowed hspec
      rw [IPLimiter.serve, List.filter_cons_of_pos (by simpa using hip),
        List.filter_cons_of_pos (by simpa using hip), List.map_cons, answers]
      refine .cons ⟨(now_call state c.now).symm, hallowed, hspec.own⟩ ?_
      have hown : (l.allow c.now c.ip).2.buckets.lookup ip =
          some (FixedWindow.call l.limit l.window state c.now).bucket := hip ▸ hspec.own
      have htail := ih hsorted fun _ _ => .inl hown
      rwa [hspec.limit, hspec.window] at htail
    · rw [IPLimiter.serve, List.filter_cons_of_neg (by simpa using hip),
        List.filter_cons_of_neg (by simpa using hip), ← hspec.limit, ← hspec.window]
      refine ih hsorted fun c' hc' => (Agrees.allow hc (Ne.symm hip)).mono (hle c' hc')

/-- What is read off equal things is equal. -/
theorem map_eq_of_forall₂ {α β γ : Type} {R : α → β → Prop} {f : α → γ} {g : β → γ}
    (hR : ∀ a b, R a b → f a = g b) {l : List α} {l' : List β} (h : List.Forall₂ R l l') :
    l.map f = l'.map g := by
  have hmap : List.Forall₂ (· = ·) (l.map f) (l'.map g) := by
    rw [List.forall₂_map_left_iff, List.forall₂_map_right_iff]
    exact h.imp hR
  rwa [List.forall₂_eq_eq_eq] at hmap

theorem countP_eq_of_forall₂ {α β : Type} {R : α → β → Prop} {p : α → Bool} {q : β → Bool}
    (hR : ∀ a b, R a b → p a = q b) {l : List α} {l' : List β} (h : List.Forall₂ R l l') :
    l.countP p = l'.countP q := by
  have hmap := congrArg (List.countP id) (map_eq_of_forall₂ hR h)
  rwa [List.countP_map, List.countP_map] at hmap

/-- The limiter is one counter for each address: an address gets the answers that a counter
of its own would give it, at most twice the limit of calls in an interval of the window's
length, and at most the limit in one window. -/
theorem serve_independent {limit window : Nat} {calls : List Call} (hlimit : 0 < limit)
    (hsorted : calls.Pairwise fun c c' => c.now ≤ c'.now) (ip : String) :
    let served := ((newIPLimiter limit window).serve calls).filter fun s => s.call.ip = ip
    let alone := answers limit window none ((calls.filter fun c => c.ip = ip).map Call.now)
    served.map Served.allowed = alone.map Answer.allowed ∧
      (∀ t, served.countP (Served.within t (t + window)) ≤ 2 * limit) ∧
      ∀ r, served.countP (Served.allowedUntil r) ≤ limit := by
  intro served alone
  have his : List.Forall₂ Served.Is served alone :=
    serve_is hsorted fun _ _ => .inl (AList.lookup_empty ip)
  have htimes : ((calls.filter fun c => c.ip = ip).map Call.now).Pairwise (· ≤ ·) :=
    List.pairwise_map.mpr (hsorted.filter _)
  refine ⟨map_eq_of_forall₂ (fun _ _ h => h.2.1) his, fun t => ?_, fun r => ?_⟩
  · have hcount : served.countP (Served.within t (t + window)) =
        alone.countP (Answer.within t (t + window)) :=
      countP_eq_of_forall₂ (fun s a h => by rw [Served.within, Answer.within, h.1, h.2.1]) his
    exact hcount.trans_le (countP_within_le hlimit htimes t)
  · have hcount : served.countP (Served.allowedUntil r) = alone.countP (Answer.allows r) := by
      refine countP_eq_of_forall₂ (fun s a h => ?_) his
      simp [Served.allowedUntil, Answer.allows, Served.reset, h.2.1, h.2.2]
    exact hcount.trans_le (countP_allows_le hlimit r _)

/-- Two addresses, the first of which calls again when its window ends, and once more a
moment later. -/
private def visits : List Call :=
  [⟨0, "198.51.100.7"⟩, ⟨30, "203.0.113.9"⟩, ⟨60, "198.51.100.7"⟩, ⟨61, "198.51.100.7"⟩]

/-- The window is still open in its last moment. -/
theorem serve_independent_visits :
    (((newIPLimiter 1 60).serve visits).filter fun s => s.call.ip = "198.51.100.7").map
      Served.allowed = [true, false, true] :=
  ((@serve_independent 1 60 visits (by decide) (by decide) "198.51.100.7").1).trans
    (by decide +kernel)

end Broom.Api
