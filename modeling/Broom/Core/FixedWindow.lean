import Mathlib.Data.List.Pairwise
import Mathlib.Order.Nat

/-!
# Counters of a fixed window

The first call opens a window of a fixed length, which allows a fixed number of calls;
the first call after its end opens the next one. Windows are disjoint, so an interval
that is no longer than a window meets two of them at most.
-/

namespace Broom.Core.FixedWindow

/-- A window: the number of calls it has allowed, and the last moment it is open. -/
structure Bucket where
  count : Nat
  reset : Nat
  deriving DecidableEq, Repr

/-- A call: its time, the answer to it, and the window it falls into. -/
structure Answer where
  now : Nat
  allowed : Bool
  bucket : Bucket
  deriving DecidableEq, Repr

section counter

variable (limit window : Nat)

/-- Answer a call, after an earlier window or as the first one. -/
def call (state : Option Bucket) (now : Nat) : Answer :=
  match state with
  | none => ⟨now, true, ⟨1, now + window⟩⟩
  | some b =>
    if b.reset < now then ⟨now, true, ⟨1, now + window⟩⟩
    else if limit ≤ b.count then ⟨now, false, b⟩
    else ⟨now, true, { b with count := b.count + 1 }⟩

/-- Answer calls one after the other. -/
def answers : Option Bucket → List Nat → List Answer
  | _, [] => []
  | state, now :: times =>
    call limit window state now :: answers (some (call limit window state now).bucket) times

end counter

variable {limit window : Nat}

@[simp] theorem now_call (state : Option Bucket) (now : Nat) :
    (call limit window state now).now = now := by
  unfold call
  split
  · rfl
  · split
    · rfl
    · split <;> rfl

/-- A call opens a window, or it falls into the open one and uses it up or is refused. -/
theorem call_cases (b : Bucket) (now : Nat) :
    b.reset < now ∧ call limit window (some b) now = ⟨now, true, ⟨1, now + window⟩⟩ ∨
    (now ≤ b.reset ∧ limit ≤ b.count ∧ call limit window (some b) now = ⟨now, false, b⟩) ∨
    (now ≤ b.reset ∧ b.count < limit ∧
      call limit window (some b) now = ⟨now, true, { b with count := b.count + 1 }⟩) := by
  rcases lt_or_ge b.reset now with hlt | hge
  · exact .inl ⟨hlt, by simp [call, hlt]⟩
  · rcases le_or_gt limit b.count with hfull | hroom
    · exact .inr (.inl ⟨hge, hfull, by simp [call, hge.not_gt, hfull]⟩)
    · exact .inr (.inr ⟨hge, hroom, by simp [call, hge.not_gt, hroom.not_ge]⟩)

/-- An expired window is as good as none. -/
theorem call_of_expired {b : Bucket} {now : Nat} (h : b.reset < now) :
    call limit window (some b) now = call limit window none now := by
  simp [call, h]

/-! ## One window -/

/-- How many more calls the window that ends at some moment can allow. -/
def room (limit : Nat) (b : Bucket) (r : Nat) : Nat :=
  if r < b.reset then 0 else if r = b.reset then limit - b.count else limit

/-- The answer allows the call in the window that ends at some moment. -/
def Answer.allows (r : Nat) (a : Answer) : Bool := a.allowed && decide (a.bucket.reset = r)

/-- A call takes up the room that its answer needs. -/
theorem room_call (hlimit : 0 < limit) (b : Bucket) (now r : Nat) :
    room limit (call limit window (some b) now).bucket r +
      (if (call limit window (some b) now).allows r then 1 else 0) ≤ room limit b r := by
  rcases @call_cases limit window b now with ⟨hlt, he⟩ | ⟨-, -, he⟩ | ⟨-, hroom, he⟩
  · rw [he]
    simp only [room, Answer.allows, Bool.true_and, decide_eq_true_eq]
    split_ifs <;> omega
  · rw [he]
    simp [Answer.allows]
  · rw [he]
    simp only [room, Answer.allows, Bool.true_and, decide_eq_true_eq]
    split_ifs <;> omega

theorem countP_allows_le_room (hlimit : 0 < limit) (r : Nat) (times : List Nat) (b : Bucket) :
    (answers limit window (some b) times).countP (Answer.allows r) ≤ room limit b r := by
  induction times generalizing b with
  | nil => exact Nat.zero_le _
  | cons now times ih =>
    rw [answers, List.countP_cons]
    have hhead := @room_call limit window hlimit b now r
    have htail := ih (call limit window (some b) now).bucket
    omega

/-- One window allows no more calls than the limit. -/
theorem countP_allows_le (hlimit : 0 < limit) (r : Nat) (times : List Nat) :
    (answers limit window none times).countP (Answer.allows r) ≤ limit := by
  cases times with
  | nil => exact Nat.zero_le _
  | cons now times =>
    rw [answers, List.countP_cons]
    have htail := @countP_allows_le_room limit window hlimit r times ⟨1, now + window⟩
    have hhead : room limit ⟨1, now + window⟩ r +
        (if (Answer.mk now true ⟨1, now + window⟩).allows r then 1 else 0) ≤ limit := by
      simp only [room, Answer.allows, Bool.true_and, decide_eq_true_eq]
      split_ifs <;> omega
    exact (Nat.add_le_add_right htail _).trans hhead

/-! ## Two windows -/

/-- The windows of two calls are the same, or the first one ends before the second opens. -/
def Apart (window : Nat) (b b' : Bucket) : Prop := b.reset = b'.reset ∨ b.reset + window < b'.reset

theorem Apart.trans {b b' b'' : Bucket} (h : Apart window b b') (h' : Apart window b' b'') :
    Apart window b b'' := by
  unfold Apart at *
  omega

theorem apart_call (b : Bucket) (now : Nat) :
    Apart window b (call limit window (some b) now).bucket := by
  rcases @call_cases limit window b now with ⟨hlt, he⟩ | ⟨-, -, he⟩ | ⟨-, -, he⟩
  · rw [he]
    exact .inr (Nat.add_lt_add_right hlt window)
  · rw [he]
    exact .inl rfl
  · rw [he]
    exact .inl rfl

theorem apart_of_mem {times : List Nat} {b : Bucket} {a : Answer}
    (ha : a ∈ answers limit window (some b) times) : Apart window b a.bucket := by
  induction times generalizing b with
  | nil => cases ha
  | cons now times ih =>
    rcases List.mem_cons.mp ha with rfl | ha
    · exact apart_call b now
    · exact (apart_call b now).trans (ih ha)

theorem pairwise_apart (times : List Nat) (state : Option Bucket) :
    (answers limit window state times).Pairwise fun a a' => Apart window a.bucket a'.bucket := by
  induction times generalizing state with
  | nil => exact .nil
  | cons now times ih => exact .cons (fun _ ha => apart_of_mem ha) (ih _)

/-- A call falls into its window. -/
def Answer.Inside (window : Nat) (a : Answer) : Prop :=
  a.now ≤ a.bucket.reset ∧ a.bucket.reset ≤ a.now + window

theorem inside_call {state : Option Bucket} {now : Nat}
    (h : ∀ b ∈ state, b.reset ≤ now + window) :
    (call limit window state now).Inside window := by
  cases state with
  | none => exact ⟨Nat.le_add_right now window, le_rfl⟩
  | some b =>
    have hb := h b rfl
    rcases @call_cases limit window b now with ⟨-, he⟩ | ⟨hle, -, he⟩ | ⟨hle, -, he⟩
    · rw [he]
      exact ⟨Nat.le_add_right now window, le_rfl⟩
    · rw [he]
      exact ⟨hle, hb⟩
    · rw [he]
      exact ⟨hle, hb⟩

theorem inside_of_mem {times : List Nat} {state : Option Bucket} {a : Answer}
    (hsorted : times.Pairwise (· ≤ ·)) (h : ∀ b ∈ state, ∀ now ∈ times, b.reset ≤ now + window)
    (ha : a ∈ answers limit window state times) : a.Inside window := by
  induction times generalizing state with
  | nil => cases ha
  | cons now times ih =>
    obtain ⟨hle, hsorted⟩ := List.pairwise_cons.mp hsorted
    have hhead : (call limit window state now).Inside window :=
      inside_call fun b hb => h b hb now List.mem_cons_self
    rcases List.mem_cons.mp ha with rfl | ha
    · exact hhead
    · refine ih hsorted (fun b hb now' hnow' => ?_) ha
      obtain rfl := Option.mem_some.mp hb
      have hreset := hhead.2
      rw [now_call] at hreset
      exact hreset.trans (Nat.add_le_add_right (hle now' hnow') window)

/-- Two calls whose windows share a moment fall into the same one. -/
theorem reset_eq_of_mem {times : List Nat} {a a' : Answer} {t : Nat}
    (ha : a ∈ answers limit window none times) (ha' : a' ∈ answers limit window none times)
    (ht : t ≤ a.bucket.reset ∧ a.bucket.reset ≤ t + window)
    (ht' : t ≤ a'.bucket.reset ∧ a'.bucket.reset ≤ t + window) :
    a.bucket.reset = a'.bucket.reset := by
  have hpair := @pairwise_apart limit window times none
  let R (a a' : Answer) : Prop := Apart window a.bucket a'.bucket ∨ Apart window a'.bucket a.bucket
  have hto : (answers limit window none times).Pairwise R := hpair.imp .inl
  have hfrom : (answers limit window none times).Pairwise (flip R) := hpair.imp .inr
  have happart : R a a' := hto.forall_of_forall_of_flip (fun _ _ => .inl (.inl rfl)) hfrom ha ha'
  unfold R at happart
  unfold Apart at happart
  omega

/-- Calls that are allowed in windows which share a moment are no more than the limit. -/
theorem countP_le_of_share (hlimit : 0 < limit) {times : List Nat} {P : Answer → Bool} {t : Nat}
    (hP : ∀ a ∈ answers limit window none times, P a →
      a.allowed ∧ t ≤ a.bucket.reset ∧ a.bucket.reset ≤ t + window) :
    (answers limit window none times).countP P ≤ limit := by
  rcases (List.countP P (answers limit window none times)).eq_zero_or_pos with hzero | hpos
  · exact hzero.trans_le (Nat.zero_le _)
  · obtain ⟨a₀, ha₀, hP₀⟩ := List.countP_pos_iff.mp hpos
    refine le_trans (List.countP_mono_left fun a ha hPa => ?_)
      (countP_allows_le hlimit a₀.bucket.reset times)
    obtain ⟨hallowed, hshare⟩ := hP a ha hPa
    have hreset := reset_eq_of_mem ha ha₀ hshare (hP a₀ ha₀ hP₀).2
    simp [Answer.allows, hallowed, hreset]

/-- The answer allows the call within a closed interval. -/
def Answer.within (t t' : Nat) (a : Answer) : Bool :=
  a.allowed && decide (t ≤ a.now ∧ a.now ≤ t')

/-- An interval of the window's length meets two windows at most: the one that contains its
first moment, and the one that contains its last. -/
theorem countP_within_le (hlimit : 0 < limit) {times : List Nat}
    (hsorted : times.Pairwise (· ≤ ·)) (t : Nat) :
    (answers limit window none times).countP (Answer.within t (t + window)) ≤ 2 * limit := by
  have hinside (a : Answer) (ha : a ∈ answers limit window none times) : a.Inside window :=
    inside_of_mem hsorted (by simp) ha
  -- the windows that contain the first moment, and the others
  rw [List.countP_eq_countP_filter_add _ _ fun a => decide (a.bucket.reset ≤ t + window),
    List.countP_filter, List.countP_filter, Nat.two_mul]
  refine Nat.add_le_add (countP_le_of_share (t := t) hlimit fun a ha hPa => ?_)
    (countP_le_of_share (t := t + window) hlimit fun a ha hPa => ?_)
  all_goals
    obtain ⟨hle, hreset⟩ := hinside a ha
    simp only [Answer.within, Bool.and_eq_true, Bool.not_eq_true', decide_eq_true_eq,
      decide_eq_false_iff_not] at hPa
    obtain ⟨⟨hallowed, hfrom, hto⟩, hside⟩ := hPa
    exact ⟨hallowed, by omega, by omega⟩

end Broom.Core.FixedWindow
