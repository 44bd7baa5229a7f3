import Broom.Web.Agreement

/-!
# The tail of the log

A job stops keeping log messages when it has 2000, its snapshot shows the last 50 of
those it kept, and a page keeps the last 50 of what it has seen. All three agree as
long as the job keeps everything. After that the snapshot stands still, so it shows
the tail of the log only if the tail repeats one text.
-/

namespace Broom.Web

open Broom.Core Broom.Engine Broom.Jobs

/-! ## Last lines -/

section

variable {α : Type} {x y : α} {l l' : List α}

/-- The last 50 of a list of lines. -/
def lastLines (lines : List α) : List α := lines.drop (lines.length - 50)

theorem length_lastLines (l : List α) : (lastLines l).length = min 50 l.length := by
  rw [lastLines, List.length_drop]
  omega

theorem lastLines_of_le (h : l.length ≤ 50) : lastLines l = l := by
  rw [lastLines, Nat.sub_eq_zero_of_le h, List.drop_zero]

/-- The last lines of a concatenation come from the last lines of its parts. -/
theorem lastLines_append (l l' : List α) :
    lastLines (l ++ l') = l.drop (l.length + l'.length - 50) ++ lastLines l' := by
  rw [lastLines, List.length_append, List.drop_append, lastLines]
  congr 2
  omega

/-- Forgetting all but the last lines before adding some does not matter. -/
theorem lastLines_lastLines_append (l l' : List α) :
    lastLines (lastLines l ++ l') = lastLines (l ++ l') := by
  rw [lastLines_append, lastLines_append, length_lastLines, lastLines, List.drop_drop]
  congr 2
  omega

theorem mem_of_mem_lastLines_append (h : x ∈ lastLines (l ++ l')) :
    x ∈ lastLines l ∨ x ∈ lastLines l' := by
  rw [lastLines_append, List.mem_append] at h
  refine h.imp_left fun hx => List.drop_subset_drop_left l ?_ hx
  omega

theorem lastLines_drop_subset (l : List α) (n : Nat) : lastLines (l.drop n) ⊆ lastLines l := by
  rw [lastLines, lastLines, List.drop_drop, List.length_drop]
  refine List.drop_subset_drop_left l ?_
  omega

/-- A list that does not change when it moves up by one line has one text. -/
theorem eq_of_append_singleton_eq_cons (h : l ++ [x] = y :: l) : y = x ∧ ∀ z ∈ l, z = x := by
  induction l generalizing y with
  | nil =>
    obtain ⟨rfl, -⟩ := List.cons.inj h
    simp
  | cons z l ih =>
    obtain ⟨rfl, htail⟩ := List.cons.inj h
    obtain ⟨rfl, hall⟩ := ih htail
    exact ⟨rfl, by simpa using hall⟩

/-- If lines were dropped and everyone who joins still ends at the same last lines, these
have one text: who joins before the last line moves up by it. -/
theorem one_text_of_joined {n : Nat} (hn : 50 ≤ n) (hlong : n < l.length)
    (hjoin : lastLines ((l.take (l.length - 1)).take n ++ l.drop (l.length - 1)) =
      lastLines (l.take n)) :
    ∃ text, ∀ z ∈ lastLines (l.take n), z = text := by
  have hkept : (l.take n).length = n := List.length_take_of_le hlong.le
  obtain ⟨x, hx⟩ : ∃ x, l.drop (l.length - 1) = [x] := by
    apply List.length_eq_one_iff.mp
    rw [List.length_drop]
    omega
  have htake : (l.take (l.length - 1)).take n = l.take n := by
    rw [List.take_take, min_eq_left (by omega)]
  obtain ⟨y, hy⟩ : ∃ y, lastLines (l.take n) = y :: (l.take n).drop (n + 1 - 50) := by
    have hlt : n - 50 < (l.take n).length := by omega
    rw [lastLines, hkept, List.drop_eq_getElem_cons hlt]
    exact ⟨_, by congr 2; omega⟩
  rw [htake, hx, lastLines_append, lastLines_of_le (by simp), hkept, hy] at hjoin
  obtain ⟨rfl, hrest⟩ := eq_of_append_singleton_eq_cons hjoin
  refine ⟨y, fun z hz => ?_⟩
  rw [hy, List.mem_cons] at hz
  exact hz.elim id (hrest z)

/-- Last lines of one text are 50 times that text. -/
theorem lastLines_eq_replicate (hlen : 50 ≤ l.length) (h : ∀ z ∈ lastLines l, z = x) :
    lastLines l = List.replicate 50 x := by
  refine List.eq_replicate_iff.mpr ⟨?_, h⟩
  rw [length_lastLines, min_eq_left hlen]

/-- The last lines for who joins at some line are lines that were kept last, or last ones. -/
theorem lastLines_joined_subset (l : List α) (n p : Nat) :
    lastLines ((l.take p).take n ++ l.drop p) ⊆ lastLines (l.take n) ++ lastLines l := by
  intro z hz
  rcases Nat.le_total p n with hpn | hpn
  · rw [List.take_of_length_le (by rw [List.length_take]; omega), List.take_append_drop] at hz
    exact List.mem_append_right _ hz
  · rw [List.take_take, min_eq_left hpn] at hz
    exact List.mem_append.mpr
      ((mem_of_mem_lastLines_append hz).imp_right fun h => lastLines_drop_subset l p h)

/-- Where only the first lines are kept, the last of them are the last of all, and stay
so for everyone who joins and counts on from there, exactly if all lines are kept or
the last ones have one text. -/
theorem lastLines_take_agree_iff {n : Nat} (hn : 50 ≤ n) :
    (lastLines (l.take n) = lastLines l ∧ ∀ p ≤ l.length,
      lastLines ((l.take p).take n ++ l.drop p) = lastLines (l.take n)) ↔
    l.length ≤ n ∨ ∃ text, ∀ z ∈ lastLines (l.take n) ++ lastLines l, z = text := by
  rcases le_or_gt l.length n with hall | hlong
  · refine iff_of_true ⟨by rw [List.take_of_length_le hall], fun p hp => ?_⟩ (.inl hall)
    rw [List.take_of_length_le hall, List.take_of_length_le (by rw [List.length_take]; omega),
      List.take_append_drop]
  · rw [or_iff_right (Nat.not_le.mpr hlong)]
    constructor
    · rintro ⟨hlast, hjoin⟩
      obtain ⟨text, htext⟩ := one_text_of_joined hn hlong (hjoin (l.length - 1) (Nat.sub_le ..))
      refine ⟨text, fun z hz => htext z ?_⟩
      rwa [← hlast, List.mem_append, or_self] at hz
    · rintro ⟨text, htext⟩
      have hkept : (l.take n).length = n := List.length_take_of_le hlong.le
      have hkeep : lastLines (l.take n) = List.replicate 50 text :=
        lastLines_eq_replicate (by omega) fun z hz => htext z (List.mem_append_left _ hz)
      have hlast : lastLines l = List.replicate 50 text :=
        lastLines_eq_replicate (by omega) fun z hz => htext z (List.mem_append_right _ hz)
      refine ⟨hkeep.trans hlast.symm, fun p hp => ?_⟩
      have hjoin : lastLines ((l.take p).take n ++ l.drop p) = List.replicate 50 text := by
        refine lastLines_eq_replicate ?_ fun z hz => htext z (lastLines_joined_subset l n p hz)
        rw [List.length_append, List.length_take, List.length_take, List.length_drop]
        omega
      exact hjoin.trans hkeep.symm

end

/-! ## What the job keeps -/

/-- The messages of log events. -/
def logMessages (events : List Event) : List String :=
  (events.filter (·.type = .log)).map Event.message

@[simp] theorem logMessages_append (events events' : List Event) :
    logMessages (events ++ events') = logMessages events ++ logMessages events' := by
  simp [logMessages]

theorem logMessages_singleton (ev : Event) :
    logMessages [ev] = if ev.type = .log then [ev.message] else [] := by
  unfold logMessages
  split
  · rename_i h
    simp [h]
  · rename_i h
    simp [h]

/-- Aggregating appends a log message unless the log is full. -/
theorem aggregate_logs (a : Aggregates) (ev : Event) :
    (aggregate a ev).logs =
      if a.logs.length < maxLogLines then a.logs ++ logMessages [ev] else a.logs := by
  rw [logMessages_singleton]
  unfold aggregate
  cases ev.type with
  | log =>
    dsimp only
    split <;> rfl
  | phase =>
    dsimp only
    split <;> simp
  | _ => simp

/-- A job keeps the first log messages. -/
theorem logs_foldl (events : List Event) :
    (events.foldl aggregate {}).logs = (logMessages events).take maxLogLines := by
  induction events using List.reverseRecOn with
  | nil => rfl
  | append_singleton events ev ih =>
    rw [List.foldl_append, List.foldl_cons, List.foldl_nil, aggregate_logs, ih,
      logMessages_append]
    have hone : (logMessages [ev]).length ≤ 1 := by
      rw [logMessages_singleton]
      split <;> simp
    split
    · rename_i hlt
      rw [List.length_take] at hlt
      rw [List.take_of_length_le (by omega : (logMessages events).length ≤ maxLogLines),
        List.take_of_length_le (by rw [List.length_append]; omega)]
    · rename_i hge
      rw [List.length_take] at hge
      rw [List.take_append_of_le_length (by omega)]

/-- The log tail of a snapshot. -/
theorem snapshot_logTail {j : Jobs.Job} {s : Snapshot} (h : j.snapshot = some s) :
    s.logTail = lastLines j.logs := by
  unfold Jobs.Job.snapshot at h
  obtain ⟨found, -, h⟩ := Option.bind_eq_some_iff.mp h
  obtain ⟨results, -, h⟩ := Option.bind_eq_some_iff.mp h
  obtain rfl := Option.some.inj h
  rfl

/-! ## What the page keeps -/

/-- The page keeps the last lines of what it has seen, up to an event number. -/
structure Loop.Tails (st : Loop) (seen : List String) (n : Nat) : Prop where
  lastSeq : st.next.lastSeq = n
  tail : st.next.logTail.getD [] = lastLines seen

/-- The next event adds its message if it is a log event. -/
theorem Loop.Tails.next {st : Loop} {seen : List String} {n : Nat} (h : st.Tails seen n)
    {ev : Event} (hseq : ev.seq = n + 1) :
    (applyEvent st (encodeEvent ev)).Tails (seen ++ logMessages [ev]) (n + 1) := by
  have hfresh : ¬ (encodeEvent ev).seq ≤ st.next.lastSeq := by
    rw [h.lastSeq, Nat.not_le]
    exact Nat.lt_of_lt_of_eq (Nat.lt_succ_self n) hseq.symm
  rw [applyEvent, if_neg hfresh, logMessages_singleton]
  simp only [encodeEvent, getD_omitEmpty]
  cases ev.type with
  | log =>
    refine ⟨hseq, ?_⟩
    change lastLines (st.next.logTail.getD [] ++ [ev.message]) = lastLines (seen ++ [ev.message])
    rw [h.tail, lastLines_lastLines_append]
  | phase =>
    simp only [reduceCtorEq, if_false, List.append_nil,
      omitEmpty_eq_some (by decide : "rescan" ≠ "")]
    split
    · exact ⟨hseq, h.tail⟩
    · exact ⟨hseq, h.tail⟩
  | _ =>
    simp only [reduceCtorEq, if_false, List.append_nil]
    exact ⟨hseq, h.tail⟩

theorem Delivered.le {events ds : List Event} {k n : Nat} (h : Delivered events k ds n) :
    k ≤ n := by
  induction h with
  | done k => exact Nat.le_refl k
  | next _ _ ih => exact Nat.le_of_succ_le ih
  | replay _ _ _ ih => exact ih

/-- The messages of the events from one position to another. -/
def messagesBetween (events : List Event) (k n : Nat) : List String :=
  logMessages ((events.take n).drop k)

theorem messagesBetween_self (events : List Event) (k : Nat) : messagesBetween events k k = [] := by
  rw [messagesBetween, List.drop_eq_nil_of_le (List.length_take_le ..)]
  rfl

theorem messagesBetween_append {events : List Event} {k m n : Nat} (hkm : k ≤ m) (hmn : m ≤ n) :
    messagesBetween events k m ++ messagesBetween events m n = messagesBetween events k n := by
  have hsplit : events.take n = events.take m ++ (events.take n).drop m := by
    conv_lhs => rw [← List.take_append_drop m (events.take n), List.take_take, min_eq_left hmn]
  have hdrop : (events.take n).drop k = (events.take m).drop k ++ (events.take n).drop m := by
    conv_lhs => rw [hsplit, List.drop_append, List.drop_drop, List.length_take]
    rcases Nat.le_total m events.length with hle | hle
    · rw [min_eq_left hle, Nat.sub_eq_zero_of_le hkm, Nat.add_zero]
    · have hnil (i : Nat) (hi : m ≤ i) : (events.take n).drop i = [] := by
        refine List.drop_eq_nil_of_le ?_
        rw [List.length_take]
        omega
      rw [hnil m (Nat.le_refl m), hnil _ (Nat.le_add_right ..)]
  rw [messagesBetween, messagesBetween, messagesBetween, hdrop, logMessages_append]

/-- The messages of the event at a position. -/
theorem messagesBetween_succ {events : List Event} {k : Nat} {ev : Event}
    (h : events[k]? = some ev) : messagesBetween events k (k + 1) = logMessages [ev] := by
  obtain ⟨hlt, rfl⟩ := List.getElem?_eq_some_iff.mp h
  rw [messagesBetween, List.take_add_one, List.drop_append_of_le_length (by simp; omega),
    List.drop_eq_nil_of_le (List.length_take_le ..), h]
  rfl

/-- A delivery adds the messages up to its end. -/
theorem Loop.Tails.delivered {events : List Event}
    (hnum : ∀ i ev, events[i]? = some ev → ev.seq = i + 1) {st : Loop} {seen : List String}
    {k n : Nat} {ds : List Event} (h : st.Tails seen k) (hd : Delivered events k ds n) :
    ((ds.map encodeEvent).foldl applyEvent st).Tails (seen ++ messagesBetween events k n) n := by
  induction hd generalizing st seen with
  | done k => rwa [messagesBetween_self, List.append_nil]
  | @next k ev rest n hev hrest ih =>
    have htails := ih (h.next (hnum k ev hev))
    rwa [← messagesBetween_succ hev, List.append_assoc,
      messagesBetween_append (Nat.le_succ k) hrest.le] at htails
  | @replay i k ev rest n hi hev _ ih =>
    have hskip : applyEvent st (encodeEvent ev) = st := by
      rw [applyEvent, if_pos]
      rw [h.lastSeq]
      exact (hnum i ev hev).le.trans hi
    rw [List.map_cons, List.foldl_cons, hskip]
    exact ih h

/-- Several batches that together are a delivery add the messages up to its end. -/
theorem logTail_applyBatches {events : List Event}
    (hnum : ∀ i ev, events[i]? = some ev → ev.seq = i + 1) {batches : List (List Event)}
    {job : Job} {seen : List String} {k n : Nat} (hseq : job.lastSeq = k)
    (htail : job.logTail.getD [] = lastLines seen)
    (hd : Delivered events k batches.flatten n) (scanned : Finset String) :
    (applyBatches job scanned (batches.map (List.map encodeEvent))).1.logTail.getD [] =
      lastLines (seen ++ messagesBetween events k n) := by
  induction batches generalizing job scanned seen k with
  | nil =>
    cases hd
    rwa [messagesBetween_self, List.append_nil]
  | cons batch batches ih =>
    obtain ⟨m, h₁, h₂⟩ := Delivered.split hd
    have hstart : (Loop.start job scanned).Tails seen k := ⟨hseq, htail⟩
    have htails := hstart.delivered hnum h₁
    have hlast : (applyEvents job scanned (batch.map encodeEvent)).1.lastSeq = m := htails.lastSeq
    have hrest := ih hlast htails.tail h₂ (applyEvents job scanned (batch.map encodeEvent)).2
    rwa [List.append_assoc, messagesBetween_append h₁.le h₂.le] at hrest

/-! ## Joining a run -/

/-- An operation records one event at most. -/
theorem events_step (j : Jobs.Job) (op : JobOp) :
    (j.step op).events = j.events ∨ ∃ ev, (j.step op).events = j.events ++ [ev] := by
  cases op with
  | publish ev now => exact .inr ⟨_, (j.publish_same ev now).2.1⟩
  | setState s errMsg now => exact .inl (j.setState_same s errMsg now).2.1
  | subscribe afterSeq => exact .inl rfl
  | unsubscribe i => exact .inl (congrArg Jobs.Job.events (j.body_unsubscribe i) :)
  | receive i => exact .inl (congrArg Jobs.Job.events (j.body_receive i) :)
  | install => exact .inl rfl

/-- A run passes through every number of log messages up to its last one. -/
theorem exists_split_messages {j : Jobs.Job} {ops : List JobOp} {p : Nat}
    (hfrom : (logMessages j.events).length ≤ p)
    (hto : p ≤ (logMessages (j.run ops).events).length) :
    ∃ before after, ops = before ++ after ∧
      (logMessages (j.run before).events).length = p := by
  induction ops generalizing j with
  | nil => exact ⟨[], [], rfl, Nat.le_antisymm hfrom hto⟩
  | cons op ops ih =>
    rcases Nat.eq_or_lt_of_le hfrom with heq | hlt
    · exact ⟨[], op :: ops, rfl, heq⟩
    · have hstep : (logMessages (j.step op).events).length ≤
          (logMessages j.events).length + 1 := by
        rcases events_step j op with he | ⟨ev, he⟩
        · rw [he]
          exact Nat.le_succ _
        · rw [he, logMessages_append, logMessages_singleton, List.length_append]
          split <;> simp
      obtain ⟨before, after, rfl, hcount⟩ := ih (hstep.trans hlt) hto
      exact ⟨op :: before, after, rfl, hcount⟩

/-- The rest of the events may be delivered one by one. -/
theorem delivered_drop {events : List Event} {k : Nat} (h : k ≤ events.length) :
    Delivered events k (events.drop k) events.length := by
  obtain ⟨d, hd⟩ := Nat.exists_eq_add_of_le h
  induction d generalizing k with
  | zero =>
    rw [hd, Nat.add_zero, List.drop_eq_nil_of_le (by omega)]
    exact .done k
  | succ d ih =>
    have hlt : k < events.length := by omega
    rw [List.drop_eq_getElem_cons hlt]
    exact .next (List.getElem?_eq_getElem hlt) (ih hlt (by omega))

/-- The rest of a run may be delivered in one batch. -/
theorem delivered_rest {j : Jobs.Job} (hc : j.Consistent) (after : List JobOp) :
    Delivered (j.run after).events j.events.length
      [(j.run after).events.drop j.events.length].flatten (j.run after).events.length := by
  rw [List.flatten_singleton]
  exact delivered_drop (hc.run after).2.length_le

/-- What a page shows of the log that joined a run at some snapshot. -/
theorem logTail_joined (wf : WireFormat) {j j' : Jobs.Job} {after : List JobOp}
    (hagg : j.Aggregated) (hc : j.Consistent) (hj' : j' = j.run after) :
    ∃ s, j.snapshot = some s ∧ ∀ (scanned : Finset String) (batches : List (List Event)),
      Delivered j'.events j.events.length batches.flatten j'.events.length →
      (applyBatches (encodeSnapshot wf s) scanned
          (batches.map (List.map encodeEvent))).1.logTail.getD [] =
        lastLines (((logMessages j'.events).take (logMessages j.events).length).take maxLogLines ++
          (logMessages j'.events).drop (logMessages j.events).length) := by
  subst hj'
  obtain ⟨s, hs, -, -, -, -, -, hseq⟩ := hc.snapshot
  refine ⟨s, hs, fun scanned batches hd => ?_⟩
  obtain ⟨hc', tail, htail⟩ := hc.run after
  have hmessages : logMessages (j.run after).events = logMessages j.events ++ logMessages tail := by
    rw [← logMessages_append, htail]
  have hlogs : (encodeSnapshot wf s).logTail.getD [] =
      lastLines ((logMessages j.events).take maxLogLines) := by
    rw [← logs_foldl, ← hagg, ← snapshot_logTail hs, encodeSnapshot]
    dsimp only
    split
    · rename_i hnil
      rw [hnil]
      rfl
    · rfl
  rw [logTail_applyBatches hc'.numbered hseq hlogs hd scanned, messagesBetween, List.take_length,
    hmessages, List.take_left, List.drop_left, ← htail, List.drop_left]

/-- The snapshot's log tail is the tail of the log, and the one that a page shows that
joined the run anywhere, exactly if the job kept all messages or the last ones that it
kept and the last ones of all have one text. -/
theorem log_tail_iff (wf : WireFormat) (id sessionId accountId : String) (spec : Engine.Spec)
    (now : Nat) (ops : List JobOp) :
    let start := newJob id sessionId accountId spec now
    let j := start.run ops
    (∃ s, j.snapshot = some s ∧ s.logTail = lastLines (logMessages j.events) ∧
      ∀ before after, ops = before ++ after → ∃ s₀, (start.run before).snapshot = some s₀ ∧
        ∀ (scanned : Finset String) (batches : List (List Event)),
          Delivered j.events (start.run before).events.length batches.flatten j.events.length →
          (applyBatches (encodeSnapshot wf s₀) scanned
            (batches.map (List.map encodeEvent))).1.logTail.getD [] = s.logTail) ↔
    (logMessages j.events).length ≤ maxLogLines ∨
      ∃ text, ∀ msg ∈ lastLines ((logMessages j.events).take maxLogLines) ++
        lastLines (logMessages j.events), msg = text := by
  intro start j
  have hagg (ops : List JobOp) : (start.run ops).Aggregated :=
    (newJob_aggregated id sessionId accountId spec now).run ops
  have hcons (ops : List JobOp) : (start.run ops).Consistent :=
    ((newJob_consistent id sessionId accountId spec now).run ops).1
  obtain ⟨s, hs, -⟩ := (hcons ops).snapshot
  have htail : s.logTail = lastLines ((logMessages j.events).take maxLogLines) := by
    rw [snapshot_logTail hs, hagg ops, logs_foldl]
  rw [← lastLines_take_agree_iff (by decide : 50 ≤ maxLogLines)]
  constructor
  · rintro ⟨s', hs', hlast, hjoin⟩
    obtain rfl : s = s' := Option.some.inj (hs.symm.trans hs')
    refine ⟨htail ▸ hlast, fun p hp => ?_⟩
    obtain ⟨before, after, rfl, rfl⟩ :=
      @exists_split_messages start ops p (Nat.zero_le p) hp
    obtain ⟨s₀, hs₀, hpage⟩ := hjoin before after rfl
    obtain ⟨s₁, hs₁, hjoined⟩ :=
      logTail_joined wf (hagg before) (hcons before) (start.run_append before after)
    obtain rfl : s₀ = s₁ := Option.some.inj (hs₀.symm.trans hs₁)
    have hd := delivered_rest (hcons before) after
    rw [← Jobs.Job.run_append] at hd
    rw [← hjoined ∅ _ hd, hpage ∅ _ hd, htail]
  · rintro ⟨hlast, hjoin⟩
    refine ⟨s, hs, htail.trans hlast, ?_⟩
    rintro before after rfl
    obtain ⟨s₀, hs₀, hjoined⟩ :=
      logTail_joined wf (hagg before) (hcons before) (start.run_append before after)
    refine ⟨s₀, hs₀, fun scanned batches hd => ?_⟩
    have hle : (logMessages (start.run before).events).length ≤ (logMessages j.events).length := by
      obtain ⟨tail, he⟩ := ((hcons before).run after).2
      rw [← Jobs.Job.run_append] at he
      rw [← he, logMessages_append, List.length_append]
      exact Nat.le_add_right ..
    rw [hjoined scanned batches hd, htail]
    exact hjoin _ hle

/-! ## A log that overflows -/

/-- The operations that publish some log messages. -/
def publishLogs (texts : List String) : List JobOp :=
  texts.map fun text => .publish { type := .log, message := text } 1

/-- The messages of a job that only logs. -/
theorem logMessages_publishLogs (j : Jobs.Job) (texts : List String) :
    logMessages (j.run (publishLogs texts)).events = logMessages j.events ++ texts := by
  induction texts generalizing j with
  | nil => simp [publishLogs, Jobs.Job.run]
  | cons text texts ih =>
    have hstep : logMessages (j.step (.publish { type := .log, message := text } 1)).events =
        logMessages j.events ++ [text] := by
      rw [Jobs.Job.step, (j.publish_same _ _).2.1, logMessages_append]
      rfl
    have hrest := ih (j.step (.publish { type := .log, message := text } 1))
    rw [hstep, List.append_assoc, List.singleton_append] at hrest
    exact hrest

/-- After 2000 lines the line that says why the run is stuck is not in the snapshot. -/
theorem log_tail_stuck :
    let j := (newJob "j" "s" "1" ⟨.scan, ["us-east-1"], ["sns-topic"], none, "", [], 0⟩ 1).run
      (publishLogs (List.replicate 2000 "retrying" ++ ["giving up"]))
    ¬ ∃ s, j.snapshot = some s ∧ s.logTail = lastLines (logMessages j.events) := by
  intro j
  rintro ⟨s, hs, htail⟩
  have hagg : j.Aggregated := (newJob_aggregated ..).run _
  have hmessages : logMessages j.events = List.replicate 2000 "retrying" ++ ["giving up"] :=
    logMessages_publishLogs ..
  rw [snapshot_logTail hs, hagg, logs_foldl, hmessages] at htail
  have hmem : "giving up" ∈ lastLines (List.replicate 2000 "retrying" ++ ["giving up"]) := by
    rw [lastLines_append]
    exact List.mem_append_right _ (by decide)
  have hkept : (List.replicate 2000 "retrying" ++ ["giving up"]).take maxLogLines =
      List.replicate 2000 "retrying" := List.take_left' List.length_replicate
  rw [← htail, hkept] at hmem
  have heq := List.eq_of_mem_replicate (List.mem_of_mem_drop hmem)
  exact absurd heq (by decide)

end Broom.Web
