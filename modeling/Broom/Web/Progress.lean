import Broom.Web.Agreement

/-!
# Scan progress

The server keeps the set of pairs that reported progress; a snapshot carries only its
size, and a page that joins later starts a set of its own. The page shows the larger of
the two sizes, so it agrees with the server only when one of the two sets contains the
other.
-/

namespace Broom.Web

open Broom.Core Broom.Engine Broom.Jobs

/-! ## Pairs -/

/-- The pair of a type and a region that an event reports progress for. -/
def progressOf (ev : Event) : Option (String × String) :=
  if ev.type = .scanProgress then some (ev.resourceType, ev.region) else none

/-- The pairs that some events report progress for. -/
def progressPairs (events : List Event) : Finset (String × String) :=
  (events.filterMap progressOf).toFinset

/-- The string that both sides keep for a pair. -/
def barred (p : String × String) : String := p.1 ++ "|" ++ p.2

/-- Progress is reported for a type and a region with names, and no type has a bar. -/
def ProgressNamed (ev : Event) : Prop :=
  ∀ p ∈ progressOf ev, p.1 ≠ "" ∧ p.2 ≠ "" ∧ '|' ∉ p.1.toList

instance : DecidablePred ProgressNamed := fun ev =>
  inferInstanceAs (Decidable (∀ p ∈ progressOf ev, _))

theorem progressPairs_append (events events' : List Event) :
    progressPairs (events ++ events') = progressPairs events ∪ progressPairs events' := by
  simp [progressPairs]

theorem progressPairs_singleton_of_none {ev : Event} (h : progressOf ev = none) :
    progressPairs [ev] = ∅ := by
  simp [progressPairs, h]

theorem progressPairs_singleton_of_some {ev : Event} {p : String × String}
    (h : progressOf ev = some p) : progressPairs [ev] = {p} := by
  simp [progressPairs, h]

theorem mem_progressPairs {events : List Event} {p : String × String} :
    p ∈ progressPairs events ↔ ∃ ev ∈ events, progressOf ev = some p := by
  simp [progressPairs]

theorem progressOf_of_ne {ev : Event} (h : ev.type ≠ .scanProgress) : progressOf ev = none :=
  if_neg h

/-- The first bar ends the type. -/
theorem barred_inj {p q : String × String} (hp : '|' ∉ p.1.toList) (hq : '|' ∉ q.1.toList)
    (h : barred p = barred q) : p = q := by
  have hbar : "|".toList = ['|'] := by decide
  have hlist := congrArg (fun s : String => cutFirst '|' s.toList) h
  simp only [barred, String.toList_append, hbar, List.append_assoc, List.singleton_append,
    cutFirst_append _ hp, cutFirst_append _ hq, Option.some.injEq, Prod.mk.injEq] at hlist
  exact Prod.ext (String.toList_inj.mp hlist.1) (String.toList_inj.mp hlist.2)

/-- Pairs are counted by their strings. -/
theorem card_image_barred {events : List Event} (h : ∀ ev ∈ events, ProgressNamed ev) :
    ((progressPairs events).image barred).card = (progressPairs events).card := by
  apply Finset.card_image_of_injOn
  intro p hp q hq hpq
  obtain ⟨ev, hev, he⟩ := mem_progressPairs.mp hp
  obtain ⟨ev', hev', he'⟩ := mem_progressPairs.mp hq
  exact barred_inj (h ev hev p he).2.2 (h ev' hev' q he').2.2 hpq

/-! ## The server's count -/

/-- An event adds its pair to the scanned ones. -/
theorem aggregate_scanned (a : Aggregates) (ev : Event) :
    (aggregate a ev).scanned = a.scanned ∪ (progressPairs [ev]).image barred := by
  by_cases htype : ev.type = .scanProgress
  · have hev : progressOf ev = some (ev.resourceType, ev.region) := if_pos htype
    rw [progressPairs_singleton_of_some hev, Finset.image_singleton, Finset.union_comm]
    simp only [aggregate, htype, barred]
    rfl
  · rw [progressPairs_singleton_of_none (progressOf_of_ne htype), Finset.image_empty,
      Finset.union_empty]
    unfold aggregate
    split
    · split <;> rfl
    · exact absurd ‹_› htype
    · rfl
    · rfl
    · rfl
    · rfl
    · split <;> rfl
    · rfl
    · rfl

/-- The server has seen exactly the pairs of its recorded events. -/
theorem scanned_foldl_aggregate (a : Aggregates) (events : List Event) :
    (events.foldl aggregate a).scanned = a.scanned ∪ (progressPairs events).image barred := by
  induction events generalizing a with
  | nil => simp [progressPairs]
  | cons ev events ih =>
    have happ := progressPairs_append [ev] events
    rw [List.singleton_append] at happ
    rw [List.foldl_cons, ih, aggregate_scanned, happ, Finset.image_union, Finset.union_assoc]

/-- A snapshot counts the pairs of the recorded events. -/
theorem snapshot_scanned {j : Jobs.Job} (h : j.Aggregated) {s : Snapshot}
    (hs : j.snapshot = some s) (hnamed : ∀ ev ∈ j.events, ProgressNamed ev) :
    s.scanned = (progressPairs j.events).card := by
  have hcard : s.scanned = j.scanned.card := by
    obtain ⟨found, -, hs⟩ := Option.bind_eq_some_iff.mp hs
    obtain ⟨results, -, hs⟩ := Option.bind_eq_some_iff.mp hs
    exact (congrArg Snapshot.scanned (Option.some.inj hs)).symm
  have hagg : j.scanned = (progressPairs j.events).image barred := by
    have hfold := scanned_foldl_aggregate {} j.events
    rw [← h] at hfold
    rw [hfold]
    exact Finset.empty_union _
  rw [hcard, hagg, card_image_barred hnamed]

/-! ## The page's count -/

/-- The pairs reported between two positions. -/
def pairsBetween (events : List Event) (k m : Nat) : Finset (String × String) :=
  progressPairs ((events.take m).drop k)

/-- The scan progress of a run comes after its rescan marker. -/
def RescanFirst (events : List Event) : Prop :=
  ∀ i ev, events[i]? = some ev → ev.type = .phase → ev.phase = "rescan" →
    progressPairs (events.take i) = ∅

/-- The loop counts the pairs reported since the page's snapshot. -/
structure Loop.Counts (st : Loop) (events : List Event) (k m : Nat) : Prop where
  scanned : st.scanned = (pairsBetween events k m).image barred
  shown : st.next.scanned =
    max (progressPairs (events.take k)).card (pairsBetween events k m).card
  lastSeq : st.next.lastSeq = m

section

variable {events : List Event} {k m n : Nat}

theorem pairsBetween_self : pairsBetween events k k = ∅ := by
  simp [pairsBetween, progressPairs, List.drop_eq_nil_of_le (List.length_take_le k events)]

theorem pairsBetween_succ {ev : Event} (hkm : k ≤ m) (hev : events[m]? = some ev) :
    pairsBetween events k (m + 1) = pairsBetween events k m ∪ progressPairs [ev] := by
  have hlen : k ≤ (events.take m).length := by
    have hlt := (List.getElem?_eq_some_iff.mp hev).1
    rw [List.length_take]
    omega
  rw [pairsBetween, List.take_add_one, hev, Option.toList_some, List.drop_append_of_le_length hlen,
    progressPairs_append]
  rfl

theorem pairsBetween_subset : pairsBetween events k m ⊆ progressPairs (events.take m) := by
  intro p hp
  obtain ⟨ev, hev, he⟩ := mem_progressPairs.mp hp
  exact mem_progressPairs.mpr ⟨ev, List.mem_of_mem_drop hev, he⟩

/-- An event that was seen before does not count. -/
theorem Loop.Counts.replay {st : Loop} (h : st.Counts events k m) {ev : Event} (hseq : ev.seq ≤ m) :
    applyEvent st (encodeEvent ev) = st :=
  if_pos (h.lastSeq ▸ hseq)

/-- The next event counts if it reports a pair that is new since the snapshot. -/
theorem Loop.Counts.next {st : Loop} (h : st.Counts events k m) (hfirst : RescanFirst events)
    (hkm : k ≤ m) {ev : Event} (hev : events[m]? = some ev) (hseq : ev.seq = m + 1)
    (hnamed : ∀ ev ∈ events, ProgressNamed ev) :
    (applyEvent st (encodeEvent ev)).Counts events k (m + 1) := by
  have hfresh : ¬ (encodeEvent ev).seq ≤ st.next.lastSeq := by
    rw [h.lastSeq, Nat.not_le]
    exact Nat.lt_of_lt_of_eq (Nat.lt_succ_self m) hseq.symm
  have hbetween := pairsBetween_succ hkm hev
  have hother (htype : ev.type ≠ .scanProgress) :
      pairsBetween events k (m + 1) = pairsBetween events k m := by
    rw [hbetween, progressPairs_singleton_of_none (progressOf_of_ne htype), Finset.union_empty]
  rw [applyEvent, if_neg hfresh]
  simp only [encodeEvent]
  cases htype : ev.type with
  | scanProgress =>
    have hof : progressOf ev = some (ev.resourceType, ev.region) := if_pos htype
    obtain ⟨ht, hg, -⟩ := hnamed ev (List.mem_of_getElem? hev) _ hof
    have hset : insert (interpolated (omitEmpty ev.resourceType) ++ "|" ++
        interpolated (omitEmpty ev.region)) st.scanned =
          (pairsBetween events k (m + 1)).image barred := by
      rw [(omitEmpty_eq_some ht).mpr rfl, (omitEmpty_eq_some hg).mpr rfl, hbetween, h.scanned,
        progressPairs_singleton_of_some hof, Finset.image_union, Finset.image_singleton,
        Finset.union_comm]
      rfl
    have hcard : ((pairsBetween events k (m + 1)).image barred).card =
        (pairsBetween events k (m + 1)).card :=
      card_image_barred fun ev hev =>
        hnamed ev (List.mem_of_mem_take (List.mem_of_mem_drop hev))
    have hle : (pairsBetween events k m).card ≤ (pairsBetween events k (m + 1)).card := by
      rw [hbetween]
      exact Finset.card_le_card Finset.subset_union_left
    refine ⟨hset, ?_, hseq⟩
    dsimp only
    rw [hset, hcard, h.shown, max_assoc, max_eq_right hle]
  | phase =>
    have hsame := hother (by rw [htype]; decide)
    simp only [omitEmpty_eq_some (by decide : "rescan" ≠ "")]
    split
    · -- nothing was reported before, so the page forgets nothing
      rename_i hrescan
      have hempty := hfirst m ev hev htype hrescan
      have hbefore : progressPairs (events.take k) = ∅ := by
        refine Finset.subset_empty.mp (hempty ▸ fun p hp => ?_)
        obtain ⟨e, he, hp⟩ := mem_progressPairs.mp hp
        rw [← Nat.min_eq_left hkm, ← List.take_take] at he
        exact mem_progressPairs.mpr ⟨e, List.mem_of_mem_take he, hp⟩
      have hsince : pairsBetween events k m = ∅ :=
        Finset.subset_empty.mp (hempty ▸ pairsBetween_subset)
      exact ⟨by rw [hsame, hsince]; rfl, by rw [hsame, hsince, hbefore]; rfl, hseq⟩
    · exact ⟨by rw [hsame]; exact h.scanned, by rw [hsame]; exact h.shown, hseq⟩
  | _ =>
    have hsame := hother (by rw [htype]; decide)
    exact ⟨by rw [hsame]; exact h.scanned, by rw [hsame]; exact h.shown, hseq⟩

/-- A delivery counts the pairs up to its end. -/
theorem Loop.Counts.delivered {st : Loop} {ds : List Event} (h : st.Counts events k m)
    (hfirst : RescanFirst events) (hnum : ∀ i ev, events[i]? = some ev → ev.seq = i + 1)
    (hnamed : ∀ ev ∈ events, ProgressNamed ev) (hkm : k ≤ m) (hd : Delivered events m ds n) :
    ((ds.map encodeEvent).foldl applyEvent st).Counts events k n ∧ k ≤ n := by
  induction hd generalizing st with
  | done m => exact ⟨h, hkm⟩
  | @next m ev rest n hev _ ih =>
    exact ih (h.next hfirst hkm hev (hnum m ev hev) hnamed) (Nat.le_succ_of_le hkm)
  | @replay i m ev rest n hi hev _ ih =>
    rw [List.map_cons, List.foldl_cons, h.replay (hnum i ev hev ▸ hi)]
    exact ih h hkm

/-- Several batches that together are a delivery count the pairs up to its end. -/
theorem scanned_applyBatches {batches : List (List Event)} {job : Job}
    {scanned : Finset String} (hscanned : scanned = (pairsBetween events k m).image barred)
    (hshown : job.scanned =
      max (progressPairs (events.take k)).card (pairsBetween events k m).card)
    (hseq : job.lastSeq = m) (hfirst : RescanFirst events)
    (hnum : ∀ i ev, events[i]? = some ev → ev.seq = i + 1)
    (hnamed : ∀ ev ∈ events, ProgressNamed ev) (hkm : k ≤ m)
    (hd : Delivered events m batches.flatten n) :
    (applyBatches job scanned (batches.map (List.map encodeEvent))).1.scanned =
      max (progressPairs (events.take k)).card (pairsBetween events k n).card := by
  induction batches generalizing job scanned m with
  | nil =>
    cases hd
    exact hshown
  | cons batch batches ih =>
    obtain ⟨l, hd₁, hd₂⟩ := Delivered.split hd
    have hstart : (Loop.start job scanned).Counts events k m := ⟨hscanned, hshown, hseq⟩
    obtain ⟨hcounts, hkl⟩ := hstart.delivered hfirst hnum hnamed hkm hd₁
    exact ih hcounts.scanned hcounts.shown hcounts.lastSeq hkl hd₂

end

/-! ## Agreement -/

/-- The larger of two sets has the size of their union exactly when it contains the other. -/
theorem max_card_eq_card_union_iff {α : Type*} [DecidableEq α] {s t : Finset α} :
    max s.card t.card = (s ∪ t).card ↔ t ⊆ s ∨ s ⊆ t := by
  constructor
  · intro h
    rcases le_total t.card s.card with hle | hle
    · rw [max_eq_left hle] at h
      have hs : s = s ∪ t := Finset.eq_of_subset_of_card_le Finset.subset_union_left h.ge
      exact .inl (hs ▸ Finset.subset_union_right)
    · rw [max_eq_right hle] at h
      have ht : t = s ∪ t := Finset.eq_of_subset_of_card_le Finset.subset_union_right h.ge
      exact .inr (ht ▸ Finset.subset_union_left)
  · rintro (h | h)
    · rw [Finset.union_eq_left.mpr h, max_eq_left (Finset.card_le_card h)]
    · rw [Finset.union_eq_right.mpr h, max_eq_right (Finset.card_le_card h)]

/-- A page that joins a run shows the server's number of scanned pairs in the end exactly
when no pair that is reported after the page joined is new, or every pair that was
reported before is reported again. -/
theorem scanned_agrees_iff (wf : WireFormat) (id sessionId accountId : String)
    (spec : Engine.Spec) (now : Nat) (before after : List JobOp) (batches : List (List Event))
    {j j' : Jobs.Job} (hj : j = (newJob id sessionId accountId spec now).run before)
    (hj' : j' = j.run after)
    (hd : Delivered j'.events j.events.length batches.flatten j'.events.length)
    (hfirst : RescanFirst j'.events) (hnamed : ∀ ev ∈ j'.events, ProgressNamed ev) :
    ∃ s s', j.snapshot = some s ∧ j'.snapshot = some s' ∧
      (((applyBatches (encodeSnapshot wf s) ∅
            (batches.map (List.map encodeEvent))).1.scanned = s'.scanned ∧
          s'.scanned = (progressPairs j'.events).card) ↔
        progressPairs (j'.events.drop j.events.length) ⊆ progressPairs j.events ∨
          progressPairs j.events ⊆ progressPairs (j'.events.drop j.events.length)) := by
  subst hj hj'
  have hagg := (newJob_aggregated id sessionId accountId spec now).run before
  have hagg' := hagg.run after
  obtain ⟨hc, -⟩ := (newJob_consistent id sessionId accountId spec now).run before
  obtain ⟨hc', hpre⟩ := hc.run after
  generalize (newJob id sessionId accountId spec now).run before = j at *
  generalize j.run after = j' at *
  obtain ⟨s, hs, -, -, -, -, -, hseq⟩ := hc.snapshot
  obtain ⟨s', hs', -⟩ := hc'.snapshot
  have htake : j'.events.take j.events.length = j.events :=
    (List.prefix_iff_eq_take.mp hpre).symm
  have hsplit := List.take_append_drop j.events.length j'.events
  rw [htake] at hsplit
  have hshown := snapshot_scanned hagg hs fun ev hev => hnamed ev (hpre.subset hev)
  have hcount := snapshot_scanned hagg' hs' hnamed
  have hpage : (applyBatches (encodeSnapshot wf s) ∅
      (batches.map (List.map encodeEvent))).1.scanned =
        max (progressPairs (j'.events.take j.events.length)).card
          (pairsBetween j'.events j.events.length j'.events.length).card := by
    refine scanned_applyBatches ?_ ?_ hseq hfirst hc'.numbered hnamed le_rfl hd
    · rw [pairsBetween_self, Finset.image_empty]
    · rw [pairsBetween_self, htake, Finset.card_empty, Nat.max_zero]
      exact hshown
  have hunion : progressPairs j'.events = progressPairs j.events ∪
      progressPairs (j'.events.drop j.events.length) := by
    rw [← progressPairs_append, hsplit]
  refine ⟨s, s', hs, hs', ?_⟩
  rw [hpage, hcount, pairsBetween, List.take_length, htake, hunion,
    ← max_card_eq_card_union_iff]
  exact and_iff_left rfl

private def progressEvent (t : String) (seq now : Nat) : Event where
  type := .scanProgress
  resourceType := t
  region := "us-east-1"
  seq := seq
  atTime := now

private def progressSpec : Engine.Spec := ⟨.scan, ["us-east-1"], ["sns", "sqs"], none, "", [], 0⟩

private def progressFormat : WireFormat where
  time n := toString n
  duration n := toString n

/-- A page joins after the first pair, which is reported again before the second one. -/
theorem scanned_agrees_repeated :
    ∃ s s', ((newJob "j" "s" "1" progressSpec 1).run
        [.publish (progressEvent "sns" 0 0) 2]).snapshot = some s ∧
      (((newJob "j" "s" "1" progressSpec 1).run [.publish (progressEvent "sns" 0 0) 2]).run
        [.publish (progressEvent "sns" 0 0) 3, .publish (progressEvent "sqs" 0 0) 4]).snapshot =
          some s' ∧
      (applyBatches (encodeSnapshot progressFormat s) ∅
        ([[progressEvent "sns" 2 3], [progressEvent "sqs" 3 4]].map
          (List.map encodeEvent))).1.scanned = s'.scanned := by
  have hphase : ∀ ev ∈ (((newJob "j" "s" "1" progressSpec 1).run
      [.publish (progressEvent "sns" 0 0) 2]).run
      [.publish (progressEvent "sns" 0 0) 3, .publish (progressEvent "sqs" 0 0) 4]).events,
        ev.type ≠ .phase := by decide
  obtain ⟨s, s', hs, hs', hiff⟩ := scanned_agrees_iff progressFormat "j" "s" "1" progressSpec 1
    [.publish (progressEvent "sns" 0 0) 2]
    [.publish (progressEvent "sns" 0 0) 3, .publish (progressEvent "sqs" 0 0) 4]
    [[progressEvent "sns" 2 3], [progressEvent "sqs" 3 4]] rfl rfl
    (.next rfl <| .next rfl <| .done 3)
    (fun i ev hi htype => absurd htype (hphase ev (List.mem_of_getElem? hi))) (by decide)
  exact ⟨s, s', hs, hs', (hiff.mpr (.inr (by decide))).1⟩

/-- A page joins after the first pair and hears of the second one: it shows one pair, the
server two. -/
theorem scanned_disagrees :
    ∃ s s', ((newJob "j" "s" "1" progressSpec 1).run
        [.publish (progressEvent "sns" 0 0) 2]).snapshot = some s ∧
      (((newJob "j" "s" "1" progressSpec 1).run [.publish (progressEvent "sns" 0 0) 2]).run
        [.publish (progressEvent "sqs" 0 0) 3]).snapshot = some s' ∧
      (applyBatches (encodeSnapshot progressFormat s) ∅
        ([[progressEvent "sqs" 2 3]].map (List.map encodeEvent))).1.scanned = 1 ∧
      s'.scanned = 2 :=
  ⟨_, _, rfl, rfl, rfl, rfl⟩

end Broom.Web
