import Broom.Api.Repeat
import Broom.Core.Duration
import Broom.Web.Answers

/-!
# Scanning again

The pages of a clean-up and of a history record offer to scan again. They ask for the
regions and types of the job, and read the hours of the time filter off the text of Go's
duration.
-/

namespace Broom.Web

open Broom.Api Broom.Core Broom.Engine Broom.Jobs

/-! ## Hours -/

/-- The seconds of a unit. -/
def unitSeconds : Char → Option Nat
  | 'h' => some 3600
  | 'm' => some 60
  | 's' => some 1
  | _ => none

/-- The seconds of some digits, some digits of a fraction, and a unit, and the text behind.
Whole numbers of this size are exact as floating point. -/
def scaled (digits frac : List Char) : List Char → Option (Rat × List Char)
  | unit :: rest => (unitSeconds unit).map fun s =>
      ((Nat.ofDigitChars 10 digits 0 + Nat.ofDigitChars 10 frac 0 / 10 ^ frac.length) * s, rest)
  | [] => none

/-- A match of `(\d+(?:\.\d+)?)(h|m|s)` at the start of a text. -/
def amount (text : List Char) : Option (Rat × List Char) :=
  let digits := text.takeWhile Char.isDigit
  if digits = [] then none
  else
    match text.dropWhile Char.isDigit with
    | '.' :: rest =>
      let frac := rest.takeWhile Char.isDigit
      if frac = [] then none else scaled digits frac (rest.dropWhile Char.isDigit)
    | rest => scaled digits [] rest

/-- The seconds of all matches; where there is none, the search goes on at the next
character. -/
def seconds : Nat → List Char → Rat
  | 0, _ | _ + 1, [] => 0
  | fuel + 1, c :: cs =>
    match amount (c :: cs) with
    | some (secs, rest) => secs + seconds fuel rest
    | none => seconds fuel cs

/-- The whole hours of a Go duration, if there are any. -/
def olderThanHours : Option String → Option Int
  | none => none
  | some goDuration =>
    let secs := seconds (goDuration.toList.length + 1) goDuration.toList
    let h := (secs / 3600 + 1 / 2).floor
    if 0 < h then some h else none

theorem amount_fmtInt (n : Nat) {unit : Char} {s : Nat} (h : unitSeconds unit = some s)
    (rest : List Char) :
    amount (Duration.fmtInt n (unit :: rest)) = some (((n * s : Nat) : Rat), rest) := by
  have hall : ∀ c ∈ Nat.toDigits 10 n, c.isDigit = true := fun c => Json.isDigit_of_mem_toDigits
  have hunit : unit.isDigit = false ∧ unit ≠ '.' := by
    unfold unitSeconds at h
    split at h
    · decide
    · decide
    · decide
    · cases h
  have htake : (unit :: rest).takeWhile Char.isDigit = [] := by simp [hunit.1]
  have hdrop : (unit :: rest).dropWhile Char.isDigit = unit :: rest := by simp [hunit.1]
  unfold amount Duration.fmtInt
  rw [List.takeWhile_append_of_pos hall, List.dropWhile_append_of_pos hall, htake, hdrop,
    List.append_nil, if_neg Nat.toDigits_ne_nil]
  split
  · rename_i heq
    exact absurd (List.cons.inj heq).1 hunit.2
  · rw [scaled, h, Nat.ofDigitChars_ten_toDigits]
    simp

/-- A whole number and its unit count as many seconds. -/
theorem seconds_fmtInt (fuel n : Nat) {unit : Char} {s : Nat} (h : unitSeconds unit = some s)
    (rest : List Char) : seconds (fuel + 1) (Duration.fmtInt n (unit :: rest)) =
      ((n * s : Nat) : Rat) + seconds fuel rest := by
  have hamount := amount_fmtInt n h rest
  cases htext : Duration.fmtInt n (unit :: rest) with
  | nil =>
    rw [htext] at hamount
    cases hamount
  | cons c cs =>
    rw [htext] at hamount
    rw [seconds, hamount]

theorem seconds_nil (fuel : Nat) : seconds fuel [] = 0 := by
  cases fuel <;> rfl

/-- The hours, minutes and seconds of a clock add up. -/
theorem seconds_clock (fuel n : Nat) : seconds (fuel + 3) (Duration.clock n) = n := by
  have hs : unitSeconds 's' = some 1 := rfl
  have hm : unitSeconds 'm' = some 60 := rfl
  have hh : unitSeconds 'h' = some 3600 := rfl
  unfold Duration.clock
  split
  · rw [seconds_fmtInt _ _ hs, seconds_nil]
    simp
  · split
    · rw [seconds_fmtInt _ _ hm, seconds_fmtInt _ _ hs, seconds_nil]
      norm_cast
      omega
    · rw [seconds_fmtInt _ _ hh, seconds_fmtInt _ _ hm, seconds_fmtInt _ _ hs, seconds_nil]
      norm_cast
      omega

/-- A whole number is rounded to itself. -/
theorem floor_add_half (n : Int) : ((n : Rat) + 1 / 2).floor = n := by
  have hhalf : (1 / 2 : Rat).floor = 0 := by decide +kernel
  rw [add_comm, Rat.floor_add_intCast, hhalf, zero_add]

/-- The hours of a duration of whole hours. -/
theorem olderThanHours_format {h : Nat} (hpos : 0 < h) :
    olderThanHours (some (Duration.format (h * hour))) = some (h : Int) := by
  have hd : (h * hour : Int) = (h * 3600 * 10 ^ 9 : Nat) := by
    rw [hour]
    push_cast
    omega
  have hclock := Duration.format_seconds (show 0 < h * 3600 by omega)
  rw [hd, olderThanHours, hclock]
  obtain ⟨fuel, hfuel⟩ : ∃ fuel, (Duration.clock (h * 3600)).length + 1 = fuel + 3 := by
    refine ⟨(Duration.clock (h * 3600)).length - 2, ?_⟩
    have hlen : 2 ≤ (Duration.clock (h * 3600)).length := by
      unfold Duration.clock
      split <;> [skip; split] <;> simp [Duration.fmtInt] <;> omega
    omega
  have hround : ((((h * 3600 : Nat) : Rat) / 3600 + 1 / 2).floor) = (h : Int) := by
    have hdiv : ((h * 3600 : Nat) : Rat) / 3600 = (h : Int) := by
      push_cast
      ring
    rw [hdiv, floor_add_half]
  rw [hfuel, seconds_clock, hround, if_pos (by omega)]

/-! ## The request -/

/-- The request of the page of a clean-up. -/
def rescan (job : Job) : CreateScanRequest where
  regions := job.spec.regions
  resourceTypes := job.spec.resourceTypes
  olderThanHours := olderThanHours job.spec.olderThan

/-- The request of the page of a history record. -/
def HistoryEntry.rescan (entry : HistoryEntry) : CreateScanRequest where
  regions := entry.regions
  resourceTypes := entry.resourceTypes
  olderThanHours := olderThanHours entry.olderThan

/-- The time filter that a page reads is the one that the handler made. -/
theorem hours_read {cat : Catalog} {spec : Engine.Spec} (h : Repeatable cat spec) :
    (olderThanHours (spec.olderThan.map Duration.format)).map (· * hour) = spec.olderThan := by
  cases holder : spec.olderThan with
  | none => rfl
  | some d =>
    obtain ⟨n, hpos, -, rfl⟩ := h.olderThan d holder
    rw [Option.map_some, olderThanHours_format hpos]
    rfl

/-- Whatever has become of a job, scanning again from its page, from its record or from the
record of its list view is one and the same request; it is accepted, for any identity, and
asks for what the job was about. For a scan it makes the spec of that scan. -/
theorem scan_again {quote : String → String} {cat : Catalog} {spec : Engine.Spec}
    {keys : Finset String} (h : Accepted quote cat spec keys) (id sessionId accountId : String)
    (created : Nat) (ops : List JobOp) (time : Nat → String) (skips : Bool) :
    ∃ s, ((newJob id sessionId accountId spec created).run ops).snapshot = some s ∧
      let wf : WireFormat := ⟨time, Duration.format⟩
      let job := (encodeSnapshot wf s).parsed skips
      let brief := encodeBrief wf ((newJob id sessionId accountId spec created).run ops).brief
      (toHistory job).rescan = rescan job ∧ (briefToHistory brief).rescan = rescan job ∧
      (∀ identity : Identity, (rescan job).spec quote cat identity =
        .ok { mode := .scan, regions := spec.regions, resourceTypes := spec.resourceTypes,
              excludeIAMUserName := identity.iamUserName, olderThan := spec.olderThan }) ∧
      ∀ (req : CreateScanRequest) identity, req.spec quote cat identity = .ok spec →
        (rescan job).spec quote cat identity = .ok spec := by
  have hrepeat := h.repeatable
  obtain ⟨s, hs, -⟩ := ((newJob_consistent id sessionId accountId spec created).run ops).1.snapshot
  have hsame : ((newJob id sessionId accountId spec created).run ops).spec = spec :=
    (congrArg (fun i => i.2.2.2) (Job.identity_run _ ops) :)
  have hspec : s.spec = spec := (snapshot_own hs).2.1.trans hsame
  have hjob : rescan ((encodeSnapshot ⟨time, Duration.format⟩ s).parsed skips) =
      ⟨spec.regions, spec.resourceTypes,
        olderThanHours (spec.olderThan.map Duration.format)⟩ := by
    rw [← hspec]
    cases skips <;> rfl
  have hbrief : spec.olderThan.filter (0 < ·) = spec.olderThan := by
    cases holder : spec.olderThan with
    | none => rfl
    | some d =>
      obtain ⟨n, hpos, -, rfl⟩ := hrepeat.olderThan d holder
      exact Option.filter_some_pos (decide_eq_true (Int.mul_pos (by omega) (by decide)))
  have hagain := @Repeatable.again quote cat spec hrepeat _ (hours_read hrepeat)
  refine ⟨s, hs, ?_, ?_, fun identity => ?_, fun req identity hreq => ?_⟩
  · cases skips <;> rfl
  · rw [hjob, HistoryEntry.rescan, briefToHistory, encodeBrief, Job.brief]
    dsimp only
    rw [hsame, hbrief]
  · rw [hjob]
    exact hagain identity
  · rw [hjob]
    exact (hagain identity).trans (congrArg Except.ok (CreateScanRequest.spec_eq hreq))

/-- The scan of the topics and the users, asked for again, is the same scan. -/
theorem topicScan_again :
    ∃ s, topicScanJob.snapshot = some s ∧
      (rescan ((encodeSnapshot ⟨smallFormat.time, Duration.format⟩ s).parsed true)).spec
        (fun name => name) topicCatalog ⟨"123456789012", ""⟩ = .ok topicScanSpec := by
  have hscan : topicScan.spec (fun name => name) topicCatalog ⟨"123456789012", ""⟩ =
    .ok topicScanSpec := rfl
  obtain ⟨s, hs, -, -, -, hagain⟩ := scan_again (.scan hscan) "j" "s" "123456789012" 1 topicScanOps
    smallFormat.time true
  exact ⟨s, hs, hagain topicScan _ hscan⟩

end Broom.Web
