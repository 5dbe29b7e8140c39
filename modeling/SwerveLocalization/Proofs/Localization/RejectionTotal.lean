import Mathlib
import SwerveLocalization.Binary64.Arithmetic
import SwerveLocalization.Proofs.Localization.Intake

/-!
# The total of the rejections

Each counter stops at the largest word, but their total is a plain sum of words,
which starts again at zero when it has become too large. Main statement: the total
can be trusted over a run, that is it never overflows, never falls and is never
less than the count of one reason, exactly if the counters the run ends with add up
to less than one word can hold. This is so as long as fewer samples are rejected
than a word can count, and then the total is their number; one reason alone never
endangers it, but two together do.
-/

namespace SwerveLocalization

/-! ## Sums of words -/

/-- The sum of two words, if it is a word. -/
def addChecked (a b : UInt32) : Option UInt32 :=
  if a.toNat + b.toNat < UInt32.size then some (a + b) else none

theorem toNat_foldl_add (words : List UInt32) (start : UInt32) :
    (words.foldl (· + ·) start).toNat
      = (start.toNat + (words.map UInt32.toNat).sum) % UInt32.size := by
  induction words generalizing start with
  | nil => exact (Nat.mod_eq_of_lt start.toNat_lt).symm
  | cons w rest ih =>
    rw [List.foldl_cons, ih, UInt32.toNat_add, List.map_cons, List.sum_cons, ← Nat.add_assoc]
    exact Nat.mod_add_mod _ _ _

/-- Words may be added one by one without overflow exactly if their sum is a word. -/
theorem foldlM_addChecked (words : List UInt32) (start : UInt32) :
    words.foldlM addChecked start
      = if start.toNat + (words.map UInt32.toNat).sum < UInt32.size
        then some (words.foldl (· + ·) start) else none := by
  induction words generalizing start with
  | nil => exact (if_pos start.toNat_lt).symm
  | cons w rest ih =>
    rw [List.foldlM_cons, List.map_cons, List.sum_cons, ← Nat.add_assoc, List.foldl_cons]
    by_cases hroom : start.toNat + w.toNat < UInt32.size
    · have hsum : (start + w).toNat = start.toNat + w.toNat := by
        rw [UInt32.toNat_add]
        exact Nat.mod_eq_of_lt hroom
      rw [addChecked, if_pos hroom, ← hsum]
      exact ih (start + w)
    · rw [addChecked, if_neg hroom, if_neg (by omega)]
      rfl

/-! ## The counters of the reasons -/

namespace Rejection

theorem mem_all (r : Rejection) : r ∈ all := List.mem_of_getElem? (all_getElem?_index r)

theorem nodup_all : all.Nodup := by decide

end Rejection

namespace Tally

variable {t t' : Tally}

/-- The total of the rejections, if no sum on the way to it overflows. -/
def checkedRejected (t : Tally) : Option UInt32 := t.rejections.toList.foldlM addChecked 0

/-- The total of the rejections as a natural number. -/
def rejectionSum (t : Tally) : ℕ := (Rejection.all.map fun r => (t.rejectedFor r).toNat).sum

theorem toList_rejections (t : Tally) : t.rejections.toList = Rejection.all.map t.rejectedFor := by
  apply List.ext_getElem
  · simp [Rejection.all]
  · intro i hi hi'
    rw [Vector.length_toList] at hi
    interval_cases i <;> rfl

theorem sum_rejections (t : Tally) :
    (t.rejections.toList.map UInt32.toNat).sum = t.rejectionSum := by
  rw [toList_rejections, List.map_map]
  rfl

theorem checkedRejected_eq (t : Tally) :
    t.checkedRejected = if t.rejectionSum < UInt32.size then some t.rejected else none := by
  unfold checkedRejected
  rw [foldlM_addChecked, sum_rejections, UInt32.toNat_zero, Nat.zero_add]
  rfl

theorem toNat_rejected (t : Tally) : t.rejected.toNat = t.rejectionSum % UInt32.size := by
  unfold rejected
  rw [toNat_foldl_add, sum_rejections, UInt32.toNat_zero, Nat.zero_add]

theorem rejectedFor_le_sum (t : Tally) (r : Rejection) :
    (t.rejectedFor r).toNat ≤ t.rejectionSum := by
  apply List.single_le_sum (fun _ _ => Nat.zero_le _)
  exact List.mem_map_of_mem r.mem_all

theorem rejectionSum_mono (h : ∀ r, t.rejectedFor r ≤ t'.rejectedFor r) :
    t.rejectionSum ≤ t'.rejectionSum :=
  List.sum_le_sum fun r _ => UInt32.le_iff_toNat_le.mp (h r)

/-- A total that is what it says: it could be added up without overflow, and no reason
has been counted more often. -/
structure TotalSound (t : Tally) : Prop where
  checked : t.checkedRejected = some t.rejected
  rejectedFor_le : ∀ r, t.rejectedFor r ≤ t.rejected

theorem toNat_rejected_of_lt (h : t.rejectionSum < UInt32.size) :
    t.rejected.toNat = t.rejectionSum := by
  rw [toNat_rejected, Nat.mod_eq_of_lt h]

theorem totalSound_iff (t : Tally) : t.TotalSound ↔ t.rejectionSum < UInt32.size := by
  constructor
  · rintro ⟨hchecked, -⟩
    rw [checkedRejected_eq] at hchecked
    by_contra hlarge
    rw [if_neg hlarge] at hchecked
    contradiction
  · intro hroom
    refine ⟨?_, fun r => ?_⟩
    · rw [checkedRejected_eq, if_pos hroom]
    · rw [UInt32.le_iff_toNat_le, toNat_rejected_of_lt hroom]
      exact t.rejectedFor_le_sum r

end Tally

namespace Estimator

open Tally

variable {α : Type} [Scalar α]

/-! ## What a run has rejected -/

/-- The reasons among the verdicts of a run, each as often as it was given. -/
def reasonsIn (verdicts : List (List Verdict)) : List Rejection :=
  verdicts.flatten.filterMap Verdict.reason?

theorem reasonsIn_append (first second : List (List Verdict)) :
    reasonsIn (first ++ second) = reasonsIn first ++ reasonsIn second := by
  rw [reasonsIn, List.flatten_append, List.filterMap_append]
  rfl

theorem count_rejected {f : Verdict → Counter} (haccepted : ∀ r, f .accepted ≠ .rejected r)
    (hrejected : ∀ r, f (.rejected r) = .rejected r) (verdicts : List Verdict) (r : Rejection) :
    (verdicts.map f).count (.rejected r) = (verdicts.filterMap Verdict.reason?).count r := by
  induction verdicts with
  | nil => rfl
  | cons v rest ih =>
    cases v with
    | accepted =>
      rw [List.map_cons, List.count_cons_of_ne (haccepted r), ih]
      rfl
    | rejected q =>
      have hsame : (Counter.rejected q == Counter.rejected r) = (q == r) := by
        rw [Bool.eq_iff_iff, beq_iff_eq, beq_iff_eq, Counter.rejected.injEq]
      rw [List.map_cons, hrejected, List.count_cons, ih, hsame]
      exact List.count_cons.symm

theorem count_advancedBy (e : Estimator α) (i : Intake α) (r : Rejection) :
    (advancedBy (i, (e.take i).1)).count (.rejected r)
      = ((e.take i).1.filterMap Verdict.reason?).count r := by
  have hdrive := count_rejected (f := Counter.ofDrive) nofun (fun _ => rfl)
  have hpose := count_rejected (f := Counter.ofPose) nofun (fun _ => rfl)
  cases i with
  | command c =>
    cases c with
    | drive s => exact hdrive _ r
    | batch samples => exact hdrive _ r
    | vision m => exact hpose _ r
    | reset p => rfl
  | turnedAway q => exact hpose [.rejected q] r

theorem toNat_rejectedFor_take (e : Estimator α) (i : Intake α) (r : Rejection) :
    ((e.take i).2.tally.rejectedFor r).toNat
      = min ((e.tally.rejectedFor r).toNat + ((e.take i).1.filterMap Verdict.reason?).count r)
        (UInt32.size - 1) := by
  rw [← count_advancedBy]
  exact advanced_take e i (.rejected r)

/-- The count of a reason after a run is the one before it and the rejections for this reason,
until it stops at its largest value. -/
theorem toNat_rejectedFor_takeEach (e : Estimator α) (intakes : List (Intake α)) (r : Rejection) :
    ((e.takeEach intakes).2.tally.rejectedFor r).toNat
      = min ((e.tally.rejectedFor r).toNat + (reasonsIn (e.takeEach intakes).1).count r)
        (UInt32.size - 1) := by
  induction intakes generalizing e with
  | nil =>
    have hle := e.tally.toNat_count_le (.rejected r)
    exact (Nat.min_eq_left hle).symm
  | cons i rest ih =>
    have hfirst := toNat_rejectedFor_take e i r
    have hrest := ih (e.take i).2
    rw [takeEach_cons, reasonsIn, List.flatten_cons, List.filterMap_append, List.count_append]
    rw [reasonsIn] at hrest
    dsimp only
    omega

theorem rejectedFor_takeEach_le (e : Estimator α) (intakes : List (Intake α)) (r : Rejection) :
    e.tally.rejectedFor r ≤ (e.takeEach intakes).2.tally.rejectedFor r := by
  have hcount := toNat_rejectedFor_takeEach e intakes r
  have hle : (e.tally.rejectedFor r).toNat ≤ UInt32.size - 1 := e.tally.toNat_count_le (.rejected r)
  rw [UInt32.le_iff_toNat_le]
  omega

/-- The rejections never become fewer. -/
theorem rejectionSum_takeEach_le (e : Estimator α) (intakes : List (Intake α)) :
    e.tally.rejectionSum ≤ (e.takeEach intakes).2.tally.rejectionSum :=
  rejectionSum_mono (rejectedFor_takeEach_le e intakes)

theorem rejectionSum_le_longer (e : Estimator α) {first intakes : List (Intake α)}
    (h : first <+: intakes) :
    (e.takeEach first).2.tally.rejectionSum ≤ (e.takeEach intakes).2.tally.rejectionSum := by
  obtain ⟨second, rfl⟩ := h
  rw [takeEach_append]
  exact rejectionSum_takeEach_le _ second

section Built

variable {chassis : Chassis α} {pose : Pose α} {settings : EstimatorSettings α}
  {start : Estimator α}

theorem toNat_rejectedFor_of_build (hbuild : build chassis pose settings = .ok start)
    (intakes : List (Intake α)) (r : Rejection) :
    ((start.takeEach intakes).2.tally.rejectedFor r).toNat
      = min ((reasonsIn (start.takeEach intakes).1).count r) (UInt32.size - 1) := by
  obtain ⟨-, -, -, hstart⟩ := build_eq_ok hbuild
  have hzero : (start.tally.rejectedFor r).toNat = 0 := by
    rw [hstart]
    exact congrArg UInt32.toNat (rejectedFor_zero r)
  rw [toNat_rejectedFor_takeEach, hzero, Nat.zero_add]

theorem rejectionSum_of_build (hbuild : build chassis pose settings = .ok start)
    (intakes : List (Intake α)) :
    (start.takeEach intakes).2.tally.rejectionSum
      = (Rejection.all.map fun r =>
          min ((reasonsIn (start.takeEach intakes).1).count r) (UInt32.size - 1)).sum := by
  simp only [rejectionSum, toNat_rejectedFor_of_build hbuild]

/-- No reason can be given too often for its counter while fewer rejections than a word can
count have been made. -/
theorem sum_counts {reasons : List Rejection} (h : reasons.length < UInt32.size) :
    (Rejection.all.map fun r => min (reasons.count r) (UInt32.size - 1)).sum = reasons.length := by
  have hcount : ∀ r ∈ Rejection.all, min (reasons.count r) (UInt32.size - 1) = reasons.count r := by
    intro r _
    have hle : reasons.count r ≤ reasons.length := List.count_le_length
    omega
  rw [List.map_congr_left hcount]
  exact sum_map_count Rejection.nodup_all fun r _ => r.mem_all

/-- Over all that an estimator takes in from its construction on, the total of its rejections
is sound and never falls, exactly if the rejections for each reason, as far as they are counted,
add up to less than a word can hold. While fewer samples have been rejected than that, the total
is their number. -/
theorem rejected_takeEach_iff (hbuild : build chassis pose settings = .ok start)
    (intakes : List (Intake α)) :
    let reasons := reasonsIn (start.takeEach intakes).1
    ((∀ first, first <+: intakes → (start.takeEach first).2.tally.TotalSound) ∧
        (∀ first i, first ++ [i] <+: intakes →
          (start.takeEach first).2.tally.rejected
            ≤ (start.takeEach (first ++ [i])).2.tally.rejected) ↔
      (Rejection.all.map fun r => min (reasons.count r) (UInt32.size - 1)).sum < UInt32.size) ∧
    (reasons.length < UInt32.size →
      (start.takeEach intakes).2.tally.rejected.toNat = reasons.length) := by
  intro reasons
  have hsum := rejectionSum_of_build hbuild intakes
  rw [← hsum]
  refine ⟨⟨?_, ?_⟩, ?_⟩
  · rintro ⟨hsound, -⟩
    exact (totalSound_iff _).mp (hsound intakes List.prefix_rfl)
  · intro hroom
    have hbelow : ∀ {first}, first <+: intakes →
        (start.takeEach first).2.tally.rejectionSum < UInt32.size :=
      fun hfirst => (rejectionSum_le_longer start hfirst).trans_lt hroom
    refine ⟨fun first hfirst => (totalSound_iff _).mpr (hbelow hfirst), fun first i hfirst => ?_⟩
    have hshorter : first <+: first ++ [i] := List.prefix_append first [i]
    rw [UInt32.le_iff_toNat_le, toNat_rejected_of_lt (hbelow (hshorter.trans hfirst)),
      toNat_rejected_of_lt (hbelow hfirst)]
    exact rejectionSum_le_longer start hshorter
  · intro hfew
    rw [sum_counts hfew] at hsum
    rw [toNat_rejected_of_lt (hsum.trans_lt hfew), hsum]

end Built

/-! ## Estimators on binary64 numbers -/

/-- An estimator that has taken in nothing yet. -/
def idleEstimator : Estimator Float := fresh .square .origin

/-- A camera pose whose time is not a number. -/
def timelessPose : PoseMeasurement Float := ⟨.origin, Binary64.nan, ⟨1, 1, 1⟩⟩

/-- A wheel reading whose time is not a number. -/
def timelessReading : DriveSample Float := ⟨Binary64.nan, ⟨0, .replicate ⟨0, 0⟩⟩⟩

theorem build_idleEstimator : build .square .origin .standard = .ok idleEstimator :=
  build_fresh .square .origin

/-- The estimator and the gate reject a sample each, for reasons of their own. -/
theorem rejected_takeEach_iff_gateAndEstimator :
    let intakes : List (Intake Float) :=
      [.command (.drive timelessReading), .turnedAway .noTags, .command (.vision timelessPose)]
    let after := (idleEstimator.takeEach intakes).2.tally
    after.TotalSound ∧ after.rejected.toNat = 3 ∧
      (idleEstimator.takeEach (intakes.take 2)).2.tally.rejected ≤ after.rejected := by
  intro intakes after
  have hreasons : reasonsIn (idleEstimator.takeEach intakes).1
      = [.nonFiniteOdometry, .noTags, .nonFinitePose] := by decide +kernel
  obtain ⟨hiff, hnumber⟩ := rejected_takeEach_iff build_idleEstimator intakes
  rw [hreasons] at hiff hnumber
  obtain ⟨hsound, hrises⟩ := hiff.mpr (by decide)
  exact ⟨hsound intakes List.prefix_rfl, hnumber (by decide),
    hrises (intakes.take 2) _ List.prefix_rfl⟩

theorem verdicts_replicate {i : Intake α} {verdicts : List Verdict}
    (h : ∀ e : Estimator α, (e.take i).1 = verdicts) (n : ℕ) (e : Estimator α) :
    (e.takeEach (List.replicate n i)).1 = List.replicate n verdicts := by
  induction n generalizing e with
  | zero => rfl
  | succ n ih =>
    rw [List.replicate_succ, List.replicate_succ, takeEach_cons, ih, h]

theorem take_timelessPose (e : Estimator Float) :
    (e.take (.command (.vision timelessPose))).1 = [.rejected .nonFinitePose] := by
  have hfinite : timelessPose.isFinite = false := by decide +kernel
  show [(e.addPose timelessPose).1] = _
  rw [addPose_verdict, if_pos hfinite]

theorem take_timelessReading (e : Estimator Float) :
    (e.take (.command (.drive timelessReading))).1 = [.rejected .nonFiniteOdometry] := by
  have hfinite : Scalar.isFinite timelessReading.time = false := by decide +kernel
  show [(e.addDrive timelessReading).1] = _
  rw [addDrive_verdict, if_pos hfinite]

/-- What an estimator has taken in after `n` camera poses and one reading, all of them
without a time. -/
def flood (n : ℕ) : List (Intake Float) :=
  List.replicate n (.command (.vision timelessPose)) ++ [.command (.drive timelessReading)]

theorem reasonsIn_replicate (n : ℕ) (e : Estimator Float) :
    reasonsIn (e.takeEach (List.replicate n (.command (.vision timelessPose)))).1
      = List.replicate n .nonFinitePose := by
  rw [verdicts_replicate take_timelessPose, reasonsIn, List.flatten_replicate_singleton]
  exact List.filterMap_replicate_of_some rfl

theorem reasonsIn_flood (n : ℕ) (e : Estimator Float) :
    reasonsIn (e.takeEach (flood n)).1
      = List.replicate n .nonFinitePose ++ [.nonFiniteOdometry] := by
  rw [flood, takeEach_append, reasonsIn_append, reasonsIn_replicate, takeEach_cons,
    take_timelessReading]
  rfl

variable {n : ℕ}

theorem rejectionSum_replicate (hn : n < UInt32.size) :
    (idleEstimator.takeEach
      (List.replicate n (.command (.vision timelessPose)))).2.tally.rejectionSum = n := by
  have hlength : (List.replicate n Rejection.nonFinitePose).length < UInt32.size := by
    rw [List.length_replicate]
    exact hn
  rw [rejectionSum_of_build build_idleEstimator, reasonsIn_replicate, sum_counts hlength,
    List.length_replicate]

theorem rejectionSum_flood (hn : n < UInt32.size) :
    (idleEstimator.takeEach (flood n)).2.tally.rejectionSum = n + 1 := by
  have hle : n ≤ UInt32.size - 1 := Nat.le_of_lt_succ hn
  rw [rejectionSum_of_build build_idleEstimator, reasonsIn_flood]
  simpa [Rejection.all, List.count_replicate] using hle

theorem rejectedFor_flood (hn : n < UInt32.size) :
    ((idleEstimator.takeEach (flood n)).2.tally.rejectedFor .nonFinitePose).toNat = n := by
  have hle : n ≤ UInt32.size - 1 := Nat.le_of_lt_succ hn
  rw [toNat_rejectedFor_of_build build_idleEstimator, reasonsIn_flood]
  simpa [List.count_replicate] using hle

/-- As many rejected camera poses as a counter can count, and one rejected reading: the total
has been the largest word and is now zero, less than the count of one of its reasons, and could
not be added up without overflow. -/
theorem not_totalSound_flood :
    let before := (idleEstimator.takeEach
      (List.replicate (UInt32.size - 1) (.command (.vision timelessPose)))).2.tally
    let after := (idleEstimator.takeEach (flood (UInt32.size - 1))).2.tally
    Chassis.build (Chassis.rectangle 1 1) = .ok idleEstimator.reckoner.chassis ∧
      build .square .origin .standard = .ok idleEstimator ∧
      before.rejected.toNat = UInt32.size - 1 ∧ after.checkedRejected = none ∧
      after.rejected.toNat = 0 ∧ (after.rejectedFor .nonFinitePose).toNat = UInt32.size - 1 := by
  intro before after
  have hlast : UInt32.size - 1 < UInt32.size := by decide
  have hbefore : before.rejectionSum = UInt32.size - 1 := rejectionSum_replicate hlast
  have hafter : after.rejectionSum = UInt32.size := rejectionSum_flood hlast
  refine ⟨Chassis.build_square, build_idleEstimator, ?_, ?_, ?_, rejectedFor_flood hlast⟩
  · rw [toNat_rejected, hbefore, Nat.mod_eq_of_lt hlast]
  · rw [checkedRejected_eq, hafter, if_neg (lt_irrefl _)]
  · rw [toNat_rejected, hafter, Nat.mod_self]

end Estimator

end SwerveLocalization
