import Mathlib
import SwerveLocalization.Proofs.Localization.Steps

/-!
# What the counters count

Every sample that is judged advances one counter of the tally, which one its
verdict tells, and nothing else touches the counters. So the tally after a run
can be read off the tally before it and the verdicts of the run. Wheel readings
and camera poses share no counter.
-/

namespace SwerveLocalization

/-- The counts of all kinds of elements in a list add up to its length. -/
theorem sum_map_count {β : Type} [DecidableEq β] {kinds list : List β} (hkinds : kinds.Nodup)
    (h : ∀ b ∈ list, b ∈ kinds) : (kinds.map list.count).sum = list.length := by
  have hmem : ∀ b ∈ (list : Multiset β), b ∈ kinds.toFinset :=
    fun b hb => List.mem_toFinset.mpr (h b hb)
  rw [← List.sum_toFinset _ hkinds]
  simpa using Multiset.sum_count_eq_card hmem

/-- The counters of a tally. -/
inductive Counter
  /-- Counts the wheel readings that were applied. -/
  | odometryApplied
  /-- Counts the camera poses that were accepted. -/
  | visionAccepted
  /-- Counts the rejections for one reason. -/
  | rejected (reason : Rejection)
deriving DecidableEq

namespace Counter

/-- The counter that a wheel reading with this verdict advances. -/
def ofDrive : Verdict → Counter
  | .accepted => odometryApplied
  | .rejected r => rejected r

/-- The counter that a camera pose with this verdict advances. -/
def ofPose : Verdict → Counter
  | .accepted => visionAccepted
  | .rejected r => rejected r

/-- Whether a counter counts camera poses and not wheel readings. -/
def isVision : Counter → Bool
  | odometryApplied => false
  | visionAccepted => true
  | rejected r => r.isVision

end Counter

namespace Tally

/-- What a counter shows. -/
def count (t : Tally) : Counter → UInt32
  | .odometryApplied => t.odometryApplied
  | .visionAccepted => t.visionAccepted
  | .rejected r => t.rejectedFor r

/-- A tally whose counters have been advanced, each as often as it is listed,
until it stops at its largest value. -/
def Advanced (advances : List Counter) (t t' : Tally) : Prop :=
  ∀ k, (t'.count k).toNat = min ((t.count k).toNat + advances.count k) (UInt32.size - 1)

variable {t t' t'' : Tally}

theorem toNat_count_le (t : Tally) (k : Counter) : (t.count k).toNat ≤ UInt32.size - 1 := by
  have hlt := (t.count k).toNat_lt
  simp only [UInt32.size]
  omega

theorem advanced_nil (t : Tally) : Advanced [] t t := by
  intro k
  have hle := t.toNat_count_le k
  rw [List.count_nil]
  omega

theorem Advanced.trans {first second : List Counter} (h : Advanced first t t')
    (h' : Advanced second t' t'') : Advanced (first ++ second) t t'' := by
  intro k
  have hfirst := h k
  have hsecond := h' k
  rw [List.count_append]
  omega

/-- A step that advances one counter and leaves the others alone. -/
theorem advanced_singleton {k : Counter} (hk : t'.count k = countOn (t.count k))
    (hother : ∀ q, q ≠ k → t'.count q = t.count q) : Advanced [k] t t' := by
  intro q
  have hle := t.toNat_count_le q
  by_cases hq : q = k
  · subst hq
    rw [hk, toNat_countOn, List.count_singleton_self]
  · rw [hother q hq, List.count_singleton, if_neg (by simpa using Ne.symm hq)]
    omega

theorem advanced_countOdometry (t : Tally) : Advanced [.odometryApplied] t t.countOdometry := by
  apply advanced_singleton rfl
  intro q hq
  cases q with
  | odometryApplied => contradiction
  | visionAccepted => rfl
  | rejected r => rfl

theorem advanced_countVision (t : Tally) : Advanced [.visionAccepted] t t.countVision := by
  apply advanced_singleton rfl
  intro q hq
  cases q with
  | odometryApplied => rfl
  | visionAccepted => contradiction
  | rejected r => rfl

theorem advanced_countRejection (t : Tally) (r : Rejection) :
    Advanced [.rejected r] t (t.countRejection r) := by
  apply advanced_singleton
  · exact (rejectedFor_countRejection t r r).trans (if_pos rfl)
  · intro q hq
    cases q with
    | odometryApplied => rfl
    | visionAccepted => rfl
    | rejected p =>
      apply (rejectedFor_countRejection t r p).trans
      exact if_neg fun h => hq (congrArg Counter.rejected h)

/-- Counters never go back. -/
theorem Advanced.count_le {advances : List Counter} (h : Advanced advances t t') (k : Counter) :
    t.count k ≤ t'.count k := by
  have hk := h k
  have hle := t.toNat_count_le k
  rw [UInt32.le_iff_toNat_le]
  omega

/-- A counter that has not reached its largest value has counted everything. -/
theorem Advanced.count_eq {advances : List Counter} (h : Advanced advances t t') {k : Counter}
    (hroom : (t'.count k).toNat < UInt32.size - 1) :
    (t'.count k).toNat = (t.count k).toNat + advances.count k := by
  have hk := h k
  omega

end Tally

namespace Estimator

open Tally

variable {α : Type} [Scalar α] {e after : Estimator α} {s : DriveSample α} {m : PoseMeasurement α}

/-! ## Samples -/

theorem advanced_addDrive (e : Estimator α) (s : DriveSample α) :
    Advanced [.ofDrive (e.addDrive s).1] e.tally (e.addDrive s).2.tally := by
  rcases addDrive_cases e s with ⟨after, hafter, hdrive⟩ | ⟨r, -, hdrive⟩
  · obtain ⟨-, -, reckoner, -, rfl⟩ := integrate_eq_ok hafter
    rw [hdrive]
    exact advanced_countOdometry e.tally
  · rw [hdrive]
    exact advanced_countRejection e.tally r

theorem advanced_addPose (e : Estimator α) (m : PoseMeasurement α) :
    Advanced [.ofPose (e.addPose m).1] e.tally (e.addPose m).2.tally := by
  rcases addPose_cases e m with ⟨d, -, hpose⟩ | ⟨r, -, hpose⟩
  · rw [hpose]
    exact advanced_countVision e.tally
  · rw [hpose]
    exact advanced_countRejection e.tally r

theorem advanced_addDrives (e : Estimator α) (samples : List (DriveSample α)) :
    Advanced ((e.addDrives samples).1.map fun p => .ofDrive p.2) e.tally
      (e.addDrives samples).2.tally := by
  induction samples generalizing e with
  | nil => exact advanced_nil e.tally
  | cons s rest ih =>
    rw [addDrives_cons, List.map_cons]
    exact (advanced_addDrive e s).trans (ih (e.addDrive s).2)

/-! ## Runs -/

/-- The counters that a command with these verdicts advances. -/
def countedBy : Command α × List Verdict → List Counter
  | (.drive _, verdicts) => verdicts.map .ofDrive
  | (.batch _, verdicts) => verdicts.map .ofDrive
  | (.vision _, verdicts) => verdicts.map .ofPose
  | (.reset _, _) => []

/-- The counters that a run with these verdicts advances. -/
def counted (commands : List (Command α)) (verdicts : List (List Verdict)) : List Counter :=
  (commands.zip verdicts).flatMap countedBy

theorem advanced_perform (e : Estimator α) (c : Command α) :
    Advanced (countedBy (c, (e.perform c).1)) e.tally (e.perform c).2.tally := by
  cases c with
  | drive s => exact advanced_addDrive e s
  | batch samples =>
    have h := advanced_addDrives e (DriveSample.inOrder samples)
    rw [← Function.comp_def, ← List.map_map] at h
    exact h
  | vision m => exact advanced_addPose e m
  | reset p => exact advanced_nil e.tally

/-- The tally after a run is the one before it, advanced by the verdicts of the
run. -/
theorem advanced_run (e : Estimator α) (commands : List (Command α)) :
    Advanced (counted commands (e.run commands).1) e.tally (e.run commands).2.tally := by
  induction commands generalizing e with
  | nil => exact advanced_nil e.tally
  | cons c rest ih => exact (advanced_perform e c).trans (ih (e.perform c).2)

/-! ## Reasons -/

/-- A wheel reading is rejected for reasons of its own. -/
theorem isVision_addDrive (e : Estimator α) (s : DriveSample α) :
    (Counter.ofDrive (e.addDrive s).1).isVision = false := by
  rcases addDrive_verdict_cases e s with hverdict | hverdict | hverdict <;> rw [hverdict] <;> rfl

/-- A camera pose is rejected for reasons of its own. -/
theorem isVision_addPose (e : Estimator α) (m : PoseMeasurement α) :
    (Counter.ofPose (e.addPose m).1).isVision = true := by
  rw [addPose_verdict]
  split_ifs
  · rfl
  · rfl
  · split
    · rfl
    · split_ifs <;> rfl

end Estimator

end SwerveLocalization
