import Mathlib
import SwerveLocalization.Proofs.Localization.Timeline

/-!
# Which camera poses are accepted

A camera pose is accepted if it is well formed and the record reaches back to its
time, and otherwise the first requirement that it fails is named. The record
never reaches back past a reset: its times are those of the latest readings that
have been applied since. So a camera pose that was captured before the first of
them is never accepted, whatever was recorded before the reset.
-/

namespace SwerveLocalization.Estimator

open Scalar RealScalar

variable {α : Type} [Scalar α]

/-- The verdict on a sample of which each requirement either holds or is a reason to
reject it. -/
def firstFailing : List (Bool × Rejection) → Verdict
  | [] => .accepted
  | (holds, r) :: rest => if holds then firstFailing rest else .rejected r

/-- What an estimator requires of a camera pose. -/
def requirements (e : Estimator α) (m : PoseMeasurement α) : List (Bool × Rejection) :=
  let d := m.deviations
  [(m.pose.isFinite && isFinite m.time, .nonFinitePose),
    (decide (0 < d.x) && decide (0 < d.y) && decide (0 < d.z)
      && !(isInfinite d.x && isInfinite d.y && isInfinite d.z), .invalidDeviations),
    (!e.trajectory.isEmpty, .noHistory),
    (e.trajectory.oldest?.any fun oldest => decide (oldest.time ≤ m.time), .stale)]

theorem firstFailing_eq_accepted_iff {checks : List (Bool × Rejection)} :
    firstFailing checks = .accepted ↔ ∀ c ∈ checks, c.1 = true := by
  induction checks with
  | nil => simp [firstFailing]
  | cons c rest ih =>
    obtain ⟨holds, r⟩ := c
    cases holds with
    | false => simp [firstFailing]
    | true => simpa [firstFailing] using ih

variable {e : Estimator α} {m : PoseMeasurement α} {settings : EstimatorSettings α}
  {applied : List (DriveSample α)}

/-! ## The verdict -/

/-- The verdict names the first requirement that fails, if the times of the record are finite. -/
theorem addPose_eq_firstFailing [RealScalar α]
    (hfinite : ∀ w ∈ e.trajectory.entries, isFinite w.time = true) (m : PoseMeasurement α) :
    (e.addPose m).1 = firstFailing (requirements e m) := by
  have hempty : e.trajectory.isEmpty = e.trajectory.oldest?.isNone := by
    unfold Trajectory.isEmpty Trajectory.oldest?
    cases e.trajectory.entries <;> rfl
  have hform : requirements e m = [(m.isFinite, .nonFinitePose),
      (m.hasUsableDeviations, .invalidDeviations), (!e.trajectory.isEmpty, .noHistory),
      (e.trajectory.oldest?.any fun oldest => decide (oldest.time ≤ m.time), .stale)] := rfl
  rw [addPose_verdict, hform, hempty]
  cases hm : m.isFinite with
  | false => rfl
  | true =>
    cases m.hasUsableDeviations with
    | false => rfl
    | true =>
      cases holdest : e.trajectory.oldest? with
      | none => rfl
      | some oldest =>
        have htime : isFinite m.time = true := (Bool.and_eq_true_iff.mp hm).2
        have hlate : ¬ m.time < oldest.time ↔ oldest.time ≤ m.time :=
          RealScalar.not_lt (isNaN_of_isFinite htime)
            (isNaN_of_isFinite (hfinite oldest (List.mem_of_head? holdest)))
        by_cases hbefore : m.time < oldest.time
        · have hnot : ¬ oldest.time ≤ m.time := RealScalar.not_le_of_lt hbefore
          simp [firstFailing, hbefore, hnot]
        · simp [firstFailing, hbefore, hlate.mp hbefore]

theorem forall_requirements_iff : (∀ c ∈ requirements e m, c.1 = true) ↔
    m.pose.isFinite = true ∧ isFinite m.time = true ∧
      (0 < m.deviations.x ∧ 0 < m.deviations.y ∧ 0 < m.deviations.z) ∧
      ¬ (isInfinite m.deviations.x = true ∧ isInfinite m.deviations.y = true ∧
        isInfinite m.deviations.z = true) ∧
      ∃ oldest, e.trajectory.oldest? = some oldest ∧ oldest.time ≤ m.time := by
  have hrecord : (¬ e.trajectory.isEmpty = true ∧
      e.trajectory.oldest?.any (fun oldest => decide (oldest.time ≤ m.time)) = true) ↔
        ∃ oldest, e.trajectory.oldest? = some oldest ∧ oldest.time ≤ m.time := by
    unfold Trajectory.isEmpty Trajectory.oldest?
    cases e.trajectory.entries <;> simp
  simp only [requirements, List.forall_mem_cons, Bool.and_eq_true, Bool.not_eq_eq_eq_not,
    Bool.not_true, ← Bool.not_eq_true, decide_eq_true_eq]
  rw [← hrecord]
  tauto

/-! ## How far the record reaches back -/

/-- The times of the record are those of the latest readings. -/
structure Recorded (settings : EstimatorSettings α) (applied : List (DriveSample α))
    (e : Estimator α) : Prop where
  coherent : Coherent settings applied e
  times : e.trajectory.entries.map Waypoint.time <:+ applied.map DriveSample.time

theorem recorded_build {chassis : Chassis α} {pose : Pose α}
    (h : build chassis pose settings = .ok e) : Recorded settings [] e := by
  refine ⟨coherent_build h, ?_⟩
  obtain ⟨-, -, -, rfl⟩ := build_eq_ok h
  exact List.suffix_refl []

theorem Recorded.addPose (h : Recorded settings applied e) (m : PoseMeasurement α) :
    Recorded settings applied (e.addPose m).2 := by
  refine ⟨h.coherent.addPose m, ?_⟩
  rcases addPose_cases e m with ⟨d, -, hpose⟩ | ⟨r, -, hpose⟩
  · rw [hpose]
    exact (Trajectory.times_shift e.trajectory d).symm ▸ h.times
  · rw [hpose]
    exact h.times

theorem Recorded.resetPose (h : Recorded settings applied e) (p : Pose α) :
    Recorded settings [] (e.resetPose p) :=
  ⟨h.coherent.reset p, List.suffix_refl []⟩

section Runs

variable [RealScalar α]

/-- A reading adds its time at the end, and only the oldest times fall out. -/
theorem Recorded.integrate (h : Recorded settings applied e) (hcapacity : 1 ≤ settings.capacity)
    (hwindow : 0 ≤ settings.window) {s : DriveSample α} {after : Estimator α}
    (hafter : e.integrate s = .ok after) : Recorded settings (applied ++ [s]) after := by
  refine ⟨h.coherent.integrate hcapacity hwindow hafter, ?_⟩
  obtain ⟨-, htrajectory⟩ := Trajectory.push?_eq_some (h.coherent.push?_of_integrate hafter)
  have hsuffix := (Trajectory.evict_suffix e.trajectory.capacity e.trajectory.window
    e.trajectory.entries ⟨s.time, after.pose⟩).map Waypoint.time
  rw [List.map_append] at hsuffix
  rw [htrajectory, List.map_append]
  exact hsuffix.trans ((List.suffix_append_inj_of_length_eq rfl).mpr ⟨h.times, rfl⟩)

theorem Recorded.addDrive (h : Recorded settings applied e) (hcapacity : 1 ≤ settings.capacity)
    (hwindow : 0 ≤ settings.window) (s : DriveSample α) :
    Recorded settings (applied ++ acceptedOf [s] [(e.addDrive s).1]) (e.addDrive s).2 :=
  addDrive_preserves (fun _ hafter => h.integrate hcapacity hwindow hafter) fun r =>
    ⟨h.coherent.recordRejection r, h.times⟩

theorem Recorded.run (h : Recorded settings applied e) (hcapacity : 1 ≤ settings.capacity)
    (hwindow : 0 ≤ settings.window) (commands : List (Command α)) :
    Recorded settings ((commands.zip (e.run commands).1).foldl appliedAfter applied)
      (e.run commands).2 :=
  run_preserves_since (P := Recorded settings)
    (fun _ _ s hrecorded => hrecorded.addDrive hcapacity hwindow s)
    (fun _ _ m hrecorded => hrecorded.addPose m) (fun _ _ p hrecorded => hrecorded.resetPose p)
    h commands

end Runs

/-- What has been applied since the last reset are the latest of all readings applied. -/
theorem foldl_appliedAfter_suffix (before : List (DriveSample α))
    (l : List (Command α × List Verdict)) :
    l.foldl appliedAfter before <:+ before ++ l.flatMap appliedBy := by
  induction l generalizing before with
  | nil => simp
  | cons c rest ih =>
    obtain ⟨c, verdicts⟩ := c
    have hstep : appliedAfter before (c, verdicts) <:+ before ++ appliedBy (c, verdicts) := by
      cases c with
      | drive s => exact List.suffix_refl _
      | batch samples => exact List.suffix_refl _
      | vision m =>
        rw [appliedBy, List.append_nil]
        exact List.suffix_refl _
      | reset p => exact List.nil_suffix
    obtain ⟨front, hfront⟩ := hstep
    rw [List.foldl_cons, List.flatMap_cons, ← List.append_assoc, ← hfront, List.append_assoc]
    exact (ih _).trans (List.suffix_append _ _)

/-- Of the latest readings, the first is the oldest. -/
theorem Timely.head_le [RealScalar α] {all : List (DriveSample α)} (h : Timely all e)
    (hlatest : applied <:+ all) {first q : DriveSample α} (hfirst : applied.head? = some first)
    (hq : q ∈ applied) : first.time ≤ q.time := by
  have hordered := h.ordered.sublist hlatest.sublist
  obtain ⟨rest, rfl⟩ := List.head?_eq_some_iff.mp hfirst
  rcases List.mem_cons.mp hq with rfl | hrest
  · exact RealScalar.le_refl (h.finite q (hlatest.subset List.mem_cons_self))
  · exact RealScalar.le_of_lt ((List.pairwise_cons.mp hordered).1 q hrest)

/-! ## Estimators on binary64 numbers -/

/-- After any run, a camera pose is accepted exactly if pose and time are finite, every
deviation is positive and one of them is finite, and the record is not empty and its oldest
entry not later. Otherwise the first of these that fails is the reason. A record that is not
too young always has a pose to compare with. And no camera pose is accepted that is older than
the first reading applied since the last reset. -/
theorem addPose_exact {chassis : Chassis Float} {pose : Pose Float}
    {settings : EstimatorSettings Float} {start : Estimator Float}
    (hbuild : build chassis pose settings = .ok start) (commands : List (Command Float))
    (m : PoseMeasurement Float) :
    let e := (start.run commands).2
    let applied := appliedSinceReset commands (start.run commands).1
    let d := m.deviations
    ((e.addPose m).1 = .accepted ↔
      m.pose.isFinite = true ∧ m.time.isFinite = true ∧ (0 < d.x ∧ 0 < d.y ∧ 0 < d.z) ∧
        ¬ (isInfinite d.x = true ∧ isInfinite d.y = true ∧ isInfinite d.z = true) ∧
        ∃ oldest, e.trajectory.oldest? = some oldest ∧ oldest.time ≤ m.time) ∧
      (e.addPose m).1 = firstFailing (requirements e m) ∧
      (∀ oldest, e.trajectory.oldest? = some oldest → ¬ m.time < oldest.time →
        (e.trajectory.poseAt? m.time).isSome = true) ∧
      ((e.addPose m).1 = .accepted →
        ∃ first, applied.head? = some first ∧ first.time ≤ m.time) := by
  intro e applied d
  obtain ⟨hcapacity, hwindow, -, -⟩ := build_eq_ok hbuild
  have hrecorded : Recorded settings applied e :=
    (recorded_build hbuild).run (by omega) (RealScalar.le_of_lt hwindow) commands
  have htimely : Timely (appliedIn commands (start.run commands).1) e :=
    (timely_build hbuild).run commands
  have hlatest : applied <:+ appliedIn commands (start.run commands).1 :=
    foldl_appliedAfter_suffix [] _
  have hverdict := addPose_eq_firstFailing hrecorded.coherent.finite m
  have haccepted : (e.addPose m).1 = .accepted ↔
      m.pose.isFinite = true ∧ m.time.isFinite = true ∧ (0 < d.x ∧ 0 < d.y ∧ 0 < d.z) ∧
        ¬ (isInfinite d.x = true ∧ isInfinite d.y = true ∧ isInfinite d.z = true) ∧
        ∃ oldest, e.trajectory.oldest? = some oldest ∧ oldest.time ≤ m.time := by
    rw [hverdict, firstFailing_eq_accepted_iff]
    exact forall_requirements_iff
  refine ⟨haccepted, hverdict, fun _ holdest hlate => isSome_poseAt? holdest hlate, ?_⟩
  intro hok
  obtain ⟨-, -, -, -, oldest, holdest, hle⟩ := haccepted.mp hok
  have hmem : oldest.time ∈ applied.map DriveSample.time :=
    hrecorded.times.subset (List.mem_map_of_mem (List.mem_of_head? holdest))
  obtain ⟨q, hq, htime⟩ := List.mem_map.mp hmem
  obtain ⟨first, rest, hcons⟩ := List.exists_cons_of_ne_nil (List.ne_nil_of_mem hq)
  have hfirst : applied.head? = some first := by
    rw [hcons]
    rfl
  refine ⟨first, hfirst, RealScalar.le_trans (htimely.head_le hlatest hfirst hq) ?_⟩
  rw [htime]
  exact hle

/-- Two readings, a reset, and a third reading. -/
def restarted : List (Command Float) :=
  let reading : DriveReading Float := ⟨0, .replicate ⟨0, 0⟩⟩
  [.drive ⟨1, reading⟩, .drive ⟨2, reading⟩, .reset ⟨⟨3, 4⟩, 0⟩, .drive ⟨3, reading⟩]

/-- A camera pose from before the third reading comes too late, as its time has been forgotten. -/
theorem addPose_exact_restarted :
    let chassis : Chassis Float := .square
    let start := fresh chassis .origin
    let e := (start.run restarted).2
    let seen (time : Float) : PoseMeasurement Float := ⟨.origin, time, ⟨1, 1, infinity⟩⟩
    Chassis.build (Chassis.rectangle 1 1) = .ok chassis ∧
      build chassis .origin .standard = .ok start ∧
      (e.addPose (seen 2.5)).1 = .rejected .stale ∧ (e.addPose (seen 3.5)).1 = .accepted ∧
      ∃ first, (appliedSinceReset restarted (start.run restarted).1).head? = some first ∧
        first.time ≤ 3.5 := by
  intro chassis start e seen
  have hbuild : build chassis .origin .standard = .ok start := build_fresh chassis .origin
  obtain ⟨-, hearly, -, -⟩ := addPose_exact hbuild restarted (seen 2.5)
  obtain ⟨-, hlate, -, hfirst⟩ := addPose_exact hbuild restarted (seen 3.5)
  have haccepted : (e.addPose (seen 3.5)).1 = .accepted := hlate.trans (by decide +kernel)
  exact ⟨Chassis.build_square, hbuild, hearly.trans (by decide +kernel), haccepted, hfirst haccepted⟩

end SwerveLocalization.Estimator
