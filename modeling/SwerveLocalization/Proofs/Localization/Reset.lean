import Mathlib
import SwerveLocalization.Proofs.Binary64.Arithmetic
import SwerveLocalization.Proofs.Localization.Coherence
import SwerveLocalization.Proofs.Localization.Counting

/-!
# A reset forgets everything but the last reading

What has happened to an estimator shows in its pose, in its record with the
time of the newest camera pose, in its tally, and in the last reading, from
which further motion is measured. A reset replaces the pose and clears the
record. Main statement: two estimators of one kind that have applied the same
reading last, after any two pasts, cannot be told apart from a reset on, except
by the counts they had before. Not even all of the last reading matters: the
angles at which the wheels stood are never looked at again.
-/

namespace SwerveLocalization

variable {α : Type}

/-- What of a reading the next motion is measured from. -/
def DriveReading.anchor (r : DriveReading α) : α × Wheels α :=
  (r.gyro, r.travel.map WheelTravel.distance)

/-- What of a sample later decisions and motions depend on. -/
def DriveSample.anchor (s : DriveSample α) : α × α × Wheels α := (s.time, s.reading.anchor)

namespace Estimator

/-! ## What a reset leaves -/

/-- An estimator as it was built, so far as its chassis and its settings go, that
holds the last of the readings it has applied. -/
structure Anchored (chassis : Chassis α) (settings : EstimatorSettings α)
    (applied : List (DriveSample α)) (e : Estimator α) : Prop where
  chassis_eq : e.reckoner.chassis = chassis
  settings_eq : e.settings = settings
  capacity_eq : e.trajectory.capacity = settings.capacity
  window_eq : e.trajectory.window = settings.window
  time_eq : e.lastOdometry = applied.getLast?.map DriveSample.time
  reading_eq : e.reckoner.baseline = applied.getLast?.map DriveSample.reading

/-- Estimators that may differ in their tallies and in the angles of their last
readings, and in nothing else. -/
structure Alike (e e' : Estimator α) : Prop where
  chassis : e.reckoner.chassis = e'.reckoner.chassis
  settings : e.settings = e'.settings
  pose : e.pose = e'.pose
  anchor : e.reckoner.baseline.map DriveReading.anchor = e'.reckoner.baseline.map DriveReading.anchor
  trajectory : e.trajectory = e'.trajectory
  lastOdometry : e.lastOdometry = e'.lastOdometry
  lastVision : e.lastVision = e'.lastVision

variable {chassis : Chassis α} {settings : EstimatorSettings α} {applied : List (DriveSample α)}
  {e e' : Estimator α}

theorem Alike.recordRejection (h : Alike e e') (r : Rejection) :
    Alike (e.recordRejection r) (e'.recordRejection r) :=
  ⟨h.chassis, h.settings, h.pose, h.anchor, h.trajectory, h.lastOdometry, h.lastVision⟩

theorem Alike.resetPose (h : Alike e e') (p : Pose α) : Alike (e.resetPose p) (e'.resetPose p) := by
  refine ⟨h.chassis, h.settings, rfl, h.anchor, ?_, h.lastOdometry, rfl⟩
  exact congrArg Trajectory.clear h.trajectory

theorem Anchored.resetPose (h : Anchored chassis settings applied e) (p : Pose α) :
    Anchored chassis settings applied (e.resetPose p) :=
  ⟨h.chassis_eq, h.settings_eq, h.capacity_eq, h.window_eq, h.time_eq, h.reading_eq⟩

/-- Of an estimator that is reset, only the last reading stays. -/
theorem Anchored.alike_resetPose {applied' : List (DriveSample α)}
    (h : Anchored chassis settings applied e) (h' : Anchored chassis settings applied' e')
    (hlast : applied.getLast?.map DriveSample.anchor = applied'.getLast?.map DriveSample.anchor)
    (p : Pose α) : Alike (e.resetPose p) (e'.resetPose p) := by
  have htime := congrArg (fun o => o.map Prod.fst) hlast
  have hanchor := congrArg (fun o => o.map Prod.snd) hlast
  simp only [Option.map_map] at htime hanchor
  constructor
  · exact h.chassis_eq.trans h'.chassis_eq.symm
  · exact h.settings_eq.trans h'.settings_eq.symm
  · rfl
  · show e.reckoner.baseline.map _ = e'.reckoner.baseline.map _
    rw [h.reading_eq, h'.reading_eq, Option.map_map, Option.map_map]
    exact hanchor
  · show (⟨e.trajectory.capacity, e.trajectory.window, []⟩ : Trajectory α)
      = ⟨e'.trajectory.capacity, e'.trajectory.window, []⟩
    rw [h.capacity_eq, h'.capacity_eq, h.window_eq, h'.window_eq]
  · show e.lastOdometry = e'.lastOdometry
    rw [h.time_eq, h'.time_eq]
    exact htime
  · rfl

end Estimator

variable [Scalar α]

/-- A motion does not depend on the angles at which the wheels stood before. -/
theorem DeadReckoner.motionBetween_congr {before before' : DriveReading α}
    (h : before.anchor = before'.anchor) (c : Chassis α) (now : DriveReading α) :
    motionBetween c before now = motionBetween c before' now := by
  obtain ⟨gyro, fl, fr, bl, br⟩ := before
  obtain ⟨gyro', fl', fr', bl', br'⟩ := before'
  simp only [DriveReading.anchor, Wheels.map, Prod.mk.injEq, Wheels.mk.injEq] at h
  obtain ⟨hgyro, hfl, hfr, hbl, hbr⟩ := h
  simp only [motionBetween, Wheels.zipWith, rolled, hgyro, hfl, hfr, hbl, hbr]

namespace Estimator

variable {chassis : Chassis α} {settings : EstimatorSettings α} {applied : List (DriveSample α)}
  {e e' : Estimator α}

/-! ## The last reading -/

/-- The readings applied by a command with these verdicts. -/
def appliedBy : Command α × List Verdict → List (DriveSample α)
  | (.drive s, verdicts) => acceptedOf [s] verdicts
  | (.batch samples, verdicts) => acceptedOf (DriveSample.inOrder samples) verdicts
  | (.vision _, _) => []
  | (.reset _, _) => []

/-- The last reading that a run has applied, be it before or after a reset. -/
def lastApplied? (commands : List (Command α)) (verdicts : List (List Verdict)) :
    Option (DriveSample α) :=
  ((commands.zip verdicts).flatMap appliedBy).getLast?

/-- What each step keeps true of an estimator and all readings it has applied, a run keeps
true. -/
theorem run_preserves_applied {P : List (DriveSample α) → Estimator α → Prop}
    (hdrive : ∀ applied e s, P applied e →
      P (applied ++ acceptedOf [s] [(e.addDrive s).1]) (e.addDrive s).2)
    (hpose : ∀ applied e m, P applied e → P applied (e.addPose m).2)
    (hreset : ∀ applied e p, P applied e → P applied (e.resetPose p))
    {applied : List (DriveSample α)} {e : Estimator α} (h : P applied e)
    (commands : List (Command α)) :
    P (applied ++ (commands.zip (e.run commands).1).flatMap appliedBy) (e.run commands).2 := by
  induction commands generalizing e applied with
  | nil =>
    rw [List.zip_nil_left, List.flatMap_nil, List.append_nil]
    exact h
  | cons c rest ih =>
    have hperform : P (applied ++ appliedBy (c, (e.perform c).1)) (e.perform c).2 := by
      cases c with
      | drive s => exact hdrive applied e s h
      | batch samples => exact addDrives_preserves hdrive h _
      | vision m =>
        rw [appliedBy, List.append_nil]
        exact hpose applied e m h
      | reset p =>
        rw [appliedBy, List.append_nil]
        exact hreset applied e p h
    have hrest := ih hperform
    rw [List.append_assoc] at hrest
    exact hrest

theorem Anchored.integrate (h : Anchored chassis settings applied e) {s : DriveSample α}
    {after : Estimator α} (hafter : e.integrate s = .ok after) :
    Anchored chassis settings (applied ++ [s]) after := by
  obtain ⟨-, hreckoner⟩ := reckoner_integrate hafter
  obtain ⟨-, -, reckoner, -, rfl⟩ := integrate_eq_ok hafter
  have hbounds : ∀ w : Waypoint α,
      ((e.trajectory.push? w).getD e.trajectory).capacity = e.trajectory.capacity ∧
        ((e.trajectory.push? w).getD e.trajectory).window = e.trajectory.window := by
    intro w
    unfold Trajectory.push?
    split <;> exact ⟨rfl, rfl⟩
  constructor
  · exact hreckoner.1.trans h.chassis_eq
  · exact h.settings_eq
  · exact (hbounds _).1.trans h.capacity_eq
  · exact (hbounds _).2.trans h.window_eq
  · rw [List.getLast?_concat]
    rfl
  · rw [List.getLast?_concat]
    exact hreckoner.2

theorem Anchored.addDrive (h : Anchored chassis settings applied e) (s : DriveSample α) :
    Anchored chassis settings (applied ++ acceptedOf [s] [(e.addDrive s).1]) (e.addDrive s).2 :=
  addDrive_preserves (fun _ hafter => h.integrate hafter) fun _ =>
    ⟨h.chassis_eq, h.settings_eq, h.capacity_eq, h.window_eq, h.time_eq, h.reading_eq⟩

theorem Anchored.addPose (h : Anchored chassis settings applied e) (m : PoseMeasurement α) :
    Anchored chassis settings applied (e.addPose m).2 := by
  rcases addPose_cases e m with ⟨d, -, hpose⟩ | ⟨r, -, hpose⟩ <;> rw [hpose] <;>
    exact ⟨h.chassis_eq, h.settings_eq, h.capacity_eq, h.window_eq, h.time_eq, h.reading_eq⟩

theorem Anchored.run (h : Anchored chassis settings applied e) (commands : List (Command α)) :
    Anchored chassis settings
      (applied ++ (commands.zip (e.run commands).1).flatMap appliedBy) (e.run commands).2 :=
  run_preserves_applied (P := Anchored chassis settings)
    (fun _ _ s hanchored => hanchored.addDrive s) (fun _ _ m hanchored => hanchored.addPose m)
    (fun _ _ p hanchored => hanchored.resetPose p) h commands

theorem anchored_build {pose : Pose α} (h : build chassis pose settings = .ok e) :
    Anchored chassis settings [] e := by
  obtain ⟨-, -, -, rfl⟩ := build_eq_ok h
  exact ⟨rfl, rfl, rfl, rfl, rfl, rfl⟩

/-! ## Estimators that cannot be told apart -/

/-- Both reckoners take in a reading and move alike, or both reject it. -/
theorem Alike.update (h : Alike e e') (r : DriveReading α) :
    (∃ reason, e.reckoner.update r = .error reason ∧ e'.reckoner.update r = .error reason) ∨
      ∃ d, e.reckoner.update r = .ok d ∧ e'.reckoner.update r = .ok d := by
  have hchassis := h.chassis
  have hpose : e.reckoner.pose = e'.reckoner.pose := h.pose
  have hanchor := h.anchor
  unfold DeadReckoner.update
  split
  · exact .inl ⟨_, rfl, rfl⟩
  · refine .inr ?_
    cases hfirst : e.reckoner.baseline with
    | none =>
      rw [hfirst, Option.map_none, eq_comm, Option.map_eq_none_iff] at hanchor
      rw [hanchor, hchassis, hpose]
      exact ⟨_, rfl, rfl⟩
    | some before =>
      rw [hfirst, Option.map_some, eq_comm, Option.map_eq_some_iff] at hanchor
      obtain ⟨before', hsecond, hbefore⟩ := hanchor
      rw [hsecond, hchassis, hpose]
      dsimp only
      rw [DeadReckoner.motionBetween_congr hbefore]
      exact ⟨_, rfl, rfl⟩

theorem Alike.addDrive (h : Alike e e') (s : DriveSample α) :
    (e.addDrive s).1 = (e'.addDrive s).1 ∧ Alike (e.addDrive s).2 (e'.addDrive s).2 := by
  have hnewer : e.isNewer s.time = e'.isNewer s.time := by
    unfold isNewer
    rw [h.lastOdometry]
  unfold Estimator.addDrive Estimator.integrate
  rw [hnewer]
  split_ifs
  · exact ⟨rfl, h.recordRejection _⟩
  · exact ⟨rfl, h.recordRejection _⟩
  · rcases h.update s.reading with ⟨reason, hr, hr'⟩ | ⟨d, hd, hd'⟩
    · rw [hr, hr']
      exact ⟨rfl, h.recordRejection reason⟩
    · rw [hd, hd']
      refine ⟨rfl, rfl, h.settings, rfl, rfl, ?_, rfl, h.lastVision⟩
      exact congrArg (fun t => (t.push? ⟨s.time, d.pose⟩).getD t) h.trajectory

theorem Alike.addDrives (h : Alike e e') (samples : List (DriveSample α)) :
    (e.addDrives samples).1 = (e'.addDrives samples).1 ∧
      Alike (e.addDrives samples).2 (e'.addDrives samples).2 := by
  induction samples generalizing e e' with
  | nil => exact ⟨rfl, h⟩
  | cons s rest ih =>
    obtain ⟨hverdict, hfirst⟩ := h.addDrive s
    obtain ⟨hverdicts, hlast⟩ := ih hfirst
    rw [addDrives_cons, addDrives_cons, hverdict, hverdicts]
    exact ⟨rfl, hlast⟩

theorem Alike.addPose (h : Alike e e') (m : PoseMeasurement α) :
    (e.addPose m).1 = (e'.addPose m).1 ∧ Alike (e.addPose m).2 (e'.addPose m).2 := by
  have hassess : e.assess m = e'.assess m := by
    unfold assess
    rw [h.trajectory]
  unfold Estimator.addPose
  rw [hassess]
  cases e'.assess m with
  | error r => exact ⟨rfl, h.recordRejection r⟩
  | ok d =>
    refine ⟨rfl, h.chassis, h.settings, ?_, h.anchor, ?_, h.lastOdometry, ?_⟩
    · exact congrArg (fun p => p.shift d) h.pose
    · exact congrArg (fun t => t.shift d) h.trajectory
    · simp only [confirm, displace, h.lastVision]

theorem Alike.perform (h : Alike e e') (c : Command α) :
    (e.perform c).1 = (e'.perform c).1 ∧ Alike (e.perform c).2 (e'.perform c).2 := by
  cases c with
  | drive s =>
    obtain ⟨hverdict, hafter⟩ := h.addDrive s
    exact ⟨congrArg (fun v => [v]) hverdict, hafter⟩
  | batch samples =>
    obtain ⟨hjudged, hafter⟩ := h.addDrives (DriveSample.inOrder samples)
    exact ⟨congrArg (List.map Prod.snd) hjudged, hafter⟩
  | vision m =>
    obtain ⟨hverdict, hafter⟩ := h.addPose m
    exact ⟨congrArg (fun v => [v]) hverdict, hafter⟩
  | reset p => exact ⟨rfl, h.resetPose p⟩

theorem Alike.run (h : Alike e e') (commands : List (Command α)) :
    (e.run commands).1 = (e'.run commands).1 ∧ Alike (e.run commands).2 (e'.run commands).2 := by
  induction commands generalizing e e' with
  | nil => exact ⟨rfl, h⟩
  | cons c rest ih =>
    obtain ⟨hverdicts, hafter⟩ := h.perform c
    obtain ⟨hothers, hlast⟩ := ih hafter
    exact ⟨congrArg₂ List.cons hverdicts hothers, hlast⟩

theorem Alike.confidence_eq (h : Alike e e') (now : α) : e.confidence now = e'.confidence now := by
  unfold confidence
  rw [h.lastVision, h.settings]

/-! ## Any two pasts -/

/-- Two estimators of one kind that have applied the same reading last, or none
at all, answer alike to everything that follows a reset, and every counter has
grown by the number of verdicts it counts, which is the same for both. -/
theorem reset_forgets {pose pose' : Pose α} {start start' : Estimator α}
    (hbuild : build chassis pose settings = .ok start)
    (hbuild' : build chassis pose' settings = .ok start') (past past' : List (Command α))
    (hlast : (lastApplied? past (start.run past).1).map DriveSample.anchor
      = (lastApplied? past' (start'.run past').1).map DriveSample.anchor)
    (p : Pose α) (future : List (Command α)) :
    let e := (start.run past).2
    let e' := (start'.run past').2
    let after := (e.resetPose p).run future
    let after' := (e'.resetPose p).run future
    after.1 = after'.1 ∧ after.2.pose = after'.2.pose ∧ after.2.trajectory = after'.2.trajectory ∧
      (∀ time, after.2.trajectory.poseAt? time = after'.2.trajectory.poseAt? time) ∧
      (∀ now, after.2.confidence now = after'.2.confidence now) ∧
      ∀ k : Counter, let grown := (counted future after.1).count k
        (after.2.tally.count k).toNat
            = min ((e.tally.count k).toNat + grown) (UInt32.size - 1) ∧
          (after'.2.tally.count k).toNat
            = min ((e'.tally.count k).toNat + grown) (UInt32.size - 1) := by
  intro e e' after after'
  have hanchored : Anchored chassis settings _ e := (anchored_build hbuild).run past
  have hanchored' : Anchored chassis settings _ e' := (anchored_build hbuild').run past'
  rw [List.nil_append] at hanchored hanchored'
  have hreset : Alike (e.resetPose p) (e'.resetPose p) :=
    hanchored.alike_resetPose hanchored' hlast p
  obtain ⟨hverdicts, halike⟩ : after.1 = after'.1 ∧ Alike after.2 after'.2 := hreset.run future
  refine ⟨hverdicts, halike.pose, halike.trajectory, ?_, halike.confidence_eq, ?_⟩
  · intro time
    rw [halike.trajectory]
  · intro k grown
    have hcounts' := advanced_run (e'.resetPose p) future k
    refine ⟨advanced_run (e.resetPose p) future k, ?_⟩
    show _ = min (_ + (counted future after.1).count k) _
    rw [hverdicts]
    exact hcounts'

/-- A robot that rolls and turns, is seen by a camera, and is put somewhere. -/
def eventfulPast : List (Command Float) :=
  [.drive ⟨1, ⟨0, .replicate ⟨0, 0⟩⟩⟩, .drive ⟨2, ⟨0.5, .replicate ⟨1, 0⟩⟩⟩,
    .vision ⟨⟨⟨1, 1⟩, 1⟩, 1.5, ⟨1, 1, 1⟩⟩, .reset ⟨⟨3, 4⟩, 0.25⟩]

/-- A robot whose first reading is the last one of the other, but for the angles
of its wheels. -/
def shortPast : List (Command Float) := [.drive ⟨2, ⟨0.5, .replicate ⟨1, 0.75⟩⟩⟩]

/-- A reading, a camera pose of its time, and a reading that comes too late. -/
def sequel : List (Command Float) :=
  [.drive ⟨3, ⟨1, .replicate ⟨2, 0⟩⟩⟩, .vision ⟨⟨⟨7, 8⟩, 0.5⟩, 3, ⟨1, 1, 1⟩⟩,
    .drive ⟨2.5, ⟨1, .replicate ⟨2, 0⟩⟩⟩]

theorem reset_forgets_eventfulPast :
    let chassis : Chassis Float := .square
    let start := fresh chassis .origin
    let start' := fresh chassis ⟨⟨5, 6⟩, 1⟩
    let after := ((start.run eventfulPast).2.resetPose .origin).run sequel
    let after' := ((start'.run shortPast).2.resetPose .origin).run sequel
    Chassis.build (Chassis.rectangle 1 1) = .ok chassis ∧
      after.1 = [[.accepted], [.accepted], [.rejected .outOfOrderOdometry]] ∧ after'.1 = after.1 ∧
      after'.2.pose = after.2.pose ∧ after'.2.confidence 4 = after.2.confidence 4 ∧
      after.2.tally.odometryApplied = 3 ∧ after'.2.tally.odometryApplied = 2 := by
  intro chassis start start' after after'
  have hlast : (lastApplied? eventfulPast (start.run eventfulPast).1).map DriveSample.anchor
      = (lastApplied? shortPast (start'.run shortPast).1).map DriveSample.anchor := by
    decide +kernel
  obtain ⟨hverdicts, hpose, -, -, hconfidence, -⟩ :=
    reset_forgets (build_fresh chassis .origin) (build_fresh chassis ⟨⟨5, 6⟩, 1⟩)
      eventfulPast shortPast hlast .origin sequel
  refine ⟨Chassis.build_square, by decide +kernel, hverdicts.symm, hpose.symm,
    (hconfidence 4).symm, ?_, ?_⟩
  · decide +kernel
  · decide +kernel

end Estimator

end SwerveLocalization
