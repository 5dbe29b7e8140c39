import Mathlib
import SwerveLocalization.Proofs.Exact.Axes
import SwerveLocalization.Proofs.Exact.RigidMotion

/-!
# A camera pose moves the path as a whole

An accepted camera pose displaces the estimate and every recorded pose by one shift,
and it leaves everything alone that judges or measures later wheel readings. So the
robot goes on from the corrected estimate as it would have gone on from the old one:
without rounding the motion of any further readings is the same, seen from where the
robot stands. An axis with an infinite deviation does not take part.
-/

namespace SwerveLocalization

namespace Estimator

open Scalar

variable {α : Type} [Scalar α] {e : Estimator α} {m : PoseMeasurement α}

/-- An estimator after an accepted camera pose, captured at `time`, that asked for the
shift `d`: every pose is displaced by it, and the camera pose is counted and noted. All
else, and with it all that later poses depend on, is as it was. -/
structure Displaced (d : Shift α) (time : α) (e after : Estimator α) : Prop where
  pose : after.pose = e.pose.shift d
  entries : after.trajectory.entries = e.trajectory.entries.map fun w => ⟨w.time, w.pose.shift d⟩
  times : after.trajectory.entries.map Waypoint.time = e.trajectory.entries.map Waypoint.time
  length : after.trajectory.length = e.trajectory.length
  bounds : after.trajectory.capacity = e.trajectory.capacity ∧
    after.trajectory.window = e.trajectory.window
  settings : after.settings = e.settings
  chassis : after.reckoner.chassis = e.reckoner.chassis
  baseline : after.reckoner.baseline = e.reckoner.baseline
  lastOdometry : after.lastOdometry = e.lastOdometry
  odometryApplied : after.tally.odometryApplied = e.tally.odometryApplied
  rejectedFor : ∀ r, after.tally.rejectedFor r = e.tally.rejectedFor r
  visionAccepted : after.tally.visionAccepted.toNat
    = min (e.tally.visionAccepted.toNat + 1) (UInt32.size - 1)
  lastVision : after.lastVision = some (e.lastVision.elim time fun last => larger last time)

theorem Displaced.trajectory {d : Shift α} {time : α} {after : Estimator α}
    (h : Displaced d time e after) : after.trajectory = e.trajectory.shift d :=
  congr (congrArg₂ Trajectory.mk h.bounds.1 h.bounds.2) h.entries

theorem displaced_addPose (h : (e.addPose m).1 = .accepted) :
    m.isFinite = true ∧ m.hasUsableDeviations = true ∧
      ∃ past, e.trajectory.poseAt? m.time = some past ∧
        Displaced (m.correctionOf past) m.time e (e.addPose m).2 := by
  rcases addPose_cases e m with ⟨d, hassess, hpose⟩ | ⟨r, -, hpose⟩
  · obtain ⟨hfinite, husable, past, hpast, rfl⟩ := assess_eq_ok hassess
    refine ⟨hfinite, husable, past, hpast, ?_⟩
    rw [hpose]
    refine ⟨rfl, rfl, e.trajectory.times_shift _, List.length_map _, ⟨rfl, rfl⟩, rfl, rfl, rfl, rfl,
      rfl, fun _ => rfl, toNat_countOn _, ?_⟩
    unfold confirm displace
    cases e.lastVision <;> rfl
  · rw [hpose] at h
    contradiction

end Estimator

namespace Exact

open Estimator Real Scalar

/-! ## Going on from another pose -/

variable {a b e after : Estimator Exact} {d : Axis → ℝ} {m : PoseMeasurement Exact}

/-- Estimators that judge and measure wheel readings alike, wherever they are. -/
structure SameOdometry (a b : Estimator Exact) : Prop where
  chassis : a.reckoner.chassis = b.reckoner.chassis
  baseline : a.reckoner.baseline = b.reckoner.baseline
  lastOdometry : a.lastOdometry = b.lastOdometry

/-- A wheel reading takes both along one motion. -/
theorem SameOdometry.addDrive (h : SameOdometry a b) (ha : RealState a) (hb : RealState b)
    (s : DriveSample Exact) :
    (a.addDrive s).1 = (b.addDrive s).1 ∧ SameOdometry (a.addDrive s).2 (b.addDrive s).2 ∧
      ∃ g, rigidOf (a.addDrive s).2.pose = rigidOf a.pose * g ∧
        rigidOf (b.addDrive s).2.pose = rigidOf b.pose * g := by
  have hverdict : (a.addDrive s).1 = (b.addDrive s).1 := by
    rw [addDrive_verdict, addDrive_verdict]
    unfold isNewer
    rw [h.lastOdometry]
  refine ⟨hverdict, ?_⟩
  rcases addDrive_cases a s with ⟨a', ha', hdrive⟩ | ⟨r, -, hdrive⟩ <;>
    rcases addDrive_cases b s with ⟨b', hb', hdrive'⟩ | ⟨r', -, hdrive'⟩ <;>
    rw [hdrive, hdrive'] at hverdict ⊢
  · obtain ⟨hreading, hchassis, hbaseline⟩ := reckoner_integrate ha'
    obtain ⟨-, hchassis', hbaseline'⟩ := reckoner_integrate hb'
    have hlast : a'.lastOdometry = some s.time ∧ b'.lastOdometry = some s.time := by
      obtain ⟨-, -, _, -, rfl⟩ := integrate_eq_ok ha'
      obtain ⟨-, -, _, -, rfl⟩ := integrate_eq_ok hb'
      exact ⟨rfl, rfl⟩
    refine ⟨⟨?_, ?_, hlast.1.trans hlast.2.symm⟩, ?_⟩
    · rw [hchassis, hchassis', h.chassis]
    · rw [hbaseline, hbaseline']
    · rcases pose_integrate ha' with ⟨hnone, hpose⟩ | ⟨before, hbefore, hpose⟩ <;>
        rcases pose_integrate hb' with ⟨hnone', hpose'⟩ | ⟨before', hbefore', hpose'⟩
      · rw [hpose, hpose']
        exact ⟨1, (mul_one _).symm, (mul_one _).symm⟩
      · rw [← h.baseline, hnone] at hbefore'
        contradiction
      · rw [h.baseline, hnone'] at hbefore
        contradiction
      · obtain rfl : before = before' := by
          rw [h.baseline, hbefore'] at hbefore
          exact (Option.some.inj hbefore).symm
        have htwist := realTwist_motionBetween ha.chassis (ha.baseline before hbefore) hreading
        rw [hpose, hpose', ← h.chassis]
        exact ⟨_, rigidOf_move ha.pose.1 htwist, rigidOf_move hb.pose.1 htwist⟩
  · contradiction
  · contradiction
  · exact ⟨⟨h.chassis, h.baseline, h.lastOdometry⟩, 1, (mul_one _).symm, (mul_one _).symm⟩

/-- So do any number of wheel readings. -/
theorem SameOdometry.addDrives (h : SameOdometry a b) (ha : RealState a) (hb : RealState b)
    (samples : List (DriveSample Exact)) :
    (a.addDrives samples).1 = (b.addDrives samples).1 ∧
      ∃ g, rigidOf (a.addDrives samples).2.pose = rigidOf a.pose * g ∧
        rigidOf (b.addDrives samples).2.pose = rigidOf b.pose * g := by
  induction samples generalizing a b with
  | nil => exact ⟨rfl, 1, (mul_one _).symm, (mul_one _).symm⟩
  | cons s rest ih =>
    obtain ⟨hverdict, hsame, g, hg, hg'⟩ := h.addDrive ha hb s
    obtain ⟨hverdicts, g', hrest, hrest'⟩ := ih hsame (ha.addDrive s) (hb.addDrive s)
    refine ⟨?_, g * g', ?_, ?_⟩
    · rw [addDrives_cons, addDrives_cons, hverdict, hverdicts]
    · rw [addDrives_cons, hrest, hg, mul_assoc]
    · rw [addDrives_cons, hrest', hg', mul_assoc]

theorem sameOdometry_of_displaced {d : Shift Exact} {time : Exact} (h : Displaced d time e after) :
    SameOdometry after e :=
  ⟨h.chassis, h.baseline, h.lastOdometry⟩

/-- A shift that does nothing on an axis leaves it alone in all poses. -/
theorem component_of_displaced {time : Exact} (h : Displaced (byAxis d) time e after)
    (he : RealState e) {axis : Axis} (hd : d axis = 0) :
    axis.component after.pose = axis.component e.pose ∧
      (after.trajectory.entries.map fun w => axis.component w.pose)
        = e.trajectory.entries.map fun w => axis.component w.pose := by
  constructor
  · rw [h.pose]
    exact component_shift_of_eq_zero he.pose.2 hd
  · rw [h.entries, List.map_map]
    exact List.map_congr_left fun w hw => component_shift_of_eq_zero (he.record w hw).2 hd

/-! ## Accepted camera poses -/

/-- The estimators that there can be without rounding: built on a chassis that could be
built, at a real pose, and then told anything. -/
inductive Reachable : Estimator Exact → Prop
  | run {offsets : Wheels (Vec2 Exact)} {chassis : Chassis Exact} {pose : Pose Exact}
      {settings : EstimatorSettings Exact} {start : Estimator Exact}
      (hchassis : Chassis.build offsets = .ok chassis)
      (hbuild : build chassis pose settings = .ok start)
      (hpose : pose.isFinite = true ∧ Wrapped pose) (commands : List (Command Exact))
      (hreset : ∀ p, .reset p ∈ commands → p.isFinite = true ∧ Wrapped p) :
      Reachable (start.run commands).2

theorem Reachable.realState (h : Reachable e) : RealState e := by
  obtain ⟨hchassis, hbuild, hpose, commands, hreset⟩ := h
  exact realState_run hchassis hbuild hpose commands hreset

theorem Reachable.increasing (h : Reachable e) : Increasing e.trajectory.entries := by
  obtain ⟨-, hbuild, -, commands, -⟩ := h
  exact increasing_run hbuild commands

/-- What an accepted camera pose has been compared with, and the shift it has asked for. -/
theorem Reachable.displaced (h : Reachable e) (haccepted : (e.addPose m).1 = .accepted) :
    m.isFinite = true ∧ m.hasUsableDeviations = true ∧
      ∃ past, e.trajectory.poseAt? m.time = some past ∧ past.isFinite = true ∧
        Displaced (byAxis (pull m past)) m.time e (e.addPose m).2 := by
  obtain ⟨hfinite, husable, past, hpast, hdisplaced⟩ := displaced_addPose haccepted
  have htime := hfinite
  simp only [PoseMeasurement.isFinite, Bool.and_eq_true] at htime
  obtain ⟨t, ht⟩ := isFinite_iff_exists.mp htime.2
  have hlookup := hpast
  rw [ht] at hlookup
  have hreal := isFinite_poseAt? h.increasing (fun w hw => (h.realState.record w hw).1) hlookup
  rw [correctionOf_eq hfinite husable hreal] at hdisplaced
  exact ⟨hfinite, husable, past, hpast, hreal, hdisplaced⟩

/-- An accepted camera pose displaces all poses by its trust in the residual on each axis,
whatever the numbers are, and changes nothing else that matters later. Without
rounding, in every state that can be reached, an axis with an infinite deviation stays
as it is in every pose, and whatever wheel readings come next are judged as they would
have been and take the robot along the motion that they would have taken it. -/
theorem addPose_rigid :
    (∀ (α : Type) [Scalar α] (e : Estimator α) (m : PoseMeasurement α),
      (e.addPose m).1 = .accepted →
      ∃ past, e.trajectory.poseAt? m.time = some past ∧
        let r := m.pose.difference past
        Displaced ⟨trust m.deviations.x * r.dx, trust m.deviations.y * r.dy,
          trust m.deviations.z * r.dtheta⟩ m.time e (e.addPose m).2) ∧
    ∀ e : Estimator Exact, Reachable e → ∀ m, (e.addPose m).1 = .accepted →
      let after := (e.addPose m).2
      (∀ axis : Axis, Scalar.isInfinite (axis.deviation m.deviations) = true →
        axis.component after.pose = axis.component e.pose ∧
          (after.trajectory.entries.map fun w => axis.component w.pose)
            = e.trajectory.entries.map fun w => axis.component w.pose) ∧
      ∀ samples, (after.addDrives samples).1 = (e.addDrives samples).1 ∧
        (rigidOf after.pose)⁻¹ * rigidOf (after.addDrives samples).2.pose
          = (rigidOf e.pose)⁻¹ * rigidOf (e.addDrives samples).2.pose := by
  constructor
  · intro α _ e m haccepted
    obtain ⟨-, -, past, hpast, hdisplaced⟩ := displaced_addPose haccepted
    exact ⟨past, hpast, hdisplaced⟩
  · intro e he m haccepted after
    obtain ⟨-, -, past, -, -, hdisplaced⟩ := he.displaced haccepted
    have hreal : RealState e := he.realState
    have hreal' : RealState after := hreal.addPose he.increasing m
    have hsame : SameOdometry after e := sameOdometry_of_displaced hdisplaced
    constructor
    · intro axis haxis
      exact component_of_displaced hdisplaced hreal (pull_eq_zero haxis)
    · intro samples
      obtain ⟨hverdicts, g, hg, hg'⟩ := hsame.addDrives hreal' hreal samples
      refine ⟨hverdicts, ?_⟩
      rw [hg, hg', inv_mul_cancel_left, inv_mul_cancel_left]

/-- An estimator that has driven ahead is one that there can be. -/
theorem exists_reachable : ∃ start : Estimator Exact,
    let e := (start.run ((straightAhead apart_squareCorners).drives [0, 1, 2])).2
    Reachable e ∧ e.pose = ahead 2 ∧
      e.trajectory.entries = [0, 1, 2].map (fun s => ⟨real s, ahead s⟩) ∧
      e.trajectory.poseAt? (real (1 / 2)) = some (ahead (1 / 2)) := by
  obtain ⟨start, hstart, hpose, hentries, hlookup⟩ := exists_driven apart_squareCorners
  have hearly := hlookup (1 / 2) (by norm_num)
  rw [min_eq_left (by norm_num)] at hearly
  exact ⟨start, .run build_squareOffsets hstart ⟨rfl, wrapped_origin⟩ _ (by simp [Course.drives]),
    hpose, hentries, hearly⟩

/-- A camera pose from between the first two entries that has the robot two metres further on
and says nothing of the heading. It moves all three entries by half of the way, and the
robot drives on ahead from there. -/
theorem addPose_rigid_earlySighting :
    let early := displacedSighting (ahead (1 / 2)) (offset 2 0 π) (1 / 2) ⟨real 1, real 1, posInf⟩
    ∃ start : Estimator Exact,
      let e := (start.run ((straightAhead apart_squareCorners).drives [0, 1, 2])).2
      let after := (e.addPose early).2
      let next := [(straightAhead apart_squareCorners).sample 3]
      Reachable e ∧ e.trajectory.entries = [0, 1, 2].map (fun s => ⟨real s, ahead s⟩) ∧
        (e.addPose early).1 = .accepted ∧
        after.trajectory.entries.map (fun w => w.pose.heading) = [real 0, real 0, real 0] ∧
        after.trajectory.entries.map (fun w => w.pose.position.x) = [real 1, real 2, real 3] ∧
        after.pose.position.x = real 3 ∧
        (rigidOf after.pose)⁻¹ * rigidOf (after.addDrives next).2.pose
          = (rigidOf e.pose)⁻¹ * rigidOf (e.addDrives next).2.pose := by
  intro early
  obtain ⟨start, he, hpose, hentries, hlookup⟩ := exists_reachable
  have husable : early.hasUsableDeviations = true := by
    simp [early, displacedSighting, PoseMeasurement.hasUsableDeviations, Scalar.isInfinite]
  have haccepted := accepted_of_poseAt? (isFinite_displacedSighting ..) husable hlookup
  obtain ⟨hframe, hexact⟩ := addPose_rigid
  obtain ⟨hkept, hmotion⟩ := hexact _ he _ haccepted
  obtain ⟨past, hpast, hdisplaced⟩ := hframe Exact _ _ haccepted
  obtain rfl : ahead (1 / 2) = past := Option.some.inj (hlookup.symm.trans hpast)
  have hresidual : early.pose.difference (ahead (1 / 2)) = offset 2 0 π :=
    difference_shift 2 0 π _ rfl (by linarith [pi_pos]) le_rfl
  have hhalf : trust early.deviations.x = real (1 / 2) := by
    rw [trust_eq (deviations_pos husable).1]
    exact congrArg (fun s => real (1 / s)) one_add_one_eq_two
  have hshifted : ∀ s : ℝ, real s + trust early.deviations.x * real 2 = real (s + 1) := by
    intro s
    rw [hhalf, real_mul_real, real_add_real]
    norm_num
  rw [hresidual] at hdisplaced
  refine ⟨start, he, hentries, haccepted, ?_, ?_, ?_, (hmotion _).2⟩
  · have hheadings := (hkept .heading rfl).2
    rw [hentries] at hheadings
    exact hheadings
  · rw [hdisplaced.entries, hentries]
    show [real 0 + trust early.deviations.x * real 2, real 1 + trust early.deviations.x * real 2,
      real 2 + trust early.deviations.x * real 2] = _
    rw [hshifted, hshifted, hshifted]
    norm_num
  · rw [hdisplaced.pose, hpose]
    show real 2 + trust early.deviations.x * real 2 = real 3
    rw [hshifted]
    norm_num

end Exact

end SwerveLocalization
