import Mathlib
import SwerveLocalization.Proofs.Binary64.Arithmetic
import SwerveLocalization.Proofs.Localization.Eviction
import SwerveLocalization.Proofs.Localization.Steps

/-!
# Estimate and record agree

An estimator holds the pose of the robot twice: as the live estimate and as the
newest entry of its trajectory. It holds the time of the last wheel reading
twice as well. Readings, corrections and resets change these by separate code.
Main statement: after any run they agree, and the trajectory has an entry just
if a reading has been applied since the last reset. No recorded pose is ever
refused.
-/

namespace SwerveLocalization.Estimator

open Scalar RealScalar

variable {α : Type} [Scalar α]

/-! ## The readings that were applied, as the verdicts tell -/

/-- The samples that were accepted. -/
def acceptedOf {β : Type} (samples : List β) (verdicts : List Verdict) : List β :=
  ((samples.zip verdicts).filter fun p => p.2.isAccepted).map Prod.fst

/-- The readings applied since the last reset: those applied before a command
and those applied by it. -/
def appliedAfter (before : List (DriveSample α)) :
    Command α × List Verdict → List (DriveSample α)
  | (.drive s, verdicts) => before ++ acceptedOf [s] verdicts
  | (.batch samples, verdicts) => before ++ acceptedOf (DriveSample.inOrder samples) verdicts
  | (.vision _, _) => before
  | (.reset _, _) => []

/-- The readings that a run has applied since its last reset. -/
def appliedSinceReset (commands : List (Command α)) (verdicts : List (List Verdict)) :
    List (DriveSample α) :=
  (commands.zip verdicts).foldl appliedAfter []

theorem acceptedOf_cons {β : Type} (s : β) (rest : List β) (v : Verdict) (verdicts : List Verdict) :
    acceptedOf (s :: rest) (v :: verdicts) = acceptedOf [s] [v] ++ acceptedOf rest verdicts := by
  cases v <;> rfl

/-- A reading joins those that have been applied, or it is rejected. -/
theorem addDrive_preserves {P : List (DriveSample α) → Estimator α → Prop}
    {applied : List (DriveSample α)} {e : Estimator α} {s : DriveSample α}
    (happlied : ∀ after, e.integrate s = .ok after → P (applied ++ [s]) after)
    (hrejected : ∀ r, P applied (e.recordRejection r)) :
    P (applied ++ acceptedOf [s] [(e.addDrive s).1]) (e.addDrive s).2 := by
  rcases addDrive_cases e s with ⟨after, hafter, hdrive⟩ | ⟨r, -, hdrive⟩
  · rw [hdrive]
    exact happlied after hafter
  · rw [hdrive]
    have hnone : acceptedOf [s] [.rejected r] = [] := rfl
    rw [hnone, List.append_nil]
    exact hrejected r

/-- What each reading keeps true of an estimator and the readings it has applied, many
readings keep true. -/
theorem addDrives_preserves {P : List (DriveSample α) → Estimator α → Prop}
    (hdrive : ∀ applied e s, P applied e →
      P (applied ++ acceptedOf [s] [(e.addDrive s).1]) (e.addDrive s).2)
    {applied : List (DriveSample α)} {e : Estimator α} (h : P applied e)
    (samples : List (DriveSample α)) :
    P (applied ++ acceptedOf samples ((e.addDrives samples).1.map Prod.snd))
      (e.addDrives samples).2 := by
  induction samples generalizing e applied with
  | nil =>
    have hnone : acceptedOf [] ((e.addDrives []).1.map Prod.snd) = ([] : List (DriveSample α)) := rfl
    rw [hnone, List.append_nil]
    exact h
  | cons s rest ih =>
    rw [addDrives_cons, List.map_cons, acceptedOf_cons, ← List.append_assoc]
    exact ih (hdrive applied e s h)

/-- What each step keeps true of an estimator and the readings it has applied since its last
reset, a run keeps true. -/
theorem run_preserves_since {P : List (DriveSample α) → Estimator α → Prop}
    (hdrive : ∀ applied e s, P applied e →
      P (applied ++ acceptedOf [s] [(e.addDrive s).1]) (e.addDrive s).2)
    (hpose : ∀ applied e m, P applied e → P applied (e.addPose m).2)
    (hreset : ∀ applied e p, P applied e → P [] (e.resetPose p))
    {applied : List (DriveSample α)} {e : Estimator α} (h : P applied e)
    (commands : List (Command α)) :
    P ((commands.zip (e.run commands).1).foldl appliedAfter applied) (e.run commands).2 := by
  induction commands generalizing e applied with
  | nil => exact h
  | cons c rest ih =>
    cases c with
    | drive s => exact ih (hdrive applied e s h)
    | batch samples => exact ih (addDrives_preserves hdrive h _)
    | vision m => exact ih (hpose applied e m h)
    | reset p => exact ih (hreset applied e p h)

/-! ## The invariant -/

/-- Estimate and record agree. The readings are those applied since the last
reset. -/
structure Coherent (settings : EstimatorSettings α) (applied : List (DriveSample α))
    (e : Estimator α) : Prop where
  capacity_eq : e.trajectory.capacity = settings.capacity
  window_eq : e.trajectory.window = settings.window
  short : e.trajectory.entries.length ≤ settings.capacity
  finite : ∀ w ∈ e.trajectory.entries, isFinite w.time = true
  ordered : e.trajectory.entries.Pairwise fun a b => a.time < b.time
  newest : e.trajectory.newest? = applied.getLast?.map fun s => ⟨s.time, e.pose⟩
  last : ∀ w, e.trajectory.newest? = some w → e.lastOdometry = some w.time

variable {settings : EstimatorSettings α} {applied : List (DriveSample α)} {e : Estimator α}

/-- Anything that leaves the record and the estimate alone keeps them in
agreement. -/
theorem Coherent.congr (h : Coherent settings applied e) {e' : Estimator α}
    (htrajectory : e'.trajectory = e.trajectory) (hpose : e'.pose = e.pose)
    (hlast : e'.lastOdometry = e.lastOdometry) : Coherent settings applied e' := by
  constructor
  · rw [htrajectory]
    exact h.capacity_eq
  · rw [htrajectory]
    exact h.window_eq
  · rw [htrajectory]
    exact h.short
  · rw [htrajectory]
    exact h.finite
  · rw [htrajectory]
    exact h.ordered
  · rw [htrajectory, hpose]
    exact h.newest
  · rw [htrajectory, hlast]
    exact h.last

theorem Coherent.recordRejection (h : Coherent settings applied e) (r : Rejection) :
    Coherent settings applied (e.recordRejection r) := h.congr rfl rfl rfl

/-- A correction displaces the estimate and its copy in the record alike. -/
theorem Coherent.displace (h : Coherent settings applied e) (d : Shift α) :
    Coherent settings applied (e.displace d) := by
  have hnewest : (e.displace d).trajectory.newest?
      = e.trajectory.newest?.map fun w => ⟨w.time, w.pose.shift d⟩ := List.getLast?_map ..
  constructor
  · exact h.capacity_eq
  · exact h.window_eq
  · exact (List.length_map ..).trans_le h.short
  · intro w hw
    obtain ⟨v, hv, rfl⟩ := List.mem_map.mp hw
    exact h.finite v hv
  · exact List.pairwise_map.mpr h.ordered
  · rw [hnewest, h.newest, Option.map_map]
    rfl
  · intro w hw
    rw [hnewest] at hw
    obtain ⟨v, hv, rfl⟩ := Option.map_eq_some_iff.mp hw
    exact h.last v hv

theorem Coherent.addPose (h : Coherent settings applied e) (m : PoseMeasurement α) :
    Coherent settings applied (e.addPose m).2 := by
  rcases addPose_cases e m with ⟨d, -, hpose⟩ | ⟨r, -, hpose⟩
  · rw [hpose]
    exact (h.displace d).congr rfl rfl rfl
  · rw [hpose]
    exact h.recordRejection r

theorem Coherent.reset (h : Coherent settings applied e) (pose : Pose α) :
    Coherent settings [] (e.resetPose pose) := by
  constructor
  · exact h.capacity_eq
  · exact h.window_eq
  · exact Nat.zero_le _
  · intro w hw
    cases hw
  · exact List.Pairwise.nil
  · rfl
  · intro w hw
    cases hw

theorem coherent_build {chassis : Chassis α} {pose : Pose α}
    (h : build chassis pose settings = .ok e) : Coherent settings [] e := by
  obtain ⟨-, -, -, rfl⟩ := build_eq_ok h
  constructor
  · rfl
  · rfl
  · exact Nat.zero_le _
  · intro w hw
    cases hw
  · exact List.Pairwise.nil
  · rfl
  · intro w hw
    cases hw

/-! ## Wheel readings -/

/-- A reading newer than the last one is newer than the record. -/
theorem Coherent.admits (h : Coherent settings applied e) {time : α}
    (hnewer : e.isNewer time = true) : e.trajectory.admits time = true := by
  unfold Trajectory.admits
  cases hnewest : e.trajectory.newest? with
  | none => rfl
  | some w =>
    unfold isNewer at hnewer
    rw [h.last w hnewest] at hnewer
    exact hnewer

/-- What the record is after a reading that was applied. -/
theorem Coherent.push?_of_integrate (h : Coherent settings applied e) {s : DriveSample α}
    {after : Estimator α} (hafter : e.integrate s = .ok after) :
    e.trajectory.push? ⟨s.time, after.pose⟩ = some after.trajectory := by
  obtain ⟨-, hnewer, reckoner, -, rfl⟩ := integrate_eq_ok hafter
  simp [Trajectory.push?, h.admits hnewer, pose]

variable [RealScalar α]

/-- A time later than the newest entry is later than every entry. -/
theorem Coherent.lt_of_isNewer (h : Coherent settings applied e) {time : α}
    (htime : isFinite time = true) (hnewer : e.isNewer time = true) :
    ∀ w ∈ e.trajectory.entries, w.time < time := by
  have hadmits := h.admits hnewer
  unfold Trajectory.admits at hadmits
  rcases List.eq_nil_or_concat' e.trajectory.entries with hnil | ⟨front, newest, hfront⟩
  · simp [hnil]
  · have hlast : e.trajectory.newest? = some newest := by simp [Trajectory.newest?, hfront]
    rw [hlast] at hadmits
    have hfinite : isFinite newest.time = true := h.finite newest (by simp [hfront])
    have hlt : newest.time < time := by
      rw [← RealScalar.not_le (isNaN_of_isFinite hfinite) (isNaN_of_isFinite htime)]
      simpa using hadmits
    -- the other entries are before the newest one
    have hordered := h.ordered
    rw [hfront, List.pairwise_append] at hordered
    intro w hw
    rw [hfront, List.mem_append, List.mem_singleton] at hw
    rcases hw with hw | rfl
    · exact RealScalar.lt_trans (hordered.2.2 w hw newest (by simp)) hlt
    · exact hlt

theorem Coherent.integrate (h : Coherent settings applied e) (hcapacity : 1 ≤ settings.capacity)
    (hwindow : 0 ≤ settings.window) {s : DriveSample α} {after : Estimator α}
    (hafter : e.integrate s = .ok after) : Coherent settings (applied ++ [s]) after := by
  have hpush := h.push?_of_integrate hafter
  obtain ⟨hfinite, hnewer, reckoner, -, hfields⟩ := integrate_eq_ok hafter
  obtain ⟨-, htrajectory⟩ := Trajectory.push?_eq_some hpush
  rw [h.capacity_eq, h.window_eq] at htrajectory
  have hsuffix := Trajectory.evict_suffix settings.capacity settings.window e.trajectory.entries
    ⟨s.time, after.pose⟩
  have hnewest : after.trajectory.newest? = some ⟨s.time, after.pose⟩ := by
    rw [htrajectory]
    exact Trajectory.getLast?_evict hcapacity hwindow _ hfinite
  constructor
  · rw [htrajectory]
  · rw [htrajectory]
  · rw [htrajectory]
    exact Trajectory.length_evict_le _ _ _ _
  · rw [htrajectory]
    intro w hw
    rcases List.mem_append.mp (hsuffix.subset hw) with hw | hw
    · exact h.finite w hw
    · rw [List.mem_singleton.mp hw]
      exact hfinite
  · rw [htrajectory]
    refine List.Pairwise.sublist hsuffix.sublist (List.pairwise_append.mpr ⟨h.ordered, by simp, ?_⟩)
    intro w hw v hv
    rw [List.mem_singleton.mp hv]
    exact h.lt_of_isNewer hfinite hnewer w hw
  · rw [hnewest, List.getLast?_concat]
    rfl
  · intro w hw
    rw [hnewest] at hw
    cases hw
    rw [hfields]

theorem Coherent.addDrive (h : Coherent settings applied e) (hcapacity : 1 ≤ settings.capacity)
    (hwindow : 0 ≤ settings.window) (s : DriveSample α) :
    Coherent settings (applied ++ acceptedOf [s] [(e.addDrive s).1]) (e.addDrive s).2 :=
  addDrive_preserves (fun _ hafter => h.integrate hcapacity hwindow hafter) h.recordRejection

theorem Coherent.addDrives (h : Coherent settings applied e) (hcapacity : 1 ≤ settings.capacity)
    (hwindow : 0 ≤ settings.window) (samples : List (DriveSample α)) :
    Coherent settings (applied ++ acceptedOf samples ((e.addDrives samples).1.map Prod.snd))
      (e.addDrives samples).2 :=
  addDrives_preserves (P := Coherent settings)
    (fun _ _ s hcoherent => hcoherent.addDrive hcapacity hwindow s) h samples

/-! ## Runs -/

theorem Coherent.run (h : Coherent settings applied e) (hcapacity : 1 ≤ settings.capacity)
    (hwindow : 0 ≤ settings.window) (commands : List (Command α)) :
    Coherent settings ((commands.zip (e.run commands).1).foldl appliedAfter applied)
      (e.run commands).2 :=
  run_preserves_since (P := Coherent settings)
    (fun _ _ s hcoherent => hcoherent.addDrive hcapacity hwindow s)
    (fun _ _ m hcoherent => hcoherent.addPose m) (fun _ _ p hcoherent => hcoherent.reset p)
    h commands

/-! ## Estimators on binary64 numbers -/

/-- After any run the times of the record are finite, increasing and within
the capacity, there are entries exactly if a reading has been applied since the
last reset, and the newest entry is the time of the last such reading with the
live estimate. Whatever readings come next, the record takes in the pose of
each that is applied. -/
theorem coherent_run {chassis : Chassis Float} {pose : Pose Float}
    {settings : EstimatorSettings Float} {start : Estimator Float}
    (hbuild : build chassis pose settings = .ok start) (commands : List (Command Float)) :
    let e := (start.run commands).2
    let applied := appliedSinceReset commands (start.run commands).1
    (∀ w ∈ e.trajectory.entries, isFinite w.time = true) ∧
      (e.trajectory.entries.Pairwise fun a b => a.time < b.time) ∧
      e.trajectory.length ≤ settings.capacity ∧
      (e.trajectory.entries ≠ [] ↔ applied ≠ []) ∧
      (∀ w, e.trajectory.newest? = some w →
        e.lastOdometry = some w.time ∧ applied.getLast?.map DriveSample.time = some w.time ∧
          w.pose = e.pose) ∧
      ∀ samples s after, (e.addDrives samples).2.integrate s = .ok after →
        (e.addDrives samples).2.trajectory.push? ⟨s.time, after.pose⟩ = some after.trajectory := by
  intro e applied
  obtain ⟨hcapacity, hwindow, -, -⟩ := build_eq_ok hbuild
  have hone : 1 ≤ settings.capacity := by omega
  have hzero : 0 ≤ settings.window := RealScalar.le_of_lt hwindow
  have h : Coherent settings applied e := (coherent_build hbuild).run hone hzero commands
  have hnewest := h.newest
  refine ⟨h.finite, h.ordered, h.short, ?_, ?_, ?_⟩
  · rw [← List.getLast?_isSome (l := e.trajectory.entries), ← List.getLast?_isSome]
    show e.trajectory.newest?.isSome = true ↔ _
    rw [hnewest, Option.isSome_map]
  · intro w hw
    rw [hw] at hnewest
    obtain ⟨s, hs, rfl⟩ := Option.map_eq_some_iff.mp hnewest.symm
    exact ⟨h.last _ hw, by rw [hs]; rfl, rfl⟩
  · intro samples s after hafter
    exact (h.addDrives hone hzero samples).push?_of_integrate hafter

/-- A reading, a camera pose, a second reading and one that comes too late. -/
def lateReading : List (Command Float) :=
  let reading : DriveReading Float := ⟨0, .replicate ⟨0, 0⟩⟩
  [.drive ⟨1, reading⟩, .vision ⟨.origin, 1, ⟨1, 1, 1⟩⟩, .drive ⟨2, reading⟩,
    .drive ⟨1.5, reading⟩]

theorem coherent_run_lateReading :
    let chassis : Chassis Float := .square
    let start := fresh chassis .origin
    let e := (start.run lateReading).2
    Chassis.build (Chassis.rectangle 1 1) = .ok chassis ∧ build chassis .origin .standard = .ok start ∧
      e.trajectory.entries.map Waypoint.time = [1, 2] ∧
      e.trajectory.newest? = some ⟨2, e.pose⟩ ∧ e.lastOdometry = some 2 := by
  intro chassis start e
  have hbuild : build chassis .origin .standard = .ok start := build_fresh chassis .origin
  have htimes : e.trajectory.entries.map Waypoint.time = [1, 2] := by decide +kernel
  obtain ⟨-, -, -, -, hnewest, -⟩ := coherent_run hbuild lateReading
  have hlast : e.trajectory.newest?.map Waypoint.time = some 2 := by
    rw [Trajectory.newest?, ← List.getLast?_map, htimes]
    rfl
  obtain ⟨w, hw, htime⟩ := Option.map_eq_some_iff.mp hlast
  obtain ⟨hodometry, -, hpose⟩ := hnewest w hw
  refine ⟨Chassis.build_square, hbuild, htimes, ?_, ?_⟩
  · rw [hw, ← htime]
    exact congrArg some (congrArg (Waypoint.mk w.time) hpose)
  · rw [← htime]
    exact hodometry

end SwerveLocalization.Estimator
