import Mathlib
import SwerveLocalization.Binary64.Arithmetic
import SwerveLocalization.Localization.Command

/-!
# What one step of an estimator can do

Every sample either is applied and changes the estimator in one known way, or
it is rejected and changes the tally alone. These lemmas say so once, with all
the conditions that were checked, so that no invariant has to look into the
definitions again.
-/

namespace SwerveLocalization

/-- A reading that is finite becomes the baseline, and moves the pose if there
was a baseline before. -/
theorem DeadReckoner.update_eq_ok {α : Type} [Scalar α] {d after : DeadReckoner α}
    {r : DriveReading α} (h : d.update r = .ok after) :
    r.isFinite = true ∧
      ((d.baseline = none ∧ after = { d with baseline := some r }) ∨
        ∃ before, d.baseline = some before ∧
          after = { d with
            pose := d.pose.move (motionBetween d.chassis before r)
            baseline := some r }) := by
  unfold update at h
  split at h
  · contradiction
  · rename_i hfinite
    refine ⟨by simpa using hfinite, ?_⟩
    split at h
    · rename_i hnone
      exact .inl ⟨hnone, (Except.ok.inj h).symm⟩
    · rename_i before hbefore
      exact .inr ⟨before, hbefore, (Except.ok.inj h).symm⟩

namespace Estimator

variable {α : Type} [Scalar α] {e after : Estimator α} {s : DriveSample α} {m : PoseMeasurement α}

/-- A reading that is applied is finite, newer than the last one, and moves
the reckoner; the new pose is recorded. -/
theorem integrate_eq_ok (h : e.integrate s = .ok after) :
    Scalar.isFinite s.time = true ∧ e.isNewer s.time = true ∧
      ∃ reckoner, e.reckoner.update s.reading = .ok reckoner ∧
        after = { e with
          reckoner
          lastOdometry := some s.time
          trajectory := (e.trajectory.push? ⟨s.time, reckoner.pose⟩).getD e.trajectory
          tally := e.tally.countOdometry } := by
  unfold integrate at h
  split at h
  · contradiction
  · rename_i hfinite
    split at h
    · contradiction
    · rename_i hnewer
      cases hupdate : e.reckoner.update s.reading with
      | error r =>
        rw [hupdate] at h
        contradiction
      | ok reckoner =>
        rw [hupdate] at h
        refine ⟨by simpa using hfinite, by simpa using hnewer, reckoner, rfl, ?_⟩
        exact (Except.ok.inj h).symm

/-- The first reading moves nothing, and every other one moves the estimate by
the motion since the one before. -/
theorem pose_integrate (h : e.integrate s = .ok after) :
    (e.reckoner.baseline = none ∧ after.pose = e.pose) ∨
      ∃ before, e.reckoner.baseline = some before ∧
        after.pose = e.pose.move (DeadReckoner.motionBetween e.reckoner.chassis before s.reading) := by
  obtain ⟨-, -, reckoner, hupdate, rfl⟩ := integrate_eq_ok h
  obtain ⟨-, ⟨hnone, rfl⟩ | ⟨before, hbefore, rfl⟩⟩ := DeadReckoner.update_eq_ok hupdate
  · exact .inl ⟨hnone, rfl⟩
  · exact .inr ⟨before, hbefore, rfl⟩

/-- A reading that is applied is the one that the next motion is measured from. -/
theorem reckoner_integrate (h : e.integrate s = .ok after) :
    s.reading.isFinite = true ∧ after.reckoner.chassis = e.reckoner.chassis ∧
      after.reckoner.baseline = some s.reading := by
  obtain ⟨-, -, reckoner, hupdate, rfl⟩ := integrate_eq_ok h
  obtain ⟨hfinite, ⟨-, rfl⟩ | ⟨before, -, rfl⟩⟩ := DeadReckoner.update_eq_ok hupdate <;>
    exact ⟨hfinite, rfl, rfl⟩

/-- A reading adds nothing to the record but the pose it leads to. -/
theorem mem_entries_integrate (h : e.integrate s = .ok after) {w : Waypoint α}
    (hw : w ∈ after.trajectory.entries) :
    w ∈ e.trajectory.entries ∨ w = ⟨s.time, after.pose⟩ := by
  obtain ⟨-, -, reckoner, -, rfl⟩ := integrate_eq_ok h
  dsimp only [Trajectory.push?] at hw
  split at hw
  · have hkept := (List.dropWhile_suffix _).subset hw
    have hmem := (List.drop_suffix _ _).subset hkept
    rcases List.mem_append.mp hmem with hold | hnew
    · exact .inl hold
    · exact .inr (List.mem_singleton.mp hnew)
  · exact .inl hw

theorem addDrive_cases (e : Estimator α) (s : DriveSample α) :
    (∃ after, e.integrate s = .ok after ∧ e.addDrive s = (.accepted, after)) ∨
      ∃ r, e.integrate s = .error r ∧ e.addDrive s = (.rejected r, e.recordRejection r) := by
  unfold addDrive
  cases hintegrate : e.integrate s with
  | ok after => exact .inl ⟨after, rfl, rfl⟩
  | error r => exact .inr ⟨r, rfl, rfl⟩

/-- A finite reading that is newer than the last one is applied. -/
theorem addDrive_of_newer (htime : Scalar.isFinite s.time = true)
    (hnewer : e.isNewer s.time = true) (hreading : s.reading.isFinite = true) :
    ∃ after, e.integrate s = .ok after ∧ e.addDrive s = (.accepted, after) := by
  rcases addDrive_cases e s with happlied | ⟨r, hr, -⟩
  · exact happlied
  · unfold integrate DeadReckoner.update at hr
    cases hbaseline : e.reckoner.baseline <;> simp [htime, hnewer, hreading, hbaseline] at hr

/-- What is checked of a reading, in this order. -/
theorem addDrive_verdict (e : Estimator α) (s : DriveSample α) :
    (e.addDrive s).1 =
      if Scalar.isFinite s.time = false then .rejected .nonFiniteOdometry
      else if e.isNewer s.time = false then .rejected .outOfOrderOdometry
      else if s.reading.isFinite = false then .rejected .nonFiniteOdometry
      else .accepted := by
  unfold addDrive integrate DeadReckoner.update
  cases Scalar.isFinite s.time
  · rfl
  · cases e.isNewer s.time
    · rfl
    · cases s.reading.isFinite
      · rfl
      · cases e.reckoner.baseline <;> rfl

/-- A reading is rejected for one of two reasons. -/
theorem addDrive_verdict_cases (e : Estimator α) (s : DriveSample α) :
    (e.addDrive s).1 = .accepted ∨ (e.addDrive s).1 = .rejected .nonFiniteOdometry ∨
      (e.addDrive s).1 = .rejected .outOfOrderOdometry := by
  rw [addDrive_verdict]
  cases Scalar.isFinite s.time <;> cases e.isNewer s.time <;> cases s.reading.isFinite <;> simp

theorem addPose_cases (e : Estimator α) (m : PoseMeasurement α) :
    (∃ d, e.assess m = .ok d ∧ e.addPose m = (.accepted, (e.displace d).confirm m.time)) ∨
      ∃ r, e.assess m = .error r ∧ e.addPose m = (.rejected r, e.recordRejection r) := by
  unfold addPose
  cases hassess : e.assess m with
  | ok d => exact .inl ⟨d, rfl, rfl⟩
  | error r => exact .inr ⟨r, rfl, rfl⟩

/-- A camera pose that is accepted is finite, has usable deviations, and is
compared with the recorded pose of its time. -/
theorem assess_eq_ok {d : Shift α} (h : e.assess m = .ok d) :
    m.isFinite = true ∧ m.hasUsableDeviations = true ∧
      ∃ past, e.trajectory.poseAt? m.time = some past ∧ d = m.correctionOf past := by
  unfold assess at h
  split at h
  · contradiction
  · rename_i hfinite
    split at h
    · contradiction
    · rename_i husable
      refine ⟨by simpa using hfinite, by simpa using husable, ?_⟩
      split at h
      · contradiction
      · split at h
        · contradiction
        · split at h
          · contradiction
          · rename_i past hpast
            exact ⟨past, hpast, (Except.ok.inj h).symm⟩

/-- A record has a pose for every time that is not before its oldest entry. -/
theorem isSome_poseAt? {t : Trajectory α} {oldest : Waypoint α} (holdest : t.oldest? = some oldest)
    {time : α} (htime : ¬ time < oldest.time) : (t.poseAt? time).isSome = true := by
  obtain ⟨rest, hentries⟩ := List.head?_eq_some_iff.mp holdest
  unfold Trajectory.poseAt?
  rw [hentries]
  dsimp only
  rw [if_neg htime]
  split <;> rfl

/-- What is checked of a camera pose, in this order. -/
theorem addPose_verdict (e : Estimator α) (m : PoseMeasurement α) :
    (e.addPose m).1 =
      if m.isFinite = false then .rejected .nonFinitePose
      else if m.hasUsableDeviations = false then .rejected .invalidDeviations
      else match e.trajectory.oldest? with
        | none => .rejected .noHistory
        | some oldest => if m.time < oldest.time then .rejected .stale else .accepted := by
  unfold addPose assess
  cases m.isFinite
  · rfl
  · cases m.hasUsableDeviations
    · rfl
    · cases holdest : e.trajectory.oldest? with
      | none => rfl
      | some oldest =>
        dsimp only
        by_cases hbefore : m.time < oldest.time
        · rw [if_pos hbefore]
          simp [hbefore]
        · obtain ⟨past, hpast⟩ := Option.isSome_iff_exists.mp (isSome_poseAt? holdest hbefore)
          simp [hbefore, hpast]

/-- A time that has a recorded pose is not before the record, so a sound camera
pose of this time is accepted. -/
theorem assess_of_poseAt? (hfinite : m.isFinite = true) (husable : m.hasUsableDeviations = true)
    {past : Pose α} (hpast : e.trajectory.poseAt? m.time = some past) :
    e.assess m = .ok (m.correctionOf past) := by
  unfold assess
  rw [hfinite, husable]
  unfold Trajectory.oldest?
  have hlookup := hpast
  unfold Trajectory.poseAt? at hlookup
  cases hentries : e.trajectory.entries with
  | nil =>
    rw [hentries] at hlookup
    contradiction
  | cons first rest =>
    rw [hentries] at hlookup
    dsimp only [List.head?_cons] at hlookup ⊢
    by_cases hbefore : m.time < first.time
    · rw [if_pos hbefore] at hlookup
      contradiction
    · rw [if_neg hbefore, hpast]
      rfl

theorem accepted_of_poseAt? (hfinite : m.isFinite = true) (husable : m.hasUsableDeviations = true)
    {past : Pose α} (hpast : e.trajectory.poseAt? m.time = some past) :
    (e.addPose m).1 = .accepted := by
  rw [addPose, assess_of_poseAt? hfinite husable hpast]

/-- A displaced record has a pose for the same times. -/
theorem isSome_poseAt?_shift (t : Trajectory α) (d : Shift α) (time : α) :
    ((t.shift d).poseAt? time).isSome = (t.poseAt? time).isSome := by
  unfold Trajectory.poseAt? Trajectory.shift
  cases t.entries with
  | nil => rfl
  | cons first rest =>
    rw [List.map_cons]
    dsimp only
    split_ifs <;> rfl

/-- Sound camera poses of times that the record covers are accepted one after the other. -/
theorem accepted_of_covered {ms : List (PoseMeasurement α)}
    (hsound : ∀ m ∈ ms, m.isFinite = true ∧ m.hasUsableDeviations = true)
    (hcovered : ∀ m ∈ ms, (e.trajectory.poseAt? m.time).isSome = true) :
    (e.run (ms.map .vision)).1 = ms.map fun _ => [.accepted] := by
  induction ms generalizing e with
  | nil => rfl
  | cons m rest ih =>
    obtain ⟨hfinite, husable⟩ := hsound m List.mem_cons_self
    obtain ⟨past, hpast⟩ := Option.isSome_iff_exists.mp (hcovered m List.mem_cons_self)
    have hassess := assess_of_poseAt? hfinite husable hpast
    have hpose : e.addPose m = (.accepted, (e.displace (m.correctionOf past)).confirm m.time) := by
      rw [addPose, hassess]
    have hrest : ((e.addPose m).2.run (rest.map .vision)).1 = rest.map fun _ => [.accepted] := by
      refine ih (fun m' hm' => hsound m' (List.mem_cons_of_mem m hm')) fun m' hm' => ?_
      rw [hpose]
      exact (isSome_poseAt?_shift _ _ _).trans (hcovered m' (List.mem_cons_of_mem m hm'))
    show [(e.addPose m).1] :: ((e.addPose m).2.run (rest.map .vision)).1 = _
    rw [hrest, accepted_of_poseAt? hfinite husable hpast]
    rfl

/-- An estimator that could be built remembers something. -/
theorem build_eq_ok {chassis : Chassis α} {pose : Pose α} {settings : EstimatorSettings α}
    (h : build chassis pose settings = .ok e) :
    2 ≤ settings.capacity ∧ 0 < settings.window ∧ 0 < settings.timeConstant ∧
      e = ⟨settings, .start chassis pose, .empty settings.capacity settings.window, none, none,
        .zero⟩ := by
  unfold build EstimatorSettings.validate at h
  split at h
  · contradiction
  · rename_i hhistory
    split at h
    · contradiction
    · rename_i htime
      refine ⟨?_, ?_, ?_, (Except.ok.inj h).symm⟩
      · exact Nat.le_of_not_lt fun hlt => hhistory (.inl hlt)
      · exact Decidable.byContradiction fun hnot => hhistory (.inr hnot)
      · exact Decidable.byContradiction htime

/-- More is not asked of settings. -/
theorem build_of_bounds {settings : EstimatorSettings α} (hcapacity : 2 ≤ settings.capacity)
    (hwindow : 0 < settings.window) (htime : 0 < settings.timeConstant) (chassis : Chassis α)
    (pose : Pose α) :
    build chassis pose settings
      = .ok ⟨settings, .start chassis pose, .empty settings.capacity settings.window, none, none,
        .zero⟩ := by
  unfold build EstimatorSettings.validate
  rw [if_neg (not_or.mpr ⟨hcapacity.not_gt, not_not.mpr hwindow⟩), if_neg (not_not.mpr htime)]
  rfl

/-! ## Runs -/

/-- Every command gives its verdicts. -/
theorem length_run (e : Estimator α) (commands : List (Command α)) :
    (e.run commands).1.length = commands.length := by
  induction commands generalizing e with
  | nil => rfl
  | cons c rest ih => exact congrArg (· + 1) (ih _)

/-- What every step preserves, a run preserves. -/
theorem run_preserves {P : Estimator α → Prop} {Q : Pose α → Prop}
    (hdrive : ∀ e s, P e → P (e.addDrive s).2) (hpose : ∀ e m, P e → P (e.addPose m).2)
    (hreset : ∀ e p, Q p → P e → P (e.resetPose p)) (commands : List (Command α)) {e : Estimator α}
    (he : P e) (hQ : ∀ p, .reset p ∈ commands → Q p) : P (e.run commands).2 := by
  have hdrives : ∀ samples (e : Estimator α), P e → P (e.addDrives samples).2 := by
    intro samples
    induction samples with
    | nil => exact fun e he => he
    | cons s rest ih => exact fun e he => ih _ (hdrive e s he)
  induction commands generalizing e with
  | nil => exact he
  | cons c rest ih =>
    have hrest := fun p hp => hQ p (List.mem_cons_of_mem c hp)
    cases c with
    | drive s => exact ih (hdrive e s he) hrest
    | batch samples => exact ih (hdrives _ e he) hrest
    | vision m => exact ih (hpose e m he) hrest
    | reset p => exact ih (hreset e p (hQ p List.mem_cons_self) he) hrest

/-- An estimator with the standard settings that has taken in nothing yet. -/
def fresh (chassis : Chassis α) (pose : Pose α) : Estimator α :=
  ⟨.standard, .start chassis pose, .empty 300 2.0, none, none, .zero⟩

/-- The standard settings are fit for any chassis and any pose. -/
theorem build_fresh (chassis : Chassis Float) (pose : Pose Float) :
    build chassis pose .standard = .ok (fresh chassis pose) := rfl

end Estimator

/-- The chassis of a square of wheels, two metres wide, in numbers with quarters and
eighths. -/
def Chassis.square {α : Type} [Scalar α] : Chassis α :=
  ⟨rectangle 1 1,
    ⟨⟨⟨0.25, 0, -0.125⟩, ⟨0, 0.25, 0.125⟩⟩, ⟨⟨0.25, 0, 0.125⟩, ⟨0, 0.25, 0.125⟩⟩,
      ⟨⟨0.25, 0, -0.125⟩, ⟨0, 0.25, -0.125⟩⟩, ⟨⟨0.25, 0, 0.125⟩, ⟨0, 0.25, -0.125⟩⟩⟩⟩

theorem Chassis.build_square : build (rectangle 1 1) = .ok (square : Chassis Float) := by
  decide +kernel

end SwerveLocalization
