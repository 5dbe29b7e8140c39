import Mathlib
import SwerveLocalization.Proofs.Exact.Residual

/-!
# Cameras drive out a position error

Two estimators on one chassis receive the same wheel readings, and one of them
starts at a wrong position. It also receives camera poses that show where the
other one has been. Then at every moment it differs from the other by one
displacement, in the estimate and in every recorded pose alike, and each camera
pose leaves the same fraction of it that it would leave of any residual. The
displacement shrinks on each axis by the product of these fractions, whatever
the robot does in between.
-/

namespace SwerveLocalization.Exact

open Estimator Real Scalar

/-! ## What stays real -/

/-- An estimator that holds real numbers only, and wrapped headings. -/
structure RealState (e : Estimator Exact) : Prop where
  chassis : RealChassis e.reckoner.chassis
  baseline : ∀ r, e.reckoner.baseline = some r → r.isFinite = true
  pose : e.pose.isFinite = true ∧ Wrapped e.pose
  record : ∀ w ∈ e.trajectory.entries, w.pose.isFinite = true ∧ Wrapped w.pose

variable {e : Estimator Exact}

theorem RealState.addDrive (h : RealState e) (s : DriveSample Exact) :
    RealState (e.addDrive s).2 := by
  rcases addDrive_cases e s with ⟨after, hafter, hdrive⟩ | ⟨r, -, hdrive⟩
  · rw [hdrive]
    obtain ⟨hreading, hchassis, hbaseline⟩ := reckoner_integrate hafter
    have hpose : after.pose.isFinite = true ∧ Wrapped after.pose := by
      rcases pose_integrate hafter with ⟨-, hpose⟩ | ⟨before, hbefore, hpose⟩
      · rw [hpose]
        exact h.pose
      · rw [hpose]
        have htwist := realTwist_motionBetween h.chassis (h.baseline before hbefore) hreading
        exact ⟨isFinite_move h.pose.1 htwist, wrap_wrap⟩
    refine ⟨?_, ?_, hpose, ?_⟩
    · intro share hshare
      rw [hchassis] at hshare
      exact h.chassis share hshare
    · rintro r hr
      rw [hbaseline] at hr
      cases hr
      exact hreading
    · intro w hw
      rcases mem_entries_integrate hafter hw with hw | rfl
      · exact h.record w hw
      · exact hpose
  · rw [hdrive]
    exact ⟨h.chassis, h.baseline, h.pose, h.record⟩

/-- What a camera pose asks for is real. -/
theorem exists_correctionOf {m : PoseMeasurement Exact} (hfinite : m.isFinite = true)
    (husable : m.hasUsableDeviations = true) {past : Pose Exact} (hpast : past.isFinite = true) :
    ∃ x y θ, m.correctionOf past = offset x y θ := by
  simp only [PoseMeasurement.isFinite, Pose.isFinite, Vec2.isFinite, Bool.and_eq_true]
    at hfinite hpast
  obtain ⟨hx, hy, hz⟩ := deviations_pos husable
  obtain ⟨dx, hdx⟩ := isFinite_iff_exists.mp (isFinite_sub hfinite.1.1.1 hpast.1.1)
  obtain ⟨dy, hdy⟩ := isFinite_iff_exists.mp (isFinite_sub hfinite.1.1.2 hpast.1.2)
  obtain ⟨dθ, hdθ⟩ := isFinite_iff_exists.mp (isFinite_wrap (isFinite_sub hfinite.1.2 hpast.2))
  refine ⟨weight m.deviations.x * dx, weight m.deviations.y * dy, weight m.deviations.z * dθ, ?_⟩
  unfold PoseMeasurement.correctionOf Pose.difference Angle.turn
  rw [trust_eq hx, trust_eq hy, trust_eq hz, hdx, hdy, hdθ]
  rfl

theorem isFinite_shift {p : Pose Exact} (hp : p.isFinite = true) (x y θ : ℝ) :
    (p.shift (offset x y θ)).isFinite = true := by
  simp only [Pose.isFinite, Vec2.isFinite, Bool.and_eq_true] at hp
  simp only [shift_eq, Pose.isFinite, Vec2.isFinite, Bool.and_eq_true]
  exact ⟨⟨isFinite_add hp.1.1 rfl, isFinite_add hp.1.2 rfl⟩, isFinite_wrap (isFinite_add hp.2 rfl)⟩

/-- A camera pose that is accepted is compared with a real pose. -/
theorem RealState.assess (h : RealState e) (hincreasing : Increasing e.trajectory.entries)
    {m : PoseMeasurement Exact} {d : Shift Exact} (hassess : e.assess m = .ok d) :
    m.isFinite = true ∧ m.hasUsableDeviations = true ∧
      ∃ past, e.trajectory.poseAt? m.time = some past ∧ past.isFinite = true ∧
        d = m.correctionOf past := by
  obtain ⟨hfinite, husable, past, hpast, rfl⟩ := assess_eq_ok hassess
  have htime : Scalar.isFinite m.time = true := by
    simp only [PoseMeasurement.isFinite, Bool.and_eq_true] at hfinite
    exact hfinite.2
  obtain ⟨t, ht⟩ := isFinite_iff_exists.mp htime
  refine ⟨hfinite, husable, past, hpast, ?_, rfl⟩
  rw [ht] at hpast
  exact isFinite_poseAt? hincreasing (fun w hw => (h.record w hw).1) hpast

theorem RealState.addPose (h : RealState e) (hincreasing : Increasing e.trajectory.entries)
    (m : PoseMeasurement Exact) : RealState (e.addPose m).2 := by
  rcases addPose_cases e m with ⟨d, hassess, hpose⟩ | ⟨r, -, hpose⟩
  · obtain ⟨hfinite, husable, past, -, hreal, rfl⟩ := h.assess hincreasing hassess
    obtain ⟨x, y, θ, hshift⟩ := exists_correctionOf hfinite husable hreal
    rw [hpose, hshift]
    refine ⟨h.chassis, h.baseline, ⟨isFinite_shift h.pose.1 x y θ, wrap_wrap⟩, ?_⟩
    intro w hw
    obtain ⟨v, hv, rfl⟩ := List.mem_map.mp hw
    exact ⟨isFinite_shift (h.record v hv).1 x y θ, wrap_wrap⟩
  · rw [hpose]
    exact ⟨h.chassis, h.baseline, h.pose, h.record⟩

theorem RealState.resetPose (h : RealState e) {p : Pose Exact}
    (hp : p.isFinite = true ∧ Wrapped p) : RealState (e.resetPose p) := by
  refine ⟨h.chassis, h.baseline, hp, ?_⟩
  intro w hw
  cases hw

/-- Without rounding an estimator on a chassis that could be built never leaves
the real numbers. -/
theorem realState_run {offsets : Wheels (Vec2 Exact)} {chassis : Chassis Exact} {pose : Pose Exact}
    {settings : EstimatorSettings Exact} {start : Estimator Exact}
    (hchassis : Chassis.build offsets = .ok chassis)
    (hbuild : build chassis pose settings = .ok start) (hpose : pose.isFinite = true ∧ Wrapped pose)
    (commands : List (Command Exact))
    (hreset : ∀ p, .reset p ∈ commands → p.isFinite = true ∧ Wrapped p) :
    RealState (start.run commands).2 := by
  obtain ⟨hcapacity, hwindow, -, -⟩ := build_eq_ok hbuild
  have hone : 1 ≤ settings.capacity := by omega
  have hzero : 0 ≤ settings.window := RealScalar.le_of_lt hwindow
  have hstart : RealState start ∧ ∃ applied, Coherent settings applied start := by
    refine ⟨?_, [], coherent_build hbuild⟩
    obtain ⟨-, -, -, rfl⟩ := build_eq_ok hbuild
    refine ⟨realChassis_build hchassis, ?_, hpose, ?_⟩
    · intro _ hr
      cases hr
    · intro _ hw
      cases hw
  refine (run_preserves (P := fun e => RealState e ∧ ∃ applied, Coherent settings applied e)
    (Q := fun p => p.isFinite = true ∧ Wrapped p) ?_ ?_ ?_ commands hstart hreset).1
  · rintro e s ⟨hreal, applied, hcoherent⟩
    exact ⟨hreal.addDrive s, _, hcoherent.addDrive hone hzero s⟩
  · rintro e m ⟨hreal, applied, hcoherent⟩
    exact ⟨hreal.addPose ⟨hcoherent.finite, hcoherent.ordered⟩ m, applied, hcoherent.addPose m⟩
  · rintro e p hp ⟨hreal, applied, hcoherent⟩
    exact ⟨hreal.resetPose hp, [], hcoherent.reset p⟩

/-! ## One estimator trails the other -/

/-- The estimators differ by a displacement of every pose they hold. The tallies
and the times of the last camera poses may differ as they like. -/
structure Trails (x y : ℝ) (a b : Estimator Exact) : Prop where
  reckoner : a.reckoner = b.reckoner.correct (offset x y 0)
  trajectory : a.trajectory = b.trajectory.shift (offset x y 0)
  lastOdometry : a.lastOdometry = b.lastOdometry

variable {x y : ℝ} {a b : Estimator Exact}

theorem push?_shift {α : Type} [Scalar α] (h : Trajectory α) (w : Waypoint α) (d : Shift α) :
    (h.shift d).push? ⟨w.time, w.pose.shift d⟩ = (h.push? w).map fun after => after.shift d := by
  have hadmits : (h.shift d).admits w.time = h.admits w.time := by
    unfold Trajectory.admits Trajectory.newest? Trajectory.shift
    rw [List.getLast?_map]
    cases h.entries.getLast? <;> rfl
  unfold Trajectory.push?
  dsimp only
  rw [hadmits]
  split
  · have hkept : ∀ l : List (Waypoint α),
        Trajectory.keepRecent h.window w.time
            (Trajectory.keepLatest h.capacity (l.map fun e => ⟨e.time, e.pose.shift d⟩))
          = (Trajectory.keepRecent h.window w.time (Trajectory.keepLatest h.capacity l)).map
            fun e => ⟨e.time, e.pose.shift d⟩ := by
      intro l
      unfold Trajectory.keepLatest Trajectory.keepRecent
      rw [List.length_map, ← List.map_drop, List.dropWhile_map]
      rfl
    have hkept' := hkept (h.entries ++ [w])
    rw [List.map_append] at hkept'
    exact congrArg (fun l => some (Trajectory.mk h.capacity h.window l)) hkept'
  · rfl

/-- A wheel reading moves both alike. -/
theorem Trails.addDrive (h : Trails x y a b) (hb : Wrapped b.pose) (s : DriveSample Exact) :
    (a.addDrive s).1 = (b.addDrive s).1 ∧ Trails x y (a.addDrive s).2 (b.addDrive s).2 := by
  have hnewer : a.isNewer s.time = b.isNewer s.time := by
    unfold isNewer
    rw [h.lastOdometry]
  have hupdate : a.reckoner.update s.reading
      = (b.reckoner.update s.reading).map fun d => d.correct (offset x y 0) := by
    rw [h.reckoner]
    unfold DeadReckoner.update DeadReckoner.correct
    dsimp only
    split
    · rfl
    · cases b.reckoner.baseline with
      | none => rfl
      | some before =>
        have hmove := move_shift x y b.reckoner.pose hb
          (DeadReckoner.motionBetween b.reckoner.chassis before s.reading)
        exact congrArg (fun p => Except.ok (DeadReckoner.mk b.reckoner.chassis p (some s.reading)))
          hmove
  have hpush : ∀ p : Pose Exact,
      (a.trajectory.push? ⟨s.time, p.shift (offset x y 0)⟩).getD a.trajectory
        = ((b.trajectory.push? ⟨s.time, p⟩).getD b.trajectory).shift (offset x y 0) := by
    intro p
    have hshift := push?_shift b.trajectory ⟨s.time, p⟩ (offset x y 0)
    rw [h.trajectory, hshift]
    cases b.trajectory.push? ⟨s.time, p⟩ <;> rfl
  unfold Estimator.addDrive integrate
  rw [hnewer, hupdate]
  split_ifs
  · exact ⟨rfl, h.reckoner, h.trajectory, h.lastOdometry⟩
  · exact ⟨rfl, h.reckoner, h.trajectory, h.lastOdometry⟩
  · cases b.reckoner.update s.reading with
    | error r => exact ⟨rfl, h.reckoner, h.trajectory, h.lastOdometry⟩
    | ok d => exact ⟨rfl, rfl, hpush d.pose, rfl⟩

theorem wrapped_addDrive (hb : Wrapped b.pose) (s : DriveSample Exact) :
    Wrapped (b.addDrive s).2.pose := by
  show Wrapped (b.run [.drive s]).2.pose
  exact wrapped_run hb (by simp)

theorem Trails.addDrives (h : Trails x y a b) (hb : Wrapped b.pose)
    (samples : List (DriveSample Exact)) :
    (a.addDrives samples).1.map Prod.snd = (b.addDrives samples).1.map Prod.snd ∧
      Trails x y (a.addDrives samples).2 (b.addDrives samples).2 := by
  induction samples generalizing a b with
  | nil => exact ⟨rfl, h⟩
  | cons s rest ih =>
    obtain ⟨hverdict, hfirst⟩ := h.addDrive hb s
    obtain ⟨hverdicts, hlast⟩ := ih hfirst (wrapped_addDrive hb s)
    rw [addDrives_cons, addDrives_cons, List.map_cons, List.map_cons]
    exact ⟨congrArg₂ List.cons hverdict hverdicts, hlast⟩

/-! ## Camera poses -/

theorem wrapped_walk (time : Exact) (w : Waypoint Exact) (rest : List (Waypoint Exact))
    (h : ∀ v ∈ w :: rest, Wrapped v.pose) : Wrapped (Trajectory.walk time w rest) := by
  induction rest generalizing w with
  | nil => exact h w List.mem_cons_self
  | cons next rest ih =>
    unfold Trajectory.walk
    split_ifs
    · exact ih next fun v hv => h v (List.mem_cons_of_mem _ hv)
    · exact h next (by simp)
    · exact wrap_wrap

theorem wrapped_poseAt? {h : Trajectory Exact} (hwrapped : ∀ w ∈ h.entries, Wrapped w.pose)
    {time : Exact} {p : Pose Exact} (hp : h.poseAt? time = some p) : Wrapped p := by
  unfold Trajectory.poseAt? at hp
  cases hentries : h.entries with
  | nil =>
    rw [hentries] at hp
    contradiction
  | cons first rest =>
    rw [hentries] at hp hwrapped
    dsimp only at hp
    split_ifs at hp
    · rw [← Option.some.inj hp]
      exact hwrapped first (by simp)
    · rw [← Option.some.inj hp]
      exact wrapped_walk time first rest hwrapped

/-- A camera pose that shows where the other estimator was takes its part out of
the displacement. -/
theorem Trails.addPose (h : Trails x y a b) (hb : RealState b)
    (hincreasing : Increasing b.trajectory.entries) {m : PoseMeasurement Exact}
    (husable : m.hasUsableDeviations = true) (htime : Scalar.isFinite m.time = true)
    (hseen : b.trajectory.poseAt? m.time = some m.pose) :
    (a.addPose m).1 = .accepted ∧
      Trails (x - weight m.deviations.x * x) (y - weight m.deviations.y * y) (a.addPose m).2 b := by
  obtain ⟨t, ht⟩ := isFinite_iff_exists.mp htime
  rw [ht] at hseen
  have hpose := isFinite_poseAt? hincreasing (fun w hw => (hb.record w hw).1) hseen
  have hwrapped := wrapped_poseAt? (fun w hw => (hb.record w hw).2) hseen
  have hfinite : m.isFinite = true := by
    unfold PoseMeasurement.isFinite
    rw [hpose, htime]
    rfl
  have hpast : a.trajectory.poseAt? m.time = some (m.pose.shift (offset x y 0)) := by
    rw [h.trajectory, ht, poseAt?_shift x y 0 hincreasing, hseen]
    rfl
  -- seen from the displaced record, the camera asks to undo the displacement
  have hback : m.pose = (m.pose.shift (offset x y 0)).shift (offset (-x) (-y) 0) := by
    rw [shift_shift, add_neg_cancel, add_neg_cancel, add_zero, shift_zero _ hwrapped]
  have hcorrection := correctionOf_shift hback hfinite husable (by linarith [pi_pos]) pi_pos.le
  have hassess := assess_of_poseAt? hfinite husable hpast
  have hafter : a.addPose m
      = (.accepted, (a.displace (m.correctionOf (m.pose.shift (offset x y 0)))).confirm m.time) := by
    unfold Estimator.addPose
    rw [hassess]
  have hsum : ∀ p : Pose Exact, (p.shift (offset x y 0)).shift
      (m.correctionOf (m.pose.shift (offset x y 0)))
        = p.shift (offset (x - weight m.deviations.x * x) (y - weight m.deviations.y * y) 0) := by
    intro p
    rw [hcorrection, shift_shift]
    congr 2 <;> ring
  rw [hafter]
  refine ⟨rfl, ?_, ?_, h.lastOdometry⟩
  · show a.reckoner.correct _ = _
    rw [h.reckoner]
    exact congrArg (fun p => DeadReckoner.mk b.reckoner.chassis p b.reckoner.baseline) (hsum _)
  · show a.trajectory.shift _ = _
    rw [h.trajectory]
    unfold Trajectory.shift
    rw [List.map_map]
    refine congrArg (Trajectory.mk b.trajectory.capacity b.trajectory.window) ?_
    exact List.map_congr_left fun w _ => congrArg (Waypoint.mk w.time) (hsum w.pose)

/-! ## Runs -/

/-- The camera pose of a command. -/
def sighting? : Command Exact → Option (PoseMeasurement Exact)
  | .vision m => some m
  | _ => none

/-- The camera poses of a run. -/
def sightings (commands : List (Command Exact)) : List (PoseMeasurement Exact) :=
  commands.filterMap sighting?

/-- A run without its camera poses. -/
def readings (commands : List (Command Exact)) : List (Command Exact) :=
  commands.filter fun c => (sighting? c).isNone

/-- Camera poses with usable deviations, each of which shows where another
estimator has the robot at the time of the capture. The other one receives the
wheel readings only. -/
def Guided (other : Estimator Exact) (commands : List (Command Exact)) : Prop :=
  ∀ first m, first ++ [.vision m] <+: commands →
    m.hasUsableDeviations = true ∧ Scalar.isFinite m.time = true ∧
      (other.run (readings first)).2.trajectory.poseAt? m.time = some m.pose

/-- The part of a displacement that measurements leave on an axis. -/
noncomputable def remaining (axis : Vec3 Exact → Exact) (ms : List (PoseMeasurement Exact)) : ℝ :=
  (ms.map fun m => 1 - weight (axis m.deviations)).prod

theorem corrected_eq (axis : Vec3 Exact → Exact) (ms : List (PoseMeasurement Exact)) :
    corrected axis ms = 1 - remaining axis ms := rfl

theorem remaining_concat (axis : Vec3 Exact → Exact) (ms : List (PoseMeasurement Exact))
    (m : PoseMeasurement Exact) :
    remaining axis (ms ++ [m]) = remaining axis ms * (1 - weight (axis m.deviations)) := by
  unfold remaining
  rw [List.map_append, List.prod_append, List.map_singleton, List.prod_singleton]

theorem run_concat (e : Estimator Exact) (first : List (Command Exact)) (c : Command Exact) :
    (e.run (first ++ [c])).2 = ((e.run first).2.perform c).2 := by
  rw [run_append]
  rfl

theorem sightings_concat (first : List (Command Exact)) (c : Command Exact) :
    sightings (first ++ [c]) = sightings first ++ (sighting? c).toList := by
  unfold sightings
  rw [List.filterMap_append]
  cases h : sighting? c <;> simp [h]

theorem readings_concat (first : List (Command Exact)) (c : Command Exact) :
    readings (first ++ [c]) = readings first ++ if (sighting? c).isNone then [c] else [] := by
  unfold readings
  rw [List.filter_append]
  cases h : sighting? c <;> simp [h]

theorem reset_mem_readings {commands : List (Command Exact)} {p : Pose Exact}
    (h : .reset p ∈ readings commands) : .reset p ∈ commands := (List.mem_filter.mp h).1

/-- A pose displaced over the field. -/
noncomputable def translated (x y : ℝ) (p : Pose Exact) : Pose Exact :=
  ⟨p.position + ⟨real x, real y⟩, p.heading⟩

theorem shift_eq_translated {p : Pose Exact} (hp : Wrapped p) (x y : ℝ) :
    p.shift (offset x y 0) = translated x y p := by
  have hheading : (p.shift (offset x y 0)).heading = p.heading := by
    have hzero := congrArg Pose.heading (shift_zero p hp)
    exact hzero
  exact congrArg (Pose.mk (p.position + ⟨real x, real y⟩)) hheading

/-- The start of a pair of runs: one chassis, one set of settings, and positions
that differ by an offset. -/
structure Pair (p : Pose Exact) (x y : ℝ) (a b : Estimator Exact) : Prop where
  real : p.isFinite = true
  wrapped : Wrapped p
  built : ∃ offsets chassis settings, Chassis.build offsets = .ok chassis ∧
    build chassis (translated x y p) settings = .ok a ∧ build chassis p settings = .ok b

variable {p : Pose Exact} {commands : List (Command Exact)}

theorem Pair.trails (h : Pair p x y a b) : Trails x y a b := by
  obtain ⟨-, hwrapped, offsets, chassis, settings, -, ha, hb⟩ := h
  obtain ⟨-, -, -, rfl⟩ := build_eq_ok ha
  obtain ⟨-, -, -, rfl⟩ := build_eq_ok hb
  refine ⟨?_, rfl, rfl⟩
  exact congrArg (fun q => DeadReckoner.mk chassis q none) (shift_eq_translated hwrapped x y).symm

theorem Pair.realState (h : Pair p x y a b) (hreset : ∀ q, .reset q ∉ commands) :
    RealState (b.run commands).2 ∧ Increasing (b.run commands).2.trajectory.entries := by
  obtain ⟨hreal, hwrapped, offsets, chassis, settings, hchassis, -, hb⟩ := h
  refine ⟨?_, increasing_run hb commands⟩
  exact realState_run hchassis hb ⟨hreal, hwrapped⟩ commands fun q hq => absurd hq (hreset q)

/-- What one command does to the pair. -/
theorem Trails.perform (h : Trails x y a b) (hb : RealState b)
    (hincreasing : Increasing b.trajectory.entries) {c : Command Exact} (hc : ∀ q, c ≠ .reset q)
    (hguided : ∀ m, c = .vision m → m.hasUsableDeviations = true ∧
      Scalar.isFinite m.time = true ∧ b.trajectory.poseAt? m.time = some m.pose) :
    (a.perform c).1 = (match sighting? c with
        | some _ => [.accepted]
        | none => (b.perform c).1) ∧
      Trails (x * remaining Vec3.x (sighting? c).toList) (y * remaining Vec3.y (sighting? c).toList)
        (a.perform c).2 (match sighting? c with
          | some _ => b
          | none => (b.perform c).2) := by
  have hnone : ∀ axis, remaining axis [] = 1 := fun axis => rfl
  cases c with
  | drive s =>
    obtain ⟨hverdict, hafter⟩ := h.addDrive hb.pose.2 s
    refine ⟨congrArg (fun v => [v]) hverdict, ?_⟩
    show Trails (x * remaining Vec3.x []) (y * remaining Vec3.y []) _ _
    rw [hnone, hnone, mul_one, mul_one]
    exact hafter
  | batch samples =>
    obtain ⟨hverdicts, hafter⟩ := h.addDrives hb.pose.2 (DriveSample.inOrder samples)
    refine ⟨hverdicts, ?_⟩
    show Trails (x * remaining Vec3.x []) (y * remaining Vec3.y []) _ _
    rw [hnone, hnone, mul_one, mul_one]
    exact hafter
  | vision m =>
    obtain ⟨husable, htime, hseen⟩ := hguided m rfl
    obtain ⟨hverdict, hafter⟩ := h.addPose hb hincreasing husable htime hseen
    refine ⟨congrArg (fun v => [v]) hverdict, ?_⟩
    have hone : ∀ axis z, z * remaining axis [m] = z - weight (axis m.deviations) * z := by
      intro axis z
      unfold remaining
      rw [List.map_singleton, List.prod_singleton]
      ring
    show Trails (x * remaining Vec3.x [m]) (y * remaining Vec3.y [m]) _ _
    rw [hone, hone]
    exact hafter
  | reset q => exact absurd rfl (hc q)

/-- At every moment one estimator trails the other by what the camera poses so
far have left of the offset. -/
theorem Pair.trails_run (h : Pair p x y a b) (hreset : ∀ q, .reset q ∉ commands)
    (hguided : Guided b commands) {first : List (Command Exact)} (hfirst : first <+: commands) :
    Trails (x * remaining Vec3.x (sightings first)) (y * remaining Vec3.y (sightings first))
      (a.run first).2 (b.run (readings first)).2 := by
  induction first using List.reverseRecOn with
  | nil =>
    show Trails (x * 1) (y * 1) a b
    rw [mul_one, mul_one]
    exact h.trails
  | append_singleton first c ih =>
    have hshorter : first <+: commands := (List.prefix_append first [c]).trans hfirst
    obtain ⟨hreal, hincreasing⟩ : RealState (b.run (readings first)).2 ∧
        Increasing (b.run (readings first)).2.trajectory.entries :=
      h.realState fun q hq => hreset q (hshorter.subset (reset_mem_readings hq))
    have hc : ∀ q, c ≠ .reset q := by
      rintro q rfl
      exact hreset q (hfirst.subset (by simp))
    have hstep := ((ih hshorter).perform hreal hincreasing hc ?_).2
    · rw [sightings_concat, readings_concat, run_concat]
      cases hsighting : sighting? c with
      | none =>
        rw [hsighting] at hstep
        have hnone : ∀ axis, remaining axis [] = 1 := fun axis => rfl
        simp only [Option.toList_none, hnone, mul_one] at hstep
        rw [Option.isNone_none, if_pos rfl, run_concat, Option.toList_none, List.append_nil]
        exact hstep
      | some m =>
        rw [hsighting] at hstep
        simp only [Option.isNone_some, Bool.false_eq_true, if_false, List.append_nil,
          Option.toList_some, remaining_concat]
        have hone : ∀ axis, remaining axis [m] = 1 - weight (axis m.deviations) :=
          fun axis => List.prod_singleton
        simp only [Option.toList_some, hone, mul_assoc] at hstep
        exact hstep
    · rintro m rfl
      exact hguided first m hfirst

theorem remaining_bounds {axis : Vec3 Exact → Exact} {first second : List (PoseMeasurement Exact)}
    (h : ∀ m ∈ second, 0 < axis m.deviations) (hfirst : first <+: second) :
    0 < remaining axis second ∧ remaining axis second ≤ remaining axis first := by
  have hsecond := (corrected_bounds h).2
  have hmono := corrected_mono h hfirst
  rw [corrected_eq] at hsecond
  rw [corrected_eq, corrected_eq] at hmono
  constructor <;> linarith

/-- An error that is multiplied by a positive number at most one keeps its sign
and does not grow. -/
theorem error_mul {z r r' : ℝ} (hr : 0 < r) (hle : r ≤ r') :
    |z * r| ≤ |z * r'| ∧ SignType.sign (z * r) = SignType.sign z := by
  refine ⟨?_, by rw [sign_mul, sign_pos hr, mul_one]⟩
  rw [abs_mul, abs_mul, abs_of_pos hr, abs_of_pos (hr.trans_le hle)]
  exact mul_le_mul_of_nonneg_left hle (abs_nonneg z)

theorem sightings_usable (hguided : Guided b commands) :
    ∀ m ∈ sightings commands, m.hasUsableDeviations = true := by
  intro m hm
  obtain ⟨c, hc, hsighting⟩ := List.mem_filterMap.mp hm
  obtain ⟨first, rest, rfl⟩ := List.append_of_mem hc
  cases c with
  | vision m' =>
    obtain rfl : m' = m := Option.some.inj hsighting
    exact (hguided first m' ⟨rest, by simp⟩).1
  | drive s => contradiction
  | batch samples => contradiction
  | reset q => contradiction

/-- However wheel readings and camera poses are interleaved, the camera poses
are all accepted and the readings are judged as without them. At every moment
the estimate and the record have the headings and the times of the other
estimator, and they are displaced from it by what the camera poses so far have
left of the offset. This error never grows and never changes its sign. -/
theorem displacement_run (h : Pair p x y a b) (hreset : ∀ q, .reset q ∉ commands)
    (hguided : Guided b commands) :
    (∀ first c, first ++ [c] <+: commands →
      ((a.run first).2.perform c).1 = match sighting? c with
        | some _ => [.accepted]
        | none => ((b.run (readings first)).2.perform c).1) ∧
    (∀ first, first <+: commands →
      let x' := x * remaining Vec3.x (sightings first)
      let y' := y * remaining Vec3.y (sightings first)
      let e := (a.run first).2
      let other := (b.run (readings first)).2
      e.pose = translated x' y' other.pose ∧
        e.trajectory.entries
          = other.trajectory.entries.map fun w => ⟨w.time, translated x' y' w.pose⟩) ∧
    ∀ first second, first <+: second → second <+: commands →
      ∀ z, ∀ axis ∈ [Vec3.x, Vec3.y],
        |z * remaining axis (sightings second)| ≤ |z * remaining axis (sightings first)| ∧
          SignType.sign (z * remaining axis (sightings second)) = SignType.sign z := by
  have hother : ∀ first, first <+: commands → RealState (b.run (readings first)).2 ∧
      Increasing (b.run (readings first)).2.trajectory.entries :=
    fun first hfirst => h.realState fun q hq => hreset q (hfirst.subset (reset_mem_readings hq))
  refine ⟨?_, ?_, ?_⟩
  · intro first c hfirst
    have hshorter : first <+: commands := (List.prefix_append first [c]).trans hfirst
    obtain ⟨hreal, hincreasing⟩ := hother first hshorter
    refine ((h.trails_run hreset hguided hshorter).perform hreal hincreasing ?_ ?_).1
    · rintro q rfl
      exact hreset q (hfirst.subset (by simp))
    · rintro m rfl
      exact hguided first m hfirst
  · intro first hfirst x' y' e other
    have htrails : Trails x' y' e other := h.trails_run hreset hguided hfirst
    have hreal : RealState other := (hother first hfirst).1
    constructor
    · rw [← shift_eq_translated hreal.pose.2]
      exact congrArg DeadReckoner.pose htrails.reckoner
    · rw [htrails.trajectory]
      exact List.map_congr_left fun w hw =>
        congrArg (Waypoint.mk w.time) (shift_eq_translated (hreal.record w hw).2 x' y')
  · intro first second hfirst hsecond z axis haxis
    have hpos : ∀ m ∈ sightings second, 0 < axis m.deviations := by
      intro m hm
      have hmem := List.Sublist.subset (hsecond.sublist.filterMap sighting?) hm
      obtain ⟨hx, hy, -⟩ := deviations_pos (sightings_usable hguided m hmem)
      simp only [List.mem_cons, List.not_mem_nil, or_false] at haxis
      rcases haxis with rfl | rfl
      · exact hx
      · exact hy
    obtain ⟨hremaining, hle⟩ := remaining_bounds hpos (hfirst.filterMap sighting?)
    exact error_mul hremaining hle

/-- The first reading records the pose the estimator was built with. -/
theorem entries_firstReading {chassis : Chassis Exact} {settings : EstimatorSettings Exact}
    (hbuild : build chassis p settings = .ok b) {s : DriveSample Exact}
    (htime : Scalar.isFinite s.time = true) (hreading : s.reading.isFinite = true) :
    (b.addDrive s).2.trajectory.entries = [⟨s.time, p⟩] := by
  obtain ⟨hcapacity, hwindow, -, rfl⟩ := build_eq_ok hbuild
  obtain ⟨t, ht⟩ := isFinite_iff_exists.mp htime
  have hage : s.time - s.time = (0 : Exact) := by
    rw [ht, real_sub_real, sub_self, zero_eq]
  have hroom : 1 - settings.capacity = 0 := by omega
  have hrecent : ¬ settings.window < real 0 := fun h => lt_asymm hwindow.2.2 h.2.2
  simp [addDrive, integrate, isNewer, htime, hreading, DeadReckoner.start, DeadReckoner.update,
    Trajectory.push?, Trajectory.admits, Trajectory.newest?, Trajectory.empty,
    Trajectory.keepLatest, Trajectory.keepRecent, hage, hroom, hrecent]

/-- Past the only entry its pose still stands. -/
theorem poseAt?_afterRest {q : Pose Exact} (hentries : e.trajectory.entries = [⟨real 0, q⟩]) :
    e.trajectory.poseAt? (real 1) = some q := by
  have hbefore : ¬ real 1 < real 0 := by
    rw [real_lt_real]
    norm_num
  have hat : ¬ (real 1 == real 0) = true := by
    rw [real_beq_real]
    norm_num
  unfold Trajectory.poseAt?
  rw [hentries]
  exact (if_neg hbefore).trans (if_neg hat)

/-- A reading at time zero. -/
noncomputable def restingReading : DriveSample Exact :=
  ⟨real 0, ⟨real 0, .replicate ⟨real 0, real 0⟩⟩⟩

/-- A camera pose past the newest entry that shows the origin. -/
noncomputable def originSighting : PoseMeasurement Exact :=
  ⟨.origin, real 1, ⟨real 1, real 1, posInf⟩⟩

/-- A reading after which the wheels have rolled. -/
noncomputable def rolledReading : DriveSample Exact :=
  ⟨real (1 + 1), ⟨real 1, .replicate ⟨real 1, real 0⟩⟩⟩

theorem displacement_run_sightingBetweenReadings :
    ∃ a b : Estimator Exact, Pair .origin 1 1 a b ∧
      (a.run [.drive restingReading, .vision originSighting, .drive rolledReading]).2.pose
        = translated (1 / 2) (1 / 2)
          (b.run [.drive restingReading, .drive rolledReading]).2.pose := by
  obtain ⟨a, ha⟩ := exists_estimator (chassisOf squareCorners) (translated 1 1 .origin)
  obtain ⟨b, hb⟩ := exists_estimator (chassisOf squareCorners) .origin
  have hpair : Pair .origin 1 1 a b :=
    ⟨rfl, wrapped_origin, squareOffsets, _, _, build_squareOffsets, ha, hb⟩
  have husable : originSighting.hasUsableDeviations = true := by
    simp [originSighting, PoseMeasurement.hasUsableDeviations, Scalar.isInfinite]
  have hseen : (b.run [.drive restingReading]).2.trajectory.poseAt? (real 1) = some .origin :=
    poseAt?_afterRest (entries_firstReading hb rfl rfl)
  have hguided : Guided b [.drive restingReading, .vision originSighting, .drive rolledReading] := by
    rintro (_ | ⟨c, _ | ⟨c', rest⟩⟩) m hfirst
    · simp at hfirst
    · simp only [List.cons_append, List.nil_append, List.cons_prefix_cons, Command.vision.injEq]
        at hfirst
      obtain ⟨rfl, rfl, -⟩ := hfirst
      exact ⟨husable, rfl, hseen⟩
    · cases rest <;> simp at hfirst
  have h := ((displacement_run hpair (by simp) hguided).2.1 _ (List.prefix_refl _)).1
  have hhalf : 1 * remaining Vec3.x [originSighting] = 1 / 2 ∧
      1 * remaining Vec3.y [originSighting] = 1 / 2 := by
    simp only [remaining, originSighting, weight, List.map_singleton, List.prod_singleton]
    norm_num
  refine ⟨a, b, hpair, ?_⟩
  rw [← hhalf.1]
  exact h

end SwerveLocalization.Exact
