import Mathlib
import SwerveLocalization.Proofs.Exact.Convergence
import SwerveLocalization.Proofs.Localization.Reset

/-!
# The heading is the gyro plus the corrections

Readings turn the heading by the difference of two gyro angles, cameras correct
it, and every step wraps it anew. Without rounding the account still balances: at
any moment the heading is the one that the robot was last put at, and the turn of
the gyro since, and the corrections since, wrapped once. The turn begins at the
reading that was the last one when the robot was put there, so a reset neither
loses a turn nor counts it twice.
-/

namespace SwerveLocalization.Exact

open Estimator Real Scalar

/-! ## What counts -/

/-- The pose that a command puts the robot at. -/
def put? : Command Exact → Option (Pose Exact)
  | .reset p => some p
  | _ => none

/-- The readings that a run applies. -/
noncomputable def appliedDuring (e : Estimator Exact) (commands : List (Command Exact)) :
    List (DriveSample Exact) :=
  (commands.zip (e.run commands).1).flatMap appliedBy

/-- How far the gyro has turned from the first reading to the last. -/
noncomputable def gyroTurn (seen : List (DriveSample Exact)) : ℝ :=
  match seen.head?, seen.getLast? with
  | some first, some last => toReal last.reading.gyro - toReal first.reading.gyro
  | _, _ => 0

/-- The part that is trusted of the turn, taken the short way, from a recorded heading
to the one a camera shows. -/
noncomputable def headingCorrection (m : PoseMeasurement Exact) (past : Pose Exact) : ℝ :=
  weight m.deviations.z
    * ((toReal m.pose.heading - toReal past.heading : ℝ) : Real.Angle).toReal

/-- The correction of the heading that a command makes, if any. -/
noncomputable def correctionsBy (e : Estimator Exact) : Command Exact → List ℝ
  | .vision m =>
    match (e.addPose m).1, e.trajectory.poseAt? m.time with
    | .accepted, some past => [headingCorrection m past]
    | _, _ => []
  | _ => []

/-- The corrections of the heading that a run makes. -/
noncomputable def correctionsDuring : Estimator Exact → List (Command Exact) → List ℝ
  | _, [] => []
  | e, c :: rest => correctionsBy e c ++ correctionsDuring (e.perform c).2 rest

variable {e start : Estimator Exact} {s r : DriveSample Exact} {seen : List (DriveSample Exact)}
  {m : PoseMeasurement Exact} {θ : ℝ} {corrections : List ℝ}

theorem appliedDuring_concat (e : Estimator Exact) (first : List (Command Exact))
    (c : Command Exact) :
    appliedDuring e (first ++ [c])
      = appliedDuring e first ++ appliedBy (c, ((e.run first).2.perform c).1) := by
  unfold appliedDuring
  rw [run_append, List.zip_append (length_run e first).symm, List.flatMap_append]
  exact congrArg (_ ++ ·) (List.flatMap_singleton _ _)

theorem correctionsDuring_concat (e : Estimator Exact) (first : List (Command Exact))
    (c : Command Exact) :
    correctionsDuring e (first ++ [c])
      = correctionsDuring e first ++ correctionsBy (e.run first).2 c := by
  induction first generalizing e with
  | nil => exact List.append_nil _
  | cons c' rest ih =>
    rw [List.cons_append, correctionsDuring, ih, ← List.append_assoc]
    rfl

theorem gyroTurn_singleton (s : DriveSample Exact) : gyroTurn [s] = 0 := sub_self _

/-- The next reading adds its turn since the last one. -/
theorem gyroTurn_concat (h : seen.getLast? = some r) (s : DriveSample Exact) :
    gyroTurn (seen ++ [s])
      = gyroTurn seen + (toReal s.reading.gyro - toReal r.reading.gyro) := by
  cases seen with
  | nil => cases h
  | cons first rest =>
    have hturn : gyroTurn (first :: rest) = toReal r.reading.gyro - toReal first.reading.gyro := by
      unfold gyroTurn
      rw [h]
      rfl
    have hlast : (first :: rest ++ [s]).getLast? = some s := List.getLast?_concat
    have hnext : gyroTurn (first :: rest ++ [s])
        = toReal s.reading.gyro - toReal first.reading.gyro := by
      unfold gyroTurn
      rw [hlast]
      rfl
    rw [hnext, hturn]
    ring

/-! ## The account balances -/

/-- A heading that is wrapped before a turn is wrapped after it. -/
theorem wrap_toReal_add (a d : ℝ) :
    Angle.wrap (real (a : Real.Angle).toReal + real d)
      = real ((a + d : ℝ) : Real.Angle).toReal := by
  rw [real_add_real, wrap_real, Angle.coe_add, Angle.coe_toReal, Angle.coe_add]

/-- An estimator whose heading is accounted for: it was put at `θ`, has seen these
readings and made these corrections. The first reading only marks where the turn
of the gyro begins. -/
structure Balanced (θ : ℝ) (seen : List (DriveSample Exact)) (corrections : List ℝ)
    (e : Estimator Exact) : Prop where
  heading : e.pose.heading = real ((θ + gyroTurn seen + corrections.sum : ℝ) : Real.Angle).toReal
  baseline : e.reckoner.baseline = seen.getLast?.map DriveSample.reading

/-- The account is opened where the robot is put, with the last reading before. -/
theorem balanced_put {p : Pose Exact} (hp : p.isFinite = true ∧ Wrapped p) (hpose : e.pose = p)
    {last : Option (DriveSample Exact)} (hlast : e.reckoner.baseline = last.map DriveSample.reading) :
    Balanced (toReal p.heading) last.toList [] e := by
  obtain ⟨hfinite, hwrapped⟩ := hp
  simp only [Pose.isFinite, Bool.and_eq_true] at hfinite
  obtain ⟨θ, hθ⟩ := isFinite_iff_exists.mp hfinite.2
  have hturn : gyroTurn last.toList = 0 := by
    cases last with
    | none => rfl
    | some s => exact gyroTurn_singleton s
  constructor
  · rw [hpose, ← hwrapped, hθ, wrap_real, hturn, List.sum_nil, add_zero, add_zero, toReal_real,
      Angle.coe_toReal]
  · cases last <;> exact hlast

theorem Balanced.integrate (h : Balanced θ seen corrections e) (hreal : RealState e)
    {s : DriveSample Exact} {after : Estimator Exact} (hafter : e.integrate s = .ok after) :
    Balanced θ (seen ++ [s]) corrections after := by
  obtain ⟨hfinite, -, hnext⟩ := reckoner_integrate hafter
  refine ⟨?_, by rw [List.getLast?_concat]; exact hnext⟩
  have hbaseline := h.baseline
  rcases pose_integrate hafter with ⟨hnone, hpose⟩ | ⟨before, hbefore, hpose⟩
  · -- the first reading of all marks the beginning
    rw [hnone, eq_comm, Option.map_eq_none_iff, List.getLast?_eq_none_iff] at hbaseline
    subst hbaseline
    rw [hpose, h.heading, List.nil_append, gyroTurn_singleton]
    rfl
  · rw [hbefore, eq_comm, Option.map_eq_some_iff] at hbaseline
    obtain ⟨r, hr, rfl⟩ := hbaseline
    have hrfinite := hreal.baseline _ hbefore
    simp only [DriveReading.isFinite, Bool.and_eq_true] at hfinite hrfinite
    have hdifference : s.reading.gyro - r.reading.gyro
        = real (toReal s.reading.gyro - toReal r.reading.gyro) := by
      rw [← real_sub_real, real_toReal hfinite.1, real_toReal hrfinite.1]
    rw [hpose]
    show Angle.wrap (e.pose.heading + (s.reading.gyro - r.reading.gyro)) = _
    rw [h.heading, hdifference, wrap_toReal_add, gyroTurn_concat hr, ← add_assoc, add_right_comm]

theorem Balanced.addDrive (h : Balanced θ seen corrections e) (hreal : RealState e)
    (s : DriveSample Exact) :
    Balanced θ (seen ++ acceptedOf [s] [(e.addDrive s).1]) corrections (e.addDrive s).2 :=
  addDrive_preserves (P := fun seen e => Balanced θ seen corrections e)
    (fun _ hafter => h.integrate hreal hafter) fun _ => ⟨h.heading, h.baseline⟩

theorem Balanced.addDrives (h : Balanced θ seen corrections e) (hreal : RealState e)
    (samples : List (DriveSample Exact)) :
    Balanced θ (seen ++ acceptedOf samples ((e.addDrives samples).1.map Prod.snd)) corrections
      (e.addDrives samples).2 := by
  refine (addDrives_preserves (P := fun seen e => Balanced θ seen corrections e ∧ RealState e)
    ?_ ⟨h, hreal⟩ samples).1
  rintro seen e s ⟨hbalanced, hreal⟩
  exact ⟨hbalanced.addDrive hreal s, hreal.addDrive s⟩

theorem dtheta_correctionOf (hfinite : m.isFinite = true) (husable : m.hasUsableDeviations = true)
    {past : Pose Exact} (hpast : past.isFinite = true) :
    (m.correctionOf past).dtheta = real (headingCorrection m past) := by
  simp only [PoseMeasurement.isFinite, Pose.isFinite, Bool.and_eq_true] at hfinite hpast
  have hdifference : m.pose.heading - past.heading
      = real (toReal m.pose.heading - toReal past.heading) := by
    rw [← real_sub_real, real_toReal hfinite.1.2, real_toReal hpast.2]
  show trust m.deviations.z * Angle.wrap (m.pose.heading - past.heading) = _
  rw [trust_eq (deviations_pos husable).2.2, hdifference, wrap_real]
  rfl

theorem Balanced.addPose (h : Balanced θ seen corrections e) (hreal : RealState e)
    (hincreasing : Increasing e.trajectory.entries) (m : PoseMeasurement Exact) :
    Balanced θ seen (corrections ++ correctionsBy e (.vision m)) (e.addPose m).2 := by
  rcases addPose_cases e m with ⟨d, hassess, hpose⟩ | ⟨r, -, hpose⟩
  · obtain ⟨hfinite, husable, past, hpast, hpastReal, rfl⟩ := hreal.assess hincreasing hassess
    have hmade : correctionsBy e (.vision m) = [headingCorrection m past] := by
      simp only [correctionsBy, hpose, hpast]
    rw [hmade, hpose]
    refine ⟨?_, h.baseline⟩
    show Angle.wrap (e.pose.heading + (m.correctionOf past).dtheta) = _
    rw [h.heading, dtheta_correctionOf hfinite husable hpastReal, wrap_toReal_add,
      List.sum_append, List.sum_singleton, add_assoc]
  · have hmade : correctionsBy e (.vision m) = [] := by
      simp only [correctionsBy, hpose]
    rw [hmade, List.append_nil, hpose]
    exact ⟨h.heading, h.baseline⟩

theorem Balanced.perform (h : Balanced θ seen corrections e) (hreal : RealState e)
    (hincreasing : Increasing e.trajectory.entries) {c : Command Exact} (hc : put? c = none) :
    Balanced θ (seen ++ appliedBy (c, (e.perform c).1)) (corrections ++ correctionsBy e c)
      (e.perform c).2 := by
  cases c with
  | drive s =>
    have hmade : correctionsBy e (.drive s) = [] := rfl
    rw [hmade, List.append_nil]
    exact h.addDrive hreal s
  | batch samples =>
    have hmade : correctionsBy e (.batch samples) = [] := rfl
    rw [hmade, List.append_nil]
    exact h.addDrives hreal _
  | vision m =>
    rw [appliedBy, List.append_nil]
    exact h.addPose hreal hincreasing m
  | reset p => cases hc

/-! ## Runs -/

variable {offsets : Wheels (Vec2 Exact)} {chassis : Chassis Exact} {pose : Pose Exact}
  {settings : EstimatorSettings Exact} {past since : List (Command Exact)}

theorem balanced_past (hbuild : build chassis pose settings = .ok start)
    (hpose : pose.isFinite = true ∧ Wrapped pose)
    (hreset : ∀ p, .reset p ∈ past → p.isFinite = true ∧ Wrapped p)
    (hlast : ∀ c ∈ past.getLast?, put? c ≠ none) :
    Balanced (toReal ((past.getLast?.bind put?).getD pose).heading)
      (appliedDuring start past).getLast?.toList [] (start.run past).2 := by
  have hbaseline := ((anchored_build hbuild).run past).reading_eq
  rw [List.nil_append] at hbaseline
  rcases past.eq_nil_or_concat' with rfl | ⟨first, c, rfl⟩
  · obtain ⟨-, -, -, rfl⟩ := build_eq_ok hbuild
    exact balanced_put hpose rfl hbaseline
  · rw [List.getLast?_concat] at hlast ⊢
    cases c with
    | reset p => exact balanced_put (hreset p (by simp)) (by rw [run_concat]; rfl) hbaseline
    | _ => exact absurd rfl (hlast _ rfl)

/-- As long as the robot is put nowhere else, every command adds to the account. -/
theorem balanced_since (hchassis : Chassis.build offsets = .ok chassis)
    (hbuild : build chassis pose settings = .ok start) (hpose : pose.isFinite = true ∧ Wrapped pose)
    (hreset : ∀ p, .reset p ∈ past → p.isFinite = true ∧ Wrapped p)
    (hopen : Balanced θ seen [] (start.run past).2) (hsince : ∀ c ∈ since, put? c = none) :
    Balanced θ (seen ++ appliedDuring (start.run past).2 since)
      (correctionsDuring (start.run past).2 since) ((start.run past).2.run since).2 := by
  induction since using List.reverseRecOn with
  | nil =>
    have hnone : appliedDuring (start.run past).2 [] = [] := rfl
    rw [hnone, List.append_nil]
    exact hopen
  | append_singleton first c ih =>
    have hmet : (start.run (past ++ first)).2 = ((start.run past).2.run first).2 := by
      rw [run_append]
    have hreset' : ∀ p, .reset p ∈ past ++ first → p.isFinite = true ∧ Wrapped p := by
      intro p hp
      rcases List.mem_append.mp hp with hp | hp
      · exact hreset p hp
      · cases hsince _ (List.mem_append_left [c] hp)
    have hreal := realState_run hchassis hbuild hpose _ hreset'
    have hincreasing := increasing_run hbuild (past ++ first)
    rw [hmet] at hreal hincreasing
    rw [appliedDuring_concat, correctionsDuring_concat, run_concat, ← List.append_assoc]
    exact (ih fun c hc => hsince c (List.mem_append_left _ hc)).perform hreal hincreasing
      (hsince c (by simp))

/-- After every run the heading is the one that the robot was put at last, and the
turn of the gyro since, and the corrections since, wrapped once. The turn begins at
the last reading before, or at the first one since if there was none. -/
theorem heading_run (hchassis : Chassis.build offsets = .ok chassis)
    (hbuild : build chassis pose settings = .ok start) (hpose : pose.isFinite = true ∧ Wrapped pose)
    (commands : List (Command Exact))
    (hreset : ∀ p, .reset p ∈ commands → p.isFinite = true ∧ Wrapped p) :
    let past := commands.rdropWhile fun c => (put? c).isNone
    let since := commands.rtakeWhile fun c => (put? c).isNone
    let put := (past.getLast?.bind put?).getD pose
    let e := (start.run past).2
    let seen := (appliedDuring start past).getLast?.toList ++ appliedDuring e since
    (start.run commands).2.pose.heading
      = real ((toReal put.heading + gyroTurn seen + (correctionsDuring e since).sum : ℝ)
          : Real.Angle).toReal := by
  intro past since put e seen
  have hsplit : past ++ since = commands := List.rdropWhile_append_rtakeWhile
  have hreset' : ∀ p, .reset p ∈ past → p.isFinite = true ∧ Wrapped p :=
    fun p hp => hreset p (hsplit ▸ List.mem_append_left since hp)
  have hsince : ∀ c ∈ since, put? c = none := by
    intro c hc
    simpa using List.mem_rtakeWhile_imp hc
  have hlast : ∀ c ∈ past.getLast?, put? c ≠ none := by
    intro c hc
    obtain ⟨hne, rfl⟩ := List.mem_getLast?_eq_getLast hc
    simpa using List.rdropWhile_last_not _ _ hne
  have h := balanced_since hchassis hbuild hpose hreset'
    (balanced_past hbuild hpose hreset' hlast) hsince
  rw [← hsplit, run_append]
  exact h.heading

/-- The origin, looking along the second axis. -/
noncomputable def lookingLeft : Pose Exact := ⟨⟨real 0, real 0⟩, (point Complex.I).direction⟩

theorem heading_lookingLeft : lookingLeft.heading = real (π / 2) := congrArg real Complex.arg_I

/-- A camera pose that shows the robot looking back. -/
noncomputable def lookingBack : PoseMeasurement Exact :=
  ⟨⟨⟨real 0, real 0⟩, real π⟩, real 1, ⟨real 1, real 1, real 1⟩⟩

/-- A reading after half a turn. -/
noncomputable def turnedReading : DriveSample Exact :=
  ⟨real (1 + 1), ⟨real π, .replicate ⟨real 0, real 0⟩⟩⟩

/-- A run without a reset that turns by gyro and by camera. -/
noncomputable def turning : List (Command Exact) :=
  [.drive restingReading, .vision lookingBack, .drive turnedReading]

theorem headingCorrection_lookingBack : headingCorrection lookingBack lookingLeft = π / 4 := by
  have hturn : ((π - π / 2 : ℝ) : Real.Angle).toReal = π / 2 := by
    rw [sub_half]
    exact Angle.toReal_pi_div_two
  unfold headingCorrection
  rw [heading_lookingLeft]
  show 1 / (1 + 1) * ((π - π / 2 : ℝ) : Real.Angle).toReal = π / 4
  rw [hturn]
  ring

/-- Both readings and the camera pose are accepted. -/
theorem accepted_turning (he : build chassis lookingLeft (settingsFor 4 4) = .ok e) :
    appliedDuring e turning = [restingReading, turnedReading] ∧
      correctionsDuring e turning = [π / 4] := by
  have hanchored := anchored_build he
  obtain ⟨rested, -, hrest⟩ := addDrive_of_newer (e := e) (s := restingReading) rfl
    (by rw [isNewer, hanchored.time_eq]; rfl) rfl
  have hentries := entries_firstReading he (s := restingReading) rfl rfl
  have hfirst := hanchored.addDrive restingReading
  rw [hrest] at hentries hfirst
  have hlookup : rested.trajectory.poseAt? lookingBack.time = some lookingLeft :=
    poseAt?_afterRest hentries
  have husable : lookingBack.hasUsableDeviations = true := by
    simp [lookingBack, PoseMeasurement.hasUsableDeviations, Scalar.isInfinite]
  obtain ⟨seen, hsee⟩ : ∃ seen, rested.addPose lookingBack = (.accepted, seen) := by
    rw [Estimator.addPose, assess_of_poseAt? rfl husable hlookup]
    exact ⟨_, rfl⟩
  have hlast : seen.lastOdometry = some (real 0) := by
    have hsecond := hfirst.addPose lookingBack
    rw [hsee] at hsecond
    exact hsecond.time_eq
  obtain ⟨turned, -, hturn⟩ := addDrive_of_newer (e := seen) (s := turnedReading) rfl
    (by rw [isNewer, hlast]; simp [turnedReading]) rfl
  constructor
  · simp [turning, appliedDuring, Estimator.run, Estimator.perform, appliedBy, acceptedOf, hrest, hsee,
      hturn, Verdict.isAccepted]
  · simp [turning, correctionsDuring, correctionsBy, Estimator.perform, hrest, hsee, hlookup,
      headingCorrection_lookingBack]

/-- A robot is put looking left, turns an eighth of the way round for a camera, and
half way round by its gyro. -/
theorem heading_run_turning :
    ∃ chassis start, Chassis.build squareOffsets = .ok chassis ∧
      build chassis .origin (settingsFor 4 4) = .ok start ∧
      (start.run (.reset lookingLeft :: turning)).2.pose.heading = real (-(π / 4)) := by
  obtain ⟨start, hstart⟩ := exists_estimator (chassisOf squareCorners) .origin
  have hleft : lookingLeft.isFinite = true ∧ Wrapped lookingLeft := by
    refine ⟨rfl, ?_⟩
    rw [Wrapped, heading_lookingLeft, wrap_real]
    exact congrArg real Angle.toReal_pi_div_two
  -- a reset that comes first leaves an estimator as it would be built at this place
  have hput : build (chassisOf squareCorners) lookingLeft (settingsFor 4 4)
      = .ok (start.resetPose lookingLeft) := by
    obtain ⟨e, he⟩ := exists_estimator (chassisOf squareCorners) lookingLeft
    obtain ⟨-, -, -, rfl⟩ := build_eq_ok hstart
    obtain ⟨-, -, -, rfl⟩ := build_eq_ok he
    exact he
  obtain ⟨hseen, hmade⟩ := accepted_turning hput
  have h := heading_run build_squareOffsets hstart ⟨rfl, wrapped_origin⟩ (.reset lookingLeft :: turning)
    (by simpa [turning] using hleft)
  refine ⟨_, start, build_squareOffsets, hstart, h.trans (congrArg real ?_)⟩
  show ((toReal lookingLeft.heading + gyroTurn (appliedDuring (start.resetPose lookingLeft) turning)
    + (correctionsDuring (start.resetPose lookingLeft) turning).sum : ℝ) : Real.Angle).toReal = _
  rw [hseen, hmade, List.sum_singleton, heading_lookingLeft]
  show ((π / 2 + (π - 0) + π / 4 : ℝ) : Real.Angle).toReal = _
  refine (eq_toReal _ ?_ ?_ (k := -1) ?_).symm
  · linarith [pi_pos]
  · linarith [pi_pos]
  · push_cast
    ring

end SwerveLocalization.Exact
