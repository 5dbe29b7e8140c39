import Mathlib
import SwerveLocalization.Binary64.Arithmetic
import SwerveLocalization.Proofs.Localization.Steps

/-!
# What the wheels say never reaches the heading

Position and heading travel through the same twists, records, residuals and
shifts, but they never meet. Two estimators that are told the same of the gyro,
of the cameras' headings and of all times stay alike in every heading and every
time, whatever the wheels report, wherever the cameras see the robot and however
the wheels are mounted. They also judge every sample alike, as long as what they
are told is finite for both.
-/

namespace SwerveLocalization

/-! ## Inputs that agree on the heading -/

section Inputs

variable {α : Type} [Scalar α]

/-- Readings of one time and one gyro heading, whatever finite numbers the
wheels give. -/
structure DriveSample.SameHeading (s s' : DriveSample α) : Prop where
  time : s.time = s'.time
  gyro : s.reading.gyro = s'.reading.gyro
  finite : s.reading.travel.toList.all WheelTravel.isFinite = true
  finite' : s'.reading.travel.toList.all WheelTravel.isFinite = true

/-- Camera poses of one time and one heading that are trusted alike, at any
finite positions. -/
structure PoseMeasurement.SameHeading (m m' : PoseMeasurement α) : Prop where
  time : m.time = m'.time
  heading : m.pose.heading = m'.pose.heading
  deviations : m.deviations = m'.deviations
  finite : m.pose.position.isFinite = true
  finite' : m'.pose.position.isFinite = true

/-- Commands of one kind that agree on every heading and every time. -/
inductive Estimator.Command.SameHeading : Command α → Command α → Prop
  | drive {s s' : DriveSample α} : s.SameHeading s' → SameHeading (.drive s) (.drive s')
  | batch {samples samples' : List (DriveSample α)} :
      List.Forall₂ DriveSample.SameHeading samples samples' →
      SameHeading (.batch samples) (.batch samples')
  | vision {m m' : PoseMeasurement α} : m.SameHeading m' → SameHeading (.vision m) (.vision m')
  | reset {p p' : Pose α} : p.heading = p'.heading → SameHeading (.reset p) (.reset p')

theorem DriveSample.SameHeading.isFinite_eq {s s' : DriveSample α} (h : s.SameHeading s') :
    s.reading.isFinite = s'.reading.isFinite := by
  unfold DriveReading.isFinite
  rw [h.gyro, h.finite, h.finite']

theorem PoseMeasurement.SameHeading.isFinite_eq {m m' : PoseMeasurement α} (h : m.SameHeading m') :
    m.isFinite = m'.isFinite := by
  unfold PoseMeasurement.isFinite Pose.isFinite
  rw [h.time, h.heading, h.finite, h.finite']

theorem PoseMeasurement.SameHeading.usable_eq {m m' : PoseMeasurement α} (h : m.SameHeading m') :
    m.hasUsableDeviations = m'.hasUsableDeviations := by
  unfold PoseMeasurement.hasUsableDeviations
  rw [h.deviations]

/-- Sorting by time puts samples that agree into one order. -/
theorem DriveSample.sameHeading_inOrder {samples samples' : List (DriveSample α)}
    (h : List.Forall₂ DriveSample.SameHeading samples samples') :
    List.Forall₂ DriveSample.SameHeading (inOrder samples) (inOrder samples') := by
  -- sort the pairs, by the time that both samples of a pair have
  obtain ⟨hlength, hpairs⟩ := List.forall₂_iff_zip.mp h
  let le (a b : DriveSample α) : Bool := Scalar.totalLe a.time b.time
  let sorted := (samples.zip samples').mergeSort fun a b => le a.1 b.1
  have hfirst : sorted.map Prod.fst = inOrder samples := by
    have hsort : sorted.map Prod.fst = ((samples.zip samples').map Prod.fst).mergeSort le :=
      List.map_mergeSort fun _ _ _ _ => rfl
    rw [hsort, List.map_fst_zip hlength.le]
    rfl
  have hsecond : sorted.map Prod.snd = inOrder samples' := by
    have hsort : sorted.map Prod.snd = ((samples.zip samples').map Prod.snd).mergeSort le := by
      apply List.map_mergeSort
      rintro ⟨a, a'⟩ ha ⟨b, b'⟩ hb
      show Scalar.totalLe a.time b.time = Scalar.totalLe a'.time b'.time
      rw [(hpairs ha).time, (hpairs hb).time]
    rw [hsort, List.map_snd_zip hlength.ge]
    rfl
  rw [← hfirst, ← hsecond, List.forall₂_map_left_iff, List.forall₂_map_right_iff, List.forall₂_same]
  rintro ⟨a, a'⟩ ha
  exact hpairs ((List.mergeSort_perm _ _).mem_iff.mp ha)

end Inputs

/-! ## Records that agree on the heading -/

variable {α : Type}

/-- Waypoints of one time and one heading. -/
def Waypoint.SameHeading (w w' : Waypoint α) : Prop :=
  w.time = w'.time ∧ w.pose.heading = w'.pose.heading

namespace Trajectory

/-- Trajectories with the same bounds, the same times and the same headings. -/
structure SameHeading (h h' : Trajectory α) : Prop where
  capacity : h.capacity = h'.capacity
  window : h.window = h'.window
  entries : List.Forall₂ Waypoint.SameHeading h.entries h'.entries

variable {h h' : Trajectory α}

theorem SameHeading.times (hsame : SameHeading h h') :
    h.entries.map Waypoint.time = h'.entries.map Waypoint.time := by
  rw [← List.forall₂_eq_eq_eq, List.forall₂_map_left_iff, List.forall₂_map_right_iff]
  exact hsame.entries.imp fun _ _ hw => hw.1

theorem SameHeading.headings (hsame : SameHeading h h') :
    h.entries.map (fun w => (w.time, w.pose.heading))
      = h'.entries.map fun w => (w.time, w.pose.heading) := by
  rw [← List.forall₂_eq_eq_eq, List.forall₂_map_left_iff, List.forall₂_map_right_iff]
  exact hsame.entries.imp fun _ _ hw => Prod.ext hw.1 hw.2

theorem SameHeading.oldest?_time (hsame : SameHeading h h') :
    h.oldest?.map Waypoint.time = h'.oldest?.map Waypoint.time := by
  unfold oldest?
  rw [← List.head?_map, ← List.head?_map, hsame.times]

theorem SameHeading.clear (hsame : SameHeading h h') : SameHeading h.clear h'.clear :=
  ⟨hsame.capacity, hsame.window, .nil⟩

theorem sameHeading_keepLatest {l l' : List (Waypoint α)} (capacity : Nat)
    (hl : List.Forall₂ Waypoint.SameHeading l l') :
    List.Forall₂ Waypoint.SameHeading (keepLatest capacity l) (keepLatest capacity l') := by
  unfold keepLatest
  rw [hl.length_eq]
  exact List.forall₂_drop _ hl

variable [Scalar α]

/-- Whether a time is admitted depends on the times alone. -/
theorem admits_eq (h : Trajectory α) (time : α) :
    h.admits time = ((h.entries.map Waypoint.time).getLast?.all fun last => !decide (time ≤ last)) := by
  unfold admits newest?
  rw [List.getLast?_map]
  cases h.entries.getLast? <;> rfl

theorem SameHeading.shift (hsame : SameHeading h h') {d d' : Shift α} (hd : d.dtheta = d'.dtheta) :
    SameHeading (h.shift d) (h'.shift d') := by
  refine ⟨hsame.capacity, hsame.window, ?_⟩
  unfold Trajectory.shift
  rw [List.forall₂_map_left_iff, List.forall₂_map_right_iff]
  refine hsame.entries.imp ?_
  rintro w w' ⟨htime, hheading⟩
  refine ⟨htime, ?_⟩
  show Angle.wrap (w.pose.heading + d.dtheta) = Angle.wrap (w'.pose.heading + d'.dtheta)
  rw [hheading, hd]

theorem sameHeading_keepRecent {l l' : List (Waypoint α)} (window now : α)
    (hl : List.Forall₂ Waypoint.SameHeading l l') :
    List.Forall₂ Waypoint.SameHeading (keepRecent window now l) (keepRecent window now l') := by
  induction hl with
  | nil => exact .nil
  | @cons w w' rest rest' hw hrest ih =>
    unfold keepRecent at ih ⊢
    rw [List.dropWhile_cons, List.dropWhile_cons, hw.1]
    split
    · exact ih
    · exact .cons hw hrest

/-- Both take in a waypoint, or both refuse it. -/
theorem SameHeading.push? (hsame : SameHeading h h') {w w' : Waypoint α} (hw : w.SameHeading w') :
    SameHeading ((h.push? w).getD h) ((h'.push? w').getD h') := by
  have hadmits : h.admits w.time = h'.admits w'.time := by
    rw [admits_eq, admits_eq, hsame.times, hw.1]
  unfold Trajectory.push?
  rw [hadmits]
  split
  · refine ⟨hsame.capacity, hsame.window, ?_⟩
    show List.Forall₂ _ (keepRecent h.window w.time _) (keepRecent h'.window w'.time _)
    rw [hsame.window, hsame.capacity, hw.1]
    exact sameHeading_keepRecent _ _
      (sameHeading_keepLatest _ (List.rel_append hsame.entries (.cons hw .nil)))
  · exact hsame

/-! ## Looking up -/

theorem heading_blend {p p' q q' : Pose α} (hp : p.heading = p'.heading)
    (hq : q.heading = q'.heading) (t : α) : (p.blend q t).heading = (p'.blend q' t).heading := by
  show Angle.wrap (Angle.blend p.heading q.heading t)
    = Angle.wrap (Angle.blend p'.heading q'.heading t)
  rw [hp, hq]

theorem heading_walk (time : α) {w w' : Waypoint α} {rest rest' : List (Waypoint α)}
    (hw : w.SameHeading w') (hrest : List.Forall₂ Waypoint.SameHeading rest rest') :
    (walk time w rest).heading = (walk time w' rest').heading := by
  induction hrest generalizing w w' with
  | nil => exact hw.2
  | @cons next next' rest rest' hnext hrest ih =>
    unfold walk
    rw [hnext.1]
    split
    · exact ih hnext
    · split
      · exact hnext.2
      · rw [hw.1]
        exact heading_blend hw.2 hnext.2 _

/-- At every time both have a pose of one heading, or neither has a pose. -/
theorem SameHeading.poseAt? (hsame : SameHeading h h') (time : α) :
    (h.poseAt? time).map Pose.heading = (h'.poseAt? time).map Pose.heading := by
  obtain ⟨capacity, window, entries⟩ := h
  obtain ⟨capacity', window', entries'⟩ := h'
  have hentries : List.Forall₂ Waypoint.SameHeading entries entries' := hsame.entries
  unfold Trajectory.poseAt?
  cases hentries with
  | nil => rfl
  | @cons w w' rest rest' hw hrest =>
    dsimp only
    rw [hw.1]
    split
    · rfl
    · split
      · exact congrArg some hw.2
      · exact congrArg some (heading_walk time hw hrest)

end Trajectory

/-! ## Estimators that agree on the heading -/

namespace Estimator

/-- Estimators that may differ in their chassis, in positions and in what the
wheels have said, and in nothing else. -/
structure SameHeading (e e' : Estimator α) : Prop where
  settings : e.settings = e'.settings
  heading : e.pose.heading = e'.pose.heading
  gyro : e.reckoner.baseline.map DriveReading.gyro = e'.reckoner.baseline.map DriveReading.gyro
  trajectory : e.trajectory.SameHeading e'.trajectory
  lastOdometry : e.lastOdometry = e'.lastOdometry
  lastVision : e.lastVision = e'.lastVision
  tally : e.tally = e'.tally

variable {e e' : Estimator α}

theorem SameHeading.recordRejection (h : SameHeading e e') (r : Rejection) :
    SameHeading (e.recordRejection r) (e'.recordRejection r) := by
  refine ⟨h.settings, h.heading, h.gyro, h.trajectory, h.lastOdometry, h.lastVision, ?_⟩
  exact congrArg (fun t => t.countRejection r) h.tally

theorem SameHeading.resetPose (h : SameHeading e e') {p p' : Pose α} (hp : p.heading = p'.heading) :
    SameHeading (e.resetPose p) (e'.resetPose p') :=
  ⟨h.settings, hp, h.gyro, h.trajectory.clear, h.lastOdometry, rfl, h.tally⟩

variable [Scalar α]

/-- The turn of a motion is the gyro's and not the wheels'. -/
theorem heading_move {p p' : Pose α} (hp : p.heading = p'.heading) {c c' : Chassis α}
    {before before' now now' : DriveReading α} (hbefore : before.gyro = before'.gyro)
    (hnow : now.gyro = now'.gyro) :
    (p.move (DeadReckoner.motionBetween c before now)).heading
      = (p'.move (DeadReckoner.motionBetween c' before' now')).heading := by
  show Angle.wrap (p.heading + (now.gyro - before.gyro))
    = Angle.wrap (p'.heading + (now'.gyro - before'.gyro))
  rw [hp, hbefore, hnow]

/-- Both reckoners take in a reading and turn alike, or both reject it. -/
theorem SameHeading.update (h : SameHeading e e') {s s' : DriveSample α} (hs : s.SameHeading s') :
    (∃ r, e.reckoner.update s.reading = .error r ∧ e'.reckoner.update s'.reading = .error r) ∨
      ∃ d d', e.reckoner.update s.reading = .ok d ∧ e'.reckoner.update s'.reading = .ok d' ∧
        d.pose.heading = d'.pose.heading ∧
        d.baseline.map DriveReading.gyro = d'.baseline.map DriveReading.gyro := by
  have hgyro : (some s.reading).map DriveReading.gyro = (some s'.reading).map DriveReading.gyro :=
    congrArg some hs.gyro
  have hbaseline := h.gyro
  unfold DeadReckoner.update
  rw [hs.isFinite_eq]
  split
  · exact .inl ⟨_, rfl, rfl⟩
  · refine .inr ?_
    cases hfirst : e.reckoner.baseline with
    | none =>
      rw [hfirst, Option.map_none, eq_comm, Option.map_eq_none_iff] at hbaseline
      rw [hbaseline]
      exact ⟨_, _, rfl, rfl, h.heading, hgyro⟩
    | some before =>
      rw [hfirst, Option.map_some, eq_comm, Option.map_eq_some_iff] at hbaseline
      obtain ⟨before', hsecond, hbefore⟩ := hbaseline
      rw [hsecond]
      exact ⟨_, _, rfl, rfl, heading_move h.heading hbefore.symm hs.gyro, hgyro⟩

theorem SameHeading.addDrive (h : SameHeading e e') {s s' : DriveSample α} (hs : s.SameHeading s') :
    (e.addDrive s).1 = (e'.addDrive s').1 ∧ SameHeading (e.addDrive s).2 (e'.addDrive s').2 := by
  have hnewer : e.isNewer s.time = e'.isNewer s'.time := by
    unfold isNewer
    rw [h.lastOdometry, hs.time]
  unfold Estimator.addDrive integrate
  rw [hnewer, hs.time]
  split_ifs with hfinite hlate
  · exact ⟨rfl, h.recordRejection _⟩
  · exact ⟨rfl, h.recordRejection _⟩
  · rcases h.update hs with ⟨r, hr, hr'⟩ | ⟨d, d', hd, hd', hheading, hgyro⟩
    · rw [hr, hr']
      exact ⟨rfl, h.recordRejection _⟩
    · rw [hd, hd']
      refine ⟨rfl, h.settings, hheading, hgyro, ?_, rfl, h.lastVision, ?_⟩
      · exact h.trajectory.push? ⟨rfl, hheading⟩
      · exact congrArg Tally.countOdometry h.tally

theorem SameHeading.addDrives (h : SameHeading e e') {samples samples' : List (DriveSample α)}
    (hsamples : List.Forall₂ DriveSample.SameHeading samples samples') :
    (e.addDrives samples).1.map Prod.snd = (e'.addDrives samples').1.map Prod.snd ∧
      SameHeading (e.addDrives samples).2 (e'.addDrives samples').2 := by
  induction hsamples generalizing e e' with
  | nil => exact ⟨rfl, h⟩
  | cons hs _ ih =>
    obtain ⟨hverdict, hfirst⟩ := h.addDrive hs
    obtain ⟨hverdicts, hlast⟩ := ih hfirst
    refine ⟨?_, hlast⟩
    rw [addDrives_cons, addDrives_cons, List.map_cons, List.map_cons]
    exact congrArg₂ List.cons hverdict hverdicts

/-- The turn that a camera pose asks for depends on headings alone. -/
theorem dtheta_correctionOf {m m' : PoseMeasurement α} (hm : m.SameHeading m') {p p' : Pose α}
    (hp : p.heading = p'.heading) : (m.correctionOf p).dtheta = (m'.correctionOf p').dtheta := by
  show trust m.deviations.z * Angle.turn m.pose.heading p.heading
    = trust m'.deviations.z * Angle.turn m'.pose.heading p'.heading
  rw [hm.deviations, hm.heading, hp]

/-- Both find a camera pose good for one turn, or both reject it for one
reason. -/
theorem SameHeading.assess (h : SameHeading e e') {m m' : PoseMeasurement α}
    (hm : m.SameHeading m') :
    (e.assess m).map Shift.dtheta = (e'.assess m').map Shift.dtheta := by
  have holdest := h.trajectory.oldest?_time
  have hpast := h.trajectory.poseAt? m.time
  unfold Estimator.assess
  rw [hm.isFinite_eq, hm.usable_eq, ← hm.time]
  split_ifs
  · rfl
  · rfl
  · cases hfirst : e.trajectory.oldest? with
    | none =>
      rw [hfirst, Option.map_none, eq_comm, Option.map_eq_none_iff] at holdest
      rw [holdest]
    | some w =>
      rw [hfirst, Option.map_some, eq_comm, Option.map_eq_some_iff] at holdest
      obtain ⟨w', hsecond, htime⟩ := holdest
      rw [hsecond]
      dsimp only
      rw [htime]
      split
      · rfl
      · cases hlook : e.trajectory.poseAt? m.time with
        | none =>
          rw [hlook, Option.map_none, eq_comm, Option.map_eq_none_iff] at hpast
          rw [hpast]
        | some p =>
          rw [hlook, Option.map_some, eq_comm, Option.map_eq_some_iff] at hpast
          obtain ⟨p', hlook', hp⟩ := hpast
          rw [hlook']
          exact congrArg Except.ok (dtheta_correctionOf hm hp.symm)

theorem SameHeading.addPose (h : SameHeading e e') {m m' : PoseMeasurement α}
    (hm : m.SameHeading m') :
    (e.addPose m).1 = (e'.addPose m').1 ∧ SameHeading (e.addPose m).2 (e'.addPose m').2 := by
  have hassess := h.assess hm
  unfold Estimator.addPose
  cases hfirst : e.assess m with
  | error r =>
    cases hsecond : e'.assess m' with
    | error r' =>
      rw [hfirst, hsecond] at hassess
      cases hassess
      exact ⟨rfl, h.recordRejection r⟩
    | ok d' =>
      rw [hfirst, hsecond] at hassess
      cases hassess
  | ok d =>
    cases hsecond : e'.assess m' with
    | error r' =>
      rw [hfirst, hsecond] at hassess
      cases hassess
    | ok d' =>
      rw [hfirst, hsecond] at hassess
      have hd : d.dtheta = d'.dtheta := Except.ok.inj hassess
      refine ⟨rfl, h.settings, ?_, h.gyro, h.trajectory.shift hd, h.lastOdometry, ?_, ?_⟩
      · show Angle.wrap (e.pose.heading + d.dtheta) = Angle.wrap (e'.pose.heading + d'.dtheta)
        rw [h.heading, hd]
      · simp only [confirm, displace, h.lastVision, hm.time]
      · exact congrArg Tally.countVision h.tally

/-! ## Runs -/

theorem SameHeading.perform (h : SameHeading e e') {c c' : Command α} (hc : c.SameHeading c') :
    (e.perform c).1 = (e'.perform c').1 ∧ SameHeading (e.perform c).2 (e'.perform c').2 := by
  cases hc with
  | drive hs =>
    obtain ⟨hverdict, hafter⟩ := h.addDrive hs
    exact ⟨congrArg (fun v => [v]) hverdict, hafter⟩
  | batch hsamples => exact h.addDrives (DriveSample.sameHeading_inOrder hsamples)
  | vision hm =>
    obtain ⟨hverdict, hafter⟩ := h.addPose hm
    exact ⟨congrArg (fun v => [v]) hverdict, hafter⟩
  | reset hp => exact ⟨rfl, h.resetPose hp⟩

theorem SameHeading.run (h : SameHeading e e') {commands commands' : List (Command α)}
    (hcommands : List.Forall₂ Command.SameHeading commands commands') :
    (e.run commands).1 = (e'.run commands').1 ∧
      SameHeading (e.run commands).2 (e'.run commands').2 := by
  induction hcommands generalizing e e' with
  | nil => exact ⟨rfl, h⟩
  | cons hc _ ih =>
    obtain ⟨hverdicts, hafter⟩ := h.perform hc
    obtain ⟨hothers, hlast⟩ := ih hafter
    exact ⟨congrArg₂ List.cons hverdicts hothers, hlast⟩

theorem sameHeading_build {chassis chassis' : Chassis α} {pose pose' : Pose α}
    {settings : EstimatorSettings α} (hbuild : build chassis pose settings = .ok e)
    (hbuild' : build chassis' pose' settings = .ok e') (hpose : pose.heading = pose'.heading) :
    SameHeading e e' := by
  obtain ⟨-, -, -, rfl⟩ := build_eq_ok hbuild
  obtain ⟨-, -, -, rfl⟩ := build_eq_ok hbuild'
  exact ⟨rfl, hpose, rfl, ⟨rfl, rfl, .nil⟩, rfl, rfl, rfl⟩

/-- Two runs that are told the same of headings and times judge every sample
alike, and after each command the estimate, the record and its times agree in
every bit of every heading. The chassis, the wheels and all positions are
arbitrary. -/
theorem headings_run_eq {chassis chassis' : Chassis Float} {pose pose' : Pose Float}
    {settings : EstimatorSettings Float} {start start' : Estimator Float}
    (hbuild : build chassis pose settings = .ok start)
    (hbuild' : build chassis' pose' settings = .ok start') (hpose : pose.heading = pose'.heading)
    {commands commands' : List (Command Float)}
    (hcommands : List.Forall₂ Command.SameHeading commands commands') :
    (start.run commands).1 = (start'.run commands').1 ∧
      ∀ n, let e := (start.run (commands.take n)).2
        let e' := (start'.run (commands'.take n)).2
        e.pose.heading = e'.pose.heading ∧
          e.trajectory.entries.map (fun w => (w.time, w.pose.heading))
            = e'.trajectory.entries.map fun w => (w.time, w.pose.heading) := by
  have hstart := sameHeading_build hbuild hbuild' hpose
  refine ⟨(hstart.run hcommands).1, ?_⟩
  intro n e e'
  have hn : SameHeading e e' := (hstart.run (List.forall₂_take n hcommands)).2
  exact ⟨hn.heading, hn.trajectory.headings⟩

/-- A robot that rolls ahead while it turns by half a radian, and a camera that
sees it turned further. -/
def rolling : List (Command Float) :=
  [.drive ⟨1, ⟨0, .replicate ⟨0, 0⟩⟩⟩, .drive ⟨2, ⟨0.5, .replicate ⟨1, 0⟩⟩⟩,
    .vision ⟨⟨⟨1, 1⟩, 1⟩, 1.5, ⟨1, 1, 1⟩⟩]

/-- The same turn with wheels that slip sideways, seen elsewhere. -/
def slipping : List (Command Float) :=
  [.drive ⟨1, ⟨0, .replicate ⟨3, 1⟩⟩⟩, .drive ⟨2, ⟨0.5, .replicate ⟨-1e300, 2⟩⟩⟩,
    .vision ⟨⟨⟨-7, 1e300⟩, 1⟩, 1.5, ⟨1, 1, 1⟩⟩]

theorem sameHeading_rolling_slipping :
    List.Forall₂ Command.SameHeading rolling slipping := by
  refine .cons (.drive ⟨rfl, rfl, ?_, ?_⟩) (.cons (.drive ⟨rfl, rfl, ?_, ?_⟩)
    (.cons (.vision ⟨rfl, rfl, rfl, ?_, ?_⟩) .nil)) <;> decide +kernel

theorem headings_run_eq_rolling_slipping :
    let start : Estimator Float := fresh .square .origin
    Chassis.build (Chassis.rectangle 1 1) = .ok start.reckoner.chassis ∧
      ∃ long, Chassis.build (Chassis.rectangle 3.0 0.25) = .ok long ∧
        let start' : Estimator Float := fresh long ⟨⟨5, 6⟩, 0⟩
        (start.run rolling).1 = (start'.run slipping).1 ∧
          (start.run rolling).1 = [[.accepted], [.accepted], [.accepted]] ∧
          (start.run rolling).2.pose.heading = 0.875 ∧
          (start'.run slipping).2.pose.heading = 0.875 := by
  intro start
  have hsome : (Chassis.build (Chassis.rectangle (3.0 : Float) 0.25)).isOk = true := by decide +kernel
  refine ⟨Chassis.build_square, ?_⟩
  cases hlong : Chassis.build (Chassis.rectangle (3.0 : Float) 0.25) with
  | error fault =>
    rw [hlong] at hsome
    contradiction
  | ok long =>
    let start' : Estimator Float := fresh long ⟨⟨5, 6⟩, 0⟩
    have hbuild : build .square .origin .standard = .ok start := build_fresh .square .origin
    have hbuild' : build long ⟨⟨5, 6⟩, 0⟩ .standard = .ok start' := build_fresh long ⟨⟨5, 6⟩, 0⟩
    have haccepted : (start.run rolling).1 = [[.accepted], [.accepted], [.accepted]] := by
      decide +kernel
    have hheading : (start.run rolling).2.pose.heading = 0.875 := by decide +kernel
    obtain ⟨hverdicts, hheadings⟩ :=
      headings_run_eq hbuild hbuild' rfl sameHeading_rolling_slipping
    exact ⟨long, rfl, hverdicts, haccepted, hheading, (hheadings 3).1.symm.trans hheading⟩

end Estimator

end SwerveLocalization
