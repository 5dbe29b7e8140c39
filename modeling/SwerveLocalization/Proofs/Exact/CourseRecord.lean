import Mathlib
import SwerveLocalization.Proofs.Exact.SteadyMotion
import SwerveLocalization.Proofs.Exact.WheelRoundTrip
import SwerveLocalization.Proofs.Localization.Coherence

/-!
# A course on record

An estimator that takes in the readings of a steady motion records the course of the
robot: at the time of each reading it is where the motion leads. Between two readings the
record cuts the corner of a turn, but a course without a turn it gives back at every
time, and behind its last reading the robot stands still. Nothing is lost as long as the
record has room for all readings.
-/

namespace SwerveLocalization.Exact

open Estimator Real Scalar

namespace Course

variable (k : Course)

/-- The reading at the time `s`, where the motion takes one second. -/
def sample (s : ℝ) : DriveSample Exact := ⟨real s, k.motion.reading s⟩

/-- The readings at several times, one by one. -/
def drives (times : List ℝ) : List (Command Exact) := times.map fun s => .drive (k.sample s)

/-- The place of the robot at the time `s`. -/
noncomputable def waypoint (s : ℝ) : Waypoint Exact := ⟨real s, (k.reckoner s).pose⟩

/-- An estimator that has taken in the readings of these times and recorded all of them. -/
structure Tracks (times : List ℝ) (e : Estimator Exact) : Prop where
  reckoner : ∀ now, times.getLast? = some now → e.reckoner = k.reckoner now
  lastOdometry : e.lastOdometry = times.getLast?.map real
  entries : e.trajectory.entries = times.map k.waypoint

variable {k} {times : List ℝ} {s t u first last : ℝ} {rest : List ℝ} {e : Estimator Exact}
  {settings : EstimatorSettings Exact}

@[simp] theorem time_waypoint (s : ℝ) : (k.waypoint s).time = real s := rfl

theorem drives_append (times times' : List ℝ) :
    k.drives (times ++ times') = k.drives times ++ k.drives times' := List.map_append

/-- A reading that the reckoner follows and that the record has room for. -/
theorem Tracks.addDrive (h : k.Tracks times e)
    (hupdate : e.reckoner.update (k.motion.reading t) = .ok (k.reckoner t))
    (hlater : ∀ last, times.getLast? = some last → last < t)
    (hwindow : Scalar.isNaN e.trajectory.window = false)
    (hfits : Trajectory.Fits e.trajectory.capacity e.trajectory.window
      ((times ++ [t]).map k.waypoint)) :
    (e.addDrive (k.sample t)).1 = .accepted ∧
      k.Tracks (times ++ [t]) (e.addDrive (k.sample t)).2 := by
  have hnewer : e.isNewer (real t) = true := by
    unfold isNewer
    rw [h.lastOdometry]
    cases hlast : times.getLast? with
    | none => rfl
    | some last => simpa using hlater last hlast
  have hadmits : e.trajectory.admits (real t) = true := by
    unfold Trajectory.admits Trajectory.newest?
    rw [h.entries, List.getLast?_map]
    cases hlast : times.getLast? with
    | none => rfl
    | some last => simpa [waypoint] using hlater last hlast
  obtain ⟨after, hafter, hdrive⟩ := addDrive_of_newer (s := k.sample t) rfl hnewer rfl
  rw [hdrive]
  refine ⟨rfl, ?_⟩
  obtain ⟨-, -, reckoner, hreckoner, rfl⟩ := integrate_eq_ok hafter
  obtain rfl : k.reckoner t = reckoner := Except.ok.inj (hupdate.symm.trans hreckoner)
  refine ⟨?_, ?_, ?_⟩
  · intro now hnow
    rw [List.getLast?_concat, Option.some.injEq] at hnow
    rw [← hnow]
  · rw [List.getLast?_concat]
    rfl
  · have hfits' : Trajectory.Fits e.trajectory.capacity e.trajectory.window
        (e.trajectory.entries ++ [k.waypoint t]) := by
      rwa [h.entries, ← List.map_singleton, ← List.map_append]
    show ((e.trajectory.push? (k.waypoint t)).getD e.trajectory).entries = _
    rw [Trajectory.push?_of_fits hadmits hwindow hfits', h.entries, List.map_append]
    rfl

theorem fits_waypoints (hfew : (first :: rest).length ≤ settings.capacity)
    (hwindow : 0 < settings.window) (hrecent : ∀ t ∈ rest, real (t - first) ≤ settings.window) :
    Trajectory.Fits settings.capacity settings.window ((first :: rest).map k.waypoint) := by
  refine ⟨by rwa [List.length_map], ?_⟩
  rintro oldest newest ⟨⟩ hnewest
  obtain ⟨t, ht, rfl⟩ := List.mem_map.mp (List.mem_of_getLast? hnewest)
  show real (t - first) ≤ settings.window
  rcases List.mem_cons.mp ht with rfl | ht
  · rw [sub_self]
    exact RealScalar.le_of_lt hwindow
  · exact hrecent t ht

/-- An estimator that starts where the course does takes in all readings of the course and
records them, if they are in order and the record has room for them. -/
theorem tracks_run {start : Estimator Exact}
    (hbuild : build k.chassis (k.reckoner first).pose settings = .ok start)
    (hclear : (first :: rest).IsChain fun s t => s < t ∧ k.Clear s t)
    (hfew : (first :: rest).length ≤ settings.capacity)
    (hrecent : ∀ t ∈ rest, real (t - first) ≤ settings.window) :
    (start.run (k.drives (first :: rest))).1 = (first :: rest).map (fun _ => [.accepted]) ∧
      k.Tracks (first :: rest) (start.run (k.drives (first :: rest))).2 := by
  obtain ⟨hcapacity, hwindow, -, hstart⟩ := build_eq_ok hbuild
  have hnan : Scalar.isNaN settings.window = false := ((RealScalar.lt_iff _ _).mp hwindow).2.1
  induction rest using List.reverseRecOn with
  | nil =>
    have hempty : k.Tracks [] start := by
      rw [hstart]
      exact ⟨nofun, rfl, rfl⟩
    have hfits := fits_waypoints (k := k) hfew hwindow hrecent
    rw [hstart] at hempty ⊢
    -- the first reading moves nothing, so the reckoner stays where the course starts
    obtain ⟨hverdict, htracks⟩ := hempty.addDrive (t := first) rfl nofun hnan hfits
    exact ⟨congrArg (fun v => [[v]]) hverdict, htracks⟩
  | append_singleton rest t ih =>
    have hfits : Trajectory.Fits settings.capacity settings.window
        ((first :: rest ++ [t]).map k.waypoint) := fits_waypoints hfew hwindow hrecent
    obtain ⟨hfront, -, hstep⟩ := List.isChain_append.mp (List.cons_append ▸ hclear)
    have hfew' : (first :: rest).length ≤ settings.capacity :=
      (List.prefix_append (first :: rest) [t]).length_le.trans hfew
    obtain ⟨hverdicts, htracks⟩ :=
      ih hfront hfew' fun t ht => hrecent t (List.mem_append_left _ ht)
    have hbounds := (coherent_build hbuild).run (by omega) (RealScalar.le_of_lt hwindow)
      (k.drives (first :: rest))
    rw [← hbounds.capacity_eq, ← hbounds.window_eq] at hfits
    rw [← hbounds.window_eq] at hnan
    obtain ⟨now, hnow⟩ : ∃ now, (first :: rest).getLast? = some now :=
      ⟨_, List.getLast?_eq_some_getLast (List.cons_ne_nil _ _)⟩
    have hupdate := Reaches.update (k := k) (d := k.reckoner now) reaches_reckoner
      (hstep now hnow t rfl).2
    rw [← htracks.reckoner now hnow] at hupdate
    obtain ⟨hverdict, hnext⟩ := htracks.addDrive hupdate
      (fun last hlast => (hstep last hlast t rfl).1) hnan hfits
    show (start.run (k.drives (first :: rest ++ [t]))).1
        = (first :: rest ++ [t]).map (fun _ => [.accepted]) ∧
      k.Tracks (first :: rest ++ [t]) (start.run (k.drives (first :: rest ++ [t]))).2
    rw [drives_append, run_append, List.map_append, hverdicts]
    exact ⟨congrArg (fun v => (first :: rest).map (fun _ => [.accepted]) ++ [[v]]) hverdict, hnext⟩

/-! ## Straight courses -/

/-- Without a turn the robot keeps its heading and moves along a line. -/
theorem exists_line (hturn : k.motion.turn = 0) : ∃ a b : ℝ, ∀ s, (k.reckoner s).pose
    = ⟨⟨real (k.start.x + s * a), real (k.start.y + s * b)⟩, Angle.wrap (real k.heading)⟩ := by
  refine ⟨k.way.x * cos k.heading - k.way.y * sin k.heading,
    k.way.x * sin k.heading + k.way.y * cos k.heading, fun s => ?_⟩
  unfold reckoner position Pose.make reachAlong reachAcross
  simp only [hturn, if_true, mul_zero, add_zero]
  refine congrArg₂ Pose.mk (congrArg₂ Vec2.mk (congrArg real ?_) (congrArg real ?_)) rfl
  · ring
  · ring

/-- Between two places of a straight course the robot is on the course. -/
theorem blend_of_straight (hturn : k.motion.turn = 0) (hs : s < u) (ht : u < t) :
    (k.reckoner s).pose.blend (k.reckoner t).pose (inverseLerp (real s) (real t) (real u))
      = (k.reckoner u).pose := by
  obtain ⟨a, b, hline⟩ := exists_line hturn
  have hlength : t - s ≠ 0 := by linarith
  have hrest : 1 - (u - s) / (t - s) ≠ 0 := by
    rw [sub_ne_zero, ne_comm, Ne, div_eq_one_iff_eq hlength]
    linarith
  have hmean : ∀ z v : ℝ, real ((u - s) / (t - s)) * real (z + t * v)
      + real (1 - (u - s) / (t - s)) * real (z + s * v) = real (z + u * v) := by
    intro z v
    rw [real_mul_real, real_mul_real, real_add_real]
    congr 1
    field_simp
    ring
  have hturned : Angle.blend (Angle.wrap (real k.heading)) (Angle.wrap (real k.heading))
      (real ((u - s) / (t - s))) = Angle.wrap (real k.heading) := by
    unfold SwerveLocalization.Angle.blend SwerveLocalization.Angle.turn
    simp
  rw [hline, hline, hline, inverseLerp_real (hs.trans ht)]
  unfold Pose.blend Pose.make Vec2.blend
  rw [hturned, wrap_wrap]
  refine congrArg₂ Pose.mk ((if_neg ?_).trans (congrArg₂ Vec2.mk (hmean _ _) (hmean _ _))) rfl
  rw [one_eq, real_sub_real, zero_eq, real_beq_real]
  exact hrest

theorem walk_of_straight (hturn : k.motion.turn = 0) (hordered : (s :: rest).IsChain (· < ·))
    (hs : s < u) (hlast : (s :: rest).getLast? = some last) :
    Trajectory.walk (real u) (k.waypoint s) (rest.map k.waypoint)
      = (k.reckoner (min u last)).pose := by
  induction rest generalizing s with
  | nil =>
    obtain rfl : s = last := Option.some.inj hlast
    rw [min_eq_right hs.le]
    rfl
  | cons t rest ih =>
    obtain ⟨hst, hrest⟩ := List.isChain_cons_cons.mp hordered
    rw [List.getLast?_cons_cons] at hlast
    have hle : t ≤ last := head_le_last hrest hlast
    rw [List.map_cons, Trajectory.walk, time_waypoint, time_waypoint]
    rcases lt_trichotomy t u with hlt | rfl | hgt
    · rw [if_pos ((real_lt_real t u).mpr hlt)]
      exact ih hrest hlt hlast
    · rw [if_neg (mt (real_lt_real t t).mp (lt_irrefl t)), if_pos ((real_beq_real t t).mpr rfl),
        min_eq_left hle]
      rfl
    · rw [if_neg (mt (real_lt_real t u).mp hgt.not_gt), if_neg (mt (real_beq_real t u).mp hgt.ne'),
        min_eq_left (hgt.le.trans hle)]
      exact blend_of_straight hturn hs hgt

/-- The record of a straight course leads along the course at every time that it covers, and
to its end at every later time. -/
theorem Tracks.poseAt?_of_straight (h : k.Tracks (first :: rest) e) (hturn : k.motion.turn = 0)
    (hordered : (first :: rest).IsChain (· < ·)) (hlast : (first :: rest).getLast? = some last)
    (hu : first ≤ u) :
    e.trajectory.poseAt? (real u) = some (k.reckoner (min u last)).pose := by
  unfold Trajectory.poseAt?
  rw [h.entries, List.map_cons]
  dsimp only
  rw [time_waypoint, if_neg (mt (real_lt_real u first).mp hu.not_gt)]
  rcases hu.eq_or_lt with rfl | hlt
  · rw [if_pos ((real_beq_real first first).mpr rfl), min_eq_left (head_le_last hordered hlast)]
    rfl
  · rw [if_neg (mt (real_beq_real u first).mp hlt.ne')]
    exact congrArg some (walk_of_straight hturn hordered hlt hlast)

end Course

/-! ## A metre ahead every second -/

/-- The pose `s` metres ahead of the origin. -/
def ahead (s : ℝ) : Pose Exact := ⟨⟨real s, real 0⟩, real 0⟩

/-- All wheels roll one metre straight ahead. -/
def aheadMotion : SteadyMotion := ⟨0, 0, .replicate ⟨0, 1, 0⟩⟩

/-- So does any chassis. -/
theorem solve_aheadMotion {offsets : Wheels ℂ} (h : Apart offsets) :
    (chassisOf offsets).solve aheadMotion.paths = vec ![1, 0, 0] := by
  have hwheel : ∀ o : ℂ, Vec2.polar (real 1) (real 0)
      = point ⟨along o ⬝ᵥ ![1, 0, 0], across o ⬝ᵥ ![1, 0, 0]⟩ := by
    intro o
    simp [Vec2.polar, point, along, across, Scalar.cos, Scalar.sin, lift]
  have hpaths : aheadMotion.paths = (rolling offsets ![1, 0, 0]).map point :=
    congr (congr (congrArg₂ Wheels.mk (hwheel _) (hwheel _)) (hwheel _)) (hwheel _)
  rw [hpaths, solve_rolling _ h]

/-- The course of a robot that drives straight ahead, on any chassis. -/
noncomputable def straightAhead {offsets : Wheels ℂ} (h : Apart offsets) : Course where
  motion := aheadMotion
  chassis := chassisOf offsets
  realChassis := realChassis_build (build_point h)
  start := ⟨0, 0⟩
  heading := 0
  way := ⟨1, 0⟩
  way_eq := congrArg Vec3.floor (solve_aheadMotion h)

theorem pose_straightAhead {offsets : Wheels ℂ} (h : Apart offsets) (s : ℝ) :
    ((straightAhead h).reckoner s).pose = ahead s := by
  simp [straightAhead, aheadMotion, Course.reckoner, Course.position, Pose.make, reachAlong, reachAcross, ahead]

/-- Settings for so many poses in so many seconds. -/
def settingsFor (capacity : Nat) (seconds : ℝ) : EstimatorSettings Exact :=
  ⟨capacity, real seconds, real 1⟩

theorem exists_estimator (chassis : Chassis Exact) (p : Pose Exact) :
    ∃ e, build chassis p (settingsFor 4 4) = .ok e := by
  have hfour : (0 : Exact) < real 4 := by
    rw [zero_eq, real_lt_real]
    norm_num
  have hone : (0 : Exact) < real 1 := (real_lt_real 0 1).mpr one_pos
  have hcapacity : 2 ≤ (settingsFor 4 4).capacity := by
    show 2 ≤ 4
    omega
  exact ⟨_, build_of_bounds hcapacity hfour hone chassis p⟩

/-- An estimator that has driven for two seconds knows where it was at any moment of them. -/
theorem exists_driven {offsets : Wheels ℂ} (h : Apart offsets) :
    ∃ start, build (chassisOf offsets) .origin (settingsFor 4 4) = .ok start ∧
      let e := (start.run ((straightAhead h).drives [0, 1, 2])).2
      e.pose = ahead 2 ∧ e.trajectory.entries = [0, 1, 2].map (fun s => ⟨real s, ahead s⟩) ∧
        ∀ u, 0 ≤ u → e.trajectory.poseAt? (real u) = some (ahead (min u 2)) := by
  obtain ⟨start, hstart⟩ := exists_estimator (chassisOf offsets) .origin
  have horigin : ((straightAhead h).reckoner 0).pose = .origin := pose_straightAhead h 0
  have hordered : ([0, 1, 2] : List ℝ).IsChain (· < ·) := by simp
  have hclear : ([0, 1, 2] : List ℝ).IsChain fun s t => s < t ∧ (straightAhead h).Clear s t :=
    hordered.imp fun _ _ hlt => ⟨hlt, .inl rfl⟩
  have hrecent : ∀ t ∈ ([1, 2] : List ℝ), real (t - 0) ≤ (settingsFor 4 4).window := by
    simp [settingsFor]
    norm_num
  rw [← horigin] at hstart
  obtain ⟨-, htracks⟩ := Course.tracks_run hstart hclear (by simp [settingsFor]) hrecent
  rw [horigin] at hstart
  refine ⟨start, hstart, ?_, ?_, ?_⟩
  · exact (congrArg DeadReckoner.pose (htracks.reckoner 2 rfl)).trans (pose_straightAhead h 2)
  · rw [htracks.entries]
    exact List.map_congr_left fun s _ => congrArg (Waypoint.mk (real s)) (pose_straightAhead h s)
  · intro u hu
    have hlast : ([0, 1, 2] : List ℝ).getLast? = some 2 := rfl
    rw [htracks.poseAt?_of_straight rfl hordered hlast hu, pose_straightAhead]

end SwerveLocalization.Exact
