import Mathlib
import SwerveLocalization.Proofs.Exact.Arc
import SwerveLocalization.Proofs.Exact.LeastSquares

/-!
# Steady motion

While a robot drives and turns evenly, it does not matter how often its wheels
are read. Every reading takes the estimate along a chord of one arc: what the
wheels roll is in proportion to the part of the motion that has passed, and the
chassis motion that explains it best is in the same proportion. Main statement:
however a steady motion is cut into readings, the reckoner ends exactly where the
last reading alone would have taken it, as long as no step turns so little that
it is taken for straight.
-/

namespace SwerveLocalization.Exact

open Real Scalar

/-- How a wheel rolls in a steady motion: from a distance, by a length, at an angle. -/
structure SteadyWheel where
  distance : ℝ
  rolled : ℝ
  angle : ℝ

/-- A motion in which gyro and wheels turn evenly. -/
structure SteadyMotion where
  gyro : ℝ
  turn : ℝ
  wheels : Wheels SteadyWheel

namespace SteadyMotion

variable (m : SteadyMotion)

/-- What is read when the part `s` of the motion has passed. -/
def reading (s : ℝ) : DriveReading Exact :=
  ⟨real (m.gyro + s * m.turn),
    m.wheels.map fun w => ⟨real (w.distance + s * w.rolled), real w.angle⟩⟩

/-- A reading of that moment, whatever the angles of the wheels. -/
structure Shows (s : ℝ) (r : DriveReading Exact) : Prop where
  gyro : r.gyro = real (m.gyro + s * m.turn)
  distances : r.travel.map WheelTravel.distance
    = m.wheels.map fun w => real (w.distance + s * w.rolled)

/-- The paths of the wheels over the whole motion. -/
noncomputable def paths : Wheels (Vec2 Exact) :=
  m.wheels.map fun w => .polar (real w.rolled) (real w.angle)

theorem shows_reading (s : ℝ) : m.Shows s (m.reading s) := ⟨rfl, rfl⟩

theorem isFinite_reading (s : ℝ) : (m.reading s).isFinite = true := rfl

end SteadyMotion

/-! ## The motion of the chassis is in proportion -/

/-- A vector is `k` times another one, which is real. -/
structure Multiple (k : ℝ) (u v : Vec3 Exact) : Prop where
  realVec : RealVec v
  eq_scale : u = v.scale (real k)

theorem mul_mul_real {a b : Exact} (ha : Scalar.isFinite a = true) (hb : Scalar.isFinite b = true)
    (k : ℝ) : a * (b * real k) = a * b * real k := by
  obtain ⟨a, rfl⟩ := isFinite_iff_exists.mp ha
  obtain ⟨b, rfl⟩ := isFinite_iff_exists.mp hb
  exact congrArg real (mul_assoc a b k).symm

theorem add_mul_real {a b : Exact} (ha : Scalar.isFinite a = true) (hb : Scalar.isFinite b = true)
    (k : ℝ) : a * real k + b * real k = (a + b) * real k := by
  obtain ⟨a, rfl⟩ := isFinite_iff_exists.mp ha
  obtain ⟨b, rfl⟩ := isFinite_iff_exists.mp hb
  exact congrArg real (add_mul a b k).symm

theorem RealVec.multiple_scale {v : Vec3 Exact} {x : Exact} (hv : RealVec v)
    (hx : Scalar.isFinite x = true) (k : ℝ) : Multiple k (v.scale (x * real k)) (v.scale x) := by
  refine ⟨hv.scale hx, ?_⟩
  unfold Vec3.scale
  rw [mul_mul_real hv.x hx, mul_mul_real hv.y hx, mul_mul_real hv.z hx]

theorem Multiple.add {k : ℝ} {u v u' v' : Vec3 Exact} (h : Multiple k u v)
    (h' : Multiple k u' v') : Multiple k (u + u') (v + v') := by
  obtain ⟨hv, rfl⟩ := h
  obtain ⟨hv', rfl⟩ := h'
  refine ⟨hv.add hv', ?_⟩
  show Vec3.mk _ _ _ = Vec3.mk _ _ _
  rw [Vec3.mk.injEq]
  exact ⟨add_mul_real hv.x hv'.x k, add_mul_real hv.y hv'.y k, add_mul_real hv.z hv'.z k⟩

/-- Paths of another length in the same directions mean a motion of another length
in the same direction. -/
theorem multiple_solve {c : Chassis Exact} (hc : RealChassis c) {w : Wheels (Vec2 Exact)}
    (hw : ∀ v ∈ w.toList, v.isFinite = true) (k : ℝ) :
    Multiple k (c.solve (w.map fun v => v.scale (real k))) (c.solve w) := by
  have hpart : ∀ s ∈ c.shares.toList, ∀ v ∈ w.toList,
      Multiple k (s.along.scale (v.scale (real k)).x) (s.along.scale v.x) ∧
        Multiple k (s.across.scale (v.scale (real k)).y) (s.across.scale v.y) := by
    intro s hs v hv
    have hfinite := hw v hv
    simp only [Vec2.isFinite, Bool.and_eq_true] at hfinite
    exact ⟨(hc s hs).1.multiple_scale hfinite.1 k, (hc s hs).2.multiple_scale hfinite.2 k⟩
  have hfl := hpart c.shares.frontLeft (by simp [Wheels.toList]) w.frontLeft
    (by simp [Wheels.toList])
  have hfr := hpart c.shares.frontRight (by simp [Wheels.toList]) w.frontRight
    (by simp [Wheels.toList])
  have hbl := hpart c.shares.backLeft (by simp [Wheels.toList]) w.backLeft (by simp [Wheels.toList])
  have hbr := hpart c.shares.backRight (by simp [Wheels.toList]) w.backRight
    (by simp [Wheels.toList])
  exact ((((((hfl.1.add hfl.2).add hfr.1).add hfr.2).add hbl.1).add hbl.2).add hbr.1).add hbr.2

namespace SteadyMotion

variable {m : SteadyMotion}

theorem isFinite_paths : ∀ v ∈ m.paths.toList, v.isFinite = true := by
  intro v hv
  rw [paths, Wheels.toList_map, List.mem_map] at hv
  obtain ⟨w, -, rfl⟩ := hv
  rfl

theorem path_rolled {b : WheelTravel Exact} {w : SteadyWheel} {s t : ℝ}
    (hb : b.distance = real (w.distance + s * w.rolled)) :
    (DeadReckoner.rolled b ⟨real (w.distance + t * w.rolled), real w.angle⟩).path
      = (Vec2.polar (real w.rolled) (real w.angle)).scale (real (t - s)) := by
  have hdistance : real (w.distance + t * w.rolled) - b.distance = real (w.rolled * (t - s)) := by
    rw [hb, real_sub_real]
    congr 1
    ring
  unfold DeadReckoner.rolled WheelTravel.path Vec2.polar Vec2.scale
  simp only [hdistance]
  refine congrArg₂ Vec2.mk (congrArg real ?_) (congrArg real ?_)
  · exact mul_right_comm _ _ _
  · exact mul_right_comm _ _ _

/-- Between two moments of a steady motion the chassis moves by a part of its
whole motion. -/
theorem motionBetween_reading {c : Chassis Exact} (hc : RealChassis c) {s : ℝ}
    {before : DriveReading Exact} (hbefore : m.Shows s before) (t : ℝ) :
    DeadReckoner.motionBetween c before (m.reading t)
      = ⟨(c.solve m.paths).x * real (t - s), (c.solve m.paths).y * real (t - s),
          real ((t - s) * m.turn)⟩ := by
  have hrolled : (before.travel.zipWith DeadReckoner.rolled (m.reading t).travel).map
      WheelTravel.path = m.paths.map fun v => v.scale (real (t - s)) := by
    have hdistances := hbefore.distances
    simp only [Wheels.map, Wheels.mk.injEq] at hdistances
    obtain ⟨hfl, hfr, hbl, hbr⟩ := hdistances
    simp only [reading, paths, Wheels.map, Wheels.zipWith, path_rolled hfl, path_rolled hfr,
      path_rolled hbl, path_rolled hbr]
  unfold DeadReckoner.motionBetween Chassis.motion
  rw [hrolled, (multiple_solve hc isFinite_paths _).eq_scale]
  have hturn : (m.reading t).gyro - before.gyro = real ((t - s) * m.turn) := by
    rw [hbefore.gyro]
    show real _ = real _
    congr 1
    ring
  rw [hturn]
  rfl

end SteadyMotion

/-! ## The course -/

/-- A steady motion of a chassis from a real pose. -/
structure Course where
  motion : SteadyMotion
  chassis : Chassis Exact
  realChassis : RealChassis chassis
  start : Vec2 ℝ
  heading : ℝ
  /-- The way of the chassis over the whole motion, in its own frame. -/
  way : Vec2 ℝ
  way_eq : (chassis.solve motion.paths).floor = ⟨real way.x, real way.y⟩

namespace Course

variable (k : Course)

/-- Where the robot is when the part `s` of the motion has passed. -/
noncomputable def position (s : ℝ) : Vec2 Exact :=
  let along := reachAlong k.heading k.motion.turn s
  let across := reachAcross k.heading k.motion.turn s
  ⟨real (k.start.x + (k.way.x * along - k.way.y * across)),
    real (k.start.y + (k.way.x * across + k.way.y * along))⟩

/-- The reckoner that has been brought there by a reading. -/
noncomputable def reckoner (s : ℝ) : DeadReckoner Exact :=
  ⟨k.chassis, .make (k.position s) (real (k.heading + s * k.motion.turn)),
    some (k.motion.reading s)⟩

/-- The reckoner is where the part `s` of the motion leads. -/
structure Reaches (s : ℝ) (d : DeadReckoner Exact) : Prop where
  chassis : d.chassis = k.chassis
  baseline : ∃ r, d.baseline = some r ∧ k.motion.Shows s r
  position : d.pose.position = k.position s
  heading : ∃ θ : ℝ, d.pose.heading = real θ ∧
    (θ : Real.Angle) = (k.heading + s * k.motion.turn : ℝ)

/-- A step from one moment to another that is not taken for straight, unless it is. -/
def Clear (s t : ℝ) : Prop := k.motion.turn = 0 ∨ 1e-9 ≤ |(t - s) * k.motion.turn|

variable {k} {s t : ℝ} {d : DeadReckoner Exact}

theorem reaches_reckoner : k.Reaches s (k.reckoner s) :=
  ⟨rfl, ⟨_, rfl, k.motion.shows_reading s⟩, rfl, _, wrap_real _, Angle.coe_toReal _⟩

/-- Whatever has passed before, a clear step leads to the place of its reading. -/
theorem Reaches.update (h : k.Reaches s d) (hclear : k.Clear s t) :
    d.update (k.motion.reading t) = .ok (k.reckoner t) := by
  obtain ⟨before, hbaseline, hshows⟩ := h.baseline
  obtain ⟨θ, hheading, hangle⟩ := h.heading
  have hpose : d.pose = ⟨k.position s, real θ⟩ := by
    rw [← h.position, ← hheading]
  have hway := k.way_eq
  simp only [Vec3.floor, Vec2.mk.injEq] at hway
  have hmotion : DeadReckoner.motionBetween d.chassis before (k.motion.reading t)
      = ⟨real (k.way.x * (t - s)), real (k.way.y * (t - s)), real ((t - s) * k.motion.turn)⟩ := by
    rw [h.chassis, SteadyMotion.motionBetween_reading k.realChassis hshows, hway.1, hway.2]
    rfl
  have hmoved : d.pose.move (DeadReckoner.motionBetween d.chassis before (k.motion.reading t))
      = .make (k.position t) (real (k.heading + t * k.motion.turn)) := by
    have hchordx := chord_along k.heading hclear
    have hchordy := chord_across k.heading hclear
    rw [hmotion, hpose]
    unfold Course.position
    rw [move_real hangle]
    refine congrArg₂ Pose.make (congrArg₂ Vec2.mk (congrArg real ?_) (congrArg real ?_))
      (congrArg real ?_)
    · linear_combination k.way.x * hchordx - k.way.y * hchordy
    · linear_combination k.way.x * hchordy + k.way.y * hchordx
    · ring
  unfold DeadReckoner.update
  rw [if_neg (by simp [k.motion.isFinite_reading t]), hbaseline]
  dsimp only
  rw [hmoved, h.chassis]
  rfl

/-- So do any number of clear steps. -/
theorem Reaches.foldlM (h : k.Reaches s d) {steps : List ℝ} {last : ℝ}
    (hclear : (s :: steps).IsChain k.Clear) (hlast : steps.getLast? = some last) :
    (steps.map k.motion.reading).foldlM DeadReckoner.update d = .ok (k.reckoner last) := by
  induction steps generalizing s d with
  | nil => contradiction
  | cons t rest ih =>
    rw [List.isChain_cons_cons] at hclear
    rw [List.map_cons, List.foldlM_cons, h.update hclear.1]
    cases rest with
    | nil =>
      cases hlast
      rfl
    | cons u rest =>
      rw [List.getLast?_cons_cons] at hlast
      exact ih reaches_reckoner hclear.2 hlast

/-- Every steady motion that starts from a real pose has a course. -/
theorem exists_of_shows {offsets : Wheels (Vec2 Exact)} {chassis : Chassis Exact}
    (hchassis : Chassis.build offsets = .ok chassis) (m : SteadyMotion)
    (hd : d.chassis = chassis) (hpose : d.pose.isFinite = true) {before : DriveReading Exact}
    (hbaseline : d.baseline = some before) (hbefore : m.Shows 0 before) :
    ∃ k : Course, k.motion = m ∧ k.Reaches 0 d := by
  have hreal := realChassis_build hchassis
  have hsolve := realVec_solve hreal m.isFinite_paths
  obtain ⟨vx, hvx⟩ := isFinite_iff_exists.mp hsolve.x
  obtain ⟨vy, hvy⟩ := isFinite_iff_exists.mp hsolve.y
  simp only [Pose.isFinite, Vec2.isFinite, Bool.and_eq_true] at hpose
  obtain ⟨x, hx⟩ := isFinite_iff_exists.mp hpose.1.1
  obtain ⟨y, hy⟩ := isFinite_iff_exists.mp hpose.1.2
  obtain ⟨h, hh⟩ := isFinite_iff_exists.mp hpose.2
  refine ⟨⟨m, chassis, hreal, ⟨x, y⟩, h, ⟨vx, vy⟩, congrArg₂ Vec2.mk hvx hvy⟩, rfl, ?_⟩
  refine ⟨hd, ⟨before, hbaseline, hbefore⟩, ?_, h, hh, ?_⟩
  · simp [Course.position, ← hx, ← hy]
  · simp

end Course

/-- Of times in order the first one is not after the last. -/
theorem head_le_last {s last : ℝ} {rest : List ℝ} (hordered : (s :: rest).IsChain (· < ·))
    (hlast : (s :: rest).getLast? = some last) : s ≤ last := by
  rcases List.mem_cons.mp (List.mem_of_getLast? hlast) with rfl | hmem
  · exact le_rfl
  · exact (List.rel_of_pairwise_cons (List.isChain_iff_pairwise.mp hordered) hmem).le

/-- No part of a motion turns further than the whole. -/
theorem large_of_first {steps : List ℝ} {turn : ℝ} (hsteps : (0 :: steps).IsChain (· < ·))
    (hlast : steps.getLast? = some 1)
    (hlarge : (0 :: steps).IsChain fun s t => 1e-9 ≤ |(t - s) * turn|) :
    1e-9 ≤ |(1 - 0) * turn| := by
  cases steps with
  | nil => contradiction
  | cons t rest =>
    obtain ⟨hpos, hrest⟩ := List.isChain_cons_cons.mp hsteps
    have hle : t ≤ 1 := head_le_last hrest hlast
    calc (1e-9 : ℝ) ≤ |(t - 0) * turn| := (List.isChain_cons_cons.mp hlarge).1
      _ = t * |turn| := by rw [sub_zero, abs_mul, abs_of_pos hpos]
      _ ≤ 1 * |turn| := mul_le_mul_of_nonneg_right hle (abs_nonneg turn)
      _ = |(1 - 0) * turn| := by rw [sub_zero, one_mul, one_mul]

/-- A steady motion takes a reckoner on any chassis that could be built to one and
the same state, with the same pose, whether it is read at many moments or at the
end only, if it goes straight or every step turns far enough. -/
theorem update_steady {offsets : Wheels (Vec2 Exact)} {chassis : Chassis Exact}
    (hchassis : Chassis.build offsets = .ok chassis) (m : SteadyMotion) {d : DeadReckoner Exact}
    (hd : d.chassis = chassis) (hpose : d.pose.isFinite = true) {before : DriveReading Exact}
    (hbaseline : d.baseline = some before) (hbefore : m.Shows 0 before) {steps : List ℝ}
    (hsteps : (0 :: steps).IsChain (· < ·)) (hlast : steps.getLast? = some 1)
    (hturn : m.turn = 0 ∨ (0 :: steps).IsChain fun s t => 1e-9 ≤ |(t - s) * m.turn|) :
    ∃ after, (steps.map m.reading).foldlM DeadReckoner.update d = .ok after ∧
      d.update (m.reading 1) = .ok after := by
  obtain ⟨k, rfl, hstart⟩ := Course.exists_of_shows hchassis m hd hpose hbaseline hbefore
  have hmany : (0 :: steps).IsChain k.Clear := by
    rcases hturn with hturn | hlarge
    · exact hsteps.imp fun _ _ _ => .inl hturn
    · exact hlarge.imp fun _ _ => .inr
  have hone : k.Clear 0 1 := hturn.imp_right (large_of_first hsteps hlast)
  exact ⟨k.reckoner 1, hstart.foldlM hmany hlast, hstart.update hone⟩

/-- A robot that turns half way round. One of its wheels stands askew, and one is
turned about and rolls backward. -/
noncomputable def turnabout : SteadyMotion :=
  ⟨1, π, ⟨⟨0, 1, 0⟩, ⟨1, 1, 0⟩, ⟨-1, 1, 1⟩, ⟨0, -1, π⟩⟩⟩

theorem update_steady_turnabout :
    ∃ chassis, Chassis.build squareOffsets = .ok chassis ∧
      let d : DeadReckoner Exact := ⟨chassis, .origin, some (turnabout.reading 0)⟩
      ∃ after, ([1 / 4, 1 / 2, 1].map turnabout.reading).foldlM DeadReckoner.update d = .ok after ∧
        d.update (turnabout.reading 1) = .ok after := by
  have hsteps : ([0, 1 / 4, 1 / 2, 1] : List ℝ).IsChain (· < ·) := by
    simp only [List.isChain_cons_cons, List.isChain_singleton]
    norm_num
  have hstep : ∀ a : ℝ, 1 / 4 ≤ a → 1e-9 ≤ |a * turnabout.turn| := by
    intro a ha
    have hturn : 1 ≤ turnabout.turn := by
      show 1 ≤ π
      linarith [pi_gt_three]
    have hlarge : 1 / 4 * 1 ≤ a * turnabout.turn :=
      mul_le_mul ha hturn zero_le_one (by linarith)
    exact le_abs.mpr (.inl (le_trans (by norm_num) hlarge))
  have hclear : ([0, 1 / 4, 1 / 2, 1] : List ℝ).IsChain
      fun s t => 1e-9 ≤ |(t - s) * turnabout.turn| := by
    simp only [List.isChain_cons_cons, List.isChain_singleton]
    refine ⟨hstep _ ?_, hstep _ ?_, hstep _ ?_, trivial⟩ <;> norm_num
  exact ⟨_, build_squareOffsets, update_steady build_squareOffsets turnabout rfl rfl rfl
    (turnabout.shows_reading 0) hsteps rfl (.inr hclear)⟩

end SwerveLocalization.Exact
