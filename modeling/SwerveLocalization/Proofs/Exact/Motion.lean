import Mathlib
import SwerveLocalization.Localization.DeadReckoning
import SwerveLocalization.Proofs.Exact.Displacement

/-!
# Motion without rounding

Real numbers stay real: a chassis that could be built has real shares, so a
motion between two real readings is real, and it takes a pose with real
components to another. A motion does not see where in the field it happens, so
it takes displaced poses to displaced poses.
-/

namespace SwerveLocalization.Exact

open Real Scalar

/-! ## Operations on real numbers -/

section Closure

variable {a b : Exact}

theorem isFinite_add (ha : Scalar.isFinite a = true) (hb : Scalar.isFinite b = true) :
    Scalar.isFinite (a + b) = true := by
  obtain ⟨x, rfl⟩ := isFinite_iff_exists.mp ha
  obtain ⟨y, rfl⟩ := isFinite_iff_exists.mp hb
  rfl

theorem isFinite_sub (ha : Scalar.isFinite a = true) (hb : Scalar.isFinite b = true) :
    Scalar.isFinite (a - b) = true := by
  obtain ⟨x, rfl⟩ := isFinite_iff_exists.mp ha
  obtain ⟨y, rfl⟩ := isFinite_iff_exists.mp hb
  rfl

theorem isFinite_mul (ha : Scalar.isFinite a = true) (hb : Scalar.isFinite b = true) :
    Scalar.isFinite (a * b) = true := by
  obtain ⟨x, rfl⟩ := isFinite_iff_exists.mp ha
  obtain ⟨y, rfl⟩ := isFinite_iff_exists.mp hb
  rfl

theorem isFinite_neg (ha : Scalar.isFinite a = true) : Scalar.isFinite (-a) = true := by
  obtain ⟨x, rfl⟩ := isFinite_iff_exists.mp ha
  rfl

theorem isFinite_div (ha : Scalar.isFinite a = true) (hb : Scalar.isFinite b = true)
    (hne : ¬ (b == 0) = true) : Scalar.isFinite (a / b) = true := by
  obtain ⟨x, rfl⟩ := isFinite_iff_exists.mp ha
  obtain ⟨y, rfl⟩ := isFinite_iff_exists.mp hb
  rw [zero_eq, real_beq_real] at hne
  rw [real_div_real x y hne]
  rfl

end Closure

/-! ## The shares of a chassis -/

/-- A vector with real components. -/
structure RealVec (v : Vec3 Exact) : Prop where
  x : Scalar.isFinite v.x = true
  y : Scalar.isFinite v.y = true
  z : Scalar.isFinite v.z = true

/-- A matrix with real entries, by rows. -/
structure RealMatrix (a : Matrix3 Exact) : Prop where
  first : RealVec ⟨a.m11, a.m12, a.m13⟩
  second : RealVec ⟨a.m21, a.m22, a.m23⟩
  third : RealVec ⟨a.m31, a.m32, a.m33⟩

variable {u v : Vec3 Exact} {k : Exact}

theorem RealVec.add (hu : RealVec u) (hv : RealVec v) : RealVec (u + v) :=
  ⟨isFinite_add hu.x hv.x, isFinite_add hu.y hv.y, isFinite_add hu.z hv.z⟩

theorem RealVec.scale (hv : RealVec v) (hk : Scalar.isFinite k = true) : RealVec (v.scale k) :=
  ⟨isFinite_mul hv.x hk, isFinite_mul hv.y hk, isFinite_mul hv.z hk⟩

theorem RealVec.dot (hu : RealVec u) (hv : RealVec v) : Scalar.isFinite (u.dot v) = true :=
  isFinite_add (isFinite_add (isFinite_mul hu.x hv.x) (isFinite_mul hu.y hv.y))
    (isFinite_mul hu.z hv.z)

theorem realMatrix_square (hv : RealVec v) : RealMatrix (Matrix3.square v) :=
  ⟨⟨isFinite_mul hv.x hv.x, isFinite_mul hv.x hv.y, isFinite_mul hv.x hv.z⟩,
    ⟨isFinite_mul hv.y hv.x, isFinite_mul hv.y hv.y, isFinite_mul hv.y hv.z⟩,
    ⟨isFinite_mul hv.z hv.x, isFinite_mul hv.z hv.y, isFinite_mul hv.z hv.z⟩⟩

variable {a b : Matrix3 Exact}

theorem RealMatrix.add (ha : RealMatrix a) (hb : RealMatrix b) : RealMatrix (a + b) :=
  ⟨ha.first.add hb.first, ha.second.add hb.second, ha.third.add hb.third⟩

theorem RealMatrix.mulVec (ha : RealMatrix a) (hv : RealVec v) : RealVec (a.mulVec v) :=
  ⟨ha.first.dot hv, ha.second.dot hv, ha.third.dot hv⟩

/-- A minor of two rows and columns. -/
theorem isFinite_minor {w x y z : Exact} (hw : Scalar.isFinite w = true)
    (hx : Scalar.isFinite x = true) (hy : Scalar.isFinite y = true) (hz : Scalar.isFinite z = true) :
    Scalar.isFinite (w * x - y * z) = true :=
  isFinite_sub (isFinite_mul hw hx) (isFinite_mul hy hz)

theorem RealMatrix.det (ha : RealMatrix a) : Scalar.isFinite a.det = true := by
  obtain ⟨⟨h11, h12, h13⟩, ⟨h21, h22, h23⟩, ⟨h31, h32, h33⟩⟩ := ha
  refine isFinite_add (isFinite_sub ?_ ?_) ?_
  · exact isFinite_mul h11 (isFinite_minor h22 h33 h32 h23)
  · exact isFinite_mul h12 (isFinite_minor h21 h33 h31 h23)
  · exact isFinite_mul h13 (isFinite_minor h21 h32 h31 h22)

theorem RealMatrix.inverse? (ha : RealMatrix a) (h : a.inverse? = some b) : RealMatrix b := by
  have hdet := ha.det
  unfold Matrix3.inverse? at h
  dsimp only at h
  split at h
  · contradiction
  · rename_i hne
    obtain rfl := (Option.some.inj h).symm
    obtain ⟨⟨h11, h12, h13⟩, ⟨h21, h22, h23⟩, ⟨h31, h32, h33⟩⟩ := ha
    have hover : ∀ {m : Exact}, Scalar.isFinite m = true → Scalar.isFinite (m / a.det) = true :=
      fun hm => isFinite_div hm hdet hne
    refine ⟨⟨?_, ?_, ?_⟩, ⟨?_, ?_, ?_⟩, ⟨?_, ?_, ?_⟩⟩ <;> apply hover
    case refine_4 => exact isFinite_neg (isFinite_minor h21 h33 h31 h23)
    all_goals apply isFinite_minor <;> assumption

/-- Shares by which real velocities of wheels give a real velocity of the
chassis. -/
def RealChassis (c : Chassis Exact) : Prop :=
  ∀ s ∈ c.shares.toList, RealVec s.along ∧ RealVec s.across

/-- Every chassis that could be built has real shares. -/
theorem realChassis_build {offsets : Wheels (Vec2 Exact)} {c : Chassis Exact}
    (h : Chassis.build offsets = .ok c) : RealChassis c := by
  obtain ⟨hoffsets, -, inverse, hinverse, rfl⟩ := Chassis.build_eq_ok h
  have hrows : ∀ o ∈ offsets.toList, RealVec (alongRow o) ∧ RealVec (acrossRow o) := by
    intro o ho
    have hfinite : o.isFinite = true := by
      simpa using List.findIdx?_eq_none_iff.mp hoffsets o ho
    simp only [Vec2.isFinite, Bool.and_eq_true] at hfinite
    exact ⟨⟨rfl, rfl, isFinite_neg hfinite.2⟩, ⟨rfl, rfl, hfinite.1⟩⟩
  have hsquare : ∀ o ∈ offsets.toList, RealMatrix (Matrix3.square (alongRow o)) ∧
      RealMatrix (Matrix3.square (acrossRow o)) :=
    fun o ho => ⟨realMatrix_square (hrows o ho).1, realMatrix_square (hrows o ho).2⟩
  have hnormal : RealMatrix (Chassis.normalMatrix offsets) := by
    have hfl := hsquare offsets.frontLeft (by simp [Wheels.toList])
    have hfr := hsquare offsets.frontRight (by simp [Wheels.toList])
    have hbl := hsquare offsets.backLeft (by simp [Wheels.toList])
    have hbr := hsquare offsets.backRight (by simp [Wheels.toList])
    exact ((((((hfl.1.add hfl.2).add hfr.1).add hfr.2).add hbl.1).add hbl.2).add hbr.1).add hbr.2
  intro s hs
  rw [Wheels.toList_map, List.mem_map] at hs
  obtain ⟨o, ho, rfl⟩ := hs
  have hreal := hnormal.inverse? hinverse
  exact ⟨hreal.mulVec (hrows o ho).1, hreal.mulVec (hrows o ho).2⟩

/-! ## Motions -/

theorem isFinite_sin {x : Exact} (h : Scalar.isFinite x = true) :
    Scalar.isFinite (Scalar.sin x) = true := by
  obtain ⟨x, rfl⟩ := isFinite_iff_exists.mp h
  rfl

theorem isFinite_cos {x : Exact} (h : Scalar.isFinite x = true) :
    Scalar.isFinite (Scalar.cos x) = true := by
  obtain ⟨x, rfl⟩ := isFinite_iff_exists.mp h
  rfl

theorem realVec_solve {c : Chassis Exact} (hc : RealChassis c) {w : Wheels (Vec2 Exact)}
    (hw : ∀ v ∈ w.toList, v.isFinite = true) : RealVec (c.solve w) := by
  have hpart : ∀ s ∈ c.shares.toList, ∀ v ∈ w.toList,
      RealVec (s.along.scale v.x) ∧ RealVec (s.across.scale v.y) := by
    intro s hs v hv
    have hfinite := hw v hv
    simp only [Vec2.isFinite, Bool.and_eq_true] at hfinite
    exact ⟨(hc s hs).1.scale hfinite.1, (hc s hs).2.scale hfinite.2⟩
  have hfl := hpart c.shares.frontLeft (by simp [Wheels.toList]) w.frontLeft (by simp [Wheels.toList])
  have hfr := hpart c.shares.frontRight (by simp [Wheels.toList]) w.frontRight
    (by simp [Wheels.toList])
  have hbl := hpart c.shares.backLeft (by simp [Wheels.toList]) w.backLeft (by simp [Wheels.toList])
  have hbr := hpart c.shares.backRight (by simp [Wheels.toList]) w.backRight
    (by simp [Wheels.toList])
  exact ((((((hfl.1.add hfl.2).add hfr.1).add hfr.2).add hbl.1).add hbl.2).add hbr.1).add hbr.2

/-- A twist with real components. -/
structure RealTwist (m : Twist Exact) : Prop where
  dx : Scalar.isFinite m.dx = true
  dy : Scalar.isFinite m.dy = true
  dtheta : Scalar.isFinite m.dtheta = true

theorem realTwist_motionBetween {c : Chassis Exact} (hc : RealChassis c)
    {before now : DriveReading Exact} (hbefore : before.isFinite = true)
    (hnow : now.isFinite = true) : RealTwist (DeadReckoner.motionBetween c before now) := by
  simp only [DriveReading.isFinite, Bool.and_eq_true, List.all_eq_true] at hbefore hnow
  have hpaths : ∀ v ∈ ((before.travel.zipWith DeadReckoner.rolled now.travel).map
      WheelTravel.path).toList, v.isFinite = true := by
    have hpath : ∀ b ∈ before.travel.toList, ∀ n ∈ now.travel.toList,
        (DeadReckoner.rolled b n).path.isFinite = true := by
      intro b hb n hn
      have hb' := hbefore.2 b hb
      have hn' := hnow.2 n hn
      simp only [WheelTravel.isFinite, Bool.and_eq_true] at hb' hn'
      simp only [WheelTravel.path, Vec2.polar, Vec2.isFinite, Bool.and_eq_true,
        DeadReckoner.rolled]
      have hrolled := isFinite_sub hn'.1 hb'.1
      exact ⟨isFinite_mul hrolled (isFinite_cos hn'.2), isFinite_mul hrolled (isFinite_sin hn'.2)⟩
    intro v hv
    simp only [Wheels.toList_map, Wheels.toList_zipWith, List.map_zipWith] at hv
    obtain ⟨i, hi, rfl⟩ := List.mem_iff_getElem.mp hv
    rw [List.getElem_zipWith]
    exact hpath _ (List.getElem_mem _) _ (List.getElem_mem _)
  have hsolve := realVec_solve hc hpaths
  exact ⟨hsolve.x, hsolve.y, isFinite_sub hnow.1 hbefore.1⟩

theorem two_eq : (2.0 : Exact) = real 2 := by
  show real (OfScientific.ofScientific 20 true 1) = real 2
  norm_num

theorem isFinite_chordRatio {angle : Exact} (h : Scalar.isFinite angle = true) :
    Scalar.isFinite (Pose.chordRatio angle) = true := by
  obtain ⟨a, rfl⟩ := isFinite_iff_exists.mp h
  have hsmall : (1e-9 : Exact) = real 1e-9 := rfl
  unfold Pose.chordRatio
  split_ifs with hangle
  · rfl
  · -- the angle is not zero, for zero is small
    apply isFinite_div _ h
    · intro hzero
      rw [zero_eq, real_beq_real] at hzero
      apply hangle
      rw [hzero, hsmall, magnitude_real, abs_zero, real_lt_real]
      norm_num
    · rw [two_eq]
      have hhalf : (real a : Exact) / real 2 = real (a / 2) := real_div_real a 2 (by norm_num)
      rw [hhalf]
      rfl

theorem isFinite_wrap {x : Exact} (h : Scalar.isFinite x = true) :
    Scalar.isFinite (Angle.wrap x) = true := by
  obtain ⟨x, rfl⟩ := isFinite_iff_exists.mp h
  rw [wrap_real]
  rfl

theorem isFinite_move {p : Pose Exact} (hp : p.isFinite = true) {m : Twist Exact}
    (hm : RealTwist m) : (p.move m).isFinite = true := by
  simp only [Pose.isFinite, Vec2.isFinite, Bool.and_eq_true] at hp
  have htwo : Scalar.isFinite (2.0 : Exact) = true := rfl
  have hnonzero : ¬ ((2.0 : Exact) == 0) = true := by
    rw [two_eq, zero_eq, real_beq_real]
    norm_num
  have hratio := isFinite_chordRatio hm.dtheta
  have hmean := isFinite_add hp.2 (isFinite_div hm.dtheta htwo hnonzero)
  have hx := isFinite_mul hm.dx hratio
  have hy := isFinite_mul hm.dy hratio
  simp only [Pose.move, Pose.make, Pose.isFinite, Vec2.isFinite, Bool.and_eq_true]
  refine ⟨⟨?_, ?_⟩, isFinite_wrap (isFinite_add hp.2 hm.dtheta)⟩
  · exact isFinite_add hp.1.1
      (isFinite_sub (isFinite_mul (isFinite_cos hmean) hx) (isFinite_mul (isFinite_sin hmean) hy))
  · exact isFinite_add hp.1.2
      (isFinite_add (isFinite_mul (isFinite_sin hmean) hx) (isFinite_mul (isFinite_cos hmean) hy))

/-! ## Interpolation -/

theorem isFinite_blend {p q : Pose Exact} (hp : p.isFinite = true) (hq : q.isFinite = true) (t : ℝ) :
    (p.blend q (real t)).isFinite = true := by
  simp only [Pose.isFinite, Vec2.isFinite, Bool.and_eq_true] at hp hq
  have hturn : Scalar.isFinite (Angle.turn q.heading p.heading) = true :=
    isFinite_wrap (isFinite_sub hq.2 hp.2)
  have hheading : Scalar.isFinite (Angle.wrap (Angle.blend p.heading q.heading (real t))) = true :=
    isFinite_wrap (isFinite_wrap (isFinite_add hp.2 (isFinite_mul hturn rfl)))
  have hmul : ∀ {b : Exact} (s : ℝ), Scalar.isFinite b = true → Scalar.isFinite (real s * b) = true :=
    fun s hb => isFinite_mul rfl hb
  have hposition : (p.position.blend q.position (real t)).isFinite = true := by
    have hrest : (1 : Exact) - real t = real (1 - t) := rfl
    unfold Vec2.blend
    dsimp only
    rw [hrest]
    split <;> simp only [Vec2.isFinite, Bool.and_eq_true]
    · exact ⟨hmul t hq.1.1, hmul t hq.1.2⟩
    · exact ⟨isFinite_add (hmul t hq.1.1) (hmul _ hp.1.1),
        isFinite_add (hmul t hq.1.2) (hmul _ hp.1.2)⟩
  show (_ && _) = true
  rw [Bool.and_eq_true]
  exact ⟨hposition, hheading⟩

theorem isFinite_walk (time : ℝ) (e : Waypoint Exact) (rest : List (Waypoint Exact))
    (h : Increasing (e :: rest)) (hposes : ∀ w ∈ e :: rest, w.pose.isFinite = true) :
    (Trajectory.walk (real time) e rest).isFinite = true := by
  induction rest generalizing e with
  | nil => exact hposes e List.mem_cons_self
  | cons next rest ih =>
    obtain ⟨hfinite, hordered⟩ := h
    rw [List.pairwise_cons] at hordered
    obtain ⟨t₀, ht₀⟩ := isFinite_iff_exists.mp (hfinite e (by simp))
    obtain ⟨t₁, ht₁⟩ := isFinite_iff_exists.mp (hfinite next (by simp))
    have hlt : t₀ < t₁ := by
      have hnext := hordered.1 next (by simp)
      rw [ht₀, ht₁, real_lt_real] at hnext
      exact hnext
    unfold Trajectory.walk
    split_ifs
    · exact ih next ⟨fun w hw => hfinite w (List.mem_cons_of_mem _ hw), hordered.2⟩
        fun w hw => hposes w (List.mem_cons_of_mem _ hw)
    · exact hposes next (by simp)
    · rw [ht₀, ht₁, inverseLerp_real hlt]
      exact isFinite_blend (hposes e (by simp)) (hposes next (by simp)) _

/-- A record of real poses gives a real pose at every real time it covers. -/
theorem isFinite_poseAt? {h : Trajectory Exact} (hincreasing : Increasing h.entries)
    (hposes : ∀ w ∈ h.entries, w.pose.isFinite = true) {time : ℝ} {p : Pose Exact}
    (hp : h.poseAt? (real time) = some p) : p.isFinite = true := by
  unfold Trajectory.poseAt? at hp
  cases hentries : h.entries with
  | nil =>
    rw [hentries] at hp
    contradiction
  | cons first rest =>
    rw [hentries] at hp hincreasing hposes
    dsimp only at hp
    split_ifs at hp
    · rw [← Option.some.inj hp]
      exact hposes first (by simp)
    · rw [← Option.some.inj hp]
      exact isFinite_walk time first rest hincreasing hposes

/-! ## Motions and displacements -/

/-- A displaced robot with the same heading moves the same way. -/
theorem move_shift (x y : ℝ) (p : Pose Exact) (hp : Angle.wrap p.heading = p.heading)
    (m : Twist Exact) :
    (p.shift (offset x y 0)).move m = (p.move m).shift (offset x y 0) := by
  have hheading : (p.shift (offset x y 0)).heading = p.heading := by
    have hzero := congrArg Pose.heading (shift_zero p hp)
    exact hzero
  have hswap : ∀ (a b : Exact) (d : ℝ), a + real d + b = a + b + real d := by
    intro a b d
    cases a <;> cases b <;> first | rfl | simp [add_right_comm]
  have hturned : Angle.wrap (p.heading + m.dtheta)
      = Angle.wrap (Angle.wrap (p.heading + m.dtheta) + real 0) := by
    have hzero := congrArg Pose.heading (shift_zero ⟨p.position, Angle.wrap (p.heading + m.dtheta)⟩
      wrap_wrap)
    exact hzero.symm
  unfold Pose.move Pose.make
  rw [hheading]
  refine congrArg₂ Pose.mk (congrArg₂ Vec2.mk ?_ ?_) hturned
  · exact hswap _ _ x
  · exact hswap _ _ y

end SwerveLocalization.Exact
