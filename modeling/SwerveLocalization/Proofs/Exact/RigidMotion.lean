import Mathlib
import SwerveLocalization.Proofs.Exact.Arc
import SwerveLocalization.Proofs.Exact.LeastSquares
import SwerveLocalization.Proofs.Localization.Steps

/-!
# Dead reckoning is rigid

A pose is the rigid motion of the plane that brings the origin there. A step of
dead reckoning composes this motion on the right with one that depends on the
difference of two readings only. Main statement: from two start poses the same
readings lead to poses that differ as the start poses do, and readings that are
all displaced by constants lead to the same poses.
-/

namespace SwerveLocalization.Exact

open Real Scalar

/-! ## Rigid motions -/

/-- The rigid motion that turns the plane about the origin and takes the origin to `z`. -/
noncomputable def rigid (z : ℂ) (θ : Real.Angle) : ℂ ≃ᵃⁱ[ℝ] ℂ :=
  (rotation θ.toCircle).toAffineIsometryEquiv.trans (AffineIsometryEquiv.constVAdd ℝ ℂ z)

variable {z w : ℂ} {θ φ : Real.Angle}

theorem rigid_mul : rigid z θ * rigid w φ = rigid (z + θ.toCircle * w) (θ + φ) := by
  ext x
  show z + θ.toCircle * (w + φ.toCircle * x) = z + θ.toCircle * w + (θ + φ).toCircle * x
  rw [Angle.toCircle_add, Circle.coe_mul]
  ring

/-- The rigid motion that brings a robot from the origin to a real pose. -/
noncomputable def rigidOf (p : Pose Exact) : ℂ ≃ᵃⁱ[ℝ] ℂ :=
  rigid ⟨toReal p.position.x, toReal p.position.y⟩ (toReal p.heading)

/-- The rigid motion of a step, seen from the pose it starts from. -/
noncomputable def rigidStep (m : Twist Exact) : ℂ ≃ᵃⁱ[ℝ] ℂ :=
  rigid (((toReal m.dtheta / 2.0 : ℝ) : Real.Angle).toCircle
    * (⟨toReal m.dx, toReal m.dy⟩ * chord (toReal m.dtheta))) (toReal m.dtheta)

theorem move_point (z d : ℂ) (θ dθ : ℝ) :
    (Pose.mk (point z) (real θ)).move ⟨real d.re, real d.im, real dθ⟩
      = ⟨point (z + Complex.exp ((θ + dθ / 2 : ℝ) * Complex.I) * (d * chord dθ)),
          real ((θ + dθ : ℝ) : Real.Angle).toReal⟩ := by
  have hchord : ((point d).scale (Pose.chordRatio (real dθ))).rotate (real θ + real dθ / 2.0)
      = point (Complex.exp ((θ + dθ / 2 : ℝ) * Complex.I) * (d * chord dθ)) := by
    rw [chordRatio_real, scale_point, real_half, real_add_real, rotate_point]
  exact congrArg₂ Pose.mk (congrArg (point z + ·) hchord) (wrap_real _)

/-- A step goes the same way from every pose. -/
theorem rigidOf_move {p : Pose Exact} (hp : p.isFinite = true) {m : Twist Exact}
    (hm : RealTwist m) : rigidOf (p.move m) = rigidOf p * rigidStep m := by
  obtain ⟨position, heading⟩ := p
  obtain ⟨dx, dy, dtheta⟩ := m
  simp only [Pose.isFinite, Bool.and_eq_true] at hp
  obtain ⟨z, rfl⟩ := exists_point hp.1
  obtain ⟨θ, rfl⟩ := isFinite_iff_exists.mp hp.2
  obtain ⟨x, rfl⟩ := isFinite_iff_exists.mp hm.dx
  obtain ⟨y, rfl⟩ := isFinite_iff_exists.mp hm.dy
  obtain ⟨dθ, rfl⟩ := isFinite_iff_exists.mp hm.dtheta
  have htwo : (2.0 : ℝ) = 2 := by norm_num
  have hturn : Complex.exp ((θ + dθ / 2 : ℝ) * Complex.I)
      = (θ : Real.Angle).toCircle * ((dθ / 2 : ℝ) : Real.Angle).toCircle := by
    rw [← Circle.coe_mul, ← Angle.toCircle_add, ← Angle.coe_add, Angle.toCircle_coe, Circle.coe_exp]
  have hmove := move_point z ⟨x, y⟩ θ dθ
  dsimp only at hmove
  rw [hmove]
  show rigid (z + _ * (⟨x, y⟩ * chord dθ)) (((θ + dθ : ℝ) : Real.Angle).toReal : ℝ)
    = rigid z θ * rigid (((dθ / 2.0 : ℝ) : Real.Angle).toCircle * (⟨x, y⟩ * chord dθ)) dθ
  rw [rigid_mul, Angle.coe_toReal, Angle.coe_add, hturn, htwo, mul_assoc]

/-! ## What readings describe -/

/-- The rigid motion that readings describe after an earlier one, seen from where that
one was taken. Without an earlier one the first reading only starts it. -/
noncomputable def travelled (c : Chassis Exact) :
    Option (DriveReading Exact) → List (DriveReading Exact) → ℂ ≃ᵃⁱ[ℝ] ℂ
  | _, [] => 1
  | none, r :: rest => travelled c (some r) rest
  | some before, r :: rest =>
    rigidStep (DeadReckoner.motionBetween c before r) * travelled c (some r) rest

/-- A reckoner that holds real numbers only. -/
structure RealReckoner (d : DeadReckoner Exact) : Prop where
  chassis : RealChassis d.chassis
  baseline : ∀ r, d.baseline = some r → r.isFinite = true
  pose : d.pose.isFinite = true

variable {d : DeadReckoner Exact}

theorem realReckoner_start {offsets : Wheels (Vec2 Exact)} {chassis : Chassis Exact}
    (hchassis : Chassis.build offsets = .ok chassis) {p : Pose Exact} (hp : p.isFinite = true) :
    RealReckoner (.start chassis p) := by
  refine ⟨realChassis_build hchassis, ?_, hp⟩
  intro r hr
  cases hr

/-- A finite reading is taken in, and a reckoner that starts from it goes on from
there. -/
theorem RealReckoner.update (h : RealReckoner d) {r : DriveReading Exact} (hr : r.isFinite = true) :
    ∃ a, d.update r = .ok a ∧ RealReckoner a ∧ ∀ rest,
      rigidOf a.pose * travelled a.chassis a.baseline rest
        = rigidOf d.pose * travelled d.chassis d.baseline (r :: rest) := by
  have hbaseline : ∀ s, some r = some s → s.isFinite = true := by
    rintro s hs
    cases hs
    exact hr
  unfold DeadReckoner.update
  rw [if_neg (by simp [hr])]
  cases hbefore : d.baseline with
  | none => exact ⟨_, rfl, ⟨h.chassis, hbaseline, h.pose⟩, fun rest => rfl⟩
  | some before =>
    have htwist := realTwist_motionBetween h.chassis (h.baseline before hbefore) hr
    refine ⟨_, rfl, ⟨h.chassis, hbaseline, isFinite_move h.pose htwist⟩, fun rest => ?_⟩
    show rigidOf (d.pose.move _) * travelled d.chassis (some r) rest = rigidOf d.pose * (_ * _)
    rw [rigidOf_move h.pose htwist, mul_assoc]

/-- Readings take a reckoner along the motion that they describe. -/
theorem RealReckoner.foldlM (h : RealReckoner d) {readings : List (DriveReading Exact)}
    (hreadings : ∀ r ∈ readings, r.isFinite = true) :
    ∃ a, readings.foldlM DeadReckoner.update d = .ok a ∧
      rigidOf a.pose = rigidOf d.pose * travelled d.chassis d.baseline readings := by
  induction readings generalizing d with
  | nil => exact ⟨d, rfl, (mul_one _).symm⟩
  | cons r rest ih =>
    obtain ⟨a, ha, hreal, hgoes⟩ := h.update (hreadings r List.mem_cons_self)
    obtain ⟨b, hb, hlast⟩ := ih hreal fun s hs => hreadings s (List.mem_cons_of_mem r hs)
    refine ⟨b, ?_, hlast.trans (hgoes rest)⟩
    rw [List.foldlM_cons, ha]
    exact hb

/-! ## Displaced readings -/

/-- A reading with constants added to the gyro and to the distance of each wheel. -/
noncomputable def DriveReading.displaced (gyro : ℝ) (distances : Wheels ℝ) (r : DriveReading Exact) :
    DriveReading Exact :=
  ⟨r.gyro + real gyro, r.travel.zipWith (fun t k => ⟨t.distance + real k, t.angle⟩) distances⟩

variable (gyro : ℝ) (distances : Wheels ℝ)

theorem add_real_sub_add_real (a b : Exact) (k : ℝ) : a + real k - (b + real k) = a - b := by
  cases a with
  | real x => cases b with
    | real y => exact congrArg real (by ring)
    | _ => rfl
  | _ => cases b <;> rfl

theorem isFinite_add_real (a : Exact) (k : ℝ) :
    Scalar.isFinite (a + real k) = Scalar.isFinite a := by
  cases a <;> rfl

theorem isFinite_displaced (r : DriveReading Exact) :
    (DriveReading.displaced gyro distances r).isFinite = r.isFinite := by
  simp only [DriveReading.displaced, DriveReading.isFinite, isFinite_add_real, Wheels.zipWith,
    Wheels.toList, List.all_cons, WheelTravel.isFinite]

theorem motionBetween_displaced (c : Chassis Exact) (before now : DriveReading Exact) :
    DeadReckoner.motionBetween c (DriveReading.displaced gyro distances before)
        (DriveReading.displaced gyro distances now)
      = DeadReckoner.motionBetween c before now := by
  simp only [DeadReckoner.motionBetween, DriveReading.displaced, Wheels.zipWith,
    DeadReckoner.rolled, add_real_sub_add_real]

/-- A reckoner whose last reading is displaced. -/
noncomputable def rebased (d : DeadReckoner Exact) : DeadReckoner Exact :=
  { d with baseline := d.baseline.map (DriveReading.displaced gyro distances) }

theorem update_displaced (r : DriveReading Exact) :
    (rebased gyro distances d).update (DriveReading.displaced gyro distances r)
      = (d.update r).map (rebased gyro distances) := by
  unfold DeadReckoner.update
  rw [isFinite_displaced]
  split
  · rfl
  · unfold rebased
    cases d.baseline with
    | none => rfl
    | some before =>
      dsimp only [Option.map_some]
      rw [motionBetween_displaced]
      rfl

theorem foldlM_displaced (readings : List (DriveReading Exact)) :
    (readings.map (DriveReading.displaced gyro distances)).foldlM DeadReckoner.update
        (rebased gyro distances d)
      = (readings.foldlM DeadReckoner.update d).map (rebased gyro distances) := by
  induction readings generalizing d with
  | nil => rfl
  | cons r rest ih =>
    rw [List.map_cons, List.foldlM_cons, List.foldlM_cons, update_displaced]
    cases d.update r with
    | error e => rfl
    | ok a => exact ih

/-! ## Dead reckoning -/

/-- From any two real poses, a chassis that could be built takes in any finite
readings, and the motion from the first pose to the place it has reached is the same
for both. Constants added to the gyro and to the distances of the wheels do not
change the place. -/
theorem reckoning_rigid {offsets : Wheels (Vec2 Exact)} {chassis : Chassis Exact}
    (hchassis : Chassis.build offsets = .ok chassis) {p q : Pose Exact} (hp : p.isFinite = true)
    (hq : q.isFinite = true) {readings : List (DriveReading Exact)}
    (hreadings : ∀ r ∈ readings, r.isFinite = true) :
    ∃ a b, readings.foldlM DeadReckoner.update (.start chassis p) = .ok a ∧
      readings.foldlM DeadReckoner.update (.start chassis q) = .ok b ∧
      (rigidOf p)⁻¹ * rigidOf a.pose = (rigidOf q)⁻¹ * rigidOf b.pose ∧
      ∀ gyro distances, ∃ c,
        (readings.map (DriveReading.displaced gyro distances)).foldlM DeadReckoner.update
          (.start chassis p) = .ok c ∧ c.pose = a.pose := by
  obtain ⟨a, ha, hmotion⟩ := (realReckoner_start hchassis hp).foldlM hreadings
  obtain ⟨b, hb, hmotion'⟩ := (realReckoner_start hchassis hq).foldlM hreadings
  refine ⟨a, b, ha, hb, ?_, fun gyro distances => ⟨rebased gyro distances a, ?_, rfl⟩⟩
  · rw [hmotion, hmotion']
    show (rigidOf p)⁻¹ * (rigidOf p * travelled chassis none readings)
      = (rigidOf q)⁻¹ * (rigidOf q * travelled chassis none readings)
    rw [inv_mul_cancel_left, inv_mul_cancel_left]
  · have hdisplaced := foldlM_displaced (d := .start chassis p) gyro distances readings
    rw [ha] at hdisplaced
    exact hdisplaced

/-- A robot that starts elsewhere ends where the whole way is brought there with it. -/
theorem reckoning_rigid_sidewaysStart :
    let p : Pose Exact := ⟨point ⟨1, 2⟩, real (π / 2)⟩
    let readings : List (DriveReading Exact) :=
      [⟨real 3, .replicate ⟨real 5, real 0⟩⟩, ⟨real (3 + π), .replicate ⟨real 6, real 0⟩⟩]
    ∃ chassis a b, Chassis.build (scattered.map point) = .ok chassis ∧
      readings.foldlM DeadReckoner.update (.start chassis .origin) = .ok a ∧
      readings.foldlM DeadReckoner.update (.start chassis p) = .ok b ∧
      rigidOf b.pose = rigidOf p * rigidOf a.pose := by
  intro p readings
  have horigin : rigidOf .origin = 1 := by
    ext z
    show (0 : ℂ) + ((0 : ℝ) : Real.Angle).toCircle * z = z
    simp
  have hreadings : ∀ r ∈ readings, r.isFinite = true := by
    intro r hr
    simp only [readings, List.mem_cons, List.not_mem_nil, or_false] at hr
    rcases hr with rfl | rfl <;> rfl
  have hchassis := build_point apart_scattered
  obtain ⟨a, b, ha, hb, hmotion, -⟩ := reckoning_rigid hchassis (p := .origin) (q := p) rfl rfl hreadings
  refine ⟨_, a, b, hchassis, ha, hb, ?_⟩
  rw [horigin, inv_one, one_mul] at hmotion
  rw [hmotion, mul_inv_cancel_left]

end SwerveLocalization.Exact
