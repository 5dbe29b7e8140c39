import Mathlib
import SwerveLocalization.Field.Layout
import SwerveLocalization.Proofs.Exact.ComplexPlane
import SwerveLocalization.Proofs.Exact.Heading
import SwerveLocalization.Shot.Shooter

/-!
# Both sides of a field

The image of a field under its symmetry is the field again, and the vector from
a robot to a landmark is reflected or turned about with them. Main statement:
flipping twice changes nothing, and from the other side a robot finds its
landmark at the same distance, with the same shot, in the flipped direction. It
has to turn by as much as before, to the other side if the field is a
reflection.
-/

namespace SwerveLocalization.Exact

open Real Scalar ComplexConjugate

/-- A field of real size. -/
def fieldOf (length width : ℝ) (symmetry : Symmetry) (hub : Vec3 Exact) : Field Exact :=
  ⟨real length, real width, symmetry, hub⟩

/-- A landmark above a point of the floor. -/
def landmark (w : ℂ) (height : Exact) : Vec3 Exact := ⟨real w.re, real w.im, height⟩

/-- The image of a point of the floor. -/
noncomputable def mirror (length width : ℝ) : Symmetry → ℂ → ℂ
  | .reflected, z => length - conj z
  | .rotational, z => ⟨length, width⟩ - z

/-- The image of a vector of the floor. -/
noncomputable def mirrorVector : Symmetry → ℂ → ℂ
  | .reflected, d => -conj d
  | .rotational, d => -d

/-- The image of a direction. -/
noncomputable def mirrorAngle : Symmetry → Real.Angle → Real.Angle
  | .reflected, a => π - a
  | .rotational, a => a + π

variable {length width : ℝ} {symmetry : Symmetry} {hub : Vec3 Exact} (z w d : ℂ) (h : ℝ)

/-! ## Points and vectors -/

theorem mirror_mirror : mirror length width symmetry (mirror length width symmetry z) = z := by
  cases symmetry with
  | reflected => simp [mirror]
  | rotational => exact sub_sub_cancel _ _

theorem mirror_sub : mirror length width symmetry w - mirror length width symmetry z
    = mirrorVector symmetry (w - z) := by
  cases symmetry with
  | reflected =>
    simp only [mirror, mirrorVector, map_sub]
    ring
  | rotational =>
    simp only [mirror, mirrorVector]
    ring

theorem norm_mirrorVector : ‖mirrorVector symmetry d‖ = ‖d‖ := by
  cases symmetry with
  | reflected => rw [mirrorVector, norm_neg, Complex.norm_conj]
  | rotational => exact norm_neg d

theorem arg_mirrorVector {d : ℂ} (hd : d ≠ 0) :
    (Complex.arg (mirrorVector symmetry d) : Real.Angle) = mirrorAngle symmetry (Complex.arg d) := by
  cases symmetry with
  | reflected =>
    have hconj : conj d ≠ 0 := (map_ne_zero _).mpr hd
    rw [mirrorVector, mirrorAngle, Complex.arg_neg_coe_angle hconj, Complex.arg_conj_coe_angle]
    abel
  | rotational => exact Complex.arg_neg_coe_angle hd

theorem image_point : (fieldOf length width symmetry hub).image (point z)
    = point (mirror length width symmetry z) := by
  cases symmetry with
  | reflected => simp [Field.image, fieldOf, mirror, point]
  | rotational => rfl

/-! ## Directions -/

theorem mirrorAngle_mirrorAngle (a : Real.Angle) :
    mirrorAngle symmetry (mirrorAngle symmetry a) = a := by
  cases symmetry with
  | reflected => exact sub_sub_cancel _ _
  | rotational => rw [mirrorAngle, mirrorAngle, add_assoc, Angle.coe_pi_add_coe_pi, add_zero]

theorem wrap_imageHeading : Angle.wrap ((fieldOf length width symmetry hub).imageHeading (real h))
    = real (mirrorAngle symmetry h).toReal := by
  cases symmetry with
  | reflected =>
    show Angle.wrap (real (π - h)) = _
    rw [wrap_real, Angle.coe_sub]
    rfl
  | rotational =>
    show Angle.wrap (real (h + π)) = _
    rw [wrap_real, Angle.coe_add]
    rfl

/-! ## Flips -/

theorem flip_flip_point (a : Alliance) :
    (fieldOf length width symmetry hub).flip a
      ((fieldOf length width symmetry hub).flip a (point z)) = point z := by
  unfold Field.flip
  split
  · rw [image_point, image_point, mirror_mirror]
  · rfl

theorem flipPose_red : (fieldOf length width symmetry hub).flipPose .red ⟨point z, real h⟩
    = ⟨point (mirror length width symmetry z), real (mirrorAngle symmetry h).toReal⟩ :=
  congrArg₂ Pose.mk (image_point z) (wrap_imageHeading h)

theorem flipLandmark_red (height : Exact) :
    (fieldOf length width symmetry hub).flipLandmark .red (landmark w height)
      = landmark (mirror length width symmetry w) height :=
  congrArg (fun v : Vec2 Exact => Vec3.mk v.x v.y height) (image_point w)

theorem flipPose_of_ne_red {f : Field Exact} {a : Alliance} (ha : a ≠ .red) (p : Pose Exact) :
    f.flipPose a p = p := if_neg ha

theorem flipLandmark_of_ne_red {f : Field Exact} {a : Alliance} (ha : a ≠ .red) (q : Vec3 Exact) :
    f.flipLandmark a q = q :=
  congrArg (fun v : Vec2 Exact => Vec3.mk v.x v.y q.z) (if_neg ha)

theorem flipPose_flipPose {h : ℝ} (hlower : -π < h) (hupper : h ≤ π) (a : Alliance) :
    (fieldOf length width symmetry hub).flipPose a
      ((fieldOf length width symmetry hub).flipPose a ⟨point z, real h⟩) = ⟨point z, real h⟩ := by
  by_cases ha : a = .red
  · subst ha
    rw [flipPose_red, flipPose_red, mirror_mirror, Angle.coe_toReal, mirrorAngle_mirrorAngle,
      Angle.toReal_coe_eq_self_iff.mpr ⟨hlower, hupper⟩]
  · rw [flipPose_of_ne_red ha, flipPose_of_ne_red ha]

/-- The field is its own image. -/
theorem contains_flip (a : Alliance) :
    (fieldOf length width symmetry hub).contains
        ((fieldOf length width symmetry hub).flip a (point z))
      = (fieldOf length width symmetry hub).contains (point z) := by
  have hside : ∀ size x : ℝ, isWithin (0 : Exact) (real size) (real (size - x))
      = isWithin (0 : Exact) (real size) (real x) := by
    intro size x
    simp only [isWithin, zero_eq, real_le_real, sub_nonneg, sub_le_self_iff, Bool.and_comm]
  unfold Field.flip
  split
  · cases symmetry with
    | reflected => exact congrArg (· && _) (hside length z.re)
    | rotational => exact congrArg₂ (· && ·) (hside length z.re) (hside width z.im)
  · rfl

/-! ## Aiming -/

theorem toward_landmark (height : Exact) :
    Aim.toward ⟨point z, real h⟩ (landmark w height) = point (w - z) := point_sub w z

theorem headingError_landmark (height : Exact) :
    Aim.headingError ⟨point z, real h⟩ (landmark w height)
      = real ((Complex.arg (w - z) : Real.Angle) - h).toReal := by
  show Angle.wrap ((Aim.toward ⟨point z, real h⟩ (landmark w height)).direction - real h) = _
  rw [toward_landmark, direction_point, real_sub_real, wrap_real, Angle.coe_sub]

theorem distance_flip (height : Exact) (a : Alliance) :
    Aim.distance ((fieldOf length width symmetry hub).flipPose a ⟨point z, real h⟩)
        ((fieldOf length width symmetry hub).flipLandmark a (landmark w height))
      = Aim.distance ⟨point z, real h⟩ (landmark w height) := by
  by_cases ha : a = .red
  · subst ha
    unfold Aim.distance
    rw [flipPose_red, flipLandmark_red, toward_landmark, toward_landmark, norm_point, norm_point,
      mirror_sub, norm_mirrorVector]
  · rw [flipPose_of_ne_red ha, flipLandmark_of_ne_red ha]

theorem bearing_flip {z w : ℂ} (hzw : z ≠ w) (height : Exact) :
    Aim.bearing ((fieldOf length width symmetry hub).flipPose .red ⟨point z, real h⟩)
        ((fieldOf length width symmetry hub).flipLandmark .red (landmark w height))
      = ((fieldOf length width symmetry hub).flipPose .red
          ⟨point z, Aim.bearing ⟨point z, real h⟩ (landmark w height)⟩).heading := by
  have hd : w - z ≠ 0 := sub_ne_zero.mpr hzw.symm
  unfold Aim.bearing
  rw [flipPose_red, flipLandmark_red, toward_landmark, toward_landmark, direction_point,
    direction_point, flipPose_red, mirror_sub, ← arg_mirrorVector hd,
    Complex.arg_coe_angle_toReal_eq_arg]

theorem headingError_flip (height : Exact) {z w : ℂ} (hzw : z ≠ w) :
    Aim.headingError ((fieldOf length width symmetry hub).flipPose .red ⟨point z, real h⟩)
        ((fieldOf length width symmetry hub).flipLandmark .red (landmark w height))
      = real (mirrorAngle symmetry (Complex.arg (w - z)) - mirrorAngle symmetry h).toReal := by
  have hd : w - z ≠ 0 := sub_ne_zero.mpr hzw.symm
  rw [flipPose_red, flipLandmark_red, headingError_landmark, mirror_sub, arg_mirrorVector hd,
    Angle.coe_toReal]

/-- How turns go over to the other side of a field. -/
def TurnsAlike : Symmetry → Exact → Exact → Prop
  | .reflected, x, x' => ∃ e e' : ℝ, x = real e ∧ x' = real e' ∧ (e' : Real.Angle) = -(e : Real.Angle)
  | .rotational, x, x' => x' = x

theorem turnsAlike_headingError (height : Exact) {z w : ℂ} (hzw : z ≠ w) :
    TurnsAlike symmetry (Aim.headingError ⟨point z, real h⟩ (landmark w height))
      (Aim.headingError ((fieldOf length width symmetry hub).flipPose .red ⟨point z, real h⟩)
        ((fieldOf length width symmetry hub).flipLandmark .red (landmark w height))) := by
  rw [headingError_flip h height hzw, headingError_landmark]
  cases symmetry with
  | reflected =>
    refine ⟨_, _, rfl, rfl, ?_⟩
    rw [Angle.coe_toReal, Angle.coe_toReal, mirrorAngle, mirrorAngle]
    abel
  | rotational =>
    show real _ = real _
    rw [mirrorAngle, mirrorAngle, add_sub_add_right_eq_sub]

/-- On a field of any size and either symmetry, flipping twice changes no point, no
landmark and no pose, and a point is on the field just if its image is. A robot
and a landmark that are flipped together are as far apart as before, and every
shooter takes the same shot. Seen from red, the landmark lies in the direction to
which the flip takes the direction seen before, and the robot has to turn by the
same angle, or by the opposite one if the field is reflected. -/
theorem aim_flip (length width : ℝ) (symmetry : Symmetry) (hub : Vec3 Exact) (a : Alliance) :
    let f := fieldOf length width symmetry hub
    (∀ z, f.flip a (f.flip a (point z)) = point z) ∧
    (∀ w height, f.flipLandmark a (f.flipLandmark a (landmark w height)) = landmark w height) ∧
    (∀ z, f.contains (f.flip a (point z)) = f.contains (point z)) ∧
    ∀ z h w height, -π < h → h ≤ π →
      let p : Pose Exact := ⟨point z, real h⟩
      let q := landmark w height
      let p' := f.flipPose a p
      let q' := f.flipLandmark a q
      f.flipPose a p' = p ∧ Aim.distance p' q' = Aim.distance p q ∧
      (∀ s : Shooter Exact, (s.shotAt p' q').distance = (s.shotAt p q).distance ∧
        (s.shotAt p' q').flywheel = (s.shotAt p q).flywheel ∧
        (s.shotAt p' q').inRange = (s.shotAt p q).inRange) ∧
      (a = .red → z ≠ w →
        Aim.bearing p' q' = (f.flipPose a ⟨p.position, Aim.bearing p q⟩).heading ∧
        TurnsAlike symmetry (Aim.headingError p q) (Aim.headingError p' q')) := by
  intro f
  refine ⟨?_, ?_, ?_, ?_⟩
  · exact fun z => flip_flip_point z a
  · intro w height
    by_cases ha : a = .red
    · subst ha
      rw [flipLandmark_red, flipLandmark_red, mirror_mirror]
    · rw [flipLandmark_of_ne_red ha, flipLandmark_of_ne_red ha]
  · exact fun z => contains_flip z a
  · intro z h w height hlower hupper p q p' q'
    have hdistance : Aim.distance p' q' = Aim.distance p q := distance_flip z w h height a
    refine ⟨flipPose_flipPose z hlower hupper a, hdistance, ?_, ?_⟩
    · exact fun s => ⟨hdistance, congrArg s.flywheelFor hdistance, congrArg s.isInRange hdistance⟩
    · rintro rfl hzw
      exact ⟨bearing_flip h hzw height, turnsAlike_headingError h height hzw⟩

/-- A robot that looks along its own side, with its back to a landmark straight
across the field. -/
theorem aim_flip_landmarkBehind :
    let f := fieldOf 16 8 .reflected ⟨real 4, real 4, real 2⟩
    let p : Pose Exact := ⟨point ⟨5, 1⟩, real (-(π / 2))⟩
    let q := landmark ⟨5, 4⟩ (real 2)
    Aim.distance (f.flipPose .red p) (f.flipLandmark .red q) = real 3 ∧
      Aim.headingError p q = real π ∧
      ∃ e' : ℝ, Aim.headingError (f.flipPose .red p) (f.flipLandmark .red q) = real e' ∧
        (e' : Real.Angle) = -(π : Real.Angle) := by
  intro f p q
  have hahead : (⟨5, 4⟩ - ⟨5, 1⟩ : ℂ) = (3 : ℝ) * Complex.I := by
    apply Complex.ext <;> norm_num
  have hdistance : Aim.distance p q = real 3 := by
    show (Aim.toward p q).norm = _
    rw [toward_landmark, norm_point, hahead]
    simp
  have herror : Aim.headingError p q = real π := by
    rw [headingError_landmark, hahead, Complex.arg_real_mul _ (by norm_num), Complex.arg_I,
      ← Angle.coe_sub, sub_neg_eq_add, add_halves, Angle.toReal_pi]
  have hpi := pi_pos
  obtain ⟨-, hsame, -, hturn⟩ := (aim_flip 16 8 .reflected ⟨real 4, real 4, real 2⟩ .red).2.2.2
    ⟨5, 1⟩ (-(π / 2)) ⟨5, 4⟩ (real 2) (by linarith) (by linarith)
  obtain ⟨-, e, e', he, he', hopposite⟩ := hturn rfl (by simp)
  refine ⟨hsame.trans hdistance, herror, e', he', ?_⟩
  obtain rfl : e = π := real.inj (he.symm.trans herror)
  exact hopposite

end SwerveLocalization.Exact
