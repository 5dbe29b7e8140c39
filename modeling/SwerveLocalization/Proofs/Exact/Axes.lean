import Mathlib
import SwerveLocalization.Proofs.Exact.Interpolation

/-!
# The axes of a pose

A pose has three axes, two of its position and the heading, and most of what an
estimator does it does on each of them alone. How far one pose is from another on
an axis is a real number, for headings the turn the short way. A camera pose pulls on
each axis by its trust in that axis, and a shift along the axes takes its own part
off the gap on each of them.
-/

namespace SwerveLocalization.Exact

open Real Scalar

/-- What a pose consists of. -/
inductive Axis
  | x
  | y
  | heading
deriving DecidableEq

namespace Axis

/-- What a pose has on an axis. -/
def component (p : Pose Exact) : Axis → Exact
  | x => p.position.x
  | y => p.position.y
  | heading => p.heading

/-- The deviation of an axis. -/
def deviation (σ : Vec3 Exact) : Axis → Exact
  | x => σ.x
  | y => σ.y
  | heading => σ.z

/-- How far it is from `p` to `q` on an axis. -/
noncomputable def gap (p q : Pose Exact) : Axis → ℝ
  | x => toReal q.position.x - toReal p.position.x
  | y => toReal q.position.y - toReal p.position.y
  | heading => shortTurn p q

end Axis

/-- The shift by a distance for each axis. -/
def byAxis (d : Axis → ℝ) : Shift Exact := offset (d .x) (d .y) (d .heading)

variable {axis : Axis} {p q : Pose Exact} {d : Axis → ℝ} {m : PoseMeasurement Exact}

theorem deviation_pos (h : m.hasUsableDeviations = true) (axis : Axis) :
    0 < axis.deviation m.deviations := by
  obtain ⟨hx, hy, hz⟩ := deviations_pos h
  cases axis with
  | x => exact hx
  | y => exact hy
  | heading => exact hz

/-- The gaps between two real poses are their difference. -/
theorem difference_eq (hp : p.isFinite = true) (hq : q.isFinite = true) :
    q.difference p = byAxis (Axis.gap p q) := by
  simp only [Pose.isFinite, Vec2.isFinite, Bool.and_eq_true] at hp hq
  have hgap : ∀ {a b : Exact}, Scalar.isFinite a = true → Scalar.isFinite b = true →
      b - a = real (toReal b - toReal a) := by
    intro a b ha hb
    rw [← real_sub_real, real_toReal ha, real_toReal hb]
  unfold Pose.difference Angle.turn
  rw [hgap hp.1.1 hq.1.1, hgap hp.1.2 hq.1.2, hgap hp.2 hq.2, wrap_real]
  rfl

/-! ## Shifts along the axes -/

/-- A shift that does nothing on an axis leaves it alone. -/
theorem component_shift_of_eq_zero (hp : Wrapped p) (hd : d axis = 0) :
    axis.component (p.shift (byAxis d)) = axis.component p := by
  have hrest := congrArg (fun q : Pose Exact => axis.component q) (shift_zero p hp)
  cases axis with
  | x =>
    show p.position.x + real (d .x) = p.position.x
    rw [hd]
    exact hrest
  | y =>
    show p.position.y + real (d .y) = p.position.y
    rw [hd]
    exact hrest
  | heading =>
    show Angle.wrap (p.heading + real (d .heading)) = p.heading
    rw [hd]
    exact hrest

/-- What a shift of a real pose makes of it. -/
theorem shift_byAxis (hp : p.isFinite = true) (d : Axis → ℝ) :
    p.shift (byAxis d) = ⟨⟨real (toReal p.position.x + d .x), real (toReal p.position.y + d .y)⟩,
      real ((toReal p.heading + d .heading : ℝ) : Real.Angle).toReal⟩ := by
  simp only [Pose.isFinite, Vec2.isFinite, Bool.and_eq_true] at hp
  unfold byAxis
  rw [shift_eq, ← wrap_real, ← real_add_real, ← real_add_real, ← real_add_real, real_toReal hp.1.1,
    real_toReal hp.1.2, real_toReal hp.2]

/-- A shift takes its part off the difference to any other pose. -/
theorem difference_of_shift (hp : p.isFinite = true) (hq : q.isFinite = true)
    (hturn : -π < shortTurn p q - d .heading ∧ shortTurn p q - d .heading ≤ π) :
    q.difference (p.shift (byAxis d)) = byAxis fun axis => axis.gap p q - d axis := by
  have hleft : ((toReal q.heading - ((toReal p.heading + d .heading : ℝ) : Real.Angle).toReal : ℝ)
      : Real.Angle) = (shortTurn p q - d .heading : ℝ) := by
    rw [Angle.coe_sub, Angle.coe_toReal, Angle.coe_sub, coe_shortTurn, Angle.coe_sub,
      Angle.coe_add, sub_sub]
  have hgap : Axis.gap (p.shift (byAxis d)) q = fun axis => axis.gap p q - d axis := by
    funext axis
    rw [shift_byAxis hp]
    cases axis with
    | x => exact (sub_sub _ _ _).symm
    | y => exact (sub_sub _ _ _).symm
    | heading =>
      show ((_ : ℝ) : Real.Angle).toReal = _
      rw [toReal_real, hleft]
      exact Angle.toReal_coe_eq_self_iff.mpr hturn
  have hreal : (p.shift (byAxis d)).isFinite = true := isFinite_shift hp _ _ _
  rw [difference_eq hreal hq, hgap]

/-! ## What a camera pose asks for -/

/-- By how much a camera pose pulls an estimate that is at `past`. -/
noncomputable def pull (m : PoseMeasurement Exact) (past : Pose Exact) (axis : Axis) : ℝ :=
  weight (axis.deviation m.deviations) * axis.gap past m.pose

theorem correctionOf_eq (hfinite : m.isFinite = true) (husable : m.hasUsableDeviations = true)
    {past : Pose Exact} (hpast : past.isFinite = true) :
    m.correctionOf past = byAxis (pull m past) := by
  simp only [PoseMeasurement.isFinite, Bool.and_eq_true] at hfinite
  obtain ⟨hx, hy, hz⟩ := deviations_pos husable
  unfold PoseMeasurement.correctionOf
  rw [trust_eq hx, trust_eq hy, trust_eq hz, difference_eq hpast hfinite.1]
  rfl

/-- An infinite deviation is not pulled at. -/
theorem pull_eq_zero {past : Pose Exact}
    (h : Scalar.isInfinite (axis.deviation m.deviations) = true) : pull m past axis = 0 := by
  unfold pull
  cases hσ : axis.deviation m.deviations with
  | real x =>
    rw [hσ] at h
    contradiction
  | posInf => exact zero_mul _
  | negInf => exact zero_mul _
  | nan => exact zero_mul _

end SwerveLocalization.Exact
