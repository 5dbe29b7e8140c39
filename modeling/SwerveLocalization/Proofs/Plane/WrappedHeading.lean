import Mathlib
import SwerveLocalization.Field.Layout
import SwerveLocalization.Proofs.Binary64.Library
import SwerveLocalization.Proofs.Binary64.Wrapping
import SwerveLocalization.Proofs.Exact.Heading

/-!
# One value for one orientation

A heading is stored in the half-open interval from `-π` to `π`, so that two poses
of one orientation can be compared by their numbers. Main statement: in binary64
every finite angle is wrapped into this interval, where it stays as it is when it is
wrapped again; so is the heading of every pose that is made, and a pose can be
rebuilt from the vector of its numbers. Without rounding, two angles are wrapped to
one value exactly when they differ by whole turns.
-/

namespace SwerveLocalization

open Binary64
open Scalar (pi)

/-- Whether a number lies in the interval of the headings. -/
def Angle.InInterval {α : Type} [Scalar α] (x : α) : Prop := -pi < x ∧ x ≤ pi

/-! ## Poses in binary64 -/

section Poses

variable {f : MathLibrary}

/-- The poses that are made. What they are made from is arbitrary, as long as the
heading is finite before it is wrapped. -/
inductive Pose.Made : Pose f.Number → Prop
  | origin : Made origin
  | make (v : Vec2 f.Number) {angle : f.Number} (h : Scalar.isFinite angle = true) :
      Made (make v angle)
  | move (p : Pose f.Number) {m : Twist f.Number}
      (h : Scalar.isFinite (p.heading + m.dtheta) = true) : Made (p.move m)
  | shift (p : Pose f.Number) {d : Shift f.Number}
      (h : Scalar.isFinite (p.heading + d.dtheta) = true) : Made (p.shift d)
  | blend (p q : Pose f.Number) {t : f.Number}
      (h : Scalar.isFinite (p.heading + Angle.turn q.heading p.heading * t) = true) :
      Made (p.blend q t)
  | flip (g : Field f.Number) (a : Alliance) {p : Pose f.Number} (hp : Made p) :
      Made (g.flipPose a p)

theorem Angle.inInterval_iff {x : f.Number} : InInterval x ↔ IsHeading x := isHeading_iff.symm

/-- The image of a heading is not yet wrapped, but finite. -/
theorem isFinite_imageHeading (g : Field f.Number) {h : f.Number} (hh : IsHeading h) :
    Scalar.isFinite (g.imageHeading h) = true := by
  unfold Field.imageHeading
  cases g.symmetry with
  | reflected => exact isFinite_sub isFinite_halfTurn hh.1 hh.abs_lt_unit
  | rotational => exact hh.isFinite_add isFinite_halfTurn

theorem Pose.Made.isHeading {p : Pose f.Number} (hp : p.Made) : IsHeading p.heading := by
  induction hp with
  | origin =>
    have horigin : -halfTurn < 0 ∧ 0 ≤ halfTurn := by decide +kernel
    exact isHeading_iff.mpr horigin
  | make v h => exact isHeading_wrap h
  | move p h => exact isHeading_wrap h
  | shift p h => exact isHeading_wrap h
  | blend p q h => exact isHeading_wrap (isHeading_wrap h).1
  | flip g a hp ih =>
    unfold Field.flipPose
    split_ifs
    · exact isHeading_wrap (isFinite_imageHeading g ih)
    · exact ih

theorem Pose.ofVec3_toVec3 {p : Pose f.Number} (hp : IsHeading p.heading) :
    ofVec3 p.toVec3 = p :=
  congrArg (Pose.mk p.position) (wrap_of_isHeading hp)

end Poses

/-! ## Without rounding -/

namespace Exact

variable {a b r : ℝ}

theorem modEq_iff : a ≡ b [PMOD 2 * Real.pi] ↔ (a : Real.Angle) = b :=
  AddCommGroup.modEq_iff_eq_mod_zmultiples

/-- Whether `r` is the heading of the orientation that `a` has. -/
structure IsHeadingOf (a r : ℝ) : Prop where
  lower : -Real.pi < r
  upper : r ≤ Real.pi
  congruent : r ≡ a [PMOD 2 * Real.pi]

theorem isHeadingOf_iff : IsHeadingOf a r ↔ r = (a : Real.Angle).toReal := by
  constructor
  · rintro ⟨hlower, hupper, hcongruent⟩
    rw [← modEq_iff.mp hcongruent]
    exact (Real.Angle.toReal_coe_eq_self_iff.mpr ⟨hlower, hupper⟩).symm
  · rintro rfl
    exact ⟨Real.Angle.neg_pi_lt_toReal _, Real.Angle.toReal_le_pi _,
      modEq_iff.mpr (Real.Angle.coe_toReal _)⟩

theorem wrap_eq_wrap_iff :
    Angle.wrap (real a) = Angle.wrap (real b) ↔ a ≡ b [PMOD 2 * Real.pi] := by
  rw [wrap_real, wrap_real, real.injEq, Real.Angle.toReal_inj, modEq_iff]

end Exact

/-- Wrapping brings every finite angle into the interval of the headings and leaves it there.
So the heading of a pose that is made lies in the interval, and the pose is determined by its
vector. Without rounding, the wrapped angle is the only one of its orientation there. -/
theorem wrap_normalises (f : MathLibrary) :
    (∀ a : f.Number, Scalar.isFinite a = true →
        Scalar.isFinite (Angle.wrap a) = true ∧ Angle.InInterval (Angle.wrap a) ∧
          Angle.wrap (Angle.wrap a) = Angle.wrap a) ∧
      (∀ p : Pose f.Number, p.Made → Angle.InInterval p.heading ∧ Pose.ofVec3 p.toVec3 = p) ∧
      (∀ a : ℝ, ∃ r, Angle.wrap (Exact.real a) = Exact.real r ∧ Exact.IsHeadingOf a r ∧
        ∀ s, Exact.IsHeadingOf a s → s = r) ∧
      ∀ a b : ℝ, Angle.wrap (Exact.real a) = Angle.wrap (Exact.real b) ↔
        a ≡ b [PMOD 2 * Real.pi] := by
  refine ⟨fun a ha => ?_, fun p hp => ?_, fun a => ?_, fun a b => Exact.wrap_eq_wrap_iff⟩
  · have hheading : IsHeading (Angle.wrap a) := isHeading_wrap ha
    exact ⟨hheading.1, Angle.inInterval_iff.mpr hheading, wrap_of_isHeading hheading⟩
  · exact ⟨Angle.inInterval_iff.mpr hp.isHeading, Pose.ofVec3_toVec3 hp.isHeading⟩
  · exact ⟨_, Exact.wrap_real a, Exact.isHeadingOf_iff.mpr rfl, fun s => Exact.isHeadingOf_iff.mp⟩

/-- An angle of very many turns, the pose that is made with it as the other alliance sees it, and
half a turn to either side. -/
theorem wrap_normalises_manyTurns :
    let angle : MathLibrary.tabulated.Number := (1e300 : Float)
    let p := Field.standard.flipPose .red (.make ⟨angle, angle⟩ angle)
    Angle.InInterval (Angle.wrap angle) ∧ Angle.InInterval p.heading ∧ Pose.ofVec3 p.toVec3 = p ∧
      Angle.wrap (Exact.real (-Real.pi)) = Angle.wrap (Exact.real Real.pi) := by
  intro angle p
  obtain ⟨hwrap, hmade, -, hequal⟩ := wrap_normalises MathLibrary.tabulated
  have hfinite : Scalar.isFinite angle = true := by decide +kernel
  have hp : p.Made := .flip _ _ (.make _ hfinite)
  have hturn : -Real.pi ≡ Real.pi [PMOD 2 * Real.pi] :=
    AddCommGroup.modEq_iff_zsmul.mpr ⟨1, by ring⟩
  exact ⟨(hwrap angle hfinite).2.1, (hmade p hp).1, (hmade p hp).2, (hequal _ _).mpr hturn⟩

end SwerveLocalization
