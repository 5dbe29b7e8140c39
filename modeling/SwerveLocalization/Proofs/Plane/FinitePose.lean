import Mathlib
import SwerveLocalization.Plane.Pose
import SwerveLocalization.Proofs.Binary64.Wrapping

/-!
# Poses that stay finite

Every operation on poses wraps the heading it finds, and a wrapped heading is
small. So a heading can be turned by any finite angle, and can be displaced or
blended with another heading without ever leaving the finite numbers. What can
overflow is a position.
-/

namespace SwerveLocalization.Pose

open Binary64

/-- Whether a pose is finite and, as in every pose that is made, its heading
wrapped. -/
structure IsProper (p : Pose Float) : Prop where
  position : p.position.isFinite = true
  heading : IsHeading p.heading

variable {p q : Pose Float} {v : Vec2 Float} {angle t : Float}

theorem isFinite_iff :
    p.isFinite = true ↔ p.position.isFinite = true ∧ p.heading.isFinite = true := by
  rw [isFinite, Bool.and_eq_true]
  rfl

theorem IsProper.isFinite (hp : p.IsProper) : p.isFinite = true :=
  isFinite_iff.mpr ⟨hp.position, hp.heading.1⟩

/-- What is made with a finite heading has a wrapped one. -/
theorem isHeading_make (h : (make v angle).heading.isFinite = true) :
    IsHeading (make v angle).heading :=
  isHeading_wrap (isFinite_of_wrap h)

theorem isFinite_make_iff :
    (make v angle).isFinite = true ↔ (make v angle).position.isFinite = true ∧
      angle.isFinite = true := by
  rw [isFinite_iff]
  constructor
  · rintro ⟨hposition, hheading⟩
    exact ⟨hposition, isFinite_of_wrap hheading⟩
  · rintro ⟨hposition, hangle⟩
    exact ⟨hposition, (isHeading_wrap hangle).1⟩

/-- A motion leads from a wrapped heading to a finite pose unless the turn or
the position is not finite. -/
theorem isFinite_move_iff (hp : IsHeading p.heading) {m : Twist Float} :
    (p.move m).isFinite = true ↔ (p.move m).position.isFinite = true ∧
      m.dtheta.isFinite = true := by
  unfold move
  rw [isFinite_make_iff]
  refine and_congr_right fun _ => ?_
  constructor
  · intro h
    exact (isFinite_of_add h).2
  · intro h
    exact hp.isFinite_add h

/-- A position that is no number is not moved to one that is finite. -/
theorem isFinite_of_move {m : Twist Float} (h : (p.move m).isFinite = true) :
    p.isFinite = true := by
  obtain ⟨hposition, hheading⟩ := isFinite_make_iff.mp h
  obtain ⟨hx, hy⟩ := (Bool.and_eq_true _ _).mp hposition
  refine isFinite_iff.mpr ⟨(Bool.and_eq_true _ _).mpr ⟨?_, ?_⟩, (isFinite_of_add hheading).1⟩
  · exact (isFinite_of_add hx).1
  · exact (isFinite_of_add hy).1

/-- A motion that is no number leads to no position. -/
theorem isNaN_position_move {m : Twist Float} (hm : m.dx.isNaN = true) :
    (p.move m).position.x.isNaN = true := by
  have hchord : (m.dx * chordRatio m.dtheta).isNaN = true := isNaN_mul (.inl hm)
  have hrotated := isNaN_mul (x := Scalar.cos (p.heading + m.dtheta / 2.0)) (.inr hchord)
  exact isNaN_add (.inr (isNaN_sub (.inl hrotated)))

/-- A shift by a small angle leads to a finite pose if the position it leads
to is finite. -/
theorem isFinite_shift (hp : p.heading.isFinite = true) {d : Shift Float}
    (hd : d.dtheta.isFinite = true) (hsmall : |real d.dtheta| < 1 / 2 * unit)
    (hposition : (p.shift d).position.isFinite = true) : (p.shift d).isFinite = true :=
  isFinite_make_iff.mpr ⟨hposition, isFinite_add hp hd hsmall⟩

theorem isNaN_position_blend (ht : t.isNaN = true) : (p.blend q t).position.x.isNaN = true := by
  have hproduct : (t * q.position.x).isNaN = true := isNaN_mul (.inl ht)
  simp only [blend, make, Vec2.blend]
  split_ifs
  · exact hproduct
  · exact isNaN_add (.inl hproduct)

theorem not_isFinite_of_isNaN (hp : p.position.x.isNaN = true) : ¬ p.position.isFinite = true := by
  intro h
  have hx : p.position.x.isFinite = true := ((Bool.and_eq_true _ _).mp h).1
  rw [((Binary64.isFinite_iff _).mp hx).1] at hp
  contradiction

theorem isHeading_blend (hp : IsHeading p.heading) (hq : IsHeading q.heading) (ht : IsFraction t) :
    IsHeading (p.blend q t).heading :=
  isHeading_wrap (Binary64.isHeading_blend hp hq ht).1

end SwerveLocalization.Pose
