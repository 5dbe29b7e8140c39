import Mathlib
import SwerveLocalization.Proofs.Exact.Axes
import SwerveLocalization.Proofs.Exact.FieldSymmetry
import SwerveLocalization.Proofs.Plane.WrappedHeading

/-!
# The short way round

A turn is a representative of a difference of angles, and a blend adds a part of a
turn. Main statement: without rounding no other representative is shorter, so a turn
by the heading error makes the robot face its landmark, and the difference of two
poses takes one onto the other. A blend divides the short turn in proportion, in
either direction and wherever the seam of the angles lies; only between opposite
headings, where both ways are equally long, does the direction matter.
-/

namespace SwerveLocalization.Exact

open Real Scalar

/-- Numbers that differ by whole turns. -/
inductive SameDirection : Exact → Exact → Prop
  | congruent {a b : ℝ} (h : a ≡ b [PMOD 2 * π]) : SameDirection (real a) (real b)

variable {a b a' b' c s t : ℝ} {p q : Pose Exact}

/-! ## Turns -/

/-- The turn from `a` to `b`, the short way. -/
noncomputable def turnTo (a b : ℝ) : ℝ := ((b - a : ℝ) : Real.Angle).toReal

theorem turn_real (a b : ℝ) : Angle.turn (real b) (real a) = real (turnTo a b) := wrap_real (b - a)

theorem coe_turnTo (a b : ℝ) : (turnTo a b : Real.Angle) = (b - a : ℝ) := Angle.coe_toReal _

theorem turnTo_mem (a b : ℝ) : -π < turnTo a b ∧ turnTo a b ≤ π :=
  ⟨Angle.neg_pi_lt_toReal _, Angle.toReal_le_pi _⟩

/-- No representative of an angle is closer to zero than the one in the interval. -/
theorem abs_toReal_le_abs (s : ℝ) : |(s : Real.Angle).toReal| ≤ |s| := by
  by_cases hs : -π < s ∧ s ≤ π
  · rw [Angle.toReal_coe_eq_self_iff.mpr hs]
  · refine (Angle.abs_toReal_le_pi _).trans (le_abs.mpr ?_)
    rcases not_and_or.mp hs with h | h
    · exact .inr (by linarith)
    · exact .inl (by linarith)

theorem turnTo_shortest (h : s ≡ b - a [PMOD 2 * π]) : |turnTo a b| ≤ |s| := by
  unfold turnTo
  rw [← modEq_iff.mp h]
  exact abs_toReal_le_abs s

/-- Two headings half a turn apart are half a turn apart as numbers, since neither of
them is `-π`. -/
theorem abs_sub_eq_pi (ha : a ∈ Set.Ioc (-π) π) (hb : b ∈ Set.Ioc (-π) π)
    (h : ((b - a : ℝ) : Real.Angle) = π) : |a - b| = π := by
  obtain ⟨k, hk⟩ := Angle.angle_eq_iff_two_pi_dvd_sub.mp h
  obtain ⟨halower, haupper⟩ := ha
  obtain ⟨hblower, hbupper⟩ := hb
  have hpi := pi_pos
  -- the numbers differ by less than two turns, so there is one candidate on either side
  have hlower : -2 < k := by
    have hreal : (-2 : ℝ) < k := by nlinarith
    exact_mod_cast hreal
  have hupper : k < 1 := by
    have hreal : (k : ℝ) < 1 := by nlinarith
    exact_mod_cast hreal
  rw [abs_eq hpi.le]
  obtain rfl | rfl : k = -1 ∨ k = 0 := by omega
  · left
    push_cast at hk
    linarith
  · right
    push_cast at hk
    linarith

/-- The way back is as long and leads to the other side, except between opposite headings. -/
theorem turnTo_swap (ha : a ∈ Set.Ioc (-π) π) (hb : b ∈ Set.Ioc (-π) π) (h : |a - b| ≠ π) :
    turnTo b a = -turnTo a b := by
  unfold turnTo
  rw [← neg_sub b a, Angle.coe_neg]
  exact Angle.toReal_neg_eq_neg_toReal_iff.mpr (mt (abs_sub_eq_pi ha hb) h)

/-! ## Blends -/

theorem blend_real (a b t : ℝ) : Angle.blend (real a) (real b) (real t)
    = real ((a + turnTo a b * t : ℝ) : Real.Angle).toReal := by
  unfold SwerveLocalization.Angle.blend
  rw [turn_real, real_mul_real, real_add_real, wrap_real]

theorem toReal_of_mem (ha : a ∈ Set.Ioc (-π) π) : (a : Real.Angle).toReal = a :=
  Angle.toReal_coe_eq_self_iff.mpr ha

theorem blend_start (ha : a ∈ Set.Ioc (-π) π) (b : ℝ) :
    Angle.blend (real a) (real b) (real 0) = real a := by
  rw [blend_real, mul_zero, add_zero, toReal_of_mem ha]

theorem blend_finish (a : ℝ) (hb : b ∈ Set.Ioc (-π) π) :
    Angle.blend (real a) (real b) (real 1) = real b := by
  rw [blend_real, mul_one, Angle.coe_add, coe_turnTo, ← Angle.coe_add, add_sub_cancel,
    toReal_of_mem hb]

/-- From the start to a blend it is a part of the whole turn, and so the short way. -/
theorem turn_blend (ht : t ∈ Set.Icc (0 : ℝ) 1) (a b : ℝ) :
    Angle.turn (Angle.blend (real a) (real b) (real t)) (real a)
      = real t * Angle.turn (real b) (real a) := by
  have hpart : turnTo a b * t ∈ Set.Ioc (-π) π := by
    rw [mul_comm]
    exact part_mem ht.1 ht.2 (turnTo_mem a b)
  have hturn : turnTo a ((a + turnTo a b * t : ℝ) : Real.Angle).toReal = turnTo a b * t := by
    rw [turnTo, Angle.coe_sub, Angle.coe_toReal, Angle.coe_add, add_sub_cancel_left,
      toReal_of_mem hpart]
  rw [blend_real, turn_real, turn_real, real_mul_real, hturn, mul_comm]

theorem blend_swap (ha : a ∈ Set.Ioc (-π) π) (hb : b ∈ Set.Ioc (-π) π) (h : |a - b| ≠ π) (t : ℝ) :
    Angle.blend (real a) (real b) (real t) = Angle.blend (real b) (real a) (real (1 - t)) := by
  have hway : b + turnTo b a * (1 - t) = b - turnTo a b + turnTo a b * t := by
    rw [turnTo_swap ha hb h]
    ring
  rw [blend_real, blend_real, hway, Angle.coe_add, Angle.coe_add, Angle.coe_sub, coe_turnTo,
    Angle.coe_sub, sub_sub_cancel]

/-- Ends that are turned by one angle, wrapped or not, have the blend turned by it. -/
theorem blend_sameDirection (ha : a' ≡ a + c [PMOD 2 * π]) (hb : b' ≡ b + c [PMOD 2 * π]) (t : ℝ) :
    SameDirection (Angle.blend (real a') (real b') (real t))
      (Angle.blend (real a) (real b) (real t) + real c) := by
  rw [modEq_iff] at ha hb
  have hturn : turnTo a' b' = turnTo a b := by
    unfold turnTo
    rw [Angle.coe_sub, ha, hb, ← Angle.coe_sub, add_sub_add_right_eq_sub]
  rw [blend_real, blend_real, real_add_real, hturn]
  refine .congruent (modEq_iff.mpr ?_)
  calc (((a' + turnTo a b * t : ℝ) : Real.Angle).toReal : Real.Angle)
      = a' + (turnTo a b * t : ℝ) := by rw [Angle.coe_toReal, Angle.coe_add]
    _ = a + (turnTo a b * t : ℝ) + c := by rw [ha, Angle.coe_add, add_right_comm]
    _ = (((a + turnTo a b * t : ℝ) : Real.Angle).toReal + c : ℝ) := by
      rw [Angle.coe_add, Angle.coe_toReal, Angle.coe_add]

/-! ## Poses -/

theorem bearing_landmark (z w : ℂ) (h : ℝ) (height : Exact) :
    Aim.bearing ⟨point z, real h⟩ (landmark w height) = real (Complex.arg (w - z)) := by
  rw [Aim.bearing, toward_landmark, direction_point]

/-- The turn that the heading error asks for leads to the bearing. -/
theorem heading_add_headingError (z w : ℂ) (h : ℝ) (height : Exact) :
    let error := Aim.headingError ⟨point z, real h⟩ (landmark w height)
    let bearing := Aim.bearing ⟨point z, real h⟩ (landmark w height)
    SameDirection (real h + error) bearing ∧ Angle.wrap (real h + error) = bearing := by
  intro error bearing
  have herror : error = real ((Complex.arg (w - z) : Real.Angle) - h).toReal :=
    headingError_landmark z w h height
  have hbearing : bearing = real (Complex.arg (w - z)) := bearing_landmark z w h height
  have hsum : ((h + ((Complex.arg (w - z) : Real.Angle) - h).toReal : ℝ) : Real.Angle)
      = Complex.arg (w - z) := by
    rw [Angle.coe_add, Angle.coe_toReal, add_sub_cancel]
  rw [hbearing, herror, real_add_real]
  refine ⟨.congruent (modEq_iff.mpr hsum), ?_⟩
  rw [wrap_real, hsum, Complex.arg_coe_angle_toReal_eq_arg]

/-- The difference of two poses takes one onto the other. -/
theorem shift_difference (hp : p.isFinite = true) (hq : q.isFinite = true) (hwrapped : Wrapped p) :
    q.shift (p.difference q) = p := by
  have hheading : ((toReal q.heading + shortTurn q p : ℝ) : Real.Angle) = toReal p.heading := by
    rw [Angle.coe_add, coe_shortTurn, ← Angle.coe_add, add_sub_cancel]
  have hreal := hp
  simp only [Pose.isFinite, Vec2.isFinite, Bool.and_eq_true] at hreal
  rw [difference_eq hq hp, shift_byAxis hq]
  simp only [Axis.gap, add_sub_cancel, hheading]
  rw [← wrap_real, real_toReal hreal.1.1, real_toReal hreal.1.2, real_toReal hreal.2, hwrapped]

/-! ## Turns, aims and blends -/

/-- Without rounding the turn from one angle to another is congruent to their difference, and
nothing congruent to it is shorter. A pose that is turned by its heading error looks along the
bearing of the landmark, and one that is shifted by its difference from another pose is the other
pose. A blend of two headings leads from one to the other and divides the turn between them; it
is the blend of the way back unless they are opposite, and it turns with its ends. -/
theorem turn_blend_shortWay :
    (∀ a b : ℝ, ∃ e, Angle.turn (real a) (real b) = real e ∧ e ≡ a - b [PMOD 2 * π] ∧
      ∀ s, s ≡ a - b [PMOD 2 * π] → |e| ≤ |s|) ∧
    (∀ (z w : ℂ) (h : ℝ) (height : Exact),
      let p : Pose Exact := ⟨point z, real h⟩
      let error := Aim.headingError p (landmark w height)
      let bearing := Aim.bearing p (landmark w height)
      SameDirection (p.heading + error) bearing ∧
      (∀ dx dy, (p.shift ⟨dx, dy, error⟩).heading = bearing) ∧
      ∀ dx dy, (p.move ⟨dx, dy, error⟩).heading = bearing) ∧
    (∀ p q : Pose Exact, p.isFinite = true → q.isFinite = true → Wrapped p →
      q.shift (p.difference q) = p) ∧
    ∀ a ∈ Set.Ioc (-π) π, ∀ b ∈ Set.Ioc (-π) π, ∀ t ∈ Set.Icc (0 : ℝ) 1,
      Angle.blend (real a) (real b) (real 0) = real a ∧
      Angle.blend (real a) (real b) (real 1) = real b ∧
      Angle.turn (Angle.blend (real a) (real b) (real t)) (real a)
        = real t * Angle.turn (real b) (real a) ∧
      (|a - b| ≠ π →
        Angle.blend (real a) (real b) (real t) = Angle.blend (real b) (real a) (real (1 - t))) ∧
      ∀ c a' b', a' ≡ a + c [PMOD 2 * π] → b' ≡ b + c [PMOD 2 * π] →
        SameDirection (Angle.blend (real a') (real b') (real t))
          (Angle.blend (real a) (real b) (real t) + real c) := by
  refine ⟨fun a b => ?_, fun z w h height => ?_, fun p q => shift_difference, ?_⟩
  · exact ⟨_, turn_real b a, modEq_iff.mpr (coe_turnTo b a), fun s => turnTo_shortest⟩
  · obtain ⟨hdirection, hbearing⟩ := heading_add_headingError z w h height
    exact ⟨hdirection, fun _ _ => hbearing, fun _ _ => hbearing⟩
  · intro a ha b hb t ht
    exact ⟨blend_start ha b, blend_finish a hb, turn_blend ht a b, fun h => blend_swap ha hb h t,
      fun c a' b' ha' hb' => blend_sameDirection ha' hb' t⟩

/-- Two poses with headings on either side of the seam. -/
theorem turn_blend_shortWay_seam :
    let a := 3 * π / 4
    let p : Pose Exact := ⟨point ⟨5, 1⟩, real a⟩
    let q : Pose Exact := ⟨point ⟨2, 3⟩, real (-a)⟩
    q.shift (p.difference q) = p ∧
      (p.shift ⟨0, 0, Aim.headingError p (landmark ⟨2, 3⟩ 0)⟩).heading
        = Aim.bearing p (landmark ⟨2, 3⟩ 0) ∧
      Angle.blend (real a) (real (-a)) (real (1 / 3))
        = Angle.blend (real (-a)) (real a) (real (1 - 1 / 3)) ∧
      SameDirection (Angle.blend (real (a + π)) (real (-a + π)) (real (1 / 3)))
        (Angle.blend (real a) (real (-a)) (real (1 / 3)) + real π) := by
  intro a p q
  obtain ⟨-, haim, hdifference, hblend⟩ := turn_blend_shortWay
  have hpi := pi_pos
  have hvalue : a = 3 * π / 4 := rfl
  have ha : a ∈ Set.Ioc (-π) π := ⟨by linarith, by linarith⟩
  have hb : -a ∈ Set.Ioc (-π) π := ⟨by linarith, by linarith⟩
  have hthird : (1 / 3 : ℝ) ∈ Set.Icc (0 : ℝ) 1 := by norm_num
  have hoblique : |a - -a| ≠ π := by
    rw [abs_of_nonneg (by linarith)]
    intro h
    linarith
  have hwrapped : Wrapped p := by
    show Angle.wrap (real a) = real a
    rw [wrap_real, toReal_of_mem ha]
  obtain ⟨-, -, -, hswap, hturn⟩ := hblend a ha (-a) hb (1 / 3) hthird
  exact ⟨hdifference p q rfl rfl hwrapped, (haim ⟨5, 1⟩ ⟨2, 3⟩ a 0).2.1 0 0, hswap hoblique,
    hturn π _ _ AddCommGroup.modEq_rfl AddCommGroup.modEq_rfl⟩

end SwerveLocalization.Exact
