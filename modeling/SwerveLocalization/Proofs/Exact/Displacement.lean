import Mathlib
import SwerveLocalization.Localization.Trajectory
import SwerveLocalization.Proofs.Exact.Heading

/-!
# Displacing poses and trajectories without rounding

Shifts of a pose add up, and a displaced trajectory passes through the
displaced poses at every time, also between two entries and past the newest
one. Nothing is assumed of the poses: where a component is not a real number,
no shift changes it.
-/

namespace SwerveLocalization.Exact

open Real Scalar

/-- The shift by real numbers. -/
def offset (x y θ : ℝ) : Shift Exact := ⟨real x, real y, real θ⟩

variable (x y θ x' y' θ' : ℝ) (p q : Pose Exact)

theorem add_real_add_real (a : Exact) (x y : ℝ) : a + real x + real y = a + real (x + y) := by
  cases a with
  | real z => simp [add_assoc]
  | posInf => rfl
  | negInf => rfl
  | nan => rfl

theorem shift_eq : p.shift (offset x y θ)
    = ⟨⟨p.position.x + real x, p.position.y + real y⟩, Angle.wrap (p.heading + real θ)⟩ := rfl

/-- Shifts of a pose add up. -/
theorem shift_shift : (p.shift (offset x y θ)).shift (offset x' y' θ')
    = p.shift (offset (x + x') (y + y') (θ + θ')) := by
  simp only [shift_eq, add_real_add_real, wrap_wrap_add]

/-- A pose is where it is after no shift, if its heading is wrapped. -/
theorem shift_zero (hp : Angle.wrap p.heading = p.heading) : p.shift (offset 0 0 0) = p := by
  have hzero : ∀ a : Exact, a + real 0 = a := by
    intro a
    cases a with
    | real z => simp
    | posInf => rfl
    | negInf => rfl
    | nan => rfl
  rw [shift_eq, hzero, hzero, hzero, hp]

/-- The difference of a shifted pose and the pose is the shift, as long as it
turns by no more than half a turn. -/
theorem difference_shift (hp : p.isFinite = true) (hlower : -π < θ) (hupper : θ ≤ π) :
    (p.shift (offset x y θ)).difference p = offset x y θ := by
  obtain ⟨⟨px, py⟩, ph⟩ := p
  simp only [Pose.isFinite, Vec2.isFinite, Bool.and_eq_true] at hp
  obtain ⟨a, rfl⟩ := isFinite_iff_exists.mp hp.1.1
  obtain ⟨b, rfl⟩ := isFinite_iff_exists.mp hp.1.2
  obtain ⟨c, rfl⟩ := isFinite_iff_exists.mp hp.2
  have hturn : Angle.turn (Angle.wrap (real c + real θ)) (real c) = real θ := by
    unfold SwerveLocalization.Angle.turn
    rw [real_add_real, wrap_real, real_sub_real, wrap_real, Angle.coe_sub, Angle.coe_toReal,
      Angle.coe_add, add_sub_cancel_left, Angle.toReal_coe_eq_self_iff.mpr ⟨hlower, hupper⟩]
  rw [shift_eq]
  unfold Pose.difference
  rw [hturn]
  simp [offset]

/-! ## Interpolation -/

/-- A weighted mean of two displaced numbers is the displaced mean. -/
theorem mean_add (a b : Exact) (d t : ℝ) :
    real t * (b + real d) + real (1 - t) * (a + real d)
      = real t * b + real (1 - t) * a + real d := by
  cases ha : Scalar.isFinite a with
  | true =>
    obtain ⟨a, rfl⟩ := isFinite_iff_exists.mp ha
    cases hb : Scalar.isFinite b with
    | true =>
      obtain ⟨b, rfl⟩ := isFinite_iff_exists.mp hb
      simp only [real_add_real, real_mul_real]
      congr 1
      ring
    | false =>
      have hmul := not_finite_mul (a := real t) (.inr hb)
      simp only [real_add_real, real_mul_real, add_real_of_not_finite _ hb,
        add_real_of_not_finite _ hmul]
  | false =>
    have hmul := not_finite_mul (a := real (1 - t)) (.inr ha)
    rw [add_real_of_not_finite d ha]
    cases hb : Scalar.isFinite b with
    | true =>
      obtain ⟨b, rfl⟩ := isFinite_iff_exists.mp hb
      simp only [real_add_real, real_mul_real, real_add_of_not_finite _ hmul,
        add_real_of_not_finite _ hmul]
    | false =>
      rw [add_real_of_not_finite d hb,
        add_real_of_not_finite d (not_finite_add (.inr hmul))]

theorem one_mul_add (b : Exact) (d : ℝ) : real 1 * (b + real d) = real 1 * b + real d := by
  cases hb : Scalar.isFinite b with
  | true =>
    obtain ⟨b, rfl⟩ := isFinite_iff_exists.mp hb
    simp only [real_add_real, real_mul_real, one_mul]
  | false =>
    rw [add_real_of_not_finite d hb, add_real_of_not_finite d (not_finite_mul (.inr hb))]

/-- A point between two displaced points is the displaced point. -/
theorem blend_position_shift (start finish : Vec2 Exact) (t : ℝ) :
    (start + ⟨real x, real y⟩).blend (finish + ⟨real x, real y⟩) (real t)
      = start.blend finish (real t) + ⟨real x, real y⟩ := by
  have hrest : (1 : Exact) - real t = real (1 - t) := rfl
  unfold Vec2.blend
  dsimp only
  rw [hrest, zero_eq]
  by_cases ht : (real (1 - t) == real 0) = true
  · -- all weight on the finish, where the start is not read at all
    obtain rfl : 1 = t := sub_eq_zero.mp ((real_beq_real _ _).mp ht)
    rw [if_pos ht, if_pos ht]
    exact congrArg₂ Vec2.mk (one_mul_add _ _) (one_mul_add _ _)
  · rw [if_neg ht, if_neg ht]
    exact congrArg₂ Vec2.mk (mean_add _ _ _ _) (mean_add _ _ _ _)

theorem blend_shift (t : ℝ) :
    (p.shift (offset x y θ)).blend (q.shift (offset x y θ)) (real t)
      = (p.blend q (real t)).shift (offset x y θ) := by
  have hposition := blend_position_shift x y p.position q.position t
  have hwrap : Angle.wrap (Angle.blend p.heading q.heading (real t))
      = Angle.blend p.heading q.heading (real t) := wrap_wrap
  have hheading : Angle.wrap (Angle.blend (Angle.wrap (p.heading + real θ))
        (Angle.wrap (q.heading + real θ)) (real t))
      = Angle.wrap (Angle.wrap (Angle.blend p.heading q.heading (real t)) + real θ) := by
    rw [hwrap, blend_wrap_add, wrap_wrap]
  exact congrArg₂ Pose.mk hposition hheading

/-- How far along the way between two entries a time is. -/
theorem inverseLerp_real {t₀ t₁ : ℝ} (h : t₀ < t₁) (t : ℝ) :
    inverseLerp (real t₀) (real t₁) (real t) = real ((t - t₀) / (t₁ - t₀)) :=
  real_div_real _ _ (sub_ne_zero.mpr h.ne')

/-- A trajectory on which looking up is interpolation: the times are real and
increase. -/
def Increasing (entries : List (Waypoint Exact)) : Prop :=
  (∀ w ∈ entries, Scalar.isFinite w.time = true) ∧ entries.Pairwise fun a b => a.time < b.time

theorem walk_shift (time : ℝ) (e : Waypoint Exact) (rest : List (Waypoint Exact))
    (h : Increasing (e :: rest)) :
    Trajectory.walk (real time) ⟨e.time, e.pose.shift (offset x y θ)⟩
        (rest.map fun w => ⟨w.time, w.pose.shift (offset x y θ)⟩)
      = (Trajectory.walk (real time) e rest).shift (offset x y θ) := by
  induction rest generalizing e with
  | nil => rfl
  | cons next rest ih =>
    obtain ⟨hfinite, hordered⟩ := h
    rw [List.pairwise_cons] at hordered
    have hrest : Increasing (next :: rest) :=
      ⟨fun w hw => hfinite w (List.mem_cons_of_mem _ hw), hordered.2⟩
    obtain ⟨t₀, ht₀⟩ := isFinite_iff_exists.mp (hfinite e (by simp))
    obtain ⟨t₁, ht₁⟩ := isFinite_iff_exists.mp (hfinite next (by simp))
    have hlt : t₀ < t₁ := by
      have hnext := hordered.1 next (by simp)
      rw [ht₀, ht₁, real_lt_real] at hnext
      exact hnext
    rw [List.map_cons]
    unfold Trajectory.walk
    dsimp only
    -- no comparison sees a pose, so both lookups take the same branch
    by_cases hbefore : next.time < real time
    · rw [if_pos hbefore, if_pos hbefore]
      exact ih next hrest
    · rw [if_neg hbefore, if_neg hbefore]
      by_cases hat : (next.time == real time) = true
      · rw [if_pos hat, if_pos hat]
      · rw [if_neg hat, if_neg hat, ht₀, ht₁, inverseLerp_real hlt]
        exact blend_shift x y θ _ _ _

/-- Looking up a displaced trajectory gives the displaced pose. -/
theorem poseAt?_shift {h : Trajectory Exact} (hincreasing : Increasing h.entries) (time : ℝ) :
    (h.shift (offset x y θ)).poseAt? (real time)
      = (h.poseAt? (real time)).map fun p => p.shift (offset x y θ) := by
  unfold Trajectory.poseAt? Trajectory.shift
  cases hentries : h.entries with
  | nil => rfl
  | cons first rest =>
    rw [hentries] at hincreasing
    simp only [List.map_cons]
    by_cases hbefore : real time < first.time
    · rw [if_pos hbefore, if_pos hbefore]
      rfl
    · rw [if_neg hbefore, if_neg hbefore]
      by_cases hat : (real time == first.time) = true
      · rw [if_pos hat, if_pos hat]
        rfl
      · rw [if_neg hat, if_neg hat]
        exact congrArg some (walk_shift x y θ time first rest hincreasing)

end SwerveLocalization.Exact
