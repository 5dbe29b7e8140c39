import Mathlib
import SwerveLocalization.Proofs.Binary64.Interpolation
import SwerveLocalization.Proofs.Shot.Calibration
import SwerveLocalization.Shot.Shooter

/-!
# The speed envelope

A flywheel speed is read off the calibration curve and then confined to the
envelope. Confining does nothing to NaN, so the envelope holds exactly as long
as the curve gives a number. On binary64 numbers it does, except between two
points that are so far apart that their differences overflow.
-/

namespace SwerveLocalization

open Binary64 Scalar

/-! ## Confining -/

section Confine

variable {α : Type} [Scalar α] [RealScalar α] {low high x y : α}

theorem isWithin_confine (hlow : Scalar.isNaN low = false) (hhigh : Scalar.isNaN high = false)
    (h : low ≤ high) : isWithin low high (confine low high x) = !Scalar.isNaN x := by
  have hlowlow : low ≤ low := by
    rw [← RealScalar.not_lt hlow hlow]
    exact RealScalar.lt_irrefl low
  have hhighhigh : high ≤ high := by
    rw [← RealScalar.not_lt hhigh hhigh]
    exact RealScalar.lt_irrefl high
  unfold isWithin confine
  cases hx : Scalar.isNaN x with
  | true =>
    -- every comparison with NaN fails
    have hless : ¬ x < low := fun hlt => by simp [((RealScalar.lt_iff _ _).mp hlt).1] at hx
    have hmore : ¬ high < x := fun hlt => by simp [((RealScalar.lt_iff _ _).mp hlt).2.1] at hx
    have hle : ¬ low ≤ x := fun hle => by simp [((RealScalar.le_iff _ _).mp hle).2.1] at hx
    rw [if_neg hless, if_neg hmore]
    simp [hle]
  | false =>
    split_ifs with hless hmore
    · simp [hlowlow, h]
    · simp [hhighhigh, h]
    · simp [(RealScalar.not_lt hx hlow).mp hless, (RealScalar.not_lt hhigh hx).mp hmore]

/-- Confining reverses no order. -/
theorem confine_mono (hlow : low ≤ low) (hhigh : high ≤ high) (h : low ≤ high) (hxy : x ≤ y) :
    confine low high x ≤ confine low high y := by
  obtain ⟨hx, hy, -⟩ := (RealScalar.le_iff x y).mp hxy
  obtain ⟨hlownan, hhighnan, -⟩ := (RealScalar.le_iff low high).mp h
  unfold confine
  split_ifs with hxlow hylow hyhigh hxhigh hylow hyhigh hylow hyhigh
  · exact hlow
  · exact h
  · exact (RealScalar.not_lt hy hlownan).mp hylow
  · exact absurd (RealScalar.lt_of_le_of_lt hxy hylow) hxlow
  · exact hhigh
  · exact absurd (RealScalar.lt_of_lt_of_le hxhigh hxy) hyhigh
  · exact absurd (RealScalar.lt_of_le_of_lt hxy hylow) hxlow
  · exact (RealScalar.not_lt hhighnan hx).mp hxhigh
  · exact hxy

end Confine

/-! ## Points that are too far apart -/

/-- The line between two points cannot be followed to `x`: either the way there
overflows, or the difference of the values does and the fraction of the way is
rounded to zero. -/
def Overflows (p q : CalibrationPoint Float) (x : Float) : Prop :=
  (x - p.key).isFinite = false ∨
    (q.value - p.value).isFinite = false ∧ (inverseLerp p.key q.key x == 0) = true

open CalibrationCurve

variable {points : List (CalibrationPoint Float)} {p q : CalibrationPoint Float} {x : Float}

theorem isNaN_line_iff (h : Ascending points) (hpq : Encloses points x p q) :
    (lerp p.value q.value (inverseLerp p.key q.key x)).isNaN = true ↔ Overflows p q x := by
  obtain ⟨⟨front, rest, rfl⟩, hafter, hbefore⟩ := hpq
  obtain ⟨hpkey, hpvalue⟩ := h.finite p (by simp)
  obtain ⟨hqkey, hqvalue⟩ := h.finite q (by simp)
  unfold Overflows
  cases hpart : (x - p.key).isFinite with
  | false =>
    have hnan := isNaN_inverseLerp hpkey hqkey hafter hbefore hpart
    simp only [true_or, iff_true]
    exact isNaN_add (.inr (isNaN_mul (.inr hnan)))
  | true =>
    obtain ⟨hfinite, -, -⟩ := isFraction_inverseLerp hpkey hqkey hafter hbefore hpart
    have hzero : (inverseLerp p.key q.key x == 0) = true ↔ real (inverseLerp p.key q.key x) = 0 := by
      have hnan := ((isFinite_iff _).mp hfinite).1
      rw [beq_iff, value_eq_real hfinite, value_zero]
      simp only [hnan, true_and, EReal.coe_eq_zero]
      exact ⟨fun h => h.2, fun h => ⟨rfl, h⟩⟩
    rw [isNaN_lerp hpvalue hqvalue hfinite, hzero]
    simp

namespace Shooter

theorem build_eq_ok {α : Type} [Scalar α] {limits : ShotLimits α} {curve : CalibrationCurve α}
    {s : Shooter α} (h : build limits curve = .ok s) :
    s = ⟨limits, curve⟩ ∧ isFinite limits.minSpeed = true ∧ isFinite limits.maxSpeed = true ∧
      limits.minSpeed ≤ limits.maxSpeed := by
  unfold build ShotLimits.validate at h
  split_ifs at h with hspeed hrange
  · contradiction
  · contradiction
  · refine ⟨(Except.ok.inj h).symm, ?_⟩
    simpa [ShotLimits.isRange, and_assoc] using hspeed

variable {limits : ShotLimits Float} {start curve : CalibrationCurve Float} {s : Shooter Float}
  {ps qs : List (CalibrationPoint Float)}

/-- A shooter with checked limits and a curve made of points says that it has no
calibration exactly if there is none, and keeps the speed in the envelope
exactly where no neighbours of the curve are too far apart. -/
theorem flywheelFor_mem_envelope_iff (hpoints : ofPoints ps = .ok start)
    (hinserts : qs.foldlM CalibrationCurve.insert start = .ok curve)
    (hbuild : build limits curve = .ok s) (distance : Float) :
    ((s.flywheelFor distance).degenerate = true ↔ curve.points = []) ∧
      (limits.minSpeed ≤ (s.flywheelFor distance).speed ∧
          (s.flywheelFor distance).speed ≤ limits.maxSpeed ↔
        ¬ ∃ p q, Encloses curve.points distance p q ∧ Overflows p q distance) := by
  obtain ⟨rfl, hmin, hmax, hle⟩ := build_eq_ok hbuild
  have hminnan := ((isFinite_iff _).mp hmin).1
  have hmaxnan := ((isFinite_iff _).mp hmax).1
  have hascending : Ascending curve.points := (ascending_empty.inserts hpoints).inserts hinserts
  have henvelope : ∀ speed : Float, limits.minSpeed ≤ speed ∧ speed ≤ limits.maxSpeed ↔
      isWithin limits.minSpeed limits.maxSpeed speed = true := by
    intro speed
    simp [isWithin]
  have hlowest : limits.minSpeed ≤ limits.minSpeed ∧ limits.minSpeed ≤ limits.maxSpeed :=
    ⟨RealScalar.le_refl hmin, hle⟩
  cases hlookup : curve.get? distance with
  | none =>
    have hspeed : flywheelFor ⟨limits, curve⟩ distance = ⟨limits.minSpeed, curve.isEmpty⟩ := by
      unfold flywheelFor
      rw [hlookup]
    rw [hspeed]
    refine ⟨by simp [isEmpty], iff_of_true hlowest ?_⟩
    rintro ⟨p, q, hpq, -⟩
    rw [get?_of_encloses hascending hpq] at hlookup
    contradiction
  | some speed =>
    have hspeed : flywheelFor ⟨limits, curve⟩ distance
        = ⟨confine limits.minSpeed limits.maxSpeed speed, false⟩ := by
      unfold flywheelFor
      rw [hlookup]
    have hne : curve.points ≠ [] := by
      intro hempty
      rw [get?, hempty] at hlookup
      contradiction
    have hline : ∀ {p q}, Encloses curve.points distance p q →
        (speed.isNaN = true ↔ Overflows p q distance) := by
      intro p q hpq
      have hvalue := get?_of_encloses hascending hpq
      rw [hlookup] at hvalue
      rw [Option.some.inj hvalue]
      exact isNaN_line_iff hascending hpq
    rw [hspeed]
    refine ⟨by simp [hne], ?_⟩
    rw [henvelope, isWithin_confine hminnan hmaxnan hle, Bool.not_eq_true']
    constructor
    · rintro hnumber ⟨p, q, hpq, hover⟩
      have hnan : speed.isNaN = false := hnumber
      rw [(hline hpq).mpr hover] at hnan
      contradiction
    · intro hnear
      show speed.isNaN = false
      by_cases hpq : ∃ p q, Encloses curve.points distance p q
      · obtain ⟨p, q, hpq⟩ := hpq
        have hnot : ¬ speed.isNaN = true := fun hnan => hnear ⟨p, q, hpq, (hline hpq).mp hnan⟩
        simpa using hnot
      · -- outside every pair of neighbours the curve has the value of a point
        push Not at hpq
        obtain ⟨r, hr, rfl⟩ := get?_of_not_encloses hascending hpq hlookup
        exact ((isFinite_iff _).mp (hascending.finite r hr).2).1

theorem flywheelFor_mem_envelope_iff_betweenPoints :
    let shooter : Shooter Float := ⟨.standard, ⟨[⟨1.0, 1000.0⟩, ⟨3.0, 1500.0⟩]⟩⟩
    shooter.limits.minSpeed ≤ (shooter.flywheelFor 2.0).speed ∧
      (shooter.flywheelFor 2.0).speed ≤ shooter.limits.maxSpeed := by
  intro shooter
  have hpoints : ofPoints [⟨1.0, 1000.0⟩] = .ok (⟨[⟨1.0, 1000.0⟩]⟩ : CalibrationCurve Float) := by
    decide +kernel
  have hinserts : [⟨3.0, 1500.0⟩].foldlM CalibrationCurve.insert ⟨[⟨1.0, 1000.0⟩]⟩
      = .ok shooter.curve := by decide +kernel
  have hbuild : build .standard shooter.curve = .ok shooter := by decide +kernel
  have h := flywheelFor_mem_envelope_iff hpoints hinserts hbuild 2.0
  refine h.2.mpr ?_
  rintro ⟨p, q, ⟨⟨front, rest, hsplit⟩, -, -⟩, hover⟩
  change [⟨1.0, 1000.0⟩, ⟨3.0, 1500.0⟩] = front ++ p :: q :: rest at hsplit
  cases front with
  | nil =>
    cases hsplit
    revert hover
    unfold Overflows
    decide +kernel
  | cons r front =>
    have hlength := congrArg List.length hsplit
    simp at hlength
    omega

/-- Two points of one value whose distance overflows. -/
def farApart : List (CalibrationPoint Float) := [⟨-1e308, 1000.0⟩, ⟨1.5e308, 1000.0⟩]

/-- Between them the commanded speed is no number, so it is in no envelope. -/
theorem speed_isNaN_farApart :
    ofPoints farApart = .ok ⟨farApart⟩ ∧
      build .standard ⟨farApart⟩ = .ok ⟨.standard, ⟨farApart⟩⟩ ∧
      (flywheelFor ⟨.standard, ⟨farApart⟩⟩ (1.2e308 : Float)).speed.isNaN = true ∧
      ¬ (flywheelFor ⟨.standard, ⟨farApart⟩⟩ (1.2e308 : Float)).speed
        ≤ (ShotLimits.standard : ShotLimits Float).maxSpeed := by
  decide +kernel

end Shooter

end SwerveLocalization
