import SwerveLocalization.Proofs.Plane.FinitePose
import SwerveLocalization.Proofs.Robot.Thinning

/-!
# What the gate lets through

A gate is not asked whether its settings make sense: a baseline may be negative
and a factor infinite, and the deviation computed from them may overflow or be
no number at all. Taking the larger of it and the least deviation repairs every
such case. Main statement: whatever the settings, a sighting that is let through
is a finite pose on the field with positive deviations, so an estimator never
rejects it as malformed, and rejects its deviations only where all of them are
infinite.
-/

namespace SwerveLocalization

/-- The larger of anything and a positive number is positive. -/
theorem larger_pos {α : Type} [Scalar α] [RealScalar α] {c : α} (hc : 0 < c) (x : α) :
    0 < Scalar.larger x c := by
  unfold Scalar.larger
  split_ifs with hless hnan
  · exact hc
  · exact hc
  · have hcnan : Scalar.isNaN c = false := ((RealScalar.lt_iff _ _).mp hc).2.1
    have hle : c ≤ x := (RealScalar.not_lt (by simpa using hnan) hcnan).mp hless
    exact RealScalar.lt_of_lt_of_le hc hle

/-! ## The gate -/

namespace GateSettings

variable {α : Type} [Scalar α] {g : GateSettings α} {f : Field α} {s : Sighting α}
  {m : PoseMeasurement α}

/-- A sighting that is let through has passed every check, and the measurement is
made of what it says. -/
theorem evaluate_eq_ok (h : g.evaluate f s = .ok m) :
    s.isFinite = true ∧ s.tags ≠ 0 ∧ ¬(s.tags = 1 ∧ g.maxAmbiguity < s.ambiguity) ∧
      ¬ g.maxHeight < Scalar.magnitude s.z ∧ f.contains ⟨s.x, s.y⟩ = true ∧
      m = ⟨.make ⟨s.x, s.y⟩ s.heading, s.time, g.deviations s⟩ := by
  unfold evaluate at h
  split_ifs at h with hfinite htags hambiguous hheight houtside
  refine ⟨by simpa using hfinite, htags, hambiguous, hheight, by simpa using houtside, ?_⟩
  exact (Except.ok.inj h).symm

/-- The position is trusted alike along both axes. -/
theorem deviations_x_eq_y (g : GateSettings α) (s : Sighting α) :
    (g.deviations s).x = (g.deviations s).y := by
  unfold deviations
  cases s.source <;> rfl

/-- Every deviation is positive, whatever the settings. -/
theorem deviations_pos [RealScalar α] (hleast : 0 < (leastDeviation : α)) (g : GateSettings α)
    (s : Sighting α) :
    0 < (g.deviations s).x ∧ 0 < (g.deviations s).y ∧ 0 < (g.deviations s).z := by
  unfold deviations
  cases s.source with
  | tags => exact ⟨larger_pos hleast _, larger_pos hleast _, larger_pos hleast _⟩
  | tagsAndGyro => exact ⟨larger_pos hleast _, larger_pos hleast _, larger_pos hleast _⟩

end GateSettings

/-! ## The estimator -/

/-- Of positive deviations only those that are all infinite are of no use. -/
theorem PoseMeasurement.hasUsableDeviations_eq_false_iff {α : Type} [Scalar α]
    {m : PoseMeasurement α}
    (hpos : 0 < m.deviations.x ∧ 0 < m.deviations.y ∧ 0 < m.deviations.z) :
    m.hasUsableDeviations = false ↔ Scalar.isInfinite m.deviations.x = true ∧
      Scalar.isInfinite m.deviations.y = true ∧ Scalar.isInfinite m.deviations.z = true := by
  obtain ⟨hx, hy, hz⟩ := hpos
  unfold PoseMeasurement.hasUsableDeviations
  simp [hx, hy, hz, and_assoc]

namespace Estimator

variable {α : Type} [Scalar α] {e : Estimator α} {m : PoseMeasurement α}

/-- A finite camera pose with deviations that are of no use is rejected for them,
and any other one is accepted or rejected for its time. -/
theorem verdict_addPose (hfinite : m.isFinite = true) :
    (m.hasUsableDeviations = false → (e.addPose m).1 = .rejected .invalidDeviations) ∧
      (m.hasUsableDeviations = true →
        (e.addPose m).1 ∈ [.accepted, .rejected .noHistory, .rejected .stale]) := by
  rw [addPose_verdict, hfinite]
  constructor
  · intro hunusable
    simp [hunusable]
  · intro husable
    rw [husable]
    cases e.trajectory.oldest? with
    | none => simp
    | some oldest => by_cases hbefore : m.time < oldest.time <;> simp [hbefore]

end Estimator

/-! ## Gates on binary64 numbers -/

namespace GateSettings

open Binary64

variable {g : GateSettings Float} {f : Field Float} {s : Sighting Float} {m : PoseMeasurement Float}

theorem leastDeviation_pos : (0 : Float) < leastDeviation := by decide +kernel

/-- The pose that is let through is finite, with the wrapped heading of the sighting. -/
theorem isProper_of_evaluate (h : g.evaluate f s = .ok m) :
    m.pose.IsProper ∧ Scalar.isFinite m.time = true := by
  obtain ⟨hfinite, -, -, -, -, rfl⟩ := evaluate_eq_ok h
  obtain ⟨htime, hx, hy, -, hheading, -, -⟩ : s.time.isFinite = true ∧ s.x.isFinite = true ∧
      s.y.isFinite = true ∧ s.z.isFinite = true ∧ s.heading.isFinite = true ∧
      s.ambiguity.isFinite = true ∧ s.tagDistance.isFinite = true := by
    simpa [Sighting.isFinite, Scalar.isFinite] using hfinite
  refine ⟨⟨?_, isHeading_wrap hheading⟩, htime⟩
  simp [Pose.make, Vec2.isFinite, Scalar.isFinite, hx, hy]

/-- What a gate lets through, whatever its settings and the field, is the position
and the time of the sighting, on the field and finite, with a wrapped heading and
positive deviations, the same along both axes. No estimator finds it malformed:
it is accepted, or comes too early for the record, or its deviations are rejected
because all of them are infinite. -/
theorem evaluate_wellFormed (h : g.evaluate f s = .ok m) :
    (m.pose.position = ⟨s.x, s.y⟩ ∧ f.contains m.pose.position = true) ∧
    (-Scalar.pi < m.pose.heading ∧ m.pose.heading ≤ Scalar.pi) ∧
    (m.time = s.time ∧ Scalar.isFinite m.time = true) ∧
    (0 < m.deviations.x ∧ 0 < m.deviations.y ∧ 0 < m.deviations.z) ∧
    (Scalar.isNaN m.deviations.x = false ∧ Scalar.isNaN m.deviations.y = false ∧
      Scalar.isNaN m.deviations.z = false) ∧
    m.deviations.x = m.deviations.y ∧
    ∀ e : Estimator Float,
      (e.addPose m).1 ∈ [.accepted, .rejected .noHistory, .rejected .stale,
        .rejected .invalidDeviations] ∧
      ((e.addPose m).1 = .rejected .invalidDeviations ↔
        Scalar.isInfinite m.deviations.x = true ∧ Scalar.isInfinite m.deviations.y = true ∧
          Scalar.isInfinite m.deviations.z = true) := by
  obtain ⟨hproper, htime⟩ := isProper_of_evaluate h
  obtain ⟨-, -, -, -, hinside, hm⟩ := evaluate_eq_ok h
  have hpos : 0 < m.deviations.x ∧ 0 < m.deviations.y ∧ 0 < m.deviations.z := by
    rw [hm]
    exact deviations_pos leastDeviation_pos g s
  refine ⟨?_, isHeading_iff.mp hproper.heading, ⟨by rw [hm], htime⟩, hpos, ?_, ?_, ?_⟩
  · rw [hm]
    exact ⟨rfl, hinside⟩
  · obtain ⟨hx, hy, hz⟩ := hpos
    exact ⟨((RealScalar.lt_iff _ _).mp hx).2.1, ((RealScalar.lt_iff _ _).mp hy).2.1,
      ((RealScalar.lt_iff _ _).mp hz).2.1⟩
  · rw [hm]
    exact deviations_x_eq_y g s
  · intro e
    have hfinite : m.isFinite = true := by
      rw [PoseMeasurement.isFinite, hproper.isFinite, htime, Bool.and_self]
    obtain ⟨hunusable, husable⟩ := e.verdict_addPose hfinite
    rw [← PoseMeasurement.hasUsableDeviations_eq_false_iff hpos]
    cases hdeviations : m.hasUsableDeviations with
    | false =>
      rw [hunusable hdeviations]
      simp
    | true =>
      have hverdict := husable hdeviations
      simp only [List.mem_cons, List.not_mem_nil, or_false] at hverdict
      rcases hverdict with hverdict | hverdict | hverdict <;> simp [hverdict]

/-- A tag so far away that its deviation overflows, seen with the help of the gyro. -/
def farTag : Sighting Float :=
  ⟨1, 1, 1, 0, 4, 0, 2, 1e200, .tagsAndGyro, 0⟩

/-- A camera whose factor is zero makes the infinite deviation no number, and the
least deviation takes its place; with the factor 1 all deviations are infinite. -/
theorem evaluate_wellFormed_farTag :
    let gate (factor : Float) : GateSettings Float := { standard with cameraFactors := [factor] }
    let seen (deviation : Float) : PoseMeasurement Float :=
      ⟨.make ⟨1, 1⟩ 4, 1, ⟨deviation, deviation, Scalar.infinity⟩⟩
    (gate 0).evaluate .standard farTag = .ok (seen leastDeviation) ∧
      (gate 1).evaluate .standard farTag = .ok (seen Scalar.infinity) ∧
      (Robot.squareRobot.estimator.addPose (seen leastDeviation)).1 ≠ .rejected .invalidDeviations ∧
      (Robot.squareRobot.estimator.addPose (seen Scalar.infinity)).1
        = .rejected .invalidDeviations := by
  intro gate seen
  have hrepaired : (gate 0).evaluate .standard farTag = .ok (seen leastDeviation) := by
    decide +kernel
  have hinfinite : (gate 1).evaluate .standard farTag = .ok (seen Scalar.infinity) := by
    decide +kernel
  obtain ⟨-, -, -, -, -, -, hverdict⟩ := evaluate_wellFormed hrepaired
  obtain ⟨-, -, -, -, -, -, hverdict'⟩ := evaluate_wellFormed hinfinite
  refine ⟨hrepaired, hinfinite, ?_, ?_⟩
  · rw [Ne, (hverdict Robot.squareRobot.estimator).2]
    decide +kernel
  · rw [(hverdict' Robot.squareRobot.estimator).2]
    decide +kernel

end GateSettings

end SwerveLocalization
