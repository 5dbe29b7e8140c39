import Mathlib
import SwerveLocalization.Proofs.Exact.ComplexPlane
import SwerveLocalization.Proofs.Exact.RigidCorrection

/-!
# Smaller deviations pull harder

The pull of a camera pose is a fraction of its residual that falls with the deviation,
on each axis by itself. So of two camera poses that differ in their deviations only, the
one with the smaller deviations moves the estimate at least as far, and neither goes
beyond what it shows: looked up again at the time of its capture, the corrected record
leaves just the rest of the residual.
-/

namespace SwerveLocalization.Exact

open Estimator Real Scalar

/-! ## Weights -/

variable {σ τ : Exact}

theorem weight_pos (h : 0 < σ) (hfinite : Scalar.isInfinite σ = false) : 0 < weight σ := by
  cases σ with
  | real s =>
    have hs : (0 : ℝ) < s := (real_lt_real 0 s).mp h
    unfold weight
    positivity
  | posInf => contradiction
  | negInf => contradiction
  | nan => exact absurd h.2.1 (by decide)

/-- A larger deviation is trusted less. -/
theorem weight_anti (hσ : 0 < σ) (hle : σ ≤ τ) : weight τ ≤ weight σ := by
  cases τ with
  | real t =>
    cases σ with
    | real s =>
      have hs : (0 : ℝ) < s := (real_lt_real 0 s).mp hσ
      have hst : s ≤ t := (real_le_real s t).mp hle
      exact one_div_le_one_div_of_le (by linarith) (by linarith)
    | posInf => exact absurd hle.2.2 (EReal.coe_lt_top t).not_ge
    | negInf => exact absurd hσ.2.2 (by simp [value])
    | nan => exact absurd hσ.2.1 (by decide)
  | _ => exact weight_nonneg hσ

/-! ## One camera pose -/

variable {e : Estimator Exact} {m : PoseMeasurement Exact}

/-- How strong a pull is, whichever way it goes. -/
theorem abs_pull (husable : m.hasUsableDeviations = true) (past : Pose Exact) (axis : Axis) :
    |pull m past axis| = weight (axis.deviation m.deviations) * |axis.gap past m.pose| := by
  unfold pull
  rw [abs_mul, abs_of_nonneg (weight_nonneg (deviation_pos husable axis))]

/-- The residual of an accepted camera pose, the part of it that the estimate has been moved
by, and the rest that a second look at the record leaves. -/
theorem Reachable.pulled (he : Reachable e) (haccepted : (e.addPose m).1 = .accepted) :
    ∃ past after, e.trajectory.poseAt? m.time = some past ∧
      (e.addPose m).2.trajectory.poseAt? m.time = some after ∧
      m.pose.difference past = byAxis (Axis.gap past m.pose) ∧
      (e.addPose m).2.pose.difference e.pose = byAxis (pull m past) ∧
      m.pose.difference after = byAxis fun axis =>
        (1 - weight (axis.deviation m.deviations)) * axis.gap past m.pose := by
  obtain ⟨hfinite, husable, past, hpast, hreal, hdisplaced⟩ := he.displaced haccepted
  simp only [PoseMeasurement.isFinite, Bool.and_eq_true] at hfinite
  obtain ⟨t, ht⟩ := isFinite_iff_exists.mp hfinite.2
  obtain ⟨-, -, hσ⟩ := deviations_pos husable
  have hweight : 0 ≤ weight m.deviations.z ∧ weight m.deviations.z ≤ 1 :=
    ⟨weight_nonneg hσ, (weight_lt_one hσ).le⟩
  have hturn := shortTurn_mem past m.pose
  refine ⟨past, past.shift (byAxis (pull m past)), hpast, ?_, difference_eq hreal hfinite.1, ?_, ?_⟩
  · rw [hdisplaced.trajectory, ht]
    unfold byAxis
    rw [poseAt?_shift _ _ _ he.increasing, ← ht, hpast]
    rfl
  · rw [hdisplaced.pose]
    obtain ⟨hlower, hupper⟩ := part_mem hweight.1 hweight.2 hturn
    exact difference_shift _ _ _ _ he.realState.pose.1 hlower hupper
  · have hrest : ∀ axis : Axis, axis.gap past m.pose - pull m past axis
        = (1 - weight (axis.deviation m.deviations)) * axis.gap past m.pose := by
      intro axis
      unfold pull
      ring
    have hpart := part_mem (sub_nonneg.mpr hweight.2) (sub_le_self 1 hweight.1) hturn
    rw [difference_of_shift hreal hfinite.1]
    · exact congrArg byAxis (funext hrest)
    · have hheading : shortTurn past m.pose - pull m past .heading
          = (1 - weight m.deviations.z) * shortTurn past m.pose := hrest .heading
      rw [hheading]
      exact hpart

/-! ## Two camera poses -/

/-- How far a robot has been moved, from how far on each axis. -/
theorem distance_of_difference {p q : Pose Exact} {c : Axis → ℝ} (h : p.difference q = byAxis c) :
    p.distance q = real ‖(⟨c .x, c .y⟩ : ℂ)‖ := by
  rw [← norm_point]
  exact congrArg Vec2.norm (congrArg₂ Vec2.mk (congrArg Shift.dx h) (congrArg Shift.dy h))

theorem norm_mono {z w : ℂ} (hre : |z.re| ≤ |w.re|) (him : |z.im| ≤ |w.im|) : ‖z‖ ≤ ‖w‖ := by
  rw [Complex.norm_eq_sqrt_sq_add_sq, Complex.norm_eq_sqrt_sq_add_sq]
  exact Real.sqrt_le_sqrt (add_le_add (sq_le_sq.mpr hre) (sq_le_sq.mpr him))

/-- An estimator that there can be would accept either of two camera poses that show one pose
at one time, the first with deviations that are not larger. Then the first moves the
estimate on each axis the way of the residual, not beyond it, and at least as far as the
second does, and so it moves the robot at least as far over the floor. Looked up again,
each of them leaves the rest of the residual, exactly. -/
theorem addPose_pull (he : Reachable e) {pose : Pose Exact} {time : Exact} {σ τ : Vec3 Exact}
    (hστ : ∀ axis : Axis, axis.deviation σ ≤ axis.deviation τ)
    (hσ : (e.addPose ⟨pose, time, σ⟩).1 = .accepted)
    (hτ : (e.addPose ⟨pose, time, τ⟩).1 = .accepted) :
    let a := (e.addPose ⟨pose, time, σ⟩).2
    let b := (e.addPose ⟨pose, time, τ⟩).2
    ∃ past pastA pastB r cA cB,
      e.trajectory.poseAt? time = some past ∧ pose.difference past = byAxis r ∧
      a.pose.difference e.pose = byAxis cA ∧ b.pose.difference e.pose = byAxis cB ∧
      (∀ axis : Axis,
        (Scalar.isInfinite (axis.deviation σ) = true → cA axis = 0) ∧
        (Scalar.isInfinite (axis.deviation σ) = false →
          SignType.sign (cA axis) = SignType.sign (r axis)) ∧
        |cB axis| ≤ |cA axis| ∧ |cA axis| ≤ |r axis|) ∧
      b.pose.distance e.pose ≤ a.pose.distance e.pose ∧
      a.trajectory.poseAt? time = some pastA ∧
      (pose.difference pastA = byAxis fun axis => (1 - weight (axis.deviation σ)) * r axis) ∧
      b.trajectory.poseAt? time = some pastB ∧
      pose.difference pastB = byAxis fun axis => (1 - weight (axis.deviation τ)) * r axis := by
  intro a b
  obtain ⟨past, pastA, hpast, hpastA, hr, hcA, hrestA⟩ := he.pulled hσ
  obtain ⟨past', pastB, hpast', hpastB, -, hcB, hrestB⟩ := he.pulled hτ
  obtain rfl : past = past' := Option.some.inj (hpast.symm.trans hpast')
  obtain ⟨-, husable, -⟩ := displaced_addPose hσ
  obtain ⟨-, husable', -⟩ := displaced_addPose hτ
  have hpos : ∀ axis : Axis, 0 < axis.deviation σ := deviation_pos husable
  have hpulls : ∀ axis : Axis, |pull ⟨pose, time, τ⟩ past axis| ≤ |pull ⟨pose, time, σ⟩ past axis| ∧
      |pull ⟨pose, time, σ⟩ past axis| ≤ |axis.gap past pose| := by
    intro axis
    rw [abs_pull husable, abs_pull husable']
    constructor
    · exact mul_le_mul_of_nonneg_right (weight_anti (hpos axis) (hστ axis)) (abs_nonneg _)
    · exact mul_le_of_le_one_left (abs_nonneg _) (weight_lt_one (hpos axis)).le
  refine ⟨past, pastA, pastB, _, _, _, hpast, hr, hcA, hcB, ?_, ?_, hpastA, hrestA, hpastB, hrestB⟩
  · intro axis
    refine ⟨fun hinfinite => pull_eq_zero (m := ⟨pose, time, σ⟩) hinfinite, ?_, hpulls axis⟩
    intro hfinite
    have hweight : 0 < weight (axis.deviation σ) := weight_pos (hpos axis) hfinite
    show SignType.sign (weight (axis.deviation σ) * axis.gap past pose) = _
    rw [sign_mul, sign_pos hweight, one_mul]
  · rw [distance_of_difference hcA, distance_of_difference hcB, real_le_real]
    exact norm_mono (hpulls .x).1 (hpulls .y).1

/-- One capture from between the first two entries, with two trusts. The sharp one takes half
of the way and half of the turn, the vague one a quarter of the way and nothing of the
turn. Each leaves the rest. -/
theorem addPose_pull_earlySighting :
    let early := displacedSighting (ahead (1 / 2)) (offset 2 0 π) (1 / 2)
    let sharp := early ⟨real 1, real 1, real 1⟩
    let vague := early ⟨real 3, posInf, posInf⟩
    ∃ start : Estimator Exact,
      let e := (start.run ((straightAhead apart_squareCorners).drives [0, 1, 2])).2
      let a := (e.addPose sharp).2
      let b := (e.addPose vague).2
      Reachable e ∧ e.trajectory.entries = [0, 1, 2].map (fun s => ⟨real s, ahead s⟩) ∧
        b.pose.distance e.pose ≤ a.pose.distance e.pose ∧
        ∃ pastA pastB, a.trajectory.poseAt? (real (1 / 2)) = some pastA ∧
          sharp.pose.difference pastA = offset 1 0 (π / 2) ∧
          b.trajectory.poseAt? (real (1 / 2)) = some pastB ∧
          vague.pose.difference pastB = offset (3 / 2) 0 π := by
  intro early sharp vague
  obtain ⟨start, he, -, hentries, hlookup⟩ := exists_reachable
  have husable : sharp.hasUsableDeviations = true ∧ vague.hasUsableDeviations = true := by
    simp [sharp, vague, early, displacedSighting, PoseMeasurement.hasUsableDeviations,
      Scalar.isInfinite]
  have hsharp := accepted_of_poseAt? (m := sharp) (isFinite_displacedSighting ..) husable.1 hlookup
  have hvague := accepted_of_poseAt? (m := vague) (isFinite_displacedSighting ..) husable.2 hlookup
  have hle : ∀ axis : Axis, axis.deviation sharp.deviations ≤ axis.deviation vague.deviations := by
    intro axis
    cases axis with
    | x => exact (real_le_real 1 3).mpr (by norm_num)
    | y => exact ⟨rfl, rfl, le_top⟩
    | heading => exact ⟨rfl, rfl, le_top⟩
  obtain ⟨past, pastA, pastB, r, -, -, hpast, hr, -, -, -, hdistance, hpastA, hrestA, hpastB,
    hrestB⟩ := addPose_pull he hle hsharp hvague
  obtain rfl : ahead (1 / 2) = past := Option.some.inj (hlookup.symm.trans hpast)
  have hresidual : byAxis r = offset 2 0 π :=
    hr.symm.trans (difference_shift 2 0 π _ rfl (by linarith [pi_pos]) le_rfl)
  have hx : r .x = 2 := Exact.real.inj (congrArg Shift.dx hresidual)
  have hy : r .y = 0 := Exact.real.inj (congrArg Shift.dy hresidual)
  have hθ : r .heading = π := Exact.real.inj (congrArg Shift.dtheta hresidual)
  refine ⟨start, he, hentries, hdistance, pastA, pastB, hpastA, hrestA.trans ?_, hpastB,
    hrestB.trans ?_⟩
  · show offset ((1 - 1 / (1 + 1)) * r .x) ((1 - 1 / (1 + 1)) * r .y)
      ((1 - 1 / (1 + 1)) * r .heading) = _
    rw [hx, hy, hθ]
    congr 1 <;> ring
  · show offset ((1 - 1 / (1 + 3)) * r .x) ((1 - 0) * r .y) ((1 - 0) * r .heading) = _
    rw [hx, hy, hθ]
    congr 1 <;> ring

end SwerveLocalization.Exact
