import Mathlib
import SwerveLocalization.Proofs.Exact.CourseRecord

/-!
# No residual is applied twice

Cameras that all see the robot displaced by one offset correct the estimate by
a fraction of this offset, whatever the times of their captures and the order in
which they report. Without rounding the fraction can be given: what each of
them leaves is the complement of its trust, and what all of them leave is the
product.
-/

namespace SwerveLocalization.Exact

open Estimator Real

/-! ## Trust -/

/-- The trust in a deviation, as a real number. -/
noncomputable def weight : Exact → ℝ
  | real s => 1 / (1 + s)
  | _ => 0

variable {σ : Exact}

theorem trust_eq (h : 0 < σ) : trust σ = real (weight σ) := by
  unfold trust
  cases σ with
  | real s =>
    have hs : (0 : ℝ) < s := (real_lt_real 0 s).mp h
    rw [if_neg (by simp [Scalar.isInfinite])]
    exact real_div_real 1 (1 + s) (by positivity)
  | posInf => rfl
  | negInf => exact absurd h.2.2 (by simp [value])
  | nan => exact absurd h.2.1 (by decide)

theorem weight_nonneg (h : 0 < σ) : 0 ≤ weight σ := by
  cases σ with
  | real s =>
    have hs : (0 : ℝ) < s := (real_lt_real 0 s).mp h
    unfold weight
    positivity
  | _ => exact le_refl _

theorem weight_lt_one (h : 0 < σ) : weight σ < 1 := by
  cases σ with
  | real s =>
    have hs : (0 : ℝ) < s := (real_lt_real 0 s).mp h
    unfold weight
    rw [div_lt_one (by positivity)]
    linarith
  | _ => exact zero_lt_one

/-- The fraction of an offset that measurements have corrected together on an
axis. -/
noncomputable def corrected (axis : Vec3 Exact → Exact) (ms : List (PoseMeasurement Exact)) : ℝ :=
  1 - (ms.map fun m => 1 - weight (axis m.deviations)).prod

theorem corrected_nil (axis : Vec3 Exact → Exact) : corrected axis [] = 0 := sub_self 1

/-- The next measurement corrects its part of the offset, and the others their
fraction of what is left. -/
theorem corrected_cons (axis : Vec3 Exact → Exact) (m : PoseMeasurement Exact)
    (ms : List (PoseMeasurement Exact)) :
    corrected axis (m :: ms)
      = weight (axis m.deviations) + corrected axis ms * (1 - weight (axis m.deviations)) := by
  unfold corrected
  rw [List.map_cons, List.prod_cons]
  ring

theorem corrected_append (axis : Vec3 Exact → Exact) (first rest : List (PoseMeasurement Exact)) :
    corrected axis (first ++ rest)
      = corrected axis first + corrected axis rest * (1 - corrected axis first) := by
  unfold corrected
  rw [List.map_append, List.prod_append]
  ring

theorem corrected_bounds {axis : Vec3 Exact → Exact} {ms : List (PoseMeasurement Exact)}
    (h : ∀ m ∈ ms, 0 < axis m.deviations) : 0 ≤ corrected axis ms ∧ corrected axis ms < 1 := by
  induction ms with
  | nil =>
    rw [corrected_nil]
    exact ⟨le_refl _, zero_lt_one⟩
  | cons m ms ih =>
    obtain ⟨hlower, hupper⟩ := ih fun m' hm' => h m' (List.mem_cons_of_mem _ hm')
    have hw := weight_nonneg (h m List.mem_cons_self)
    have hw' := weight_lt_one (h m List.mem_cons_self)
    rw [corrected_cons]
    constructor <;> nlinarith

/-- The shift by the corrected fractions of an offset. -/
noncomputable def correction (ms : List (PoseMeasurement Exact)) (x y θ : ℝ) : Shift Exact :=
  offset (corrected Vec3.x ms * x) (corrected Vec3.y ms * y) (corrected Vec3.z ms * θ)

/-! ## Measurements of one offset -/

/-- Camera poses that are all accepted, and that see the robot displaced by one
offset from where the record has it at the times of their captures. -/
structure SeesOffset (e : Estimator Exact) (x y θ : ℝ) (ms : List (PoseMeasurement Exact)) :
    Prop where
  accepted : (e.run (ms.map .vision)).1 = ms.map fun _ => [.accepted]
  displaced : ∀ m ∈ ms, ∃ past, e.trajectory.poseAt? m.time = some past ∧
    m.pose = past.shift (offset x y θ)

variable {e : Estimator Exact} {x y θ : ℝ} {m : PoseMeasurement Exact}
  {ms : List (PoseMeasurement Exact)}

/-- The first of several accepted measurements is accepted, and so are the
others after it. -/
theorem accepted_cons (h : (e.run ((m :: ms).map .vision)).1 = (m :: ms).map fun _ => [.accepted]) :
    (∃ d, e.assess m = .ok d ∧ (e.addPose m).2 = (e.displace d).confirm m.time) ∧
      ((e.addPose m).2.run (ms.map .vision)).1 = ms.map fun _ => [.accepted] := by
  obtain ⟨hfirst, hrest⟩ := List.cons.inj h
  refine ⟨?_, hrest⟩
  rcases addPose_cases e m with ⟨d, hd, hpose⟩ | ⟨r, -, hpose⟩
  · exact ⟨d, hd, by rw [hpose]⟩
  · have hverdict : [(e.addPose m).1] = [.accepted] := hfirst
    rw [hpose] at hverdict
    simp at hverdict

theorem usable_of_accepted (h : (e.run (ms.map .vision)).1 = ms.map fun _ => [.accepted]) :
    ∀ m ∈ ms, m.isFinite = true ∧ m.hasUsableDeviations = true := by
  induction ms generalizing e with
  | nil => simp
  | cons m ms ih =>
    obtain ⟨⟨d, hd, -⟩, hrest⟩ := accepted_cons h
    obtain ⟨hfinite, husable, -⟩ := assess_eq_ok hd
    intro m' hm'
    rcases List.mem_cons.mp hm' with rfl | hm'
    · exact ⟨hfinite, husable⟩
    · exact ih hrest m' hm'

theorem deviations_pos (h : m.hasUsableDeviations = true) :
    0 < m.deviations.x ∧ 0 < m.deviations.y ∧ 0 < m.deviations.z := by
  simp only [PoseMeasurement.hasUsableDeviations, Bool.and_eq_true, decide_eq_true_eq] at h
  exact ⟨h.1.1.1, h.1.1.2, h.1.2⟩

theorem isFinite_of_shift {p : Pose Exact} (h : (p.shift (offset x y θ)).isFinite = true) :
    p.isFinite = true := by
  rw [shift_eq] at h
  simp only [Pose.isFinite, Vec2.isFinite, Bool.and_eq_true] at h ⊢
  refine ⟨⟨?_, ?_⟩, ?_⟩
  · by_contra hx
    rw [Bool.not_eq_true] at hx
    rw [add_real_of_not_finite x hx, hx] at h
    simp at h
  · by_contra hy
    rw [Bool.not_eq_true] at hy
    rw [add_real_of_not_finite y hy, hy] at h
    simp at h
  · by_contra hθ
    rw [Bool.not_eq_true] at hθ
    rw [add_real_of_not_finite θ hθ, wrap_of_not_finite hθ] at h
    exact absurd h.2 (by decide)

/-- A measurement that sees an offset applies its part of the offset. -/
theorem correctionOf_shift {past : Pose Exact} (hm : m.pose = past.shift (offset x y θ))
    (hfinite : m.isFinite = true) (husable : m.hasUsableDeviations = true) (hlower : -π < θ)
    (hupper : θ ≤ π) :
    m.correctionOf past = offset (weight m.deviations.x * x) (weight m.deviations.y * y)
      (weight m.deviations.z * θ) := by
  obtain ⟨hx, hy, hz⟩ := deviations_pos husable
  have hpast : past.isFinite = true := by
    simp only [PoseMeasurement.isFinite, Bool.and_eq_true] at hfinite
    rw [hm] at hfinite
    exact isFinite_of_shift hfinite.1
  unfold PoseMeasurement.correctionOf
  rw [hm, difference_shift x y θ past hpast hlower hupper, trust_eq hx, trust_eq hy, trust_eq hz]
  rfl

theorem Increasing.shift {h : Trajectory Exact} (hincreasing : Increasing h.entries)
    (d : Shift Exact) : Increasing (h.shift d).entries := by
  refine ⟨?_, List.pairwise_map.mpr hincreasing.2⟩
  intro w hw
  obtain ⟨v, hv, rfl⟩ := List.mem_map.mp hw
  exact hincreasing.1 v hv

/-- A part of a turn that goes the short way goes the short way. -/
theorem part_mem {w : ℝ} (hw : 0 ≤ w) (hw' : w ≤ 1) (hθ : -π < θ ∧ θ ≤ π) :
    -π < w * θ ∧ w * θ ≤ π := by
  have hpi := pi_pos
  rcases le_total 0 θ with h | h
  · have hnonneg := mul_nonneg hw h
    have hle := mul_le_of_le_one_left h hw'
    constructor <;> linarith
  · have hnonpos := mul_nonpos_of_nonneg_of_nonpos hw h
    have hge := le_mul_of_le_one_left h hw'
    constructor <;> linarith

/-- What is left of an offset after a correction lies between no turn and the
whole turn. -/
theorem remaining_mem {w : ℝ} (hw : 0 ≤ w) (hw' : w < 1) (hlower : -π < θ) (hupper : θ ≤ π) :
    -π < θ - w * θ ∧ θ - w * θ ≤ π := by
  obtain ⟨hlow, hhigh⟩ := part_mem (w := 1 - w) (by linarith) (by linarith) ⟨hlower, hupper⟩
  constructor <;> linarith

/-- After the first measurement the others see what is left of the offset. -/
theorem SeesOffset.tail (h : SeesOffset e x y θ (m :: ms))
    (hincreasing : Increasing e.trajectory.entries) (hlower : -π < θ) (hupper : θ ≤ π) :
    let d := offset (weight m.deviations.x * x) (weight m.deviations.y * y)
      (weight m.deviations.z * θ)
    (e.addPose m).2 = (e.displace d).confirm m.time ∧
      SeesOffset (e.addPose m).2 (x - weight m.deviations.x * x) (y - weight m.deviations.y * y)
        (θ - weight m.deviations.z * θ) ms := by
  intro d
  obtain ⟨⟨d', hd', hpose⟩, hrest⟩ := accepted_cons h.accepted
  obtain ⟨hfinite, husable, past, hpast, rfl⟩ := assess_eq_ok hd'
  obtain ⟨past', hpast', hm⟩ := h.displaced m List.mem_cons_self
  obtain rfl : past = past' := Option.some.inj (hpast.symm.trans hpast')
  have hd : m.correctionOf past = d := correctionOf_shift hm hfinite husable hlower hupper
  rw [hd] at hpose
  refine ⟨hpose, hrest, ?_⟩
  -- the record moved with the estimate, so at every time less of the offset is left
  intro m' hm'
  obtain ⟨before, hbefore, hseen⟩ := h.displaced m' (List.mem_cons_of_mem _ hm')
  have hfinite' := (usable_of_accepted hrest m' hm').1
  simp only [PoseMeasurement.isFinite, Bool.and_eq_true] at hfinite'
  obtain ⟨t, ht⟩ := isFinite_iff_exists.mp hfinite'.2
  refine ⟨before.shift d, ?_, ?_⟩
  · rw [hpose]
    show (e.trajectory.shift d).poseAt? m'.time = _
    rw [ht] at hbefore ⊢
    rw [poseAt?_shift _ _ _ hincreasing, hbefore]
    rfl
  · rw [shift_shift, add_sub_cancel, add_sub_cancel, add_sub_cancel]
    exact hseen

/-- Together the measurements correct their fraction of the offset, once. -/
theorem SeesOffset.pose_eq (h : SeesOffset e x y θ ms)
    (hincreasing : Increasing e.trajectory.entries)
    (hwrapped : Angle.wrap e.pose.heading = e.pose.heading) (hlower : -π < θ) (hupper : θ ≤ π) :
    (e.run (ms.map .vision)).2.pose = e.pose.shift (correction ms x y θ) := by
  induction ms generalizing e x y θ with
  | nil =>
    have hnone : correction [] x y θ = offset 0 0 0 := by
      unfold correction
      rw [corrected_nil, corrected_nil, corrected_nil, zero_mul, zero_mul, zero_mul]
    rw [hnone, shift_zero _ hwrapped]
    rfl
  | cons m ms ih =>
    obtain ⟨hstate, htail⟩ := h.tail hincreasing hlower hupper
    obtain ⟨-, -, hz⟩ := deviations_pos (usable_of_accepted h.accepted m List.mem_cons_self).2
    obtain ⟨hlower', hupper'⟩ :=
      remaining_mem (weight_nonneg hz) (weight_lt_one hz) hlower hupper
    have hpose : (e.addPose m).2.pose = e.pose.shift (offset (weight m.deviations.x * x)
        (weight m.deviations.y * y) (weight m.deviations.z * θ)) := by
      rw [hstate]
      rfl
    have hincreasing' : Increasing (e.addPose m).2.trajectory.entries := by
      rw [hstate]
      exact hincreasing.shift _
    have hwrapped' : Angle.wrap (e.addPose m).2.pose.heading = (e.addPose m).2.pose.heading := by
      rw [hpose]
      exact wrap_wrap
    -- the rest starts from the corrected estimate and what is left of the offset
    have hlast := ih htail hincreasing' hwrapped' hlower' hupper'
    have hrun : (e.run ((m :: ms).map .vision)).2.pose
        = ((e.addPose m).2.run (ms.map .vision)).2.pose := rfl
    rw [hrun, hlast, hpose]
    unfold correction
    rw [shift_shift, corrected_cons, corrected_cons, corrected_cons]
    congr 2 <;> ring

/-- What holds of measurements holds of the first ones of them. -/
theorem SeesOffset.initial {first : List (PoseMeasurement Exact)} (h : SeesOffset e x y θ ms)
    (hfirst : first <+: ms) : SeesOffset e x y θ first := by
  obtain ⟨rest, rfl⟩ := hfirst
  refine ⟨?_, fun m hm => h.displaced m (List.mem_append_left _ hm)⟩
  have haccepted := h.accepted
  rw [List.map_append, run_append, List.map_append] at haccepted
  exact (List.append_inj haccepted (by rw [length_run, List.length_map, List.length_map])).1

theorem corrected_perm {axis : Vec3 Exact → Exact} {ms ms' : List (PoseMeasurement Exact)}
    (h : (ms'.map PoseMeasurement.deviations).Perm (ms.map PoseMeasurement.deviations)) :
    corrected axis ms' = corrected axis ms := by
  have hprod := (h.map fun d => 1 - weight (axis d)).prod_eq
  rw [List.map_map, List.map_map] at hprod
  exact congrArg (fun c => 1 - c) hprod

theorem corrected_mono {axis : Vec3 Exact → Exact} {first second : List (PoseMeasurement Exact)}
    (h : ∀ m ∈ second, 0 < axis m.deviations) (hfirst : first <+: second) :
    corrected axis first ≤ corrected axis second := by
  obtain ⟨rest, rfl⟩ := hfirst
  have hbefore := corrected_bounds fun m hm => h m (List.mem_append_left _ hm)
  have hafter := corrected_bounds fun m hm => h m (List.mem_append_right _ hm)
  rw [corrected_append]
  have hrest := mul_nonneg hafter.1 (sub_nonneg.mpr hbefore.2.le)
  linarith

theorem axis_pos {axis : Vec3 Exact → Exact} (haxis : axis ∈ [Vec3.x, Vec3.y, Vec3.z])
    (h : SeesOffset e x y θ ms) : ∀ m ∈ ms, 0 < axis m.deviations := by
  intro m hm
  obtain ⟨hx, hy, hz⟩ := deviations_pos (usable_of_accepted h.accepted m hm).2
  simp only [List.mem_cons, List.not_mem_nil, or_false] at haxis
  rcases haxis with rfl | rfl | rfl
  · exact hx
  · exact hy
  · exact hz

/-! ## Reachable estimators -/

/-- A pose as `Pose.make` makes them. -/
def Wrapped (p : Pose Exact) : Prop := Angle.wrap p.heading = p.heading

theorem wrapped_origin : Wrapped (Pose.origin : Pose Exact) := by
  show Angle.wrap (real 0) = real 0
  simp

/-- Every step leaves the estimate at a pose with a wrapped heading. -/
theorem wrapped_run {commands : List (Command Exact)} (he : Wrapped e.pose)
    (hreset : ∀ p, .reset p ∈ commands → Wrapped p) : Wrapped (e.run commands).2.pose := by
  refine run_preserves (P := fun e => Wrapped e.pose) (Q := Wrapped) ?_ ?_ ?_ commands he hreset
  · intro e s he
    rcases addDrive_cases e s with ⟨after, hafter, hdrive⟩ | ⟨r, -, hdrive⟩
    · obtain ⟨-, -, reckoner, hupdate, rfl⟩ := integrate_eq_ok hafter
      rw [hdrive]
      obtain ⟨-, ⟨-, rfl⟩ | ⟨before, -, rfl⟩⟩ := DeadReckoner.update_eq_ok hupdate
      · exact he
      · exact wrap_wrap
    · rw [hdrive]
      exact he
  · intro e m he
    rcases addPose_cases e m with ⟨d, -, hpose⟩ | ⟨r, -, hpose⟩
    · rw [hpose]
      exact wrap_wrap
    · rw [hpose]
      exact he
  · intro e p hp _
    exact hp

theorem increasing_run {chassis : Chassis Exact} {pose : Pose Exact}
    {settings : EstimatorSettings Exact} {start : Estimator Exact}
    (hbuild : build chassis pose settings = .ok start) (commands : List (Command Exact)) :
    Increasing (start.run commands).2.trajectory.entries := by
  obtain ⟨hcapacity, hwindow, -, -⟩ := build_eq_ok hbuild
  have h := (coherent_build hbuild).run (by omega) (RealScalar.le_of_lt hwindow) commands
  exact ⟨h.finite, h.ordered⟩

/-- From any reachable estimator, measurements that see one offset shift the
estimate by their fraction of it on each axis, and so do the first of them. The
fractions grow and stay below one, and they do not depend on the order or the
times of the captures. -/
theorem residual_once {chassis : Chassis Exact} {pose : Pose Exact}
    {settings : EstimatorSettings Exact} {start : Estimator Exact}
    (hbuild : build chassis pose settings = .ok start) (hpose : Wrapped pose)
    (commands : List (Command Exact)) (hreset : ∀ p, .reset p ∈ commands → Wrapped p)
    (hlower : -π < θ) (hupper : θ ≤ π) (hsees : SeesOffset (start.run commands).2 x y θ ms) :
    let e := (start.run commands).2
    (∀ first, first <+: ms →
      (e.run (first.map .vision)).2.pose = e.pose.shift (correction first x y θ)) ∧
    (∀ axis ∈ [Vec3.x, Vec3.y, Vec3.z], ∀ first second, first <+: second → second <+: ms →
      0 ≤ corrected axis first ∧ corrected axis first ≤ corrected axis second ∧
        corrected axis second < 1) ∧
    ∀ ms', SeesOffset e x y θ ms' →
      (ms'.map PoseMeasurement.deviations).Perm (ms.map PoseMeasurement.deviations) →
      (e.run (ms'.map .vision)).2.pose = (e.run (ms.map .vision)).2.pose := by
  intro e
  have hincreasing : Increasing e.trajectory.entries := increasing_run hbuild commands
  have hwrapped : Wrapped e.pose := by
    obtain ⟨-, -, -, rfl⟩ := build_eq_ok hbuild
    exact wrapped_run hpose hreset
  refine ⟨?_, ?_, ?_⟩
  · intro first hfirst
    exact (hsees.initial hfirst).pose_eq hincreasing hwrapped hlower hupper
  · intro axis haxis first second hfirst hsecond
    have hpos := axis_pos haxis (hsees.initial hsecond)
    have hpos' := axis_pos haxis (hsees.initial (hfirst.trans hsecond))
    exact ⟨(corrected_bounds hpos').1, corrected_mono hpos hfirst, (corrected_bounds hpos).2⟩
  · intro ms' hsees' hperm
    rw [hsees'.pose_eq hincreasing hwrapped hlower hupper,
      hsees.pose_eq hincreasing hwrapped hlower hupper]
    unfold correction
    rw [corrected_perm hperm, corrected_perm hperm, corrected_perm hperm]

/-- A camera pose that has the robot displaced from `p`. -/
noncomputable def displacedSighting (p : Pose Exact) (d : Shift Exact) (time : ℝ)
    (deviations : Vec3 Exact) : PoseMeasurement Exact :=
  ⟨p.shift d, real time, deviations⟩

theorem isFinite_displacedSighting (s x y θ time : ℝ) (deviations : Vec3 Exact) :
    (displacedSighting (ahead s) (offset x y θ) time deviations).isFinite = true := by
  simp [displacedSighting, PoseMeasurement.isFinite, Pose.isFinite, Vec2.isFinite, shift_eq, ahead]

/-- Sound camera poses of times that the record covers are accepted in any order, so they only
have to show the offset. -/
theorem seesOffset_of_covered
    (hsound : ∀ m ∈ ms, m.isFinite = true ∧ m.hasUsableDeviations = true)
    (hshown : ∀ m ∈ ms, ∃ past, e.trajectory.poseAt? m.time = some past ∧
      m.pose = past.shift (offset x y θ)) : SeesOffset e x y θ ms := by
  refine ⟨accepted_of_covered hsound ?_, hshown⟩
  intro m hm
  obtain ⟨past, hpast, -⟩ := hshown m hm
  exact Option.isSome_of_eq_some hpast

/-- Three captures out of order, from between the entries of the record and from after the
newest one, see the robot a metre further on, two metres further left and turned by a
radian. They correct thirteen sixteenths of the way ahead and of the turn and, as the
second one says nothing of it, three quarters of the way to the left. In the opposite
order they come to the same. -/
theorem residual_once_outOfOrder :
    let seen (time : ℝ) := displacedSighting (ahead (min time 2)) (offset 1 2 1) time
    let ms := [seen (3 / 2) ⟨real 1, real 1, real 1⟩, seen (1 / 2) ⟨real 1, posInf, real 3⟩,
      seen 3 ⟨real 3, real 1, real 1⟩]
    ∃ chassis start, Chassis.build squareOffsets = .ok chassis ∧
      build chassis .origin (settingsFor 4 4) = .ok start ∧
      let e := (start.run ((straightAhead apart_squareCorners).drives [0, 1, 2])).2
      e.trajectory.entries = [0, 1, 2].map (fun s => ⟨real s, ahead s⟩) ∧
        (e.run ((ms.take 1).map .vision)).2.pose = (ahead 2).shift (offset (1 / 2) 1 (1 / 2)) ∧
        (e.run (ms.map .vision)).2.pose
          = (ahead 2).shift (offset (13 / 16) (3 / 2) (13 / 16)) ∧
        (e.run (ms.reverse.map .vision)).2.pose = (e.run (ms.map .vision)).2.pose := by
  intro seen ms
  obtain ⟨start, hstart, hpose, hentries, hlookup⟩ := exists_driven apart_squareCorners
  refine ⟨_, start, build_squareOffsets, hstart, ?_⟩
  intro e
  have hsound : ∀ m ∈ ms, m.isFinite = true ∧ m.hasUsableDeviations = true := by
    simp only [ms, seen, List.forall_mem_cons, isFinite_displacedSighting]
    simp [displacedSighting, PoseMeasurement.hasUsableDeviations, Scalar.isInfinite]
  have hshown : ∀ m ∈ ms, ∃ past, e.trajectory.poseAt? m.time = some past ∧
      m.pose = past.shift (offset 1 2 1) := by
    intro m hm
    simp only [ms, List.mem_cons, List.not_mem_nil, or_false] at hm
    rcases hm with rfl | rfl | rfl <;> exact ⟨_, hlookup _ (by norm_num), rfl⟩
  have hsees : SeesOffset e 1 2 1 ms := seesOffset_of_covered hsound hshown
  have hsees' : SeesOffset e 1 2 1 ms.reverse := seesOffset_of_covered
    (fun m hm => hsound m (List.mem_reverse.mp hm)) fun m hm => hshown m (List.mem_reverse.mp hm)
  obtain ⟨hcorrected, -, hanyOrder⟩ := residual_once hstart wrapped_origin
    ((straightAhead apart_squareCorners).drives [0, 1, 2]) (by simp [Course.drives])
    (by linarith [pi_gt_three]) (by linarith [pi_gt_three]) hsees
  have hfirst := hcorrected (ms.take 1) (List.take_prefix 1 ms)
  have hall := hcorrected ms (List.prefix_refl ms)
  have hone : correction (ms.take 1) 1 2 1 = offset (1 / 2) 1 (1 / 2) := by
    simp only [correction, ms, seen, List.take, corrected_cons, corrected_nil, displacedSighting,
      weight]
    norm_num
  have hthree : correction ms 1 2 1 = offset (13 / 16) (3 / 2) (13 / 16) := by
    simp only [correction, ms, seen, corrected_cons, corrected_nil, displacedSighting, weight]
    norm_num
  rw [hone] at hfirst
  rw [hthree] at hall
  refine ⟨hentries, ?_, ?_, ?_⟩
  · rw [← hpose]
    exact hfirst
  · rw [← hpose]
    exact hall
  · exact hanyOrder ms.reverse hsees' ((List.reverse_perm ms).map _)

end SwerveLocalization.Exact
