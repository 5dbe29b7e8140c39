import Mathlib
import SwerveLocalization.Proofs.Binary64.Operations
import SwerveLocalization.Proofs.Exact.Convergence
import SwerveLocalization.Proofs.Localization.Lookup

/-!
# Between two entries

Without rounding the pose between two entries of a record divides the way from
one to the other: the position on the straight line, and the heading on the shorter
arc, in either direction across the seam of the angles. What is looked up at an
entry, behind the newest one or before the oldest holds with rounding as well.
-/

namespace SwerveLocalization.Exact

open Real Scalar Trajectory

/-- The turn from the heading of `p` to that of `q`, the short way. -/
noncomputable def shortTurn (p q : Pose Exact) : ℝ :=
  ((toReal q.heading - toReal p.heading : ℝ) : Real.Angle).toReal

/-- The pose a fraction `u` of the way from `p` to `q`. Its heading is a wrapped one, and
it divides the short turn in the same proportion. -/
structure Divides (p q m : Pose Exact) (u : ℝ) : Prop where
  finite : m.isFinite = true
  x : toReal m.position.x = (1 - u) * toReal p.position.x + u * toReal q.position.x
  y : toReal m.position.y = (1 - u) * toReal p.position.y + u * toReal q.position.y
  wrapped : toReal m.heading ∈ Set.Ioc (-π) π
  congruent : (toReal m.heading : Real.Angle) = (toReal p.heading + u * shortTurn p q : ℝ)
  fromStart : shortTurn p m = u * shortTurn p q
  toFinish : shortTurn m q = (1 - u) * shortTurn p q

variable {p q : Pose Exact} {u : ℝ}

theorem coe_shortTurn (p q : Pose Exact) :
    (shortTurn p q : Real.Angle) = (toReal q.heading - toReal p.heading : ℝ) := Angle.coe_toReal _

theorem shortTurn_mem (p q : Pose Exact) : -π < shortTurn p q ∧ shortTurn p q ≤ π :=
  ⟨Angle.neg_pi_lt_toReal _, Angle.toReal_le_pi _⟩

theorem toReal_part_shortTurn (p q : Pose Exact) (hu : 0 ≤ u) (hu' : u ≤ 1) :
    ((u * shortTurn p q : ℝ) : Real.Angle).toReal = u * shortTurn p q :=
  Angle.toReal_coe_eq_self_iff.mpr (part_mem hu hu' (shortTurn_mem p q))

/-- The heading of a blend is that of its start, turned by a part of the short turn. -/
theorem heading_blend (hp : p.isFinite = true) (hq : q.isFinite = true) (u : ℝ) :
    (p.blend q (real u)).heading
      = real ((toReal p.heading + u * shortTurn p q : ℝ) : Real.Angle).toReal := by
  simp only [Pose.isFinite, Bool.and_eq_true] at hp hq
  have hturn : Angle.turn q.heading p.heading = real (shortTurn p q) := by
    unfold SwerveLocalization.Angle.turn
    rw [← real_toReal hp.2, ← real_toReal hq.2, real_sub_real, wrap_real]
    rfl
  show Angle.wrap (Angle.wrap (p.heading + Angle.turn q.heading p.heading * real u)) = _
  rw [hturn, wrap_wrap, ← real_toReal hp.2, real_mul_real, real_add_real, wrap_real, toReal_real,
    mul_comm u]

theorem position_blend (hp : p.isFinite = true) (hq : q.isFinite = true) (hu' : u < 1) :
    (p.blend q (real u)).position
      = ⟨real ((1 - u) * toReal p.position.x + u * toReal q.position.x),
        real ((1 - u) * toReal p.position.y + u * toReal q.position.y)⟩ := by
  simp only [Pose.isFinite, Vec2.isFinite, Bool.and_eq_true] at hp hq
  have hrest : ¬ (real (1 - u) == 0) = true := by
    rw [zero_eq, real_beq_real]
    linarith
  have hmean : ∀ {a b : Exact}, Scalar.isFinite a = true → Scalar.isFinite b = true →
      real u * b + real (1 - u) * a = real ((1 - u) * toReal a + u * toReal b) := by
    intro a b ha hb
    rw [← real_toReal ha, ← real_toReal hb, real_mul_real, real_mul_real, real_add_real, add_comm]
    rfl
  refine (if_neg hrest).trans ?_
  exact congrArg₂ Vec2.mk (hmean hp.1.1 hq.1.1) (hmean hp.1.2 hq.1.2)

theorem divides_blend (hp : p.isFinite = true) (hq : q.isFinite = true) (hu : 0 < u) (hu' : u < 1) :
    Divides p q (p.blend q (real u)) u := by
  have hposition := position_blend hp hq hu'
  have hheading := heading_blend hp hq u
  have hcongruent : (toReal (p.blend q (real u)).heading : Real.Angle)
      = (toReal p.heading + u * shortTurn p q : ℝ) := by
    rw [hheading, toReal_real, Angle.coe_toReal]
  have hfirst := toReal_part_shortTurn p q hu.le hu'.le
  have hrest := toReal_part_shortTurn p q (u := 1 - u) (by linarith) (by linarith)
  refine ⟨isFinite_blend hp hq u, by rw [hposition]; rfl, by rw [hposition]; rfl, ?_, hcongruent,
    ?_, ?_⟩
  · rw [hheading]
    exact ⟨Angle.neg_pi_lt_toReal _, Angle.toReal_le_pi _⟩
  · rw [← hfirst]
    unfold shortTurn
    rw [Angle.coe_sub, hcongruent, Angle.coe_add, add_sub_cancel_left]
    rfl
  · have hparts : (1 - u) * shortTurn p q = shortTurn p q - u * shortTurn p q := by ring
    have hleft : ((toReal q.heading - toReal (p.blend q (real u)).heading : ℝ) : Real.Angle)
        = ((1 - u) * shortTurn p q : ℝ) := by
      rw [Angle.coe_sub, hcongruent, hparts, Angle.coe_sub, coe_shortTurn, Angle.coe_sub,
        Angle.coe_add, sub_sub]
    rw [← hrest, ← hleft]
    rfl

/-! ## Records of real poses -/

/-- What is done to a record with real numbers only. -/
def IsReal : Operation Exact → Prop
  | .push w => Scalar.isFinite w.time = true ∧ w.pose.isFinite = true
  | .shift d => Scalar.isFinite d.dx = true ∧ Scalar.isFinite d.dy = true ∧
      Scalar.isFinite d.dtheta = true
  | .clear => True

theorem finite_perform {j : Journal Exact}
    (hj : ∀ w ∈ j.trajectory.entries, w.pose.isFinite = true) {o : Operation Exact}
    (ho : IsReal o) :
    ∀ w ∈ (j.perform o).trajectory.entries, w.pose.isFinite = true := by
  cases o with
  | push e =>
    cases hpush : j.trajectory.push? e with
    | none => simpa only [Journal.perform, hpush] using hj
    | some after =>
      simp only [Journal.perform, hpush]
      intro w hw
      rcases mem_push? hpush hw with hw | rfl
      · exact hj w hw
      · exact ho.2
  | shift d =>
    obtain ⟨hx, hy, hθ⟩ := ho
    have hd : d = offset (toReal d.dx) (toReal d.dy) (toReal d.dtheta) := by
      unfold offset
      rw [real_toReal hx, real_toReal hy, real_toReal hθ]
    rw [hd]
    intro w hw
    obtain ⟨v, hv, rfl⟩ := List.mem_map.mp hw
    exact isFinite_shift (hj v hv) _ _ _
  | clear => exact fun _ hw => absurd hw List.not_mem_nil

theorem finite_run (capacity : Nat) (window : Exact) {operations : List (Operation Exact)}
    (hreal : ∀ o ∈ operations, IsReal o) :
    ∀ w ∈ ((Journal.start capacity window).run operations).trajectory.entries,
      w.pose.isFinite = true := by
  refine Journal.run_preserves (P := fun j => ∀ w ∈ j.trajectory.entries, w.pose.isFinite = true)
    (fun _ hw => absurd hw List.not_mem_nil) fun j o ho hj => ?_
  exact finite_perform hj (hreal o ho)

/-! ## Looking up between two entries -/

/-- Between two entries the record holds what divides the way between them. -/
theorem divides_poseAt? {h : Trajectory Exact} (horder : InOrder h.entries)
    (hposes : ∀ w ∈ h.entries, w.pose.isFinite = true) {a b : Waypoint Exact}
    (hab : [a, b] <:+: h.entries) {t : ℝ} (hleft : a.time < real t) (hright : real t < b.time) :
    let u := (t - toReal a.time) / (toReal b.time - toReal a.time)
    0 < u ∧ u < 1 ∧ ∃ m, h.poseAt? (real t) = some m ∧ Divides a.pose b.pose m u := by
  intro u
  have hmem : a ∈ h.entries ∧ b ∈ h.entries := ⟨hab.subset (by simp), hab.subset (by simp)⟩
  have hstart := real_toReal (horder.finite a hmem.1)
  have hend := real_toReal (horder.finite b hmem.2)
  have hu : toReal a.time < t := by rwa [← hstart, real_lt_real] at hleft
  have hu' : t < toReal b.time := by rwa [← hend, real_lt_real] at hright
  have hlower : 0 < u := div_pos (sub_pos.mpr hu) (sub_pos.mpr (hu.trans hu'))
  have hupper : u < 1 := (div_lt_one (sub_pos.mpr (hu.trans hu'))).mpr (by linarith)
  have hbefore : ¬ b.time < real t :=
    fun hlt => RealScalar.not_le_of_lt hright (RealScalar.le_of_lt hlt)
  have hat : ¬ (b.time == real t) = true :=
    fun heq => RealScalar.not_le_of_lt hright ((GradualScalar.beq_iff _ _).mp heq).1
  obtain ⟨front, back, hentries⟩ := hab
  rw [List.append_assoc, List.cons_append, List.cons_append, List.nil_append] at hentries
  refine ⟨hlower, hupper, a.pose.blend b.pose (real u), ?_,
    divides_blend (hposes a hmem.1) (hposes b hmem.2) hlower hupper⟩
  rw [poseAt?_of_lt horder hentries.symm hleft, walk, if_neg hbefore, if_neg hat, ← hstart, ← hend,
    inverseLerp_real (hu.trans hu')]

/-- Whatever is done to a record, with whatever bounds: it answers at its entries, before
them and behind them with what they hold, and without rounding it answers between
two of them with the pose that divides the way from one to the other. -/
theorem poseAt?_interpolates :
    (∀ (capacity : Nat) (window : Float) (operations : List (Operation Float)),
      (∀ e, .push e ∈ operations → Scalar.isFinite e.time = true) →
      ∀ t, LooksUp ((Journal.start capacity window).run operations).trajectory t) ∧
    (∀ (capacity : Nat) (window : Exact) (operations : List (Operation Exact)),
      (∀ o ∈ operations, IsReal o) →
      let h := ((Journal.start capacity window).run operations).trajectory
      (∀ t, LooksUp h t) ∧
      ∀ a b, [a, b] <:+: h.entries → ∀ t : ℝ, a.time < real t → real t < b.time →
        let u := (t - toReal a.time) / (toReal b.time - toReal a.time)
        0 < u ∧ u < 1 ∧ ∃ m, h.poseAt? (real t) = some m ∧ Divides a.pose b.pose m u) := by
  constructor
  · intro capacity window operations hfinite t
    exact looksUp (inOrder_run capacity window hfinite) t
  · intro capacity window operations hreal h
    have horder : InOrder h.entries := by
      apply inOrder_run
      intro e he
      exact (hreal _ he).1
    have hposes := finite_run capacity window hreal
    refine ⟨looksUp horder, ?_⟩
    intro a b hab t hleft hright
    exact divides_poseAt? horder hposes hab hleft hright

/-- Two entries whose headings lie on either side of the seam of the angles. -/
noncomputable def acrossTheSeam : List (Operation Exact) :=
  [.push ⟨real 0, ⟨real 0, real 0⟩, real (π - 1)⟩,
    .push ⟨real 1, ⟨real (1 + 1), real 0⟩, real (1 - π)⟩]

theorem entries_acrossTheSeam :
    ((Journal.start 2 (real 10)).run acrossTheSeam).trajectory.entries
      = [⟨real 0, ⟨real 0, real 0⟩, real (π - 1)⟩,
        ⟨real 1, ⟨real (1 + 1), real 0⟩, real (1 - π)⟩] := by
  have hrecent : ¬ (10 : ℝ) < 1 := by norm_num
  simp [acrossTheSeam, Journal.start, Journal.run, Journal.perform, Trajectory.empty, push?, admits,
    newest?, keepLatest, keepRecent, hrecent]

/-- A binary64 record is not asked for what it has forgotten, and stands still behind its
newest entry. Halfway across the seam the heading is that of the seam itself. -/
theorem poseAt?_interpolates_acrossTheSeam :
    let h := ((Journal.start 2 1.5).run Journal.lateAndEvicted).trajectory
    let h' := ((Journal.start 2 (real 10)).run acrossTheSeam).trajectory
    h.poseAt? 0.5 = none ∧ h.poseAt? 3 = some .origin ∧
      h'.poseAt? (real (1 / 2)) = some ⟨⟨real 1, real 0⟩, real π⟩ := by
  intro h h'
  obtain ⟨hrounded, hexact⟩ := poseAt?_interpolates
  have hlooks := hrounded 2 1.5 Journal.lateAndEvicted Journal.finite_lateAndEvicted
  have holdest : h.oldest? = some ⟨1, Pose.origin.shift ⟨1, 0, 0⟩⟩ := by decide +kernel
  have hnewest : h.newest? = some ⟨2, .origin⟩ := by decide +kernel
  refine ⟨(hlooks 0.5).none_iff.mpr (.inr ⟨_, holdest, by decide +kernel⟩),
    (hlooks 3).newest _ hnewest (by decide +kernel), ?_⟩
  have hreal : ∀ o ∈ acrossTheSeam, IsReal o := by
    simp [acrossTheSeam, IsReal, Pose.isFinite, Vec2.isFinite]
  obtain ⟨-, -, m, hm, hdivides⟩ := (hexact 2 (real 10) acrossTheSeam hreal).2 _ _
    ⟨[], [], entries_acrossTheSeam.symm⟩ (1 / 2) (by norm_num) (by norm_num)
  obtain ⟨hfinite, hx, hy, hwrapped, hcongruent, -, -⟩ := hdivides
  have hturn : ((1 - π - (π - 1) : ℝ) : Real.Angle).toReal = 2 := by
    refine (eq_toReal _ ?_ ?_ (k := 1) ?_).symm
    · linarith [pi_pos]
    · linarith [pi_gt_three]
    · push_cast
      ring
  simp only [toReal_real, shortTurn, hturn] at hx hy hcongruent
  have hheading : toReal m.heading = π := by
    have hseam : π - 1 + (1 / 2 - 0) / (1 - 0) * 2 = π := by ring
    rw [← Angle.toReal_coe_eq_self_iff.mpr hwrapped, hcongruent, hseam, Angle.toReal_pi]
  have hx : toReal m.position.x = 1 := by linarith
  have hy : toReal m.position.y = 0 := by linarith
  simp only [Pose.isFinite, Vec2.isFinite, Bool.and_eq_true] at hfinite
  rw [hm, ← hheading, ← hx, ← hy, real_toReal hfinite.2, real_toReal hfinite.1.1,
    real_toReal hfinite.1.2]

end SwerveLocalization.Exact
