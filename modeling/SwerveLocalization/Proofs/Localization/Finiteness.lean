import Mathlib
import SwerveLocalization.Proofs.Chassis.FiniteShares
import SwerveLocalization.Proofs.Localization.Steps
import SwerveLocalization.Proofs.Plane.FinitePose

/-!
# When an estimate stays finite

Readings and camera poses that are not finite are rejected. But the estimate is
fed by what is computed from them, and that may overflow. Main statement: along
any run the estimate and the record stay finite exactly if no turn of the gyro
overflows between two readings, and neither a motion nor a correction leads to a
position that is not finite. Nothing else can do harm: no wrapping, no deviation
and no time.
-/

namespace SwerveLocalization

open Binary64

/-! ## Corrections -/

theorem one_le_one_add {x : Float} (hx : x.isFinite = true) (hpos : 0 < real x) :
    (1 + x).isFinite = true ∧ 1 ≤ real (1 + x) := by
  have hone : IsHeading 1 := isHeading_iff.mpr (by decide +kernel)
  have hfinite := hone.isFinite_add hx
  obtain ⟨-, hsum⟩ := denotes_add (x := 1) rfl hx
  have hvalue : value (1 + x) = nearest (real 1 + real x) := hsum
  have hmono := nearest_mono (le_add_of_nonneg_right hpos.le : real 1 ≤ real 1 + real x)
  rw [← hvalue, value_eq_real hfinite, nearest_real rfl, EReal.coe_le_coe_iff, real_one] at hmono
  exact ⟨hfinite, hmono⟩

/-- However small or large a deviation is, a fraction of the residual is corrected. -/
theorem isFraction_trust {deviation : Float} (h : 0 < deviation) :
    IsFraction (trust deviation) := by
  obtain ⟨-, hnan, hpos⟩ := (lt_iff _ _).mp h
  unfold trust
  split_ifs with hinfinite
  · exact ⟨rfl, real_zero.ge, real_zero.le.trans zero_le_one⟩
  · have hfinite : deviation.isFinite = true := by
      by_contra hnot
      have hinfinite' : (!deviation.isFinite && !deviation.isNaN) = true := by
        rw [(Bool.not_eq_true _).mp hnot, hnan]
        rfl
      exact hinfinite hinfinite'
    rw [value_zero, value_eq_real hfinite] at hpos
    obtain ⟨hsum, hone⟩ := one_le_one_add hfinite (EReal.coe_pos.mp hpos)
    have hnonneg : 0 ≤ real (1 + deviation) := zero_le_one.trans hone
    have hdiv := denotes_div (x := 1) rfl hsum (zero_lt_one.trans_le hone).ne'
    rw [real_one] at hdiv
    exact isFraction_of_denotes hdiv (div_nonneg zero_le_one hnonneg)
      (div_le_one_of_le₀ hone hnonneg)

namespace Trajectory

variable {past : Pose Float} {time : Float} {w : Waypoint Float} {rest : List (Waypoint Float)}

/-- The pose found at a time between finite ones has a wrapped heading, unless
the times are so far apart that its position is NaN. -/
theorem isHeading_walk (hw : w.time.isFinite = true) (hheading : IsHeading w.pose.heading)
    (hrest : ∀ v ∈ rest, v.time.isFinite = true ∧ IsHeading v.pose.heading)
    (htime : time.isFinite = true) (hlt : w.time < time) :
    IsHeading (walk time w rest).heading ∨ (walk time w rest).position.x.isNaN = true := by
  induction rest generalizing w with
  | nil => exact .inl hheading
  | cons next rest ih =>
    obtain ⟨hnext, hnextHeading⟩ := hrest next List.mem_cons_self
    unfold walk
    split_ifs with hafter hsame
    · exact ih hnext hnextHeading (fun v hv => hrest v (List.mem_cons_of_mem next hv)) hafter
    · exact .inl hnextHeading
    · have hbefore := lt_of_not_lt_of_not_beq htime hnext hafter hsame
      by_cases hpart : (time - w.time).isFinite = true
      · have ht := isFraction_inverseLerp hw hnext hlt hbefore hpart
        exact .inl (Pose.isHeading_blend hheading hnextHeading ht)
      · have ht := isNaN_inverseLerp hw hnext hlt hbefore (by simpa using hpart)
        exact .inr (Pose.isNaN_position_blend ht)

theorem isHeading_poseAt? {h : Trajectory Float}
    (hentries : ∀ w ∈ h.entries, w.time.isFinite = true ∧ IsHeading w.pose.heading)
    (htime : time.isFinite = true) (hpast : h.poseAt? time = some past) :
    IsHeading past.heading ∨ past.position.x.isNaN = true := by
  unfold poseAt? at hpast
  split at hpast
  · contradiction
  · rename_i first rest hfirst
    rw [hfirst] at hentries
    obtain ⟨hfinite, hheading⟩ := hentries first List.mem_cons_self
    split_ifs at hpast with hbefore hsame
    · cases hpast
      exact .inl hheading
    · cases hpast
      have hlt := lt_of_not_lt_of_not_beq hfinite htime hbefore hsame
      exact isHeading_walk hfinite hheading
        (fun v hv => hentries v (List.mem_cons_of_mem first hv)) htime hlt

end Trajectory

/-- A correction turns the estimate by a fraction of half a turn, unless it also
displaces it by NaN. -/
theorem PoseMeasurement.small_correctionOf {m : PoseMeasurement Float} {past : Pose Float}
    (hm : m.isFinite = true) (husable : m.hasUsableDeviations = true)
    (hpast : IsHeading past.heading ∨ past.position.x.isNaN = true) :
    (m.correctionOf past).dtheta.isFinite = true ∧
        |real (m.correctionOf past).dtheta| < 1 / 2 * unit ∨
      (m.correctionOf past).dx.isNaN = true := by
  rcases hpast with hheading | hnan
  · have hfinite : m.pose.heading.isFinite = true := by
      obtain ⟨hpose, -⟩ := (Bool.and_eq_true _ _).mp hm
      exact (Pose.isFinite_iff.mp hpose).2
    have htrust : IsFraction (trust m.deviations.z) := by
      simp only [hasUsableDeviations, Bool.and_eq_true, decide_eq_true_eq] at husable
      exact isFraction_trust husable.1.2
    have hturn := isHeading_turn hfinite hheading
    have hproduct := denotes_mul htrust.1 hturn.1
    rw [mul_comm (real _)] at hproduct
    exact .inl (hturn.fraction htrust hproduct)
  · exact .inr (isNaN_mul (.inr (isNaN_sub (.inr hnan))))

namespace Estimator

variable {e after : Estimator Float}

/-! ## Finite states -/

/-- The live estimate and the recorded poses. -/
def poses (e : Estimator Float) : List (Pose Float) :=
  e.pose :: e.trajectory.entries.map Waypoint.pose

/-- Whether the live estimate and the whole record are finite. -/
def Finite (e : Estimator Float) : Prop := ∀ p ∈ e.poses, p.isFinite = true

/-- What every state of an estimator is like: the record has finite times, and
finite headings are wrapped. -/
structure WellKept (e : Estimator Float) : Prop where
  times : ∀ w ∈ e.trajectory.entries, w.time.isFinite = true
  headings : ∀ p ∈ e.poses, p.heading.isFinite = true → IsHeading p.heading

/-- Whether a reading makes the estimate neither turn nor move out of range. -/
def DriveInRange (e : Estimator Float) (s : DriveSample Float) : Prop :=
  ∀ before after, e.reckoner.baseline = some before → e.integrate s = .ok after →
    (s.reading.gyro - before.gyro).isFinite = true ∧
      (e.pose.move (DeadReckoner.motionBetween e.reckoner.chassis before
        s.reading)).position.isFinite = true

/-- Whether a command moves nothing out of range. -/
def InRange (e : Estimator Float) : Command Float → Prop
  | .drive s => e.DriveInRange s
  | .batch samples => ∀ first s, first ++ [s] <+: DriveSample.inOrder samples →
      (e.addDrives first).2.DriveInRange s
  | .vision m => ∀ d, e.assess m = .ok d → ∀ p ∈ e.poses, (p.shift d).position.isFinite = true
  | .reset _ => True

theorem poses_displace (e : Estimator Float) (d : Shift Float) :
    (e.displace d).poses = e.poses.map fun p => p.shift d := by
  simp [poses, displace, pose, DeadReckoner.correct, Trajectory.shift, Function.comp_def]

variable {s : DriveSample Float}

theorem mem_poses_integrate (h : e.integrate s = .ok after) {p : Pose Float}
    (hp : p ∈ after.poses) : p = after.pose ∨ p ∈ e.poses := by
  rcases List.mem_cons.mp hp with rfl | hp
  · exact .inl rfl
  · obtain ⟨w, hw, rfl⟩ := List.mem_map.mp hp
    rcases mem_entries_integrate h hw with hw | rfl
    · exact .inr (List.mem_cons_of_mem _ (List.mem_map_of_mem hw))
    · exact .inl rfl

theorem pose_mem_poses (e : Estimator Float) : e.pose ∈ e.poses := List.mem_cons_self

/-! ## Wrapped headings and finite times -/

theorem WellKept.addDrive (h : e.WellKept) (s : DriveSample Float) : (e.addDrive s).2.WellKept := by
  rcases addDrive_cases e s with ⟨after, hafter, hdrive⟩ | ⟨r, -, hdrive⟩
  · rw [hdrive]
    constructor
    · intro w hw
      rcases mem_entries_integrate hafter hw with hw | rfl
      · exact h.times w hw
      · exact (integrate_eq_ok hafter).1
    · intro p hp hfinite
      rcases mem_poses_integrate hafter hp with rfl | hp
      · rcases pose_integrate hafter with ⟨-, hpose⟩ | ⟨before, -, hpose⟩
        · rw [hpose] at hfinite ⊢
          exact h.headings _ e.pose_mem_poses hfinite
        · rw [hpose] at hfinite ⊢
          exact Pose.isHeading_make hfinite
      · exact h.headings p hp hfinite
  · rw [hdrive]
    exact ⟨h.times, h.headings⟩

theorem WellKept.addPose (h : e.WellKept) (m : PoseMeasurement Float) :
    (e.addPose m).2.WellKept := by
  rcases addPose_cases e m with ⟨d, -, hpose⟩ | ⟨r, -, hpose⟩
  · rw [hpose]
    constructor
    · intro w hw
      obtain ⟨v, hv, rfl⟩ := List.mem_map.mp hw
      exact h.times v hv
    · intro p hp hfinite
      replace hp : p ∈ (e.displace d).poses := hp
      rw [poses_displace] at hp
      obtain ⟨q, -, rfl⟩ := List.mem_map.mp hp
      exact Pose.isHeading_make hfinite
  · rw [hpose]
    exact ⟨h.times, h.headings⟩

theorem wellKept_resetPose {p : Pose Float} (hp : p.IsProper) : (e.resetPose p).WellKept := by
  constructor
  · intro w hw
    cases hw
  · intro q hq _
    obtain rfl := List.mem_singleton.mp hq
    exact hp.heading

theorem WellKept.run (h : e.WellKept) {commands : List (Command Float)}
    (hreset : ∀ p, .reset p ∈ commands → p.IsProper) : (e.run commands).2.WellKept :=
  run_preserves (fun _ s h => h.addDrive s) (fun _ m h => h.addPose m)
    (fun _ _ hp _ => wellKept_resetPose hp) commands h hreset

/-! ## Readings -/

theorem isFinite_of_addDrive (h : (e.addDrive s).2.pose.isFinite = true) :
    e.pose.isFinite = true := by
  rcases addDrive_cases e s with ⟨after, hafter, hdrive⟩ | ⟨r, -, hdrive⟩
  · rw [hdrive] at h
    rcases pose_integrate hafter with ⟨-, hpose⟩ | ⟨before, -, hpose⟩
    · rwa [hpose] at h
    · rw [hpose] at h
      exact Pose.isFinite_of_move h
  · rwa [hdrive] at h

/-- Readings never lead back to a finite estimate. -/
theorem isFinite_of_addDrives {samples : List (DriveSample Float)}
    (h : (e.addDrives samples).2.pose.isFinite = true) : e.pose.isFinite = true := by
  induction samples generalizing e with
  | nil => exact h
  | cons s rest ih => exact isFinite_of_addDrive (ih h)

theorem finite_addDrive (hf : e.Finite) (h : (e.addDrive s).2.pose.isFinite = true) :
    (e.addDrive s).2.Finite := by
  rcases addDrive_cases e s with ⟨after, hafter, hdrive⟩ | ⟨r, -, hdrive⟩
  · rw [hdrive] at h ⊢
    intro p hp
    rcases mem_poses_integrate hafter hp with rfl | hp
    · exact h
    · exact hf p hp
  · rw [hdrive]
    exact hf

theorem finite_addDrive_iff (hw : e.WellKept) (hf : e.Finite) :
    (e.addDrive s).2.Finite ↔ e.DriveInRange s := by
  have hheading := hw.headings _ e.pose_mem_poses (Pose.isFinite_iff.mp (hf _ e.pose_mem_poses)).2
  constructor
  · intro h before after hbefore hafter
    have hfinite := h _ (pose_mem_poses _)
    rw [Estimator.addDrive, hafter] at hfinite
    rcases pose_integrate hafter with ⟨hnone, -⟩ | ⟨before', hbefore', hpose⟩
    · rw [hnone] at hbefore
      contradiction
    · obtain rfl := Option.some.inj (hbefore.symm.trans hbefore')
      rw [hpose, Pose.isFinite_move_iff hheading] at hfinite
      exact ⟨hfinite.2, hfinite.1⟩
  · intro h
    apply finite_addDrive hf
    rcases addDrive_cases e s with ⟨after, hafter, hdrive⟩ | ⟨r, -, hdrive⟩
    · rw [hdrive]
      rcases pose_integrate hafter with ⟨-, hpose⟩ | ⟨before, hbefore, hpose⟩
      · rw [hpose]
        exact hf _ e.pose_mem_poses
      · obtain ⟨hturn, hposition⟩ := h before after hbefore hafter
        rw [hpose]
        exact (Pose.isFinite_move_iff hheading).mpr ⟨hposition, hturn⟩
    · rw [hdrive]
      exact hf _ e.pose_mem_poses

/-- What holds along a list holds at its head and along its tail. -/
theorem forall_concat_prefix_cons {β : Type} {P : List β → β → Prop} {a : β} {l : List β} :
    (∀ first x, first ++ [x] <+: a :: l → P first x) ↔
      P [] a ∧ ∀ first x, first ++ [x] <+: l → P (a :: first) x := by
  constructor
  · intro h
    refine ⟨h [] a ⟨l, rfl⟩, fun first x hfirst => h (a :: first) x ?_⟩
    exact List.cons_prefix_cons.mpr ⟨rfl, hfirst⟩
  · rintro ⟨hhead, htail⟩ first x hfirst
    cases first with
    | nil =>
      obtain ⟨rfl, -⟩ := List.cons_prefix_cons.mp hfirst
      exact hhead
    | cons b first =>
      obtain ⟨rfl, hrest⟩ := List.cons_prefix_cons.mp hfirst
      exact htail first x hrest

theorem finite_addDrives_iff {samples : List (DriveSample Float)} (hw : e.WellKept)
    (hf : e.Finite) :
    (e.addDrives samples).2.Finite ↔
      ∀ first s, first ++ [s] <+: samples → (e.addDrives first).2.DriveInRange s := by
  induction samples generalizing e with
  | nil => simp [hf]
  | cons s rest ih =>
    rw [forall_concat_prefix_cons, addDrives_nil, ← finite_addDrive_iff hw hf]
    constructor
    · intro h
      have hpose : (e.addDrive s).2.pose.isFinite = true :=
        isFinite_of_addDrives (h _ (pose_mem_poses _))
      have hnext := finite_addDrive hf hpose
      exact ⟨hnext, (ih (hw.addDrive s) hnext).mp h⟩
    · rintro ⟨hnext, h⟩
      exact (ih (hw.addDrive s) hnext).mpr h

/-! ## Camera poses -/

theorem finite_addPose_iff {m : PoseMeasurement Float} (hw : e.WellKept) (hf : e.Finite) :
    (e.addPose m).2.Finite ↔ e.InRange (.vision m) := by
  have hheading : ∀ p ∈ e.poses, IsHeading p.heading := fun p hp =>
    hw.headings p hp (Pose.isFinite_iff.mp (hf p hp)).2
  rcases addPose_cases e m with ⟨d, hassess, hpose⟩ | ⟨r, hassess, hpose⟩
  · obtain ⟨hfinite, husable, past, hpast, rfl⟩ := assess_eq_ok hassess
    have hentries : ∀ w ∈ e.trajectory.entries, w.time.isFinite = true ∧ IsHeading w.pose.heading :=
      fun w hmem => ⟨hw.times w hmem,
        hheading _ (List.mem_cons_of_mem _ (List.mem_map_of_mem hmem))⟩
    have htime : m.time.isFinite = true := ((Bool.and_eq_true _ _).mp hfinite).2
    have hpastHeading := Trajectory.isHeading_poseAt? hentries htime hpast
    rw [hpose]
    show (e.displace _).Finite ↔ _
    rw [Finite, poses_displace, List.forall_mem_map]
    constructor
    · intro h d hd p hp
      obtain rfl := Except.ok.inj (hassess.symm.trans hd)
      exact (Pose.isFinite_iff.mp (h p hp)).1
    · intro h p hp
      have hposition := h _ hassess
      rcases PoseMeasurement.small_correctionOf hfinite husable hpastHeading with
        ⟨hsmallFinite, hsmall⟩ | hnan
      · exact Pose.isFinite_shift (hheading p hp).1 hsmallFinite hsmall (hposition p hp)
      · exact absurd (hposition p hp) (Pose.not_isFinite_of_isNaN (isNaN_add (.inr hnan)))
  · rw [hpose]
    constructor
    · intro _ d hd
      rw [hassess] at hd
      contradiction
    · exact fun _ => hf

/-! ## Runs -/

theorem finite_perform_iff (hw : e.WellKept) (hf : e.Finite) {c : Command Float}
    (hreset : ∀ p, c = .reset p → p.IsProper) : (e.perform c).2.Finite ↔ e.InRange c := by
  cases c with
  | drive s => exact finite_addDrive_iff hw hf
  | batch samples => exact finite_addDrives_iff hw hf
  | vision m => exact finite_addPose_iff hw hf
  | reset p =>
    have hfinite : (e.resetPose p).Finite := by
      intro q hq
      obtain rfl := List.mem_singleton.mp hq
      exact (hreset q rfl).isFinite
    exact iff_of_true hfinite trivial

theorem finite_prefixes_iff (hw : e.WellKept) (hf : e.Finite) {commands : List (Command Float)}
    (hreset : ∀ p, .reset p ∈ commands → p.IsProper) :
    (∀ first, first <+: commands → (e.run first).2.Finite) ↔
      ∀ first c, first ++ [c] <+: commands → (e.run first).2.InRange c := by
  induction commands generalizing e with
  | nil =>
    constructor
    · intro _ first c hfirst
      simp at hfirst
    · intro _ first hfirst
      rw [List.prefix_nil.mp hfirst]
      exact hf
  | cons c rest ih =>
    have hhead : ∀ p, .reset p ∈ [c] → p.IsProper := fun p hp =>
      hreset p (List.mem_cons.mpr (.inl (List.mem_singleton.mp hp)))
    have hnextKept : (e.perform c).2.WellKept := hw.run hhead
    have hrest : ∀ p, .reset p ∈ rest → p.IsProper := fun p hp =>
      hreset p (List.mem_cons_of_mem c hp)
    rw [forall_concat_prefix_cons]
    show _ ↔ e.InRange c ∧ ∀ first c', first ++ [c'] <+: rest →
      ((e.perform c).2.run first).2.InRange c'
    rw [← finite_perform_iff hw hf fun p hp => hhead p (List.mem_singleton.mpr hp.symm)]
    constructor
    · intro h
      have hnext : (e.perform c).2.Finite := h [c] ⟨rest, rfl⟩
      refine ⟨hnext, (ih hnextKept hnext hrest).mp fun first hfirst => ?_⟩
      exact h (c :: first) (List.cons_prefix_cons.mpr ⟨rfl, hfirst⟩)
    · rintro ⟨hnext, h⟩ first hfirst
      cases first with
      | nil => exact hf
      | cons b first =>
        obtain ⟨rfl, hsecond⟩ := List.cons_prefix_cons.mp hfirst
        exact (ih hnextKept hnext hrest).mpr h first hsecond

/-- An estimator that starts at a finite pose and is only put at finite poses stays
finite, in its estimate and in its whole record, as long as no turn of the gyro
overflows and no motion and no correction leads to a position that is not finite,
and no longer. -/
theorem finite_run_iff {chassis : Chassis Float} {pose : Pose Float}
    {settings : EstimatorSettings Float} {start : Estimator Float}
    (hbuild : build chassis pose settings = .ok start) (hpose : pose.IsProper)
    (commands : List (Command Float)) (hreset : ∀ p, .reset p ∈ commands → p.IsProper) :
    (∀ first, first <+: commands → (start.run first).2.Finite) ↔
      ∀ first c, first ++ [c] <+: commands → (start.run first).2.InRange c := by
  obtain ⟨-, -, -, rfl⟩ := build_eq_ok hbuild
  refine finite_prefixes_iff ?_ ?_ hreset
  · constructor
    · intro w hw
      cases hw
    · intro p hp _
      obtain rfl := List.mem_singleton.mp hp
      exact hpose.heading
  · intro p hp
    obtain rfl := List.mem_singleton.mp hp
    exact hpose.isFinite

/-- A reading of wheels that have not rolled. -/
def resting (time gyro : Float) : DriveSample Float := ⟨time, ⟨gyro, .replicate ⟨0, 0⟩⟩⟩

/-- The origin, seen at the start. -/
def originSeen : PoseMeasurement Float := ⟨.origin, 0, ⟨1, 1, 1⟩⟩

theorem finite_run_iff_gyroRestart :
    let chassis : Chassis Float := .square
    let start := fresh chassis .origin
    let commands : List (Command Float) := [.drive (resting 0 (-1e308)), .vision originSeen]
    Chassis.build (Chassis.rectangle 1 1) = .ok chassis ∧
      build chassis .origin .standard = .ok start ∧
      (∀ first, first <+: commands → (start.run first).2.Finite) ∧
      ¬ ∀ first, first <+: commands ++ [.drive (resting 1 1e308)] → (start.run first).2.Finite := by
  intro chassis start commands
  have hbuild : build chassis .origin .standard = .ok start := build_fresh chassis .origin
  have horigin : (Pose.origin : Pose Float).IsProper := by
    refine ⟨rfl, isHeading_iff.mpr ?_⟩
    decide +kernel
  refine ⟨Chassis.build_square, hbuild, ?_, ?_⟩
  · refine (finite_run_iff hbuild horigin commands (by simp [commands])).mpr ?_
    rw [forall_concat_prefix_cons, forall_concat_prefix_cons]
    refine ⟨?_, ?_, ?_⟩
    · intro before _ hbefore
      cases hbefore
    · let e := (start.run [.drive (resting 0 (-1e308))]).2
      have hpositions : (match e.assess originSeen with
          | .ok d => e.poses.all fun p => (p.shift d).position.isFinite
          | .error _ => false) = true := by decide +kernel
      intro d hd p hp
      replace hd : e.assess originSeen = .ok d := hd
      rw [hd] at hpositions
      exact List.all_eq_true.mp hpositions p hp
    · intro first c hfirst
      simp at hfirst
  · rw [finite_run_iff hbuild horigin _ (by simp [commands])]
    intro h
    let e := (start.run commands).2
    have haccepted : (e.integrate (resting 1 1e308)).isOk = true := by decide +kernel
    cases hafter : e.integrate (resting 1 1e308) with
    | error r =>
      rw [hafter] at haccepted
      contradiction
    | ok after =>
      have hbaseline : e.reckoner.baseline = some (resting 0 (-1e308)).reading := by
        decide +kernel
      have hdrive : e.DriveInRange (resting 1 1e308) := h commands _ (List.prefix_refl _)
      obtain ⟨hturn, -⟩ := hdrive _ after hbaseline hafter
      have hoverflow : ((resting 1 1e308).reading.gyro
          - (resting 0 (-1e308)).reading.gyro).isFinite = false := by decide +kernel
      exact Bool.false_ne_true (hoverflow.symm.trans hturn)

/-- On a chassis with a share that is NaN the second reading spoils the estimate,
whatever it says. -/
theorem not_finite_integrate {before : DriveReading Float}
    (hchassis : e.reckoner.chassis.shares.frontLeft.along.x.isNaN = true)
    (hbefore : e.reckoner.baseline = some before) (hafter : e.integrate s = .ok after) :
    ¬ after.Finite := by
  intro hfinite
  have hposition := (Pose.isFinite_iff.mp (hfinite _ after.pose_mem_poses)).1
  rcases pose_integrate hafter with ⟨hnone, -⟩ | ⟨_, -, hpose⟩
  · rw [hnone] at hbefore
    contradiction
  · rw [hpose] at hposition
    refine Pose.not_isFinite_of_isNaN (Pose.isNaN_position_move ?_) hposition
    exact Chassis.isNaN_motion hchassis _

/-- On a chassis whose offsets have squares that overflow, the second reading is accepted and
spoils the estimate. -/
theorem not_finite_largeOffsets :
    ∃ (chassis : Chassis Float) (start after : Estimator Float),
      Chassis.build (Chassis.rectangle 1e200 1e200) = .ok chassis ∧
      build chassis .origin .standard = .ok start ∧
      start.run [.drive (resting 0 0), .drive (resting 1 0)] = ([[.accepted], [.accepted]], after) ∧
      ¬ after.Finite := by
  obtain ⟨chassis, hbuild, -, hspoilt⟩ := Chassis.exists_hugeOffsets
  let start := fresh chassis .origin
  let first := (start.addDrive (resting 0 0)).2
  have hbaseline : first.reckoner.baseline = some (resting 0 0).reading := rfl
  obtain ⟨second, hsecond⟩ : ∃ second, first.integrate (resting 1 0) = .ok second := ⟨_, rfl⟩
  have hrun : start.run [.drive (resting 0 0), .drive (resting 1 0)]
      = ([[.accepted], [.accepted]], second) := by
    have hdrive : first.addDrive (resting 1 0) = (.accepted, second) := by
      rw [addDrive, hsecond]
    show ([[(start.addDrive (resting 0 0)).1], [(first.addDrive (resting 1 0)).1]],
      (first.addDrive (resting 1 0)).2) = _
    rw [hdrive]
    rfl
  refine ⟨chassis, start, second, hbuild, rfl, hrun, ?_⟩
  have hchassis : first.reckoner.chassis = chassis := rfl
  rw [← hchassis] at hspoilt
  exact not_finite_integrate hspoilt hbaseline hsecond

end Estimator

end SwerveLocalization
