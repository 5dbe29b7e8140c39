import Mathlib
import SwerveLocalization.Proofs.Exact.LeastSquares
import SwerveLocalization.Proofs.Localization.Acceptance
import SwerveLocalization.Proofs.Localization.Intake

/-!
# Confidence

Camera poses arrive late and out of order, mixed with readings, rejections and
resets, and an estimator keeps one time only. Main statement: whatever the estimator
has taken in, this is the time of the latest capture accepted since the last reset.
So confidence is zero exactly if there is none, it is one until that capture and
falls from there on, and nothing but a reset ever lowers it. This needs no more of
the exponential than that it is positive, increasing and one at zero.
-/

namespace SwerveLocalization

/-! ## Exact numbers with another exponential -/

/-- A function that may stand for the exponential. -/
structure Growth where
  exp : ℝ → ℝ
  pos : ∀ x, 0 < exp x
  strictMono : StrictMono exp
  exp_zero : exp 0 = 1

namespace Growth

/-- Exact numbers whose exponential is a growth. -/
def Number (_ : Growth) : Type := Exact

noncomputable instance (g : Growth) : Scalar g.Number :=
  { (inferInstance : Scalar Exact) with exp := Exact.lift g.exp }

noncomputable instance (g : Growth) : RealScalar g.Number :=
  { (inferInstance : RealScalar Exact) with }

variable (g : Growth)

/-- The number that a real number is. -/
def number (x : ℝ) : g.Number := Exact.real x

/-- What is left of a full confidence after `age` seconds. -/
noncomputable def decayed (timeConstant : g.Number) (age : ℝ) : g.Number :=
  Scalar.exp (g.number (-age) / timeConstant)

variable {g} {timeConstant : g.Number} {x y : ℝ}

theorem number_le_number : g.number x ≤ g.number y ↔ x ≤ y := Exact.real_le_real x y

theorem exp_number_div_number (hy : y ≠ 0) :
    Scalar.exp (g.number x / g.number y) = g.number (g.exp (x / y)) :=
  congrArg (Exact.lift g.exp) (Exact.real_div_real x y hy)

/-- Confidence falls at some rate, which is zero for an infinite time constant. -/
theorem exists_rate (hpos : 0 < timeConstant) :
    ∃ rate : ℝ, 0 ≤ rate ∧ ∀ age, g.decayed timeConstant age = g.number (g.exp (-age * rate)) := by
  obtain ⟨hnan, -, hvalue⟩ := (RealScalar.lt_iff _ _).mp hpos
  cases timeConstant with
  | real t =>
    have ht : 0 < t := (Exact.real_lt_real 0 t).mp hpos
    refine ⟨1 / t, by positivity, fun age => ?_⟩
    rw [← div_eq_mul_one_div]
    exact exp_number_div_number ht.ne'
  | posInf =>
    refine ⟨0, le_rfl, fun age => ?_⟩
    rw [mul_zero]
    rfl
  | negInf => exact absurd hvalue not_lt_bot
  | nan => exact Bool.noConfusion (show true = false from hpos.2.1)

theorem decayed_ne_zero (hpos : 0 < timeConstant) (age : ℝ) : g.decayed timeConstant age ≠ 0 := by
  obtain ⟨rate, -, hrate⟩ := exists_rate hpos
  rw [hrate]
  intro hzero
  exact (g.pos _).ne' (Exact.real.inj hzero)

theorem zero_le_decayed (hpos : 0 < timeConstant) (age : ℝ) : 0 ≤ g.decayed timeConstant age := by
  obtain ⟨rate, -, hrate⟩ := exists_rate hpos
  rw [hrate]
  exact number_le_number.mpr (g.pos _).le

theorem decayed_zero (hpos : 0 < timeConstant) : g.decayed timeConstant 0 = 1 := by
  obtain ⟨rate, -, hrate⟩ := exists_rate hpos
  rw [hrate, neg_zero, zero_mul, g.exp_zero]
  rfl

theorem decayed_anti (hpos : 0 < timeConstant) (h : x ≤ y) :
    g.decayed timeConstant y ≤ g.decayed timeConstant x := by
  obtain ⟨rate, hnonneg, hrate⟩ := exists_rate hpos
  rw [hrate, hrate, number_le_number, g.strictMono.le_iff_le]
  exact mul_le_mul_of_nonneg_right (neg_le_neg h) hnonneg

end Growth

namespace Estimator

open Scalar

variable {α : Type} [Scalar α]

/-! ## The captures that were accepted -/

/-- The times of the captures accepted since the last reset: those accepted before something
was taken in and those accepted with it. -/
def capturesAfter (before : List α) : Intake α × List Verdict → List α
  | (.command (.vision m), verdicts) =>
    before ++ (acceptedOf [m] verdicts).map PoseMeasurement.time
  | (.command (.reset _), _) => []
  | (.command (.drive _), _) => before
  | (.command (.batch _), _) => before
  | (.turnedAway _, _) => before

/-- The times of the captures that a run has accepted since its last reset. -/
def capturesSinceReset (intakes : List (Intake α)) (verdicts : List (List Verdict)) : List α :=
  (intakes.zip verdicts).foldl capturesAfter []

/-- The latest of some times, if there are any. -/
def IsLatest (times : List α) : Option α → Prop
  | none => times = []
  | some latest => latest ∈ times ∧ ∀ t ∈ times, t ≤ latest

/-! ## What leaves the confidence alone -/

/-- What confidence is read from is the same. -/
structure SameConfidence (e' e : Estimator α) : Prop where
  settings : e'.settings = e.settings
  lastVision : e'.lastVision = e.lastVision

variable {e e' : Estimator α}

theorem SameConfidence.confidence_eq (h : SameConfidence e' e) : e'.confidence = e.confidence := by
  ext now
  rw [confidence, confidence, h.settings, h.lastVision]

theorem sameConfidence_addDrive (e : Estimator α) (s : DriveSample α) :
    SameConfidence (e.addDrive s).2 e := by
  rcases addDrive_cases e s with ⟨after, hafter, hdrive⟩ | ⟨r, -, hdrive⟩
  · obtain ⟨-, -, reckoner, -, rfl⟩ := integrate_eq_ok hafter
    rw [hdrive]
    exact ⟨rfl, rfl⟩
  · rw [hdrive]
    exact ⟨rfl, rfl⟩

theorem sameConfidence_addDrives (e : Estimator α) (samples : List (DriveSample α)) :
    SameConfidence (e.addDrives samples).2 e := by
  induction samples generalizing e with
  | nil => exact ⟨rfl, rfl⟩
  | cons s rest ih =>
    have hfirst := sameConfidence_addDrive e s
    have hrest := ih (e.addDrive s).2
    exact ⟨hrest.settings.trans hfirst.settings, hrest.lastVision.trans hfirst.lastVision⟩

/-- Nothing but a reset and an accepted camera pose changes the confidence. -/
theorem sameConfidence_take {i : Intake α} (hreset : ∀ p, i ≠ .command (.reset p))
    (hvision : ∀ m, i = .command (.vision m) → (e.addPose m).1 ≠ .accepted) :
    SameConfidence (e.take i).2 e := by
  cases i with
  | turnedAway r => exact ⟨rfl, rfl⟩
  | command c =>
    cases c with
    | drive s => exact sameConfidence_addDrive e s
    | batch samples => exact sameConfidence_addDrives e _
    | reset p => exact absurd rfl (hreset p)
    | vision m =>
      rcases addPose_cases e m with ⟨d, -, hpose⟩ | ⟨r, -, hpose⟩
      · exact absurd (congrArg Prod.fst hpose) (hvision m rfl)
      · show SameConfidence (e.addPose m).2 e
        rw [hpose]
        exact ⟨rfl, rfl⟩

theorem lastVision_confirm (e : Estimator α) (time : α) :
    (e.confirm time).lastVision = some (e.lastVision.elim time fun last => larger last time) := by
  unfold confirm
  cases e.lastVision <;> rfl

/-! ## The latest capture is kept -/

variable {captures : List α} {settings : EstimatorSettings α}

/-- The estimator keeps the time of the latest capture. -/
structure Dated (settings : EstimatorSettings α) (captures : List α) (e : Estimator α) : Prop where
  settings_eq : e.settings = settings
  finite : ∀ t ∈ captures, isFinite t = true
  latest : IsLatest captures e.lastVision

theorem Dated.congr (h : Dated settings captures e) (hsame : SameConfidence e' e) :
    Dated settings captures e' :=
  ⟨hsame.settings.trans h.settings_eq, h.finite, hsame.lastVision.symm ▸ h.latest⟩

theorem dated_build {chassis : Chassis α} {pose : Pose α}
    (hbuild : build chassis pose settings = .ok e) : Dated settings [] e := by
  obtain ⟨-, -, -, rfl⟩ := build_eq_ok hbuild
  exact ⟨rfl, nofun, rfl⟩

variable [RealScalar α]

theorem IsLatest.append {latest : Option α} (h : IsLatest captures latest)
    (hfinite : ∀ t ∈ captures, isFinite t = true) {time : α} (htime : isFinite time = true) :
    IsLatest (captures ++ [time]) (some (latest.elim time fun last => larger last time)) := by
  cases latest with
  | none =>
    obtain rfl : captures = [] := h
    exact ⟨List.mem_singleton_self time, List.forall_mem_singleton.mpr (RealScalar.le_refl htime)⟩
  | some last =>
    obtain ⟨hmem, hle⟩ := h
    have hnan := RealScalar.isNaN_of_isFinite (hfinite last hmem)
    by_cases hlt : last < time
    · have hnew : ∀ t ∈ captures, t ≤ time := fun t ht =>
        RealScalar.le_trans (hle t ht) (RealScalar.le_of_lt hlt)
      rw [Option.elim_some, larger, if_pos hlt]
      exact ⟨List.mem_concat_self, List.forall_mem_append.mpr
        ⟨hnew, List.forall_mem_singleton.mpr (RealScalar.le_refl htime)⟩⟩
    · have hle' : time ≤ last :=
        (RealScalar.not_lt hnan (RealScalar.isNaN_of_isFinite htime)).mp hlt
      rw [Option.elim_some, RealScalar.larger_eq_left hle']
      exact ⟨List.mem_append_left _ hmem, List.forall_mem_append.mpr
        ⟨hle, List.forall_mem_singleton.mpr hle'⟩⟩

theorem Dated.addPose (h : Dated settings captures e) (m : PoseMeasurement α) :
    Dated settings (captures ++ (acceptedOf [m] [(e.addPose m).1]).map PoseMeasurement.time)
      (e.addPose m).2 := by
  rcases addPose_cases e m with ⟨d, hd, hpose⟩ | ⟨r, -, hpose⟩
  · rw [hpose]
    have htime : isFinite m.time = true := (Bool.and_eq_true_iff.mp (assess_eq_ok hd).1).2
    constructor
    · exact h.settings_eq
    · exact List.forall_mem_append.mpr ⟨h.finite, List.forall_mem_singleton.mpr htime⟩
    · rw [lastVision_confirm]
      exact h.latest.append h.finite htime
  · rw [hpose]
    have hnone : captures ++ (acceptedOf [m] [.rejected r]).map PoseMeasurement.time = captures :=
      List.append_nil captures
    rw [hnone]
    exact h.congr ⟨rfl, rfl⟩

theorem Dated.take (h : Dated settings captures e) (i : Intake α) :
    Dated settings (capturesAfter captures (i, (e.take i).1)) (e.take i).2 := by
  cases i with
  | turnedAway r => exact h.congr ⟨rfl, rfl⟩
  | command c =>
    cases c with
    | drive s => exact h.congr (sameConfidence_addDrive e s)
    | batch samples => exact h.congr (sameConfidence_addDrives e _)
    | vision m => exact h.addPose m
    | reset p => exact ⟨h.settings_eq, nofun, rfl⟩

theorem Dated.takeEach (h : Dated settings captures e) (intakes : List (Intake α)) :
    Dated settings ((intakes.zip (e.takeEach intakes).1).foldl capturesAfter captures)
      (e.takeEach intakes).2 := by
  induction intakes generalizing e captures with
  | nil => exact h
  | cons i rest ih => exact ih (h.take i)

/-- A capture that is not later than all others leaves the confidence alone. -/
theorem Dated.confidence_addPose (h : Dated settings captures e) {m : PoseMeasurement α} {t : α}
    (ht : t ∈ captures) (hle : m.time ≤ t) : (e.addPose m).2.confidence = e.confidence := by
  rcases addPose_cases e m with ⟨d, -, hpose⟩ | ⟨r, -, hpose⟩
  · have hlatest := h.latest
    cases hlast : e.lastVision with
    | none =>
      rw [hlast] at hlatest
      rw [show captures = [] from hlatest] at ht
      cases ht
    | some last =>
      rw [hlast] at hlatest
      have hkept : larger last m.time = last :=
        RealScalar.larger_eq_left (RealScalar.le_trans hle (hlatest.2 t ht))
      rw [hpose]
      refine SameConfidence.confidence_eq ⟨rfl, ?_⟩
      rw [lastVision_confirm]
      show some (e.lastVision.elim m.time fun last => larger last m.time) = e.lastVision
      rw [hlast, Option.elim_some, hkept]
  · rw [hpose]
    rfl

end Estimator

namespace Growth

open Estimator

variable {g : Growth} {chassis : Chassis g.Number} {pose : Pose g.Number}
  {settings : EstimatorSettings g.Number} {start e : Estimator g.Number} {captures : List g.Number}

/-! ## The confidence -/

theorem confidence_of_lastVision {m : ℝ} (hlast : e.lastVision = some (g.number m)) (now : ℝ) :
    e.confidence (g.number now) = g.decayed e.settings.timeConstant (max (now - m) 0) := by
  have hage : Scalar.larger (g.number now - g.number m) 0 = g.number (max (now - m) 0) :=
    Exact.larger_real (now - m) 0
  rw [confidence, hlast]
  dsimp only
  rw [hage]
  rfl

/-- Either no capture has been accepted, or the latest one is kept. -/
theorem latest_cases (h : Dated settings captures e) :
    (e.lastVision = none ∧ captures = []) ∨
      ∃ m, e.lastVision = some (g.number m) ∧ IsLatest captures (some (g.number m)) := by
  have hlatest := h.latest
  cases hlast : e.lastVision with
  | none =>
    rw [hlast] at hlatest
    exact .inl ⟨rfl, hlatest⟩
  | some last =>
    rw [hlast] at hlatest
    obtain ⟨m, rfl⟩ := Exact.isFinite_iff_exists.mp (h.finite last hlatest.1)
    exact .inr ⟨m, rfl, hlatest⟩

theorem confidence_eq_zero_iff (h : Dated settings captures e) (hpos : 0 < settings.timeConstant)
    (now : ℝ) : e.confidence (g.number now) = 0 ↔ captures = [] := by
  rcases latest_cases h with ⟨hlast, hnone⟩ | ⟨m, hlast, hlatest⟩
  · rw [confidence, hlast]
    exact iff_of_true rfl hnone
  · rw [confidence_of_lastVision hlast, h.settings_eq]
    exact iff_of_false (decayed_ne_zero hpos _) (List.ne_nil_of_mem hlatest.1)

theorem confidence_anti (h : Dated settings captures e) (hpos : 0 < settings.timeConstant)
    {now later : ℝ} (hle : now ≤ later) :
    e.confidence (g.number later) ≤ e.confidence (g.number now) := by
  rcases latest_cases h with ⟨hlast, -⟩ | ⟨m, hlast, -⟩
  · rw [confidence, confidence, hlast]
    exact number_le_number.mpr le_rfl
  · rw [confidence_of_lastVision hlast, confidence_of_lastVision hlast, h.settings_eq]
    exact decayed_anti hpos (max_le_max_right 0 (sub_le_sub_right hle m))

/-- Whatever is taken in except for a reset, the confidence in the same moment is not less. -/
theorem confidence_le_take (h : Dated settings captures e) (hpos : 0 < settings.timeConstant)
    {i : Intake g.Number} (hreset : ∀ p, i ≠ .command (.reset p)) (now : ℝ) :
    e.confidence (g.number now) ≤ (e.take i).2.confidence (g.number now) := by
  have hafter := h.take i
  rcases latest_cases h with ⟨hlast, -⟩ | ⟨m, hlast, hlatest⟩
  · rw [confidence, hlast]
    rcases latest_cases hafter with ⟨hlast', -⟩ | ⟨m', hlast', -⟩
    · rw [confidence, hlast']
      exact number_le_number.mpr le_rfl
    · rw [confidence_of_lastVision hlast', hafter.settings_eq]
      exact zero_le_decayed hpos _
  · -- the latest capture is among those after the intake, so the one kept then is not older
    have hkept : g.number m ∈ capturesAfter captures (i, (e.take i).1) := by
      cases i with
      | turnedAway r => exact hlatest.1
      | command c =>
        cases c with
        | drive s => exact hlatest.1
        | batch samples => exact hlatest.1
        | vision measurement => exact List.mem_append_left _ hlatest.1
        | reset p => exact absurd rfl (hreset p)
    rcases latest_cases hafter with ⟨-, hnone⟩ | ⟨m', hlast', -, hle⟩
    · rw [hnone] at hkept
      cases hkept
    · have hlater : m ≤ m' := number_le_number.mp (hle _ hkept)
      rw [confidence_of_lastVision hlast, confidence_of_lastVision hlast', h.settings_eq,
        hafter.settings_eq]
      exact decayed_anti hpos (max_le_max_right 0 (sub_le_sub_left hlater now))

/-- Whatever an estimator has taken in, its confidence is zero exactly if it has accepted no
capture since the last reset. Otherwise it depends on the latest of them alone: it is one until
then and falls exponentially afterwards. In the same moment nothing but a reset lowers it, and
nothing but the acceptance of a later capture raises it. -/
theorem confidence_takeEach (hbuild : build chassis pose settings = .ok start)
    (intakes : List (Intake g.Number)) :
    let e := (start.takeEach intakes).2
    let captures := capturesSinceReset intakes (start.takeEach intakes).1
    (∀ now : ℝ, e.confidence (g.number now) = 0 ↔ captures = []) ∧
      (captures ≠ [] → ∃ m : ℝ, IsLatest captures (some (g.number m)) ∧
        (∀ now : ℝ, e.confidence (g.number now)
          = Scalar.exp (g.number (-max (now - m) 0) / settings.timeConstant)) ∧
        ∀ now ≤ m, e.confidence (g.number now) = 1) ∧
      (∀ now later : ℝ, now ≤ later →
        e.confidence (g.number later) ≤ e.confidence (g.number now)) ∧
      ∀ i, (∀ p, i ≠ .command (.reset p)) →
        (∀ now : ℝ, e.confidence (g.number now) ≤ (e.take i).2.confidence (g.number now)) ∧
        ((∀ m, i = .command (.vision m) → (e.addPose m).1 = .accepted →
          ∃ t ∈ captures, m.time ≤ t) → (e.take i).2.confidence = e.confidence) := by
  intro e captures
  obtain ⟨-, -, hpos, -⟩ := build_eq_ok hbuild
  have h : Dated settings captures e := (dated_build hbuild).takeEach intakes
  refine ⟨confidence_eq_zero_iff h hpos, ?_, fun _ _ => confidence_anti h hpos, ?_⟩
  · intro hsome
    obtain ⟨-, hnone⟩ | ⟨m, hlast, hlatest⟩ := latest_cases h
    · contradiction
    · refine ⟨m, hlatest, fun now => ?_, fun now hle => ?_⟩
      · rw [confidence_of_lastVision hlast, h.settings_eq]
        rfl
      · rw [confidence_of_lastVision hlast, max_eq_right (sub_nonpos.mpr hle), h.settings_eq,
          decayed_zero hpos]
  · intro i hreset
    refine ⟨confidence_le_take h hpos hreset, fun hold => ?_⟩
    by_cases hlater : ∃ m, i = .command (.vision m) ∧ (e.addPose m).1 = .accepted
    · obtain ⟨m, rfl, haccepted⟩ := hlater
      obtain ⟨t, ht, hle⟩ := hold m rfl haccepted
      exact h.confidence_addPose ht hle
    · have hsame := sameConfidence_take hreset fun m hm haccepted => hlater ⟨m, hm, haccepted⟩
      exact hsame.confidence_eq

/-- The exponential function. -/
noncomputable def natural : Growth := ⟨Real.exp, Real.exp_pos, Real.exp_strictMono, Real.exp_zero⟩

/-- A reading at rest. -/
def resting (g : Growth) (time : ℝ) : DriveSample g.Number :=
  ⟨g.number time, ⟨g.number 0, .replicate ⟨g.number 0, g.number 0⟩⟩⟩

/-- A camera pose at the origin. -/
noncomputable def sightingAt (g : Growth) (time : ℝ) : PoseMeasurement g.Number :=
  ⟨.origin, g.number time, ⟨1, 1, 1⟩⟩

theorem usable_sightingAt (g : Growth) (time : ℝ) :
    (g.sightingAt time).hasUsableDeviations = true := by
  have hpos : (0 : g.Number) < 1 := (Exact.real_lt_real 0 1).mpr one_pos
  have hone : Scalar.isInfinite (1 : g.Number) = false := rfl
  simp [PoseMeasurement.hasUsableDeviations, sightingAt, hpos, hone]

/-- Right after the first reading, a camera pose that is not older is accepted. -/
theorem accepted_sightingAt (hbuild : build chassis pose settings = .ok start) (first time : ℝ)
    (hle : first ≤ time) :
    (start.addDrive (g.resting first)).1 = .accepted ∧
      ((start.addDrive (g.resting first)).2.addPose (g.sightingAt time)).1 = .accepted := by
  obtain ⟨hcapacity, hwindow, -, -⟩ := build_eq_ok hbuild
  have hnewer : start.isNewer (g.resting first).time = true := by
    obtain ⟨-, -, -, rfl⟩ := build_eq_ok hbuild
    rfl
  obtain ⟨after, hafter, hdrive⟩ : ∃ after, start.integrate (g.resting first) = .ok after ∧
      start.addDrive (g.resting first) = (.accepted, after) := addDrive_of_newer rfl hnewer rfl
  have hrecorded :=
    (recorded_build hbuild).integrate (by omega) (RealScalar.le_of_lt hwindow) hafter
  have hnewest : after.trajectory.newest? = some ⟨g.number first, after.pose⟩ :=
    hrecorded.coherent.newest
  have hlate : ¬ g.number time < g.number first := fun hlt =>
    RealScalar.not_le_of_lt hlt (number_le_number.mpr hle)
  have hfinite : (g.sightingAt time).isFinite = true := rfl
  rw [hdrive]
  refine ⟨rfl, ?_⟩
  rw [addPose_verdict, hfinite, usable_sightingAt]
  cases hentries : after.trajectory.entries with
  | nil =>
    rw [Trajectory.newest?, hentries] at hnewest
    contradiction
  | cons w rest =>
    have htimes := hrecorded.times
    rw [hentries] at htimes
    have hw : w.time = g.number first := by
      simpa [resting] using htimes.subset List.mem_cons_self
    have holdest : after.trajectory.oldest? = some w := by
      rw [Trajectory.oldest?, hentries]
      rfl
    rw [holdest]
    show (if g.number time < w.time then _ else _) = _
    rw [hw, if_neg hlate]

/-- Settings with a time constant. -/
def settingsOf (g : Growth) (seconds : ℝ) : EstimatorSettings g.Number :=
  ⟨2, g.number 1, g.number seconds⟩

/-- A square chassis can be built whatever the exponential is, for nothing asks for one. -/
theorem exists_square (g : Growth) :
    ∃ chassis, Chassis.build (Chassis.rectangle (g.number 1) (g.number 1)) = .ok chassis :=
  ⟨_, Exact.build_squareOffsets⟩

theorem exists_build (chassis : Chassis g.Number) (pose : Pose g.Number) {seconds : ℝ}
    (hseconds : 0 < seconds) : ∃ start, build chassis pose (g.settingsOf seconds) = .ok start := by
  have hwindow : (0 : g.Number) < g.number 1 := (Exact.real_lt_real 0 1).mpr one_pos
  have htime : (0 : g.Number) < g.number seconds := (Exact.real_lt_real 0 seconds).mpr hseconds
  have hcapacity : 2 ≤ (g.settingsOf seconds).capacity := le_rfl
  exact ⟨_, build_of_bounds hcapacity hwindow htime chassis pose⟩

/-- A reading, a later camera pose and a sighting that the gate turns away, and then a camera
pose from before the other. -/
theorem confidence_takeEach_olderSighting :
    let intakes : List (Intake natural.Number) :=
      [.command (.drive (natural.resting 1)), .command (.vision (natural.sightingAt 3)),
        .turnedAway .noTags]
    ∃ chassis start,
      Chassis.build (Chassis.rectangle (natural.number 1) (natural.number 1)) = .ok chassis ∧
      build chassis .origin (natural.settingsOf 2) = .ok start ∧
      let e := (start.takeEach intakes).2
      e.confidence (natural.number 2) = 1 ∧
        e.confidence (natural.number 5) = natural.number (Real.exp (-1)) ∧
        (e.take (.command (.vision (natural.sightingAt 2)))).2.confidence = e.confidence := by
  intro intakes
  obtain ⟨chassis, hchassis⟩ := natural.exists_square
  obtain ⟨start, hstart⟩ := exists_build chassis .origin two_pos
  refine ⟨chassis, start, hchassis, hstart, ?_⟩
  intro e
  obtain ⟨hdrive, hpose⟩ := accepted_sightingAt hstart 1 3 (by norm_num)
  have hcaptures : capturesSinceReset intakes (start.takeEach intakes).1 = [natural.number 3] := by
    show capturesSinceReset intakes [[(start.addDrive _).1],
      [((start.addDrive _).2.addPose _).1], [.rejected .noTags]] = _
    rw [hdrive, hpose]
    rfl
  obtain ⟨-, hsome, -, hkept⟩ := confidence_takeEach hstart intakes
  rw [hcaptures] at hsome hkept
  obtain ⟨m, ⟨hmem, -⟩, hfalls, hfull⟩ := hsome (List.cons_ne_nil _ _)
  obtain rfl : m = 3 := Exact.real.inj (List.mem_singleton.mp hmem)
  refine ⟨hfull 2 (by norm_num), ?_, ?_⟩
  · rw [hfalls 5]
    have hage : -max ((5 : ℝ) - 3) 0 / 2 = -1 := by norm_num
    rw [← hage]
    exact exp_number_div_number two_ne_zero
  · apply (hkept _ (fun p => by simp)).2
    rintro m hm -
    obtain rfl : natural.sightingAt 2 = m := by simpa using hm
    exact ⟨_, List.mem_singleton_self _, number_le_number.mpr (by norm_num)⟩

end Growth

end SwerveLocalization
