import Mathlib
import SwerveLocalization.Proofs.Chassis.FiniteShares
import SwerveLocalization.Proofs.Localization.Steps
import SwerveLocalization.Proofs.Plane.FinitePose

/-!
# A robot at rest does not drift

Readings come in also while the robot stands still, and each of them passes through
the least-squares solution, the chord of an arc, a rotation and a wrapping. Main
statement: none of this rounds the pose away. Readings that repeat the last one, up
to the angles of the wheels, leave the pose equal to what it was, whatever happened
before; so the correction by a camera pose stays in place.
-/

namespace SwerveLocalization

open Binary64

/-! ## Finite components -/

section Components

variable {α : Type} [Scalar α]

theorem Pose.isFinite_components {p : Pose α} : p.isFinite = true ↔
    Scalar.isFinite p.position.x = true ∧ Scalar.isFinite p.position.y = true ∧
      Scalar.isFinite p.heading = true := by
  rw [Pose.isFinite, Vec2.isFinite, Bool.and_eq_true, Bool.and_eq_true, and_assoc]

theorem DriveReading.isFinite_components {r : DriveReading α} : r.isFinite = true ↔
    Scalar.isFinite r.gyro = true ∧
      ∀ t ∈ r.travel.toList, Scalar.isFinite t.distance = true ∧ Scalar.isFinite t.angle = true := by
  simp only [DriveReading.isFinite, WheelTravel.isFinite, Bool.and_eq_true, List.all_eq_true]

end Components

variable {f : MathLibrary}

/-! ## Motions that lead nowhere -/

namespace Pose

theorem beq_iff {p q : Pose f.Number} : (p == q) = true ↔
    (p.position.x == q.position.x) = true ∧ (p.position.y == q.position.y) = true ∧
      (p.heading == q.heading) = true := by
  show (_ && _ && _) = true ↔ _
  rw [Bool.and_eq_true, Bool.and_eq_true, and_assoc]

theorem beq_trans {p q r : Pose f.Number} (hpq : (p == q) = true) (hqr : (q == r) = true) :
    (p == r) = true := by
  have htrans : ∀ {x y z : Float}, (x == y) = true → (y == z) = true → (x == z) = true := by
    intro x y z hxy hyz
    obtain ⟨hx, -, hvalue⟩ := (Binary64.beq_iff x y).mp hxy
    obtain ⟨-, hz, hvalue'⟩ := (Binary64.beq_iff y z).mp hyz
    exact (Binary64.beq_iff x z).mpr ⟨hx, hz, hvalue.trans hvalue'⟩
  obtain ⟨hx, hy, hheading⟩ := beq_iff.mp hpq
  obtain ⟨hx', hy', hheading'⟩ := beq_iff.mp hqr
  exact beq_iff.mpr ⟨htrans hx hx', htrans hy hy', htrans hheading hheading'⟩

/-- A zero turn counts as none. -/
theorem chordRatio_of_isZero {a : f.Number} (ha : IsZero a) : chordRatio a = 1 := by
  have hpos : (0 : Float) < 1e-9 := by decide +kernel
  have hfinite : (1e-9 : Float).isFinite = true := rfl
  have hnonneg : ¬ (show Float from a) < 0 := by
    rw [real_lt_real ha.1 rfl, ha.2, real_zero]
    exact lt_irrefl 0
  have hsmall : (show Float from a) < 1e-9 := by
    rw [real_lt_real ha.1 hfinite, ha.2, ← real_zero]
    exact (real_lt_real rfl hfinite).mp hpos
  have hmagnitude : Scalar.magnitude a = a := if_neg hnonneg
  refine if_pos ?_
  rw [hmagnitude]
  exact hsmall

theorem isFinite_mean {heading turn : Float} (hheading : heading.isFinite = true) (hturn : IsZero turn) :
    (heading + turn / 2.0).isFinite = true := by
  have htwo : real 2.0 ≠ 0 := by
    intro hzero
    have hpos : (0 : Float) < 2.0 := by decide +kernel
    rw [real_lt_real rfl rfl, hzero, real_zero] at hpos
    exact lt_irrefl 0 hpos
  exact ((hturn.div rfl htwo).add_eq hheading).1

/-- A vector without length is turned into one without length. -/
theorem isZero_rotated {c s x y : Float} (hc : c.isFinite = true) (hs : s.isFinite = true)
    (hx : IsZero x) (hy : IsZero y) : IsZero (c * x - s * y) ∧ IsZero (s * x + c * y) := by
  have hfirst := hx.mul_left hc
  have hsecond := hy.mul_left hs
  exact ⟨isZero_sub hfirst.1 hsecond.1 (hfirst.2.trans hsecond.2.symm),
    (hx.mul_left hs).add (hy.mul_left hc)⟩

theorem add_isZero_beq {x y : Float} (hx : x.isFinite = true) (hy : IsZero y) :
    (x + y).isFinite = true ∧ (x + y == x) = true := by
  obtain ⟨hfinite, hreal⟩ := hy.add_eq hx
  exact ⟨hfinite, (beq_iff_real hfinite hx).mpr hreal⟩

/-- A heading that is turned by zero needs no wrapping. -/
theorem wrap_add_isZero {heading turn : Float} (hheading : IsHeading heading) (hturn : IsZero turn) :
    IsHeading (Angle.wrap (heading + turn)) ∧ (Angle.wrap (heading + turn) == heading) = true := by
  obtain ⟨hfinite, hreal⟩ := hturn.add_eq hheading.1
  have hturned : IsHeading (heading + turn) := by
    refine ⟨hfinite, ?_⟩
    rw [hreal]
    exact hheading.2
  -- a wrapped heading is not wrapped again, so nothing is rounded here
  rw [wrap_of_isHeading hturned]
  exact ⟨hturned, (beq_iff_real hfinite hheading.1).mpr hreal⟩

/-- A motion that leads nowhere changes at most the sign of a zero. -/
theorem move_isZero (hf : f.Regular) {p : Pose f.Number} (hp : p.isFinite = true)
    (hheading : IsHeading p.heading) {m : Twist f.Number} (hm : m.isZero = true) :
    (p.move m == p) = true ∧ (p.move m).isFinite = true ∧ IsHeading (p.move m).heading := by
  simp only [Twist.isZero, Bool.and_eq_true] at hm
  obtain ⟨⟨hdx, hdy⟩, hdtheta⟩ := hm
  have hturn : IsZero m.dtheta := isZero_iff_beq.mpr hdtheta
  obtain ⟨hx, hy, -⟩ := isFinite_components.mp hp
  have hmean : Scalar.isFinite (p.heading + m.dtheta / 2.0) = true := isFinite_mean hheading.1 hturn
  have hone : (1 : Float).isFinite = true := rfl
  have hchord : IsZero (m.dx * chordRatio m.dtheta) ∧ IsZero (m.dy * chordRatio m.dtheta) := by
    rw [chordRatio_of_isZero hturn]
    exact ⟨(isZero_iff_beq.mpr hdx).mul_right hone, (isZero_iff_beq.mpr hdy).mul_right hone⟩
  obtain ⟨hturnedX, hturnedY⟩ := isZero_rotated (hf.cos _ hmean) (hf.sin _ hmean) hchord.1 hchord.2
  obtain ⟨hfiniteX, hsameX⟩ := add_isZero_beq hx hturnedX
  obtain ⟨hfiniteY, hsameY⟩ := add_isZero_beq hy hturnedY
  obtain ⟨hwrapped, hsame⟩ := wrap_add_isZero hheading hturn
  exact ⟨beq_iff.mpr ⟨hsameX, hsameY, hsame⟩, isFinite_components.mpr ⟨hfiniteX, hfiniteY, hwrapped.1⟩,
    hwrapped⟩

end Pose

/-! ## Readings that repeat each other -/

/-- A reading of a robot that has not moved since `before`: gyro and distances are the same
numbers, the wheels may have been steered. -/
structure DriveReading.Repeats (before r : DriveReading f.Number) : Prop where
  finite : r.isFinite = true
  gyro : (r.gyro == before.gyro) = true
  distances : ∀ same ∈ (before.travel.zipWith (fun t u => u.distance == t.distance) r.travel).toList,
    same = true

variable {last before r : DriveReading f.Number} {c : Chassis f.Number}

theorem DriveReading.repeats_self (hr : r.isFinite = true) : r.Repeats r := by
  obtain ⟨hgyro, htravel⟩ := isFinite_components.mp hr
  rw [Wheels.forall_mem_toList] at htravel
  obtain ⟨hfl, hfr, hbl, hbr⟩ := htravel
  have hself : ∀ {x : Float}, x.isFinite = true → (x == x) = true :=
    GradualScalar.beq_self (α := Float)
  refine ⟨hr, hself hgyro, Wheels.forall_mem_toList.mpr ?_⟩
  exact ⟨hself hfl.1, hself hfr.1, hself hbl.1, hself hbr.1⟩

/-- Numbers that equal a third one do not differ. -/
theorem isZero_sub_of_beq {x y z : Float} (hx : x.isFinite = true) (hy : y.isFinite = true)
    (hxz : (x == z) = true) (hyz : (y == z) = true) : IsZero (x - y) := by
  obtain ⟨-, -, hvalue⟩ := (beq_iff x z).mp hxz
  obtain ⟨-, -, hvalue'⟩ := (beq_iff y z).mp hyz
  refine isZero_sub hx hy ?_
  rw [real, real, hvalue, hvalue']

theorem DriveReading.Repeats.rolled (hbefore : last.Repeats before) (hr : last.Repeats r) :
    ∀ t ∈ (before.travel.zipWith DeadReckoner.rolled r.travel).toList,
      (t.distance == 0) = true ∧ Scalar.isFinite t.angle = true := by
  obtain ⟨hfinite, -, hdistances⟩ := hbefore
  obtain ⟨hfinite', -, hdistances'⟩ := hr
  obtain ⟨-, htravel⟩ := isFinite_components.mp hfinite
  obtain ⟨-, htravel'⟩ := isFinite_components.mp hfinite'
  have hwheel : ∀ {t u v : WheelTravel f.Number},
      Scalar.isFinite t.distance = true ∧ Scalar.isFinite t.angle = true →
      Scalar.isFinite u.distance = true ∧ Scalar.isFinite u.angle = true →
      (t.distance == v.distance) = true → (u.distance == v.distance) = true →
      ((DeadReckoner.rolled t u).distance == 0) = true ∧
        Scalar.isFinite (DeadReckoner.rolled t u).angle = true :=
    fun ht hu htv huv => ⟨isZero_iff_beq.mp (isZero_sub_of_beq hu.1 ht.1 huv htv), hu.2⟩
  rw [Wheels.forall_mem_toList] at *
  exact ⟨hwheel htravel.1 htravel'.1 hdistances.1 hdistances'.1,
    hwheel htravel.2.1 htravel'.2.1 hdistances.2.1 hdistances'.2.1,
    hwheel htravel.2.2.1 htravel'.2.2.1 hdistances.2.2.1 hdistances'.2.2.1,
    hwheel htravel.2.2.2 htravel'.2.2.2 hdistances.2.2.2 hdistances'.2.2.2⟩

/-- Between two repeats of one reading there is no motion. -/
theorem DriveReading.Repeats.isZero_motionBetween (hf : f.Regular) (hc : c.sharesFinite = true)
    (hbefore : last.Repeats before) (hr : last.Repeats r) :
    (DeadReckoner.motionBetween c before r).isZero = true := by
  have hmotion := (c.isZero_motion hf (hbefore.rolled hr)).trans hc
  obtain ⟨hgyro, -⟩ := isFinite_components.mp hbefore.finite
  obtain ⟨hgyro', -⟩ := isFinite_components.mp hr.finite
  have hturn := isZero_iff_beq.mp (isZero_sub_of_beq hgyro' hgyro hr.gyro hbefore.gyro)
  simp only [Twist.isZero, Bool.and_eq_true] at hmotion ⊢
  exact ⟨hmotion.1, hturn⟩

/-! ## Dead reckoning -/

namespace DeadReckoner

/-- The states that a reckoner can be brought to, from any pose by any readings, resets and
corrections. -/
inductive Reachable {α : Type} [Scalar α] (c : Chassis α) : DeadReckoner α → Prop
  | start (position : Vec2 α) (heading : α) : Reachable c (.start c (.make position heading))
  | update {d after : DeadReckoner α} {r : DriveReading α} :
      Reachable c d → d.update r = .ok after → Reachable c after
  | reset {d : DeadReckoner α} (position : Vec2 α) (heading : α) :
      Reachable c d → Reachable c (d.reset (.make position heading))
  | correct {d : DeadReckoner α} (s : Shift α) : Reachable c d → Reachable c (d.correct s)

/-- A reckoner whose heading is wrapped, if it is finite, and that compares with finite
readings. -/
structure Kept (c : Chassis f.Number) (d : DeadReckoner f.Number) : Prop where
  chassis : d.chassis = c
  heading : Scalar.isFinite d.pose.heading = true → IsHeading d.pose.heading
  baseline : ∀ r, d.baseline = some r → r.isFinite = true

variable {d after : DeadReckoner f.Number}

theorem isHeading_make {position : Vec2 f.Number} {heading : f.Number}
    (h : Scalar.isFinite (Pose.make position heading).heading = true) :
    IsHeading (Pose.make position heading).heading := isHeading_wrap (isFinite_of_wrap h)

theorem Reachable.kept (h : Reachable c d) : Kept c d := by
  induction h with
  | start position heading => exact ⟨rfl, isHeading_make, nofun⟩
  | update _ hupdate ih =>
    obtain ⟨hfinite, ⟨-, rfl⟩ | ⟨before, -, rfl⟩⟩ := update_eq_ok hupdate
    · refine ⟨ih.chassis, ih.heading, ?_⟩
      rintro _ ⟨⟩
      exact hfinite
    · refine ⟨ih.chassis, isHeading_make, ?_⟩
      rintro _ ⟨⟩
      exact hfinite
  -- a reset and a correction leave the last reading in place
  | reset position heading _ ih => exact ⟨ih.chassis, isHeading_make, ih.baseline⟩
  | correct s _ ih => exact ⟨ih.chassis, isHeading_make, ih.baseline⟩

/-- A reckoner that is where `p` is and has seen nothing but repeats of `last` there. -/
structure AtRest (c : Chassis f.Number) (p : Pose f.Number) (last : DriveReading f.Number)
    (d : DeadReckoner f.Number) : Prop where
  chassis : d.chassis = c
  finite : d.pose.isFinite = true
  heading : IsHeading d.pose.heading
  pose : (d.pose == p) = true
  baseline : ∃ before, d.baseline = some before ∧ last.Repeats before

theorem Reachable.atRest (h : Reachable c d) (hpose : d.pose.isFinite = true)
    (hlast : ∃ before, d.baseline = some before ∧ last.Repeats before) : AtRest c d.pose last d := by
  obtain ⟨hchassis, hheading, -⟩ := h.kept
  obtain ⟨hx, hy, hfinite⟩ := Pose.isFinite_components.mp hpose
  refine ⟨hchassis, hpose, hheading hfinite, ?_, hlast⟩
  have hself : ∀ {x : Float}, x.isFinite = true → (x == x) = true :=
    GradualScalar.beq_self (α := Float)
  exact Pose.beq_iff.mpr ⟨hself hx, hself hy, hself hfinite⟩

theorem Reachable.atRest_self (h : Reachable c d) (hpose : d.pose.isFinite = true)
    (hlast : d.baseline = some last) : AtRest c d.pose last d :=
  h.atRest hpose ⟨last, hlast, DriveReading.repeats_self (h.kept.baseline last hlast)⟩

variable {p : Pose f.Number}

/-- One more repeat is taken in and changes nothing. -/
theorem AtRest.update (h : AtRest c p last d) (hf : f.Regular) (hc : c.sharesFinite = true)
    (hr : last.Repeats r) : ∃ after, d.update r = .ok after ∧ AtRest c p last after := by
  obtain ⟨before, hbefore, hrepeats⟩ := h.baseline
  have hmotion := hrepeats.isZero_motionBetween hf hc hr
  rw [← h.chassis] at hmotion
  obtain ⟨hsame, hfinite, hheading⟩ := Pose.move_isZero hf h.finite h.heading hmotion
  unfold DeadReckoner.update
  rw [if_neg (by simp [hr.finite]), hbefore]
  exact ⟨_, rfl, h.chassis, hfinite, hheading, Pose.beq_trans hsame h.pose, r, rfl, hr⟩

theorem AtRest.foldlM (h : AtRest c p last d) (hf : f.Regular) (hc : c.sharesFinite = true)
    {readings : List (DriveReading f.Number)} (hreadings : ∀ r ∈ readings, last.Repeats r) :
    ∃ after, readings.foldlM DeadReckoner.update d = .ok after ∧ AtRest c p last after := by
  induction readings generalizing d with
  | nil => exact ⟨d, rfl, h⟩
  | cons r rest ih =>
    obtain ⟨next, hnext, hrest⟩ := h.update hf hc (hreadings r List.mem_cons_self)
    obtain ⟨after, hafter, hlast⟩ := ih hrest fun s hs => hreadings s (List.mem_cons_of_mem r hs)
    refine ⟨after, ?_, hlast⟩
    rw [List.foldlM_cons, hnext]
    exact hafter

end DeadReckoner

/-! ## Estimators -/

namespace Estimator

open DeadReckoner

/-- A command that tells of nothing but repeats of a reading. -/
inductive Command.Idle (last : DriveReading f.Number) : Command f.Number → Prop
  | drive {s : DriveSample f.Number} (h : last.Repeats s.reading) : Idle last (.drive s)
  | batch {samples : List (DriveSample f.Number)} (h : ∀ s ∈ samples, last.Repeats s.reading) :
      Idle last (.batch samples)

variable {e : Estimator f.Number} {p : Pose f.Number} {s : DriveSample f.Number}

/-- What an estimator does to its reckoner is what can be done to any. -/
theorem reachable_run {start : Estimator f.Number} (h : Reachable c start.reckoner)
    {commands : List (Command f.Number)}
    (hreset : ∀ p, .reset p ∈ commands → ∃ position heading, p = Pose.make position heading) :
    Reachable c (start.run commands).2.reckoner := by
  refine run_preserves (P := fun e => Reachable c e.reckoner) ?_ ?_ ?_ commands h hreset
  · intro e s he
    rcases addDrive_cases e s with ⟨after, hafter, hdrive⟩ | ⟨r, -, hdrive⟩ <;> rw [hdrive]
    · obtain ⟨-, -, reckoner, hupdate, rfl⟩ := integrate_eq_ok hafter
      exact .update he hupdate
    · exact he
  · intro e m he
    rcases addPose_cases e m with ⟨d, -, hpose⟩ | ⟨r, -, hpose⟩ <;> rw [hpose]
    · exact .correct d he
    · exact he
  · rintro e _ ⟨position, heading, rfl⟩ he
    exact .reset position heading he

theorem atRest_addDrive (h : AtRest c p last e.reckoner) (hf : f.Regular)
    (hc : c.sharesFinite = true) (hs : last.Repeats s.reading) :
    AtRest c p last (e.addDrive s).2.reckoner := by
  rcases addDrive_cases e s with ⟨after, hafter, hdrive⟩ | ⟨r, -, hdrive⟩ <;> rw [hdrive]
  · obtain ⟨-, -, reckoner, hupdate, rfl⟩ := integrate_eq_ok hafter
    obtain ⟨next, hnext, hrest⟩ := h.update hf hc hs
    rw [hupdate] at hnext
    rwa [← Except.ok.inj hnext] at hrest
  -- a sample that is rejected changes nothing
  · exact h

theorem atRest_addDrives (h : AtRest c p last e.reckoner) (hf : f.Regular)
    (hc : c.sharesFinite = true) {samples : List (DriveSample f.Number)}
    (hsamples : ∀ s ∈ samples, last.Repeats s.reading) :
    AtRest c p last (e.addDrives samples).2.reckoner := by
  induction samples generalizing e with
  | nil => exact h
  | cons s rest ih =>
    exact ih (atRest_addDrive h hf hc (hsamples s List.mem_cons_self)) fun t ht =>
      hsamples t (List.mem_cons_of_mem s ht)

theorem atRest_run (h : AtRest c p last e.reckoner) (hf : f.Regular) (hc : c.sharesFinite = true)
    {commands : List (Command f.Number)} (hidle : ∀ command ∈ commands, command.Idle last) :
    AtRest c p last (e.run commands).2.reckoner := by
  induction commands generalizing e with
  | nil => exact h
  | cons command rest ih =>
    refine ih ?_ fun other hother => hidle other (List.mem_cons_of_mem command hother)
    cases hidle command List.mem_cons_self with
    | drive hs => exact atRest_addDrive h hf hc hs
    | batch hsamples =>
      refine atRest_addDrives h hf hc fun s hs => hsamples s ?_
      exact List.mem_mergeSort.mp hs

theorem reachable_addPose (h : Reachable c e.reckoner) (m : PoseMeasurement f.Number) :
    Reachable c (e.addPose m).2.reckoner ∧
      (e.addPose m).2.reckoner.baseline = e.reckoner.baseline := by
  rcases addPose_cases e m with ⟨d, -, hpose⟩ | ⟨r, -, hpose⟩ <;> rw [hpose]
  · exact ⟨.correct d h, rfl⟩
  · exact ⟨h, rfl⟩

/-- On a chassis with finite shares, a reckoner that has been brought anywhere by readings,
resets and corrections stays there as long as readings repeat the last one, with the wheels
at any angles: its pose is finite and equal to what it was, however many there are. So does
an estimator after any commands, and the correction by a camera pose that comes in between
stays as it was made. -/
theorem standstill_run (hf : f.Regular) (hc : c.sharesFinite = true) :
    (∀ d, Reachable c d → d.pose.isFinite = true → ∀ last, d.baseline = some last →
      ∀ readings : List (DriveReading f.Number), (∀ r ∈ readings, last.Repeats r) →
      ∃ after, readings.foldlM DeadReckoner.update d = .ok after ∧ (after.pose == d.pose) = true) ∧
    ∀ position heading settings start commands,
      build c (.make position heading) settings = .ok start →
      (∀ p, .reset p ∈ commands → ∃ position heading, p = Pose.make position heading) →
      let e := (start.run commands).2
      e.pose.isFinite = true → ∀ last, e.reckoner.baseline = some last →
      ∀ first m second, (∀ command ∈ first, Command.Idle last command) →
        (∀ command ∈ second, Command.Idle last command) →
        let before := (e.run first).2
        let seen := (before.addPose m).2
        let after := (seen.run second).2
        (before.pose == e.pose) = true ∧
          (seen.pose.isFinite = true → (after.pose == seen.pose) = true) := by
  constructor
  · intro d hd hpose last hlast readings hreadings
    obtain ⟨after, hafter, hrest⟩ := (hd.atRest_self hpose hlast).foldlM hf hc hreadings
    exact ⟨after, hafter, hrest.pose⟩
  · intro position heading settings start commands hbuild hreset e hpose last hlast first m second
      hfirst hsecond before seen after
    obtain ⟨-, -, -, rfl⟩ := build_eq_ok hbuild
    have hreachable : Reachable c e.reckoner := reachable_run (.start position heading) hreset
    have hbefore : AtRest c e.pose last before.reckoner :=
      atRest_run (hreachable.atRest_self hpose hlast) hf hc hfirst
    have hkept : Reachable c before.reckoner := by
      refine reachable_run hreachable fun p hp => ?_
      cases hfirst _ hp
    refine ⟨hbefore.pose, fun hseen => ?_⟩
    -- the camera pose moves the reckoner but not its last reading, which the next ones repeat
    obtain ⟨hcorrected, hbaseline⟩ := reachable_addPose hkept m
    have hlater := hbefore.baseline
    rw [← hbaseline] at hlater
    have hrest : AtRest c seen.pose last seen.reckoner := hcorrected.atRest hseen hlater
    exact (atRest_run hrest hf hc hsecond).pose

/-- Wheels that are steered while the robot stands somewhere, before and after a camera pose
has put it elsewhere. -/
theorem standstill_run_steered :
    let c : Chassis MathLibrary.tabulated.Number := .square
    let start := fresh c (.make ⟨3.0, 4.0⟩ 0)
    let reading (angle : MathLibrary.tabulated.Number) : DriveReading MathLibrary.tabulated.Number :=
      ⟨5.0, .replicate ⟨7.0, angle⟩⟩
    let e := (start.run [.drive ⟨0, reading 0⟩]).2
    let before := (e.run [.drive ⟨1, reading 1⟩]).2
    let seen := (before.addPose ⟨.make ⟨1, 2.0⟩ 0, 0, ⟨1, 1, 1⟩⟩).2
    let after := (seen.run [.drive ⟨2.0, reading 0⟩, .drive ⟨3.0, reading 1⟩]).2
    Chassis.build (Chassis.rectangle 1 1) = .ok c ∧ (before.pose == e.pose) = true ∧
      (seen.pose == before.pose) = false ∧ (after.pose == seen.pose) = true := by
  intro c start reading e before seen after
  have hsquare : Chassis.build (Chassis.rectangle 1 1) = .ok c :=
    (Chassis.build_number MathLibrary.tabulated _).trans Chassis.build_square
  have hshares : c.sharesFinite = true := by decide +kernel
  have hbuild : build c (.make ⟨3.0, 4.0⟩ 0) .standard = .ok start := by rfl
  have hzero : (reading 0).Repeats (reading 0) :=
    ⟨by decide +kernel, by decide +kernel, by decide +kernel⟩
  have hone : (reading 0).Repeats (reading 1) :=
    ⟨by decide +kernel, by decide +kernel, by decide +kernel⟩
  have hlast : e.reckoner.baseline = some (reading 0) := by
    have htime : Scalar.isFinite (0 : MathLibrary.tabulated.Number) = true := by decide +kernel
    obtain ⟨first, hfirst, hdrive⟩ :=
      addDrive_of_newer (e := start) (s := ⟨0, reading 0⟩) htime rfl hzero.finite
    show (start.addDrive ⟨0, reading 0⟩).2.reckoner.baseline = _
    rw [hdrive]
    exact (reckoner_integrate hfirst).2.2
  have hpose : e.pose.isFinite = true := by decide +kernel
  have hseen : seen.pose.isFinite = true := by decide +kernel
  have hmoved : (seen.pose == before.pose) = false := by decide +kernel
  obtain ⟨hbefore, hafter⟩ := (standstill_run MathLibrary.regular_tabulated hshares).2
    ⟨3.0, 4.0⟩ 0 .standard start [.drive ⟨0, reading 0⟩] hbuild (by simp) hpose
    (reading 0) hlast [.drive ⟨1, reading 1⟩]
    ⟨.make ⟨1, 2.0⟩ 0, 0, ⟨1, 1, 1⟩⟩ [.drive ⟨2.0, reading 0⟩, .drive ⟨3.0, reading 1⟩]
    (by simpa using Command.Idle.drive hone) (by simpa using ⟨.drive hzero, .drive hone⟩)
  exact ⟨hsquare, hbefore, hmoved, hafter hseen⟩

end Estimator

end SwerveLocalization
