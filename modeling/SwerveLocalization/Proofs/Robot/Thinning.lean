import Mathlib
import SwerveLocalization.Proofs.Binary64.Order
import SwerveLocalization.Proofs.Localization.Rejections
import SwerveLocalization.Proofs.Robot.Run
import SwerveLocalization.Proofs.StableSort

/-!
# Rejected samples are invisible

Take any run of a robot, and leave out of its batches and queues any of the
samples that were rejected. Main statement: the robot ends up the same but for
the counts of rejections, and what is left of the samples gets the verdicts it
got before. The samples that are left out are told from the others by a mark on
each, and the marks go through the sorting together with the samples.
-/

namespace SwerveLocalization

open Estimator

variable {β γ : Type}

/-! ## Marks -/

/-- The elements at which the mark is set. -/
def select (marks : List Bool) (l : List γ) : List γ := ((marks.zip l).filter Prod.fst).map Prod.snd

/-- The samples that are not left out. -/
def kept (l : List (β × Bool)) : List β := select (l.map Prod.snd) (l.map Prod.fst)

theorem kept_eq (l : List (β × Bool)) : kept l = (l.filter Prod.snd).map Prod.fst := by
  unfold kept select
  induction l with
  | nil => rfl
  | cons b rest ih =>
    obtain ⟨b, mark⟩ := b
    cases mark with
    | false => simpa using ih
    | true => simpa using ih

/-- Whether all samples that are left out were rejected. -/
def MissesRejected (marks : List Bool) (judged : List (β × Verdict)) : Prop :=
  ∀ p ∈ marks.zip judged, p.1 = false → p.2.2.isAccepted = false

/-- How many of the samples that are left out were rejected for a reason. -/
def missedFor (marks : List Bool) (judged : List (β × Verdict)) (r : Rejection) : Nat :=
  (marks.zip judged).countP fun p => !p.1 && decide (p.2.2 = .rejected r)

theorem missedFor_cons_false (marks : List Bool) (b : β × Verdict) (judged : List (β × Verdict))
    (r : Rejection) :
    missedFor (false :: marks) (b :: judged) r
      = missedFor marks judged r + if b.2 = .rejected r then 1 else 0 := by
  unfold missedFor
  rw [List.zip_cons_cons, List.countP_cons]
  simp

/-! ## Many samples -/

variable {α : Type}

/-- Takes in samples one after the other. -/
def takeAll (take : Estimator α → β → Verdict × Estimator α) (e : Estimator α) :
    List β → List (β × Verdict) × Estimator α
  | [] => ([], e)
  | b :: rest =>
    ((b, (take e b).1) :: (takeAll take (take e b).2 rest).1, (takeAll take (take e b).2 rest).2)

theorem addDrives_eq_takeAll [Scalar α] (e : Estimator α) (samples : List (DriveSample α)) :
    e.addDrives samples = takeAll addDrive e samples := by
  induction samples generalizing e with
  | nil => rfl
  | cons s rest ih => rw [addDrives_cons, ih, takeAll]

theorem addSightings_eq_takeAll [Scalar α] (g : GateSettings α) (f : Field α) (e : Estimator α)
    (sightings : List (Sighting α)) :
    Robot.addSightings g f e sightings = takeAll (Robot.addSighting g f) e sightings := by
  induction sightings generalizing e with
  | nil => rfl
  | cons s rest ih => rw [Robot.addSightings_cons, ih, takeAll]

/-- An estimator that misses rejected samples stays a shadow of the one that
does not, and judges the other samples alike. -/
theorem shadow_takeAll {take : Estimator α → β → Verdict × Estimator α} (hblind : Blind take)
    {missed : Rejection → Nat} {e e' : Estimator α} (h : Shadow missed e e')
    (l : List (β × Bool))
    (hmissed : MissesRejected (l.map Prod.snd) (takeAll take e (l.map Prod.fst)).1) :
    (takeAll take e' (kept l)).1 = select (l.map Prod.snd) (takeAll take e (l.map Prod.fst)).1 ∧
      Shadow (fun r => missed r
          + missedFor (l.map Prod.snd) (takeAll take e (l.map Prod.fst)).1 r)
        (takeAll take e (l.map Prod.fst)).2 (takeAll take e' (kept l)).2 := by
  induction l generalizing missed e e' with
  | nil => exact ⟨rfl, h⟩
  | cons b rest ih =>
    obtain ⟨b, mark⟩ := b
    have hrest := fun p hp => hmissed p (List.mem_cons_of_mem _ hp)
    cases mark with
    | true =>
      obtain ⟨hverdicts, hshadow⟩ := ih (hblind.shadow h b) hrest
      refine ⟨?_, ?_⟩
      · show (b, (take e' b).1) :: (takeAll take (take e' b).2 (kept rest)).1
          = (b, (take e b).1) :: select _ _
        rw [hverdicts, hblind.verdict_eq h b]
      · exact hshadow
    | false =>
      -- the shadow misses one more rejection before the rest is taken in
      have hrejected : (take e b).1.isAccepted = false :=
        hmissed (false, (b, (take e b).1)) List.mem_cons_self rfl
      cases hverdict : (take e b).1 with
      | accepted =>
        rw [hverdict] at hrejected
        contradiction
      | rejected q =>
        have hshadow := h.missRejection q
        rw [← hblind.rejected e b q hverdict] at hshadow
        obtain ⟨hverdicts, hlast⟩ := ih hshadow hrest
        have hcount : ∀ r, missedFor (((b, false) :: rest).map Prod.snd)
            (takeAll take e (((b, false) :: rest).map Prod.fst)).1 r
            = missedFor (rest.map Prod.snd) (takeAll take (take e b).2 (rest.map Prod.fst)).1 r
              + if q = r then 1 else 0 := by
          intro r
          refine (missedFor_cons_false _ _ _ r).trans ?_
          simp only [hverdict, Verdict.rejected.injEq]
        refine ⟨hverdicts, ?_⟩
        simp only [hcount, ← Nat.add_assoc, Nat.add_right_comm]
        exact hlast

/-! ## Samples in order -/

section Order

variable [Scalar α] (time : β → α)

/-- Marked samples in the order in which they are taken in. -/
def markedInOrder (l : List (β × Bool)) : List (β × Bool) :=
  l.mergeSort fun a b => Scalar.totalLe (time a.1) (time b.1)

theorem map_fst_markedInOrder (l : List (β × Bool)) :
    (markedInOrder time l).map Prod.fst
      = (l.map Prod.fst).mergeSort fun a b => Scalar.totalLe (time a) (time b) :=
  List.map_mergeSort fun _ _ _ _ => rfl

variable [OrderedScalar α]

/-- Leaving out samples and then sorting comes to the same as the reverse. -/
theorem kept_markedInOrder (l : List (β × Bool)) :
    kept (markedInOrder time l)
      = (kept l).mergeSort fun a b => Scalar.totalLe (time a) (time b) := by
  rw [kept_eq, kept_eq, markedInOrder, StableSort.filter_mergeSort]
  · exact List.map_mergeSort fun _ _ _ _ => rfl
  · intro a b c
    exact OrderedScalar.totalLe_trans _ _ _
  · intro a b
    exact OrderedScalar.totalLe_total _ _

end Order

namespace Robot

/-- A command each of whose samples carries a mark: whether it is left in. -/
inductive MarkedCommand (α : Type)
  | cycle (now : α) (odometry : List (DriveSample α × Bool)) (states : Wheels (WheelState α))
      (sightings : List (Sighting α × Bool))
  | join (alliance : Alliance)
  | reset (pose : Pose α)

namespace MarkedCommand

/-- The command with all of its samples. -/
def full : MarkedCommand α → Command α
  | .cycle now odometry states sightings =>
    .cycle now ⟨odometry.map Prod.fst, states⟩ ⟨sightings.map Prod.fst⟩
  | .join a => .join a
  | .reset pose => .reset pose

/-- The command without the samples that are left out. -/
def thinned : MarkedCommand α → Command α
  | .cycle now odometry states sightings => .cycle now ⟨kept odometry, states⟩ ⟨kept sightings⟩
  | .join a => .join a
  | .reset pose => .reset pose

variable [Scalar α]

/-- The marks of the readings in the order in which they are taken in. -/
def driveMarks : MarkedCommand α → List Bool
  | .cycle _ odometry _ _ => (markedInOrder DriveSample.time odometry).map Prod.snd
  | _ => []

/-- The marks of the sightings in the order in which they are taken in. -/
def sightingMarks : MarkedCommand α → List Bool
  | .cycle _ _ _ sightings => (markedInOrder Sighting.time sightings).map Prod.snd
  | _ => []

/-- Whether all samples that are left out were rejected. -/
def LeavesOutRejected (c : MarkedCommand α) (report : CycleReport α) : Prop :=
  MissesRejected c.driveMarks report.odometry ∧ MissesRejected c.sightingMarks report.vision

/-- A report without the samples that are left out. -/
def thinnedReport (c : MarkedCommand α) (report : CycleReport α) : CycleReport α :=
  ⟨select c.driveMarks report.odometry, select c.sightingMarks report.vision⟩

/-- How many of the samples that are left out were rejected for a reason. -/
def leftOut (c : MarkedCommand α) (report : CycleReport α) (r : Rejection) : Nat :=
  missedFor c.driveMarks report.odometry r + missedFor c.sightingMarks report.vision r

end MarkedCommand

/-! ## Robots -/

/-- A robot, and one that has missed rejections but is the same otherwise. -/
structure Shadow (missed : Rejection → Nat) (r r' : Robot α) : Prop where
  estimator : Estimator.Shadow missed r.estimator r'.estimator
  rest : r' = { r with estimator := r'.estimator }

variable [Scalar α]

/-- A control cycle as two runs over samples in order. -/
theorem perform_cycle (r : Robot α) (now : α) (states : Wheels (WheelState α))
    (odometry : List (DriveSample α)) (sightings : List (Sighting α)) :
    r.perform (.cycle now ⟨odometry, states⟩ ⟨sightings⟩)
      = let driven := takeAll addDrive r.estimator
          (odometry.mergeSort fun a b => Scalar.totalLe a.time b.time)
        let seen := takeAll (addSighting r.gate r.field) driven.2
          (sightings.mergeSort fun a b => Scalar.totalLe a.time b.time)
        (⟨driven.1, seen.1⟩,
          { r with estimator := seen.2, states, lastCycle := some now }) := by
  simp only [← addDrives_eq_takeAll, ← addSightings_eq_takeAll]
  rfl

variable [OrderedScalar α] {missed : Rejection → Nat} {r r' : Robot α}

theorem Shadow.cycle (h : Shadow missed r r') (now : α) (odometry : List (DriveSample α × Bool))
    (states : Wheels (WheelState α)) (sightings : List (Sighting α × Bool))
    (hc : (MarkedCommand.cycle now odometry states sightings).LeavesOutRejected
      (r.perform (.cycle now ⟨odometry.map Prod.fst, states⟩ ⟨sightings.map Prod.fst⟩)).1) :
    let c := MarkedCommand.cycle now odometry states sightings
    (r'.perform c.thinned).1 = c.thinnedReport (r.perform c.full).1 ∧
      Shadow (fun q => missed q + c.leftOut (r.perform c.full).1 q) (r.perform c.full).2
        (r'.perform c.thinned).2 := by
  intro c
  have hgate : r'.gate = r.gate := by rw [h.rest]
  have hfield : r'.field = r.field := by rw [h.rest]
  have hfull : r.perform c.full = _ := perform_cycle r now states _ _
  have hthin : r'.perform c.thinned = _ := perform_cycle r' now states _ _
  have hc' : c.LeavesOutRejected (r.perform c.full).1 := hc
  rw [← map_fst_markedInOrder, ← map_fst_markedInOrder] at hfull
  rw [← kept_markedInOrder, ← kept_markedInOrder, hgate, hfield] at hthin
  rw [hfull] at hc' ⊢
  rw [hthin]
  -- the wheels come first, so the sightings start from two shadows again
  obtain ⟨hdrive, hsighting⟩ := hc'
  obtain ⟨hodometry, hdriven⟩ := shadow_takeAll blind_addDrive h.estimator _ hdrive
  obtain ⟨hvision, hlast⟩ :=
    shadow_takeAll (blind_addSighting r.gate r.field) hdriven _ hsighting
  refine ⟨?_, ?_, ?_⟩
  · exact congrArg₂ CycleReport.mk hodometry hvision
  · simp only [MarkedCommand.leftOut, ← Nat.add_assoc]
    exact hlast
  · rw [h.rest]

theorem Shadow.perform (h : Shadow missed r r') (c : MarkedCommand α)
    (hc : c.LeavesOutRejected (r.perform c.full).1) :
    (r'.perform c.thinned).1 = c.thinnedReport (r.perform c.full).1 ∧
      Shadow (fun q => missed q + c.leftOut (r.perform c.full).1 q) (r.perform c.full).2
        (r'.perform c.thinned).2 := by
  cases c with
  | cycle now odometry states sightings => exact h.cycle now odometry states sightings hc
  | join a =>
    refine ⟨rfl, h.estimator, ?_⟩
    rw [h.rest]
    rfl
  | reset pose =>
    refine ⟨rfl, h.estimator.resetPose pose, ?_⟩
    rw [h.rest]
    rfl

/-- The invariant of two runs, one of which misses rejected samples. -/
theorem Shadow.run (h : Shadow missed r r') (commands : List (MarkedCommand α))
    (hc : ∀ p ∈ commands.zip (r.run (commands.map MarkedCommand.full)).1,
      p.1.LeavesOutRejected p.2) :
    (r'.run (commands.map MarkedCommand.thinned)).1
        = (commands.zip (r.run (commands.map MarkedCommand.full)).1).map
          (fun p => p.1.thinnedReport p.2) ∧
      Shadow (fun q => missed q
          + ((commands.zip (r.run (commands.map MarkedCommand.full)).1).map
              fun p => p.1.leftOut p.2 q).sum)
        (r.run (commands.map MarkedCommand.full)).2
        (r'.run (commands.map MarkedCommand.thinned)).2 := by
  induction commands generalizing missed r r' with
  | nil => exact ⟨rfl, h⟩
  | cons c rest ih =>
    obtain ⟨hreport, hshadow⟩ := h.perform c (hc _ List.mem_cons_self)
    obtain ⟨hreports, hlast⟩ := ih hshadow fun p hp => hc p (List.mem_cons_of_mem _ hp)
    simp only [List.map_cons, run_cons, List.zip_cons_cons, List.sum_cons, ← Nat.add_assoc]
    exact ⟨congrArg₂ List.cons hreport hreports, hlast⟩

/-! ## Robots on binary64 numbers -/

/-- Leaving out samples that were rejected changes nothing but the counts of
rejections, and each of these only by the samples left out for its reason. The
other samples get the same verdicts. -/
theorem run_thinned (r : Robot Float) (commands : List (MarkedCommand Float))
    (hc : ∀ p ∈ commands.zip (r.run (commands.map MarkedCommand.full)).1,
      p.1.LeavesOutRejected p.2) :
    let full := r.run (commands.map MarkedCommand.full)
    let thinned := r.run (commands.map MarkedCommand.thinned)
    let tally := full.2.estimator.tally
    full.2 = { thinned.2 with
        estimator := { thinned.2.estimator with
          tally := { thinned.2.estimator.tally with rejections := tally.rejections } } } ∧
      thinned.1 = (commands.zip full.1).map (fun p => p.1.thinnedReport p.2) ∧
      ∀ q, tally.rejectedFor q
        = countOn^[((commands.zip full.1).map fun p => p.1.leftOut p.2 q).sum]
          (thinned.2.estimator.tally.rejectedFor q) := by
  intro full thinned tally
  have hself : Shadow (fun _ => 0) r r := ⟨shadow_self r.estimator, rfl⟩
  obtain ⟨hreports, hestimator, hrest⟩ := hself.run commands hc
  refine ⟨?_, hreports, ?_⟩
  · rw [hrest, ← eq_of_unmarked_eq hestimator.alike]
  · intro q
    have hcount := hestimator.counts q
    rw [Nat.zero_add] at hcount
    exact hcount

/-- A reading, then one that comes too late and a sighting of nothing; the
second cycle is left out. -/
def lateAndBlank : List (MarkedCommand Float) :=
  let reading : DriveReading Float := ⟨0, .replicate ⟨0, 0⟩⟩
  [.cycle 1 [(⟨1, reading⟩, true)] (.replicate .rest) [],
    .cycle 2 [(⟨0.5, reading⟩, false)] (.replicate .rest) [(.blank, false)]]

theorem leavesOutRejected_lateAndBlank :
    ∀ p ∈ lateAndBlank.zip (squareRobot.run (lateAndBlank.map MarkedCommand.full)).1,
      p.1.LeavesOutRejected p.2 := by
  simp only [lateAndBlank, List.map, MarkedCommand.full, run_cons, run_nil, perform_cycle,
    List.mergeSort_singleton, List.mergeSort_nil, List.zip_cons_cons, List.forall_mem_cons,
    MarkedCommand.LeavesOutRejected, MarkedCommand.driveMarks, MarkedCommand.sightingMarks,
    markedInOrder, MissesRejected]
  decide +kernel

theorem leftOut_lateAndBlank :
    ((lateAndBlank.zip (squareRobot.run (lateAndBlank.map MarkedCommand.full)).1).map
      fun p => p.1.leftOut p.2 .noTags).sum = 1 := by
  simp only [lateAndBlank, List.map, MarkedCommand.full, run_cons, run_nil, perform_cycle,
    List.mergeSort_singleton, List.mergeSort_nil, List.zip_cons_cons, MarkedCommand.leftOut,
    MarkedCommand.driveMarks, MarkedCommand.sightingMarks, markedInOrder, missedFor]
  decide +kernel

theorem run_thinned_lateAndBlank :
    let full := (squareRobot.run (lateAndBlank.map MarkedCommand.full)).2
    let thinned := (squareRobot.run (lateAndBlank.map MarkedCommand.thinned)).2
    build squareParts = .ok (squareRobot : Robot Float) ∧ full.pose = thinned.pose ∧
      full.estimator.trajectory = thinned.estimator.trajectory ∧
      full.estimator.tally.rejectedFor .noTags
        = countOn (thinned.estimator.tally.rejectedFor .noTags) := by
  intro full thinned
  obtain ⟨hsame, -, hcounts⟩ := run_thinned squareRobot lateAndBlank leavesOutRejected_lateAndBlank
  have hnoTags := hcounts .noTags
  rw [leftOut_lateAndBlank] at hnoTags
  exact ⟨build_squareParts, (congrArg Robot.pose hsame).trans rfl,
    (congrArg (fun r => r.estimator.trajectory) hsame).trans rfl, hnoTags⟩

end Robot

end SwerveLocalization
