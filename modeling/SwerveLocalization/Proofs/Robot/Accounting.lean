import Mathlib
import SwerveLocalization.Proofs.Binary64.Arithmetic
import SwerveLocalization.Proofs.Localization.Counting
import SwerveLocalization.Proofs.Robot.Run
import SwerveLocalization.Proofs.StableSort
import SwerveLocalization.Robot.Session

/-!
# Every sample is counted once

A sample is judged in one of two places, by the gate or by the estimator, after
it has been sorted among others and may have waited in a queue. Main statement:
whatever happens in a session, the samples that have been judged are those that
have been delivered to its cycles, each as often as it was delivered, and the
counters add up to their number. A cycle leaves nothing behind in the queue,
and the buffer it drains the queue into is of no account to later ones.
-/

namespace SwerveLocalization

open Tally

/-! ## Counters of one kind -/

namespace Counter

/-- Every counter. -/
def all : List Counter := odometryApplied :: visionAccepted :: Rejection.all.map rejected

/-- The counters of camera poses, or those of wheel readings. -/
def ofKind (vision : Bool) : List Counter := all.filter fun k => k.isVision == vision

theorem mem_all (k : Counter) : k ∈ all := by
  cases k with
  | odometryApplied => decide
  | visionAccepted => decide
  | rejected r => cases r <;> decide

theorem mem_ofKind {k : Counter} {vision : Bool} : k ∈ ofKind vision ↔ k.isVision = vision := by
  rw [ofKind, List.mem_filter, beq_iff_eq]
  exact and_iff_right k.mem_all

theorem nodup_ofKind (vision : Bool) : (ofKind vision).Nodup := by
  cases vision <;> decide

/-- Summed over their kind, counters count what has advanced any of them. -/
theorem sum_count_ofKind {vision : Bool} {advances : List Counter}
    (h : ∀ k ∈ advances, k.isVision = vision) :
    ((ofKind vision).map advances.count).sum = advances.length :=
  sum_map_count (nodup_ofKind vision) fun k hk => mem_ofKind.mpr (h k hk)

/-- The counters of a kind other than that of the advances stay. -/
theorem count_of_other_kind {vision : Bool} {advances : List Counter} {k : Counter}
    (h : ∀ a ∈ advances, a.isVision = !vision) (hk : k ∈ ofKind vision) :
    advances.count k = 0 := by
  rw [List.count_eq_zero]
  intro hmem
  have hkind := h k hmem
  rw [mem_ofKind.mp hk] at hkind
  cases vision <;> contradiction

/-- Where advances of both kinds are counted, the counters of one kind add up to
the number of its own. -/
theorem sum_eq_length {vision : Bool} {n : Counter → Nat} {own other : List Counter}
    (hn : ∀ k, n k = own.count k + other.count k) (hown : ∀ k ∈ own, k.isVision = vision)
    (hother : ∀ k ∈ other, k.isVision = !vision) : ((ofKind vision).map n).sum = own.length := by
  rw [← sum_count_ofKind hown]
  congr 1
  apply List.map_congr_left
  intro k hk
  rw [hn, count_of_other_kind hother hk, Nat.add_zero]

end Counter

/-- A tally that has started from nothing and never been full shows how many
samples of each kind it has counted. -/
theorem Tally.Advanced.sum_eq {t : Tally} {drives poses : List Counter}
    (h : Advanced (drives ++ poses) .zero t) (hroom : ∀ k, (t.count k).toNat < UInt32.size - 1)
    (hdrives : ∀ k ∈ drives, k.isVision = false) (hposes : ∀ k ∈ poses, k.isVision = true) :
    ((Counter.ofKind false).map fun k => (t.count k).toNat).sum = drives.length ∧
      ((Counter.ofKind true).map fun k => (t.count k).toNat).sum = poses.length := by
  have hzero : ∀ k, (zero.count k).toNat = 0 := by
    intro k
    cases k with
    | odometryApplied => rfl
    | visionAccepted => rfl
    | rejected r => exact congrArg UInt32.toNat (rejectedFor_zero r)
  have hcount : ∀ k, (t.count k).toNat = drives.count k + poses.count k := by
    intro k
    rw [h.count_eq (hroom k), hzero, Nat.zero_add, List.count_append]
  have hcount' : ∀ k, (t.count k).toNat = poses.count k + drives.count k :=
    fun k => (hcount k).trans (Nat.add_comm _ _)
  exact ⟨Counter.sum_eq_length hcount hdrives hposes, Counter.sum_eq_length hcount' hposes hdrives⟩

variable {α : Type}

/-! ## Samples of a session -/

/-- The counters that the wheel readings of a report advance. -/
def CycleReport.driveCounters (report : CycleReport α) : List Counter :=
  report.odometry.map fun p => .ofDrive p.2

/-- The counters that the sightings of a report advance. -/
def CycleReport.poseCounters (report : CycleReport α) : List Counter :=
  report.vision.map fun p => .ofPose p.2

namespace Session

namespace Command

/-- The wheel readings that a command delivers. -/
def readings : Command α → List (DriveSample α)
  | .cycle _ inputs => inputs.odometry
  | _ => []

/-- The sighting that a command reports. -/
def sighting? : Command α → Option (Sighting α)
  | .sight s => some s
  | _ => none

/-- Whether a command runs a control cycle. -/
def isCycle : Command α → Bool
  | .cycle _ _ => true
  | _ => false

end Command

/-- The sightings reported in a run. -/
def sighted (commands : List (Command α)) : List (Sighting α) :=
  commands.filterMap Command.sighting?

/-- A run up to its last control cycle. -/
def untilLastCycle (commands : List (Command α)) : List (Command α) :=
  commands.rdropWhile fun c => !c.isCycle

/-- What a run has done after its last control cycle. -/
def sinceLastCycle (commands : List (Command α)) : List (Command α) :=
  commands.rtakeWhile fun c => !c.isCycle

/-- The readings judged in a run. -/
def judgedReadings (reports : List (CycleReport α)) : List (DriveSample α) :=
  reports.flatMap fun r => r.odometry.map Prod.fst

/-- The sightings judged in a run. -/
def judgedSightings (reports : List (CycleReport α)) : List (Sighting α) :=
  reports.flatMap fun r => r.vision.map Prod.fst

theorem judgedSightings_concat (reports : List (CycleReport α)) (r : CycleReport α) :
    judgedSightings (reports ++ [r]) = judgedSightings reports ++ r.vision.map Prod.fst := by
  simp [judgedSightings]

theorem sighted_append (commands others : List (Command α)) :
    sighted (commands ++ others) = sighted commands ++ sighted others :=
  List.filterMap_append

theorem length_driveCounters (reports : List (CycleReport α)) :
    (reports.flatMap CycleReport.driveCounters).length = (judgedReadings reports).length := by
  simp [judgedReadings, CycleReport.driveCounters]

theorem length_poseCounters (reports : List (CycleReport α)) :
    (reports.flatMap CycleReport.poseCounters).length = (judgedSightings reports).length := by
  simp [judgedSightings, CycleReport.poseCounters]

theorem untilLastCycle_concat (commands : List (Command α)) (c : Command α) :
    untilLastCycle (commands ++ [c])
      = if c.isCycle then commands ++ [c] else untilLastCycle commands := by
  unfold untilLastCycle
  rw [List.rdropWhile_concat]
  cases c <;> rfl

theorem sinceLastCycle_concat (commands : List (Command α)) (c : Command α) :
    sinceLastCycle (commands ++ [c])
      = if c.isCycle then [] else sinceLastCycle commands ++ [c] := by
  unfold sinceLastCycle
  rw [List.rtakeWhile_concat]
  cases c <;> rfl

theorem untilLastCycle_append_sinceLastCycle (commands : List (Command α)) :
    untilLastCycle commands ++ sinceLastCycle commands = commands := by
  induction commands using List.reverseRecOn with
  | nil => rfl
  | append_singleton commands c ih =>
    rw [untilLastCycle_concat, sinceLastCycle_concat]
    cases c with
    | cycle now inputs => exact List.append_nil _
    | _ => exact (List.append_assoc _ _ _).symm.trans (congrArg (· ++ [_]) ih)

end Session

variable [Scalar α]

/-! ## Cycles -/

/-- A sighting is stopped at the gate for reasons of its own. -/
theorem GateSettings.isVision_of_evaluate {g : GateSettings α} {f : Field α} {s : Sighting α}
    {r : Rejection} (h : g.evaluate f s = .error r) : r.isVision = true := by
  unfold evaluate at h
  split_ifs at h <;> cases h <;> rfl

namespace Estimator

theorem isVision_addDrives (e : Estimator α) (samples : List (DriveSample α)) :
    ∀ p ∈ (e.addDrives samples).1, (Counter.ofDrive p.2).isVision = false := by
  induction samples generalizing e with
  | nil => simp
  | cons s rest ih =>
    rw [addDrives_cons, List.forall_mem_cons]
    exact ⟨isVision_addDrive e s, ih _⟩

end Estimator

namespace Robot

variable (g : GateSettings α) (f : Field α) (e : Estimator α)

theorem advanced_addSighting (s : Sighting α) :
    Advanced [.ofPose (addSighting g f e s).1] e.tally (addSighting g f e s).2.tally := by
  unfold addSighting
  cases g.evaluate f s with
  | ok m => exact e.advanced_addPose m
  | error r => exact advanced_countRejection e.tally r

theorem isVision_addSighting (s : Sighting α) :
    (Counter.ofPose (addSighting g f e s).1).isVision = true := by
  unfold addSighting
  cases hevaluate : g.evaluate f s with
  | ok m => exact e.isVision_addPose m
  | error r => exact g.isVision_of_evaluate hevaluate

theorem advanced_addSightings (sightings : List (Sighting α)) :
    Advanced ((addSightings g f e sightings).1.map fun p => .ofPose p.2) e.tally
      (addSightings g f e sightings).2.tally := by
  induction sightings generalizing e with
  | nil => exact advanced_nil e.tally
  | cons s rest ih =>
    rw [addSightings_cons, List.map_cons]
    exact (advanced_addSighting g f e s).trans (ih (addSighting g f e s).2)

theorem isVision_addSightings (sightings : List (Sighting α)) :
    ∀ p ∈ (addSightings g f e sightings).1, (Counter.ofPose p.2).isVision = true := by
  induction sightings generalizing e with
  | nil => simp
  | cons s rest ih =>
    rw [addSightings_cons, List.forall_mem_cons]
    exact ⟨isVision_addSighting g f e s, ih _⟩

theorem samples_addSightings (sightings : List (Sighting α)) :
    (addSightings g f e sightings).1.map Prod.fst = sightings := by
  induction sightings generalizing e with
  | nil => rfl
  | cons s rest ih => rw [addSightings_cons, List.map_cons, ih]

end Robot

/-! ## Sessions -/

namespace Session

theorem advanced_perform (s : Session α) (c : Command α) :
    Advanced ((s.perform c).1.driveCounters ++ (s.perform c).1.poseCounters)
      s.robot.estimator.tally (s.perform c).2.robot.estimator.tally := by
  cases c with
  | sight o => exact advanced_nil _
  | cycle now inputs =>
    exact (Estimator.advanced_addDrives s.robot.estimator _).trans
      (Robot.advanced_addSightings s.robot.gate s.robot.field _ _)
  | join a => exact advanced_nil _
  | reset p => exact advanced_nil _

theorem advanced_run (s : Session α) (commands : List (Command α)) :
    Advanced ((s.run commands).1.flatMap CycleReport.driveCounters
        ++ (s.run commands).1.flatMap CycleReport.poseCounters)
      s.robot.estimator.tally (s.run commands).2.robot.estimator.tally := by
  have hmixed : Advanced
      ((s.run commands).1.flatMap fun r => r.driveCounters ++ r.poseCounters)
      s.robot.estimator.tally (s.run commands).2.robot.estimator.tally := by
    induction commands generalizing s with
    | nil => exact advanced_nil _
    | cons c rest ih => exact (advanced_perform s c).trans (ih (s.perform c).2)
  intro k
  rw [(List.flatMap_append_perm _ CycleReport.driveCounters CycleReport.poseCounters).count_eq]
  exact hmixed k

theorem isVision_perform (s : Session α) (c : Command α) :
    (∀ k ∈ (s.perform c).1.driveCounters, k.isVision = false) ∧
      ∀ k ∈ (s.perform c).1.poseCounters, k.isVision = true := by
  cases c with
  | cycle now inputs =>
    constructor
    · exact List.forall_mem_map.mpr (Estimator.isVision_addDrives _ _)
    · exact List.forall_mem_map.mpr (Robot.isVision_addSightings _ _ _ _)
  | _ => exact ⟨nofun, nofun⟩

/-- Wheels and cameras advance counters of their own kinds. -/
theorem isVision_run (s : Session α) (commands : List (Command α)) :
    (∀ k ∈ (s.run commands).1.flatMap CycleReport.driveCounters, k.isVision = false) ∧
      ∀ k ∈ (s.run commands).1.flatMap CycleReport.poseCounters, k.isVision = true := by
  induction commands generalizing s with
  | nil => exact ⟨nofun, nofun⟩
  | cons c rest ih =>
    obtain ⟨hdrives, hposes⟩ := isVision_perform s c
    obtain ⟨hdrives', hposes'⟩ := ih (s.perform c).2
    exact ⟨List.forall_mem_append.mpr ⟨hdrives, hdrives'⟩,
      List.forall_mem_append.mpr ⟨hposes, hposes'⟩⟩

/-- The readings judged are those delivered, in another order. -/
theorem judgedReadings_perm (s : Session α) (commands : List (Command α)) :
    (judgedReadings (s.run commands).1).Perm (commands.flatMap Command.readings) := by
  induction commands generalizing s with
  | nil => exact .nil
  | cons c rest ih =>
    have hfirst : ((s.perform c).1.odometry.map Prod.fst).Perm c.readings := by
      cases c with
      | cycle now inputs =>
        show ((s.robot.estimator.addBatch inputs.odometry).1.map Prod.fst).Perm inputs.odometry
        unfold Estimator.addBatch
        rw [Estimator.samples_addDrives]
        exact List.mergeSort_perm _ _
      | _ => exact .nil
    exact hfirst.append (ih _)

theorem run_concat (s : Session α) (commands : List (Command α)) (c : Command α) :
    s.run (commands ++ [c])
      = ((s.run commands).1 ++ [((s.run commands).2.perform c).1],
          ((s.run commands).2.perform c).2) := run_append s commands [c]

/-- What waits has been reported since the last cycle. -/
theorem waiting_run (r : Robot α) (commands : List (Command α)) :
    ((start r).run commands).2.queue.waiting = sighted (sinceLastCycle commands) := by
  induction commands using List.reverseRecOn with
  | nil => rfl
  | append_singleton commands c ih =>
    rw [run_concat, sinceLastCycle_concat]
    cases c with
    | sight o =>
      show ((start r).run commands).2.queue.waiting ++ [o]
        = sighted (sinceLastCycle commands ++ [.sight o])
      rw [sighted_append, ih]
      rfl
    | cycle now inputs => rfl
    | join a =>
      show ((start r).run commands).2.queue.waiting
        = sighted (sinceLastCycle commands ++ [.join a])
      rw [sighted_append, ih]
      exact (List.append_nil _).symm
    | reset p =>
      show ((start r).run commands).2.queue.waiting
        = sighted (sinceLastCycle commands ++ [.reset p])
      rw [sighted_append, ih]
      exact (List.append_nil _).symm

/-- A cycle judges what waits. -/
theorem samples_cycle (s : Session α) (now : α) (inputs : DriveInputs α) :
    ((s.perform (.cycle now inputs)).1.vision.map Prod.fst).Perm s.queue.waiting := by
  show ((Robot.addSightings _ _ _ (Sighting.inOrder ([] ++ s.queue.waiting))).1.map
    Prod.fst).Perm _
  rw [Robot.samples_addSightings]
  exact List.mergeSort_perm _ _

/-- The sightings judged are those reported before the last cycle. -/
theorem judgedSightings_perm (r : Robot α) (commands : List (Command α)) :
    (judgedSightings ((start r).run commands).1).Perm (sighted (untilLastCycle commands)) := by
  induction commands using List.reverseRecOn with
  | nil => exact .nil
  | append_singleton commands c ih =>
    rw [run_concat, judgedSightings_concat, untilLastCycle_concat]
    cases c with
    | cycle now inputs =>
      have hjudged := ih.append (samples_cycle ((start r).run commands).2 now inputs)
      rw [waiting_run, ← sighted_append, untilLastCycle_append_sinceLastCycle] at hjudged
      show List.Perm _ (sighted (commands ++ [.cycle now inputs]))
      rw [sighted_append]
      exact (List.append_nil (sighted commands)).symm ▸ hjudged
    | _ => exact (List.append_nil _).symm ▸ ih

end Session

/-! ## The buffer -/

/-- A session whose robot keeps the buffer that it drains the queue into. Between
cycles the buffer holds the sightings of the last one. -/
structure BufferedSession (α : Type) where
  session : Session α
  buffer : List (Sighting α)

namespace BufferedSession

/-- Drops what the buffer holds. -/
def clear (b : BufferedSession α) : BufferedSession α := { b with buffer := [] }

/-- Carries out a command. A cycle clears the buffer, drains the queue into it
and puts it in order. -/
def perform (b : BufferedSession α) : Session.Command α → CycleReport α × BufferedSession α
  | .cycle now inputs =>
    let r := b.session.robot
    let (odometry, driven) := r.estimator.addBatch inputs.odometry
    let (drained, queue) := b.session.queue.drain b.clear.buffer
    let buffer := Sighting.inOrder drained
    let (vision, estimator) := Robot.addSightings r.gate r.field driven buffer
    let robot := { r with estimator, states := inputs.states, lastCycle := some now }
    (⟨odometry, vision⟩, ⟨⟨robot, queue⟩, buffer⟩)
  | .sight o => (⟨[], []⟩, { b with session := (b.session.perform (.sight o)).2 })
  | .join a => (⟨[], []⟩, { b with session := (b.session.perform (.join a)).2 })
  | .reset p => (⟨[], []⟩, { b with session := (b.session.perform (.reset p)).2 })

/-- Carries out commands one after the other. -/
def run (b : BufferedSession α) :
    List (Session.Command α) → List (CycleReport α) × BufferedSession α
  | [] => ([], b)
  | c :: rest =>
    let (report, after) := b.perform c
    let (others, last) := after.run rest
    (report :: others, last)

theorem perform_eq (b : BufferedSession α) (c : Session.Command α) :
    ((b.perform c).1, (b.perform c).2.session) = b.session.perform c := by
  cases c <;> rfl

/-- What the buffer holds is of no account. -/
theorem run_eq (b : BufferedSession α) (commands : List (Session.Command α)) :
    ((b.run commands).1, (b.run commands).2.session) = b.session.run commands := by
  induction commands generalizing b with
  | nil => rfl
  | cons c rest ih =>
    have hfirst := b.perform_eq c
    have hrest := ih (b.perform c).2
    show ((b.perform c).1 :: ((b.perform c).2.run rest).1, ((b.perform c).2.run rest).2.session)
      = ((b.session.perform c).1 :: ((b.session.perform c).2.run rest).1,
          ((b.session.perform c).2.run rest).2)
    rw [← hfirst, ← hrest]

end BufferedSession

/-! ## Whole sessions -/

namespace Session

theorem tally_build {parts : RobotParts α} {r : Robot α} (h : Robot.build parts = .ok r) :
    r.estimator.tally = .zero := by
  unfold Robot.build at h
  split at h
  · contradiction
  · split at h
    · contradiction
    · split at h
      · contradiction
      · rename_i hbuild
        obtain ⟨-, -, -, rfl⟩ := Estimator.build_eq_ok hbuild
        cases h
        rfl

/-- The counters of a kind add up by name. -/
theorem sum_ofKind (t : Tally) :
    ((Counter.ofKind false).map fun k => (t.count k).toNat).sum
        = t.odometryApplied.toNat + (t.rejectedFor .outOfOrderOdometry).toNat
          + (t.rejectedFor .nonFiniteOdometry).toNat ∧
      ((Counter.ofKind true).map fun k => (t.count k).toNat).sum
        = t.visionAccepted.toNat
          + ((Rejection.all.filter Rejection.isVision).map fun r => (t.rejectedFor r).toNat).sum :=
  ⟨(Nat.add_assoc _ _ _).symm, rfl⟩

/-- In every session the samples judged are the samples delivered, and as long as
no counter is full, the counters of each kind add up to their number. No counter
ever goes back. A cycle judges what has been reported since the one before and
leaves nothing waiting; all that follows is as if the robot had just started with
an empty queue, whatever its buffer holds. -/
theorem counted_once {parts : RobotParts α} {robot : Robot α}
    (hbuild : Robot.build parts = .ok robot) (commands : List (Command α)) :
    let reports := ((start robot).run commands).1
    let s := ((start robot).run commands).2
    let t := s.robot.estimator.tally
    ((judgedReadings reports).Perm (commands.flatMap Command.readings) ∧
      (judgedSightings reports).Perm (sighted (untilLastCycle commands))) ∧
    ((∀ k, (t.count k).toNat < UInt32.size - 1) →
      t.odometryApplied.toNat + (t.rejectedFor .outOfOrderOdometry).toNat
          + (t.rejectedFor .nonFiniteOdometry).toNat
        = (commands.flatMap Command.readings).length ∧
      t.visionAccepted.toNat
          + ((Rejection.all.filter Rejection.isVision).map fun r => (t.rejectedFor r).toNat).sum
        = (sighted (untilLastCycle commands)).length) ∧
    (∀ c k, t.count k ≤ (s.perform c).2.robot.estimator.tally.count k) ∧
    ∀ now inputs, let (report, after) := s.perform (.cycle now inputs)
      (report.vision.map Prod.fst).Perm (sighted (sinceLastCycle commands)) ∧
      after.queue = .empty ∧ ∀ buffer future,
        let b := (BufferedSession.mk after buffer).run future
        (b.1, b.2.session) = (start after.robot).run future := by
  intro reports s t
  have hreadings := judgedReadings_perm (start robot) commands
  have hsightings := judgedSightings_perm robot commands
  refine ⟨⟨hreadings, hsightings⟩, ?_, ?_, ?_⟩
  · intro hroom
    have hadvanced := advanced_run (start robot) commands
    have hzero : (start robot).robot.estimator.tally = .zero := tally_build hbuild
    rw [hzero] at hadvanced
    have hkinds := isVision_run (start robot) commands
    obtain ⟨hdrives, hposes⟩ := hadvanced.sum_eq hroom hkinds.1 hkinds.2
    rw [(sum_ofKind _).1, length_driveCounters, hreadings.length_eq] at hdrives
    rw [(sum_ofKind _).2, length_poseCounters, hsightings.length_eq] at hposes
    exact ⟨hdrives, hposes⟩
  · intro c
    exact (advanced_perform s c).count_le
  · intro now inputs
    refine ⟨?_, rfl, ?_⟩
    · exact waiting_run robot commands ▸ samples_cycle s now inputs
    · intro buffer future
      exact BufferedSession.run_eq ⟨(s.perform (.cycle now inputs)).2, buffer⟩ future

/-- A sighting of nothing and two readings out of order, then another sighting
and a reading that comes too late, and a sighting that is left waiting. -/
def twoCycles : List (Command Float) :=
  let reading : DriveReading Float := ⟨0, .replicate ⟨0, 0⟩⟩
  [.sight .blank, .cycle 2 ⟨[⟨2, reading⟩, ⟨1, reading⟩], .replicate .rest⟩, .join .red,
    .sight .blank, .reset .origin, .cycle 3 ⟨[⟨1.5, reading⟩], .replicate .rest⟩, .sight .blank]

/-- The steps that put the samples of the two cycles in order are carried out
here; the rest is left to evaluation. -/
theorem tally_twoCycles :
    ∀ k ∈ Counter.all, (((start Robot.squareRobot).run twoCycles).2.robot.estimator.tally.count k).toNat
      < UInt32.size - 1 := by
  simp only [twoCycles, run, perform, start, Robot.cycle, Estimator.addBatch, SightingQueue.push,
    SightingQueue.drain, SightingQueue.empty, List.nil_append, DriveSample.inOrder,
    Sighting.inOrder, List.mergeSort_singleton, StableSort.mergeSort_pair]
  decide +kernel

theorem counted_once_twoCycles :
    let s := ((start Robot.squareRobot).run twoCycles).2
    let t := s.robot.estimator.tally
    Robot.build Robot.squareParts = .ok (Robot.squareRobot : Robot Float) ∧
      (∀ k, (t.count k).toNat < UInt32.size - 1) ∧
      t.odometryApplied.toNat + (t.rejectedFor .outOfOrderOdometry).toNat
          + (t.rejectedFor .nonFiniteOdometry).toNat = 3 ∧
      t.visionAccepted.toNat
          + ((Rejection.all.filter Rejection.isVision).map fun r => (t.rejectedFor r).toNat).sum
        = 2 ∧
      (s.perform (.cycle 4 ⟨[], .replicate .rest⟩)).2.queue = .empty := by
  intro s t
  have hroom : ∀ k, (t.count k).toNat < UInt32.size - 1 :=
    fun k => tally_twoCycles k k.mem_all
  obtain ⟨-, hcounted, -, hcycle⟩ := counted_once Robot.build_squareParts twoCycles
  obtain ⟨hdrives, hposes⟩ := hcounted hroom
  exact ⟨Robot.build_squareParts, hroom, hdrives, hposes, (hcycle 4 ⟨[], .replicate .rest⟩).2.1⟩

end Session

end SwerveLocalization
