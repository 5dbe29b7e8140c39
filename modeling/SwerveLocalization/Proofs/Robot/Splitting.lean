import SwerveLocalization.Proofs.Robot.Accounting
import SwerveLocalization.Proofs.Robot.Delivery

/-!
# Deliveries in two goes

A batch of readings may be cut in two wherever no reading of the one part is
later than a reading of the other, and so may the sightings of a control cycle.
A cycle may also take in its readings first and its sightings in a cycle of
their own. Main statement: nothing can tell the difference, neither a later
command nor a verdict nor the buffer that the sightings are drained into.
-/

namespace SwerveLocalization

variable {α : Type} [Scalar α]

/-- No sample of one list is later than a sample of another. -/
def NotLater {β : Type} (time : β → α) (first second : List β) : Prop :=
  StableSort.Precedes (byTime time) first second

/-- How many samples were applied. -/
def appliedCount {β : Type} (judged : List (β × Verdict)) : Nat :=
  judged.countP fun p => p.2.isAccepted

/-- Runs that lead every robot to one state and judge the same samples alike, also
in a session, whatever is left in its buffer. -/
structure Robot.Interchangeable (first second : List (Robot.Command α)) : Prop where
  robot : ∀ r : Robot α, (r.run first).2 = (r.run second).2
  odometry : ∀ r : Robot α, (r.run first).1.flatMap CycleReport.odometry
    = (r.run second).1.flatMap CycleReport.odometry
  vision : ∀ r : Robot α, (r.run first).1.flatMap CycleReport.vision
    = (r.run second).1.flatMap CycleReport.vision
  session : ∀ (r : Robot α) (buffer buffer' : List (Sighting α)),
    ((BufferedSession.mk (Session.start r) buffer).run (first.flatMap Command.arrivals)).2.session
      = ((BufferedSession.mk (Session.start r) buffer').run
          (second.flatMap Command.arrivals)).2.session

section Sorting

variable {β : Type} {time : β → α} {first second all : List β}

theorem notLater_nil (l : List β) : NotLater time [] l := by
  intro a ha
  contradiction

variable [OrderedScalar α]

/-- Samples that come in two goes stand one behind the other when they are put in
order together. -/
theorem Redelivered.mergeSort_eq_append (h : Redelivered time (first ++ second) all)
    (hsplit : NotLater time first second) :
    all.mergeSort (byTime time)
      = first.mergeSort (byTime time) ++ second.mergeSort (byTime time) := by
  rw [← h.mergeSort_eq]
  exact StableSort.mergeSort_append byTime_trans byTime_total hsplit

end Sorting

/-! ## Batches -/

/-- A batch may be taken in as two. -/
theorem Estimator.addBatch_split [OrderedScalar α] (e : Estimator α)
    {first second all : List (DriveSample α)} (hsplit : NotLater DriveSample.time first second)
    (hall : Redelivered DriveSample.time (first ++ second) all) :
    e.addBatch all
      = ((e.addBatch first).1 ++ ((e.addBatch first).2.addBatch second).1,
          ((e.addBatch first).2.addBatch second).2) := by
  have horder : DriveSample.inOrder all
      = DriveSample.inOrder first ++ DriveSample.inOrder second :=
    hall.mergeSort_eq_append hsplit
  unfold addBatch
  rw [horder, addDrives_append]

/-! ## Cycles -/

namespace Robot

/-- A session that drains its queue into a buffer leads the robot where its own
run does. -/
theorem session_arrivals (r : Robot α) (buffer : List (Sighting α)) (commands : List (Command α)) :
    ((BufferedSession.mk (Session.start r) buffer).run
        (commands.flatMap Command.arrivals)).2.session
      = Session.start (r.run commands).2 := by
  have hbuffer := BufferedSession.run_eq ⟨Session.start r, buffer⟩
    (commands.flatMap Command.arrivals)
  exact (congrArg Prod.snd hbuffer).trans (run_arrivals CycleReport.vision rfl r commands).1

variable [OrderedScalar α]

/-- Either way the readings are taken in first, then the one part of the
sightings and then the other. -/
theorem run_cycle_split (r : Robot α) (now now' : α) (odometry : List (DriveSample α))
    (states states' : Wheels (WheelState α)) {first second all : List (Sighting α)}
    (hsplit : NotLater Sighting.time first second)
    (hall : Redelivered Sighting.time (first ++ second) all) :
    let driven := r.estimator.addBatch odometry
    let seen := addSightings r.gate r.field driven.2 (Sighting.inOrder first)
    let rest := addSightings r.gate r.field seen.2 (Sighting.inOrder second)
    let last := { r with estimator := rest.2, states, lastCycle := some now }
    r.run [.cycle now ⟨odometry, states⟩ ⟨all⟩] = ([⟨driven.1, seen.1 ++ rest.1⟩], last) ∧
      r.run [.cycle now' ⟨odometry, states'⟩ ⟨first⟩, .cycle now ⟨[], states⟩ ⟨second⟩]
        = ([⟨driven.1, seen.1⟩, ⟨[], rest.1⟩], last) := by
  intro driven seen rest last
  have horder : Sighting.inOrder all = Sighting.inOrder first ++ Sighting.inOrder second :=
    hall.mergeSort_eq_append hsplit
  have hnone : ∀ e : Estimator α, e.addBatch [] = ([], e) := by
    intro e
    unfold Estimator.addBatch DriveSample.inOrder
    rw [List.mergeSort_nil, Estimator.addDrives_nil]
  constructor
  · simp only [run_cons, run_nil, perform, cycle, SightingQueue.drain, List.nil_append, horder,
      addSightings_append]
    rfl
  · simp only [run_cons, run_nil, perform, cycle, SightingQueue.drain, List.nil_append, hnone]
    rfl

/-- A part of the sightings of a cycle may wait for a cycle of its own, which
brings no readings. The first cycle may run at any time, with any wheel states. -/
theorem interchangeable_cycle_split (now now' : α) (odometry : List (DriveSample α))
    (states states' : Wheels (WheelState α)) {first second all : List (Sighting α)}
    (hsplit : NotLater Sighting.time first second)
    (hall : Redelivered Sighting.time (first ++ second) all) :
    Interchangeable [.cycle now ⟨odometry, states⟩ ⟨all⟩]
      [.cycle now' ⟨odometry, states'⟩ ⟨first⟩, .cycle now ⟨[], states⟩ ⟨second⟩] := by
  have hruns := fun r : Robot α => run_cycle_split r now now' odometry states states' hsplit hall
  have hrobot : ∀ r : Robot α, (r.run [.cycle now ⟨odometry, states⟩ ⟨all⟩]).2
      = (r.run [.cycle now' ⟨odometry, states'⟩ ⟨first⟩, .cycle now ⟨[], states⟩ ⟨second⟩]).2 := by
    intro r
    rw [(hruns r).1, (hruns r).2]
  constructor
  · exact hrobot
  · intro r
    rw [(hruns r).1, (hruns r).2]
    rfl
  · intro r
    rw [(hruns r).1, (hruns r).2]
    simp
  · intro r buffer buffer'
    rw [session_arrivals, session_arrivals, hrobot r]

/-! ## Deliveries -/

/-- A batch comes to the same as two parts of it one after the other, however the
two are mixed, as long as no reading of the first is later than one of the
second; and the counts of applied readings add up. A cycle comes to the same as
one with its readings followed by one with its sightings, and so do two cycles
without readings that bring its sightings in two parts. -/
theorem deliveries_split :
    (∀ (e : Estimator α) (first second all : List (DriveSample α)),
      NotLater DriveSample.time first second →
      Redelivered DriveSample.time (first ++ second) all →
        (e.addBatch all).2 = ((e.addBatch first).2.addBatch second).2 ∧
        (e.addBatch all).1 = (e.addBatch first).1 ++ ((e.addBatch first).2.addBatch second).1 ∧
        appliedCount (e.addBatch all).1
          = appliedCount (e.addBatch first).1
            + appliedCount ((e.addBatch first).2.addBatch second).1) ∧
    (∀ (now : α) (inputs : DriveInputs α) (queue : SightingQueue α),
      Interchangeable [.cycle now inputs queue]
        [.cycle now inputs .empty, .cycle now ⟨[], inputs.states⟩ queue]) ∧
    ∀ (now now' : α) (states states' : Wheels (WheelState α))
      (first second all : List (Sighting α)),
      NotLater Sighting.time first second → Redelivered Sighting.time (first ++ second) all →
        Interchangeable [.cycle now ⟨[], states⟩ ⟨all⟩]
          [.cycle now' ⟨[], states'⟩ ⟨first⟩, .cycle now ⟨[], states⟩ ⟨second⟩] := by
  refine ⟨?_, ?_, ?_⟩
  · intro e first second all hsplit hall
    rw [e.addBatch_split hsplit hall]
    exact ⟨rfl, rfl, List.countP_append⟩
  · intro now inputs queue
    exact interchangeable_cycle_split now now inputs.odometry inputs.states inputs.states
      (notLater_nil queue.waiting) (.refl queue.waiting)
  · intro now now' states states' first second all hsplit hall
    exact interchangeable_cycle_split now now' [] states states' hsplit hall

open Binary64 (Word) in
/-- The first part of the batch has a NaN that comes before all numbers, the second one a
NaN that comes after them, and in between are two readings of one time around a later one.
Of the sightings one is at either zero. -/
theorem deliveries_split_mixed :
    let drive (time gyro : Word) : DriveSample Word := ⟨time, ⟨gyro, .replicate ⟨0, 0⟩⟩⟩
    let seen (time : Word) : Sighting Word := { Sighting.blank with time }
    let first := [drive 1 0.5, drive (-Word.nan) 0, drive 1 0.25]
    let second := [drive 2.0 0, drive Word.nan 0]
    let all := [drive 1 0.5, drive 2.0 0, drive (-Word.nan) 0, drive 1 0.25, drive Word.nan 0]
    let e : Estimator Word := squareRobot.estimator
    build squareParts = .ok (squareRobot : Robot Word) ∧ appliedCount (e.addBatch all).1 = 2 ∧
      (e.addBatch all).2 = ((e.addBatch first).2.addBatch second).2 ∧
      (squareRobot.run [.cycle 3.0 ⟨[], .replicate .rest⟩ ⟨[seen 0, seen (-0)]⟩]).2
        = (squareRobot.run [.cycle 1 ⟨[], .replicate .rest⟩ ⟨[seen (-0)]⟩,
            .cycle 3.0 ⟨[], .replicate .rest⟩ ⟨[seen 0]⟩]).2 := by
  intro drive seen first second all e
  have hdrives : NotLater DriveSample.time first second := by
    unfold NotLater StableSort.Precedes
    decide +kernel
  have hmixed : Redelivered DriveSample.time (first ++ second) all :=
    .trans (Redelivered.swap (by decide +kernel) [drive 1 0.5, drive (-Word.nan) 0]
      [drive Word.nan 0]) <|
    Redelivered.swap (by decide +kernel) [drive 1 0.5] [drive 1 0.25, drive Word.nan 0]
  have hfirst : DriveSample.inOrder first
      = [drive (-Word.nan) 0, drive 1 0.5, drive 1 0.25] := by
    have hswap : Redelivered DriveSample.time first
        [drive (-Word.nan) 0, drive 1 0.5, drive 1 0.25] :=
      Redelivered.swap (by decide +kernel) [] [drive 1 0.25]
    exact hswap.mergeSort_eq.trans (List.mergeSort_of_pairwise (by decide +kernel))
  have hsecond : DriveSample.inOrder second = second :=
    List.mergeSort_of_pairwise (by decide +kernel)
  have hsightings : NotLater Sighting.time [seen (-0)] [seen 0] := by
    unfold NotLater StableSort.Precedes
    decide +kernel
  have hzeros : Redelivered Sighting.time ([seen (-0)] ++ [seen 0]) [seen 0, seen (-0)] :=
    Redelivered.swap (by decide +kernel) [] []
  obtain ⟨hbatch, -, hcycles⟩ := deliveries_split (α := Word)
  obtain ⟨hstate, -, hcount⟩ := hbatch e first second all hdrives hmixed
  refine ⟨by decide +kernel, ?_, hstate, ?_⟩
  · rw [hcount, Estimator.addBatch, Estimator.addBatch, hfirst, hsecond]
    decide +kernel
  · exact (hcycles 3.0 1 _ _ _ _ _ hsightings hzeros).robot squareRobot

end Robot

end SwerveLocalization
