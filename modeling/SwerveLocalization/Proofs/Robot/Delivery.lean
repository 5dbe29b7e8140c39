import SwerveLocalization.Proofs.Binary64.Word
import SwerveLocalization.Proofs.Robot.Thinning
import SwerveLocalization.Proofs.StableSort

/-!
# The order of delivery

Within a control cycle samples arrive in whatever order wheels and cameras send
them. The robot takes them in by their times, and times stand in one order even
where they are negative zero, infinite or not a number at all. Main statement:
only samples of one and the same time can tell in which order they have been
delivered. Otherwise the robot, its reports and all that follows are the same.
Nothing is assumed of the order but that it is one, so NaNs may stand anywhere,
and it may tell them apart.
-/

namespace SwerveLocalization

variable {α : Type} [Scalar α]

/-- The order of samples by their times. -/
def byTime {β : Type} (time : β → α) (a b : β) : Bool := Scalar.totalLe (time a) (time b)

/-- Samples delivered in another order, in which samples of one time keep theirs. -/
def Redelivered {β : Type} (time : β → α) (l l' : List β) : Prop :=
  StableSort.Rearranged (byTime time) l l'

/-- Samples of which no two have one time. -/
def DistinctTimes {β : Type} (time : β → α) (l : List β) : Prop :=
  l.Pairwise fun a b => StableSort.tied (byTime time) a b = false

/-- The same thing happens, but a cycle gets its samples in another order. -/
inductive Robot.Command.Reordered : Robot.Command α → Robot.Command α → Prop
  | cycle (now : α) (states : Wheels (WheelState α)) {odometry odometry' : List (DriveSample α)}
      {sightings sightings' : List (Sighting α)}
      (hodometry : Redelivered DriveSample.time odometry odometry')
      (hsightings : Redelivered Sighting.time sightings sightings') :
      Reordered (.cycle now ⟨odometry, states⟩ ⟨sightings⟩)
        (.cycle now ⟨odometry', states⟩ ⟨sightings'⟩)
  | join (alliance : Alliance) : Reordered (.join alliance) (.join alliance)
  | reset (pose : Pose α) : Reordered (.reset pose) (.reset pose)

variable [OrderedScalar α]

section Sorting

variable {β : Type} {time : β → α} {l l' : List β}

theorem byTime_trans (a b c : β) :
    byTime time a b = true → byTime time b c = true → byTime time a c = true :=
  OrderedScalar.totalLe_trans (time a) (time b) (time c)

theorem byTime_total (a b : β) : (byTime time a b || byTime time b a) = true :=
  OrderedScalar.totalLe_total (time a) (time b)

theorem Redelivered.of_perm (h : DistinctTimes time l) (hperm : l.Perm l') :
    Redelivered time l l' :=
  StableSort.Rearranged.of_perm byTime_trans h hperm

/-- Neighbours of different times may change places. -/
theorem Redelivered.swap {a b : β} (h : StableSort.tied (byTime time) a b = false)
    (front back : List β) : Redelivered time (front ++ a :: b :: back) (front ++ b :: a :: back) :=
  StableSort.Rearranged.swap byTime_trans h front back

theorem Redelivered.mergeSort_eq (h : Redelivered time l l') :
    l.mergeSort (byTime time) = l'.mergeSort (byTime time) :=
  (StableSort.mergeSort_eq_iff byTime_trans byTime_total).mpr h

end Sorting

namespace Robot

variable (r : Robot α)

theorem cycle_redelivered (now : α) (states : Wheels (WheelState α))
    {odometry odometry' : List (DriveSample α)} {sightings sightings' : List (Sighting α)}
    (hodometry : Redelivered DriveSample.time odometry odometry')
    (hsightings : Redelivered Sighting.time sightings sightings') :
    r.cycle now ⟨odometry, states⟩ ⟨sightings⟩ = r.cycle now ⟨odometry', states⟩ ⟨sightings'⟩ := by
  have hdrives : DriveSample.inOrder odometry = DriveSample.inOrder odometry' :=
    hodometry.mergeSort_eq
  have hposes : Sighting.inOrder sightings = Sighting.inOrder sightings' :=
    hsightings.mergeSort_eq
  simp only [cycle, Estimator.addBatch, SightingQueue.drain, List.nil_append]
  rw [hdrives, hposes]

theorem perform_reordered {c c' : Command α} (h : c.Reordered c') :
    r.perform c = r.perform c' := by
  cases h with
  | cycle now states hodometry hsightings =>
    simp only [perform]
    rw [cycle_redelivered r now states hodometry hsightings]
  | join a => rfl
  | reset p => rfl

theorem run_reordered {first second : List (Command α)}
    (h : List.Forall₂ Command.Reordered first second) : r.run first = r.run second := by
  induction h generalizing r with
  | nil => rfl
  | cons hc _ ih => rw [run_cons, run_cons, perform_reordered r hc, ih]

/-- Cycles that get their samples in another order lead a robot to the same state
with the same reports, whatever follows, and its session to the same end. Where
no two samples of a cycle have one time, any order will do. -/
theorem run_eq_of_redelivered (r : Robot α) :
    (∀ first second, List.Forall₂ Command.Reordered first second →
      r.run first = r.run second ∧
        ((Session.start r).run (first.flatMap Command.arrivals)).2
          = ((Session.start r).run (second.flatMap Command.arrivals)).2) ∧
    ∀ now states odometry odometry' sightings sightings',
      DistinctTimes DriveSample.time odometry → odometry.Perm odometry' →
      DistinctTimes Sighting.time sightings → sightings.Perm sightings' →
        r.cycle now ⟨odometry, states⟩ ⟨sightings⟩
          = r.cycle now ⟨odometry', states⟩ ⟨sightings'⟩ := by
  constructor
  · intro first second h
    have hrun := run_reordered r h
    have hfirst := (run_arrivals CycleReport.vision rfl r first).1
    have hsecond := (run_arrivals CycleReport.vision rfl r second).1
    exact ⟨hrun, by rw [hfirst, hsecond, hrun]⟩
  · intro now states odometry odometry' sightings sightings' hodometry hdrives hsightings hposes
    exact cycle_redelivered r now states (.of_perm hodometry hdrives) (.of_perm hsightings hposes)

section Words

open Binary64 (Word)

/-- A cycle whose readings come late, at no time and twice at one time, and whose
sightings come at both zeros. -/
def oddTimes (odometry : List (DriveSample Word)) (sightings : List (Sighting Word)) :
    List (Command Word) :=
  [.cycle 3.0 ⟨odometry, .replicate .rest⟩ ⟨sightings⟩, .reset .origin]

/-- NaNs of either sign and a NaN with another payload change places with each other and
with times that are numbers, and so do the two zeros. Only the two readings of one time
stay in their order. -/
theorem run_eq_of_redelivered_oddTimes :
    let drive (time gyro : Word) : DriveSample Word := ⟨time, ⟨gyro, .replicate ⟨0, 0⟩⟩⟩
    let seen (time : Word) : Sighting Word := { Sighting.blank with time }
    let payload : Word := ⟨Word.nan.bits + 1⟩
    let first := oddTimes
      [drive 1 0.5, drive Word.nan 0, drive (-Word.nan) 0, drive 1 0.25, drive payload 0]
      [seen 0, seen (-0)]
    let second := oddTimes
      [drive (-Word.nan) 0, drive 1 0.5, drive 1 0.25, drive payload 0, drive Word.nan 0]
      [seen (-0), seen 0]
    build squareParts = .ok (squareRobot : Robot Word) ∧ first ≠ second ∧
      squareRobot.run first = squareRobot.run second ∧
      squareRobot.cycle 3.0 ⟨[drive Word.nan 0, drive (-Word.nan) 0.5, drive 1 0],
          .replicate .rest⟩ .empty
        = squareRobot.cycle 3.0 ⟨[drive 1 0, drive (-Word.nan) 0.5, drive Word.nan 0],
          .replicate .rest⟩ .empty := by
  intro drive seen payload first second
  have hdrives : Redelivered DriveSample.time
      [drive 1 0.5, drive Word.nan 0, drive (-Word.nan) 0, drive 1 0.25, drive payload 0]
      [drive (-Word.nan) 0, drive 1 0.5, drive 1 0.25, drive payload 0, drive Word.nan 0] :=
    -- the NaN with a sign goes to the front, the other one step by step to the end
    .trans (Redelivered.swap (by decide +kernel) [drive 1 0.5] [drive 1 0.25, drive payload 0]) <|
    .trans (Redelivered.swap (by decide +kernel) []
      [drive Word.nan 0, drive 1 0.25, drive payload 0]) <|
    .trans (Redelivered.swap (by decide +kernel) [drive (-Word.nan) 0, drive 1 0.5]
      [drive payload 0]) <|
    Redelivered.swap (by decide +kernel) [drive (-Word.nan) 0, drive 1 0.5, drive 1 0.25] []
  have hposes : Redelivered Sighting.time [seen 0, seen (-0)] [seen (-0), seen 0] :=
    Redelivered.swap (by decide +kernel) [] []
  have hdistinct : DistinctTimes DriveSample.time
      [drive Word.nan 0, drive (-Word.nan) 0.5, drive 1 0] := by
    unfold DistinctTimes
    decide +kernel
  have hreverse : [drive Word.nan 0, drive (-Word.nan) 0.5, drive 1 0].Perm
      [drive 1 0, drive (-Word.nan) 0.5, drive Word.nan 0] :=
    List.reverse_perm [drive 1 0, drive (-Word.nan) 0.5, drive Word.nan 0]
  obtain ⟨hrun, hcycle⟩ := run_eq_of_redelivered (squareRobot : Robot Word)
  refine ⟨by decide +kernel, by decide +kernel, ?_, ?_⟩
  · exact (hrun first second (.cons (.cycle 3.0 _ hdrives hposes) (.cons (.reset _) .nil))).1
  · exact hcycle 3.0 _ _ _ [] [] hdistinct hreverse .nil (.refl [])

end Words

end Robot

end SwerveLocalization
