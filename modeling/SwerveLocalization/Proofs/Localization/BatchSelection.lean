import Mathlib
import SwerveLocalization.Proofs.Binary64.Word
import SwerveLocalization.Proofs.Localization.Timeline
import SwerveLocalization.Proofs.Robot.Splitting

/-!
# Which readings of a batch are applied

A batch may hold anything: readings of one time, of the two zeros, of no time at
all, and readings that are not finite. Main statement: for each time later than
all before it the first finite reading in the sorted batch is applied, and no
other. A malformed reading does not use up its time: the next one of that time
may still be applied. The others are counted, each under the reason that its time
and its reading tell.
-/

namespace SwerveLocalization.Estimator

variable {α : Type}

/-- The samples of a judged batch that were applied. -/
def appliedOf (judged : List (DriveSample α × Verdict)) : List (DriveSample α) :=
  (judged.filter fun p => p.2.isAccepted).map Prod.fst

theorem acceptedOf_judged (judged : List (DriveSample α × Verdict)) :
    acceptedOf (judged.map Prod.fst) (judged.map Prod.snd) = appliedOf judged := by
  rw [acceptedOf, appliedOf, ← List.zip_of_prod rfl rfl]

theorem length_appliedOf (judged : List (DriveSample α × Verdict)) :
    (appliedOf judged).length = appliedCount judged := by
  rw [appliedOf, List.length_map, appliedCount, List.countP_eq_length_filter]

theorem mem_appliedOf {judged : List (DriveSample α × Verdict)} {s : DriveSample α} :
    s ∈ appliedOf judged ↔ (s, .accepted) ∈ judged := by
  unfold appliedOf
  constructor
  · intro h
    obtain ⟨⟨s, v⟩, hp, rfl⟩ := List.mem_map.mp h
    obtain ⟨hp, hv⟩ := List.mem_filter.mp hp
    cases v with
    | accepted => exact hp
    | rejected r => contradiction
  · intro h
    exact List.mem_map.mpr ⟨_, List.mem_filter.mpr ⟨h, rfl⟩, rfl⟩

variable [Scalar α] {e : Estimator α} {s : DriveSample α} {v : Verdict}
  {past samples : List (DriveSample α)} {front rest : List (DriveSample α × Verdict)}

/-- A sample of a batch is judged by an estimator that has taken in those before it. -/
theorem addDrives_eq_append (h : (e.addDrives samples).1 = front ++ (s, v) :: rest) :
    (e.addDrives (front.map Prod.fst)).1 = front ∧
      v = ((e.addDrives (front.map Prod.fst)).2.addDrive s).1 := by
  have hsamples := e.samples_addDrives samples
  rw [h, List.map_append, List.map_cons] at hsamples
  rw [← hsamples, addDrives_append, addDrives_cons] at h
  have hlength := congrArg List.length (e.samples_addDrives (front.map Prod.fst))
  rw [List.length_map, List.length_map] at hlength
  obtain ⟨hfront, hrest⟩ := List.append_inj h hlength
  exact ⟨hfront, (congrArg Prod.snd (List.cons.inj hrest).1).symm⟩

/-- Taking in only the samples that are applied comes to the same, but for the counts of
rejections. -/
theorem addDrives_appliedOf (e : Estimator α) (samples : List (DriveSample α)) :
    let judged := (e.addDrives samples).1
    (e.addDrives (appliedOf judged)).1 = (appliedOf judged).map (fun s => (s, .accepted)) ∧
      (e.addDrives (appliedOf judged)).2.unmarked = (e.addDrives samples).2.unmarked := by
  intro judged
  let marked := judged.map fun p => (p.1, p.2.isAccepted)
  have hsamples : marked.map Prod.fst = samples := by
    rw [← e.samples_addDrives samples, List.map_map]
    rfl
  have hmarks : marked.map Prod.snd = judged.map fun p => p.2.isAccepted := List.map_map ..
  have hzip : (marked.map Prod.snd).zip judged = judged.map fun p => (p.2.isAccepted, p) := by
    have hpairs := List.zip_map' (f := fun p : DriveSample α × Verdict => p.2.isAccepted)
      (g := id) (l := judged)
    rw [List.map_id] at hpairs
    rw [hmarks]
    exact hpairs
  have hkept : kept marked = appliedOf judged := by
    rw [kept_eq, List.filter_map, List.map_map]
    rfl
  have hselect : select (marked.map Prod.snd) judged
      = (appliedOf judged).map fun s => (s, .accepted) := by
    rw [select, hzip, List.filter_map, List.map_map, appliedOf, List.map_map]
    refine List.map_congr_left fun p hp => ?_
    have hp : p.2.isAccepted = true := (List.mem_filter.mp hp).2
    obtain ⟨s, v⟩ := p
    cases v with
    | accepted => rfl
    | rejected r => contradiction
  have hmissed : MissesRejected (marked.map Prod.snd) judged := by
    unfold MissesRejected
    rw [hzip]
    intro p hp hmark
    obtain ⟨q, -, rfl⟩ := List.mem_map.mp hp
    exact hmark
  have hjudged : (takeAll addDrive e (marked.map Prod.fst)).1 = judged := by
    rw [hsamples, ← addDrives_eq_takeAll]
  obtain ⟨hverdicts, hshadow⟩ :=
    shadow_takeAll blind_addDrive (shadow_self e) marked (by rw [hjudged]; exact hmissed)
  rw [hjudged, hselect, hkept, ← addDrives_eq_takeAll] at hverdicts
  have halike := hshadow.alike
  rw [hsamples, hkept, ← addDrives_eq_takeAll, ← addDrives_eq_takeAll] at halike
  exact ⟨hverdicts, halike.symm⟩

section Verdicts

variable [RealScalar α]

theorem Timely.addDrives_judged (h : Timely past e) (samples : List (DriveSample α)) :
    Timely (past ++ appliedOf (e.addDrives samples).1) (e.addDrives samples).2 := by
  rw [← acceptedOf_judged, samples_addDrives]
  exact h.addDrives samples

theorem Timely.addDrives_front (h : Timely past e)
    (hsplit : (e.addDrives samples).1 = front ++ (s, v) :: rest) :
    Timely (past ++ appliedOf front) (e.addDrives (front.map Prod.fst)).2 := by
  have hfront := h.addDrives_judged (front.map Prod.fst)
  rwa [(addDrives_eq_append hsplit).1] at hfront

theorem Timely.eq_accepted_iff (h : Timely past e)
    (hsplit : (e.addDrives samples).1 = front ++ (s, v) :: rest) :
    v = .accepted ↔ Scalar.isFinite s.time = true ∧ s.reading.isFinite = true ∧
      ∀ q ∈ past ++ appliedOf front, q.time < s.time := by
  rw [(addDrives_eq_append hsplit).2]
  exact (h.addDrives_front hsplit).addDrive_eq_accepted_iff s

/-- Where a sound reading has come that is newer than the past, one of its time or later has
been applied. -/
theorem Timely.exists_applied (h : Timely past e) (hsplit : (e.addDrives samples).1 = front ++ rest)
    {q : DriveSample α × Verdict} (hq : q ∈ front) (hfinite : Scalar.isFinite q.1.time = true)
    (hreading : q.1.reading.isFinite = true) (hnewer : ∀ p ∈ past, p.time < q.1.time) :
    ∃ r ∈ appliedOf front, ¬ r.time < q.1.time := by
  obtain ⟨before, behind, rfl⟩ := List.append_of_mem hq
  obtain ⟨q, v⟩ := q
  rw [List.append_assoc, List.cons_append] at hsplit
  by_cases hv : v = .accepted
  · refine ⟨q, mem_appliedOf.mpr ?_, RealScalar.lt_irrefl q.time⟩
    rw [hv]
    simp
  · -- it came too late, so what it is not newer than has been applied in this batch
    rw [h.eq_accepted_iff hsplit] at hv
    push Not at hv
    obtain ⟨r, hr, hlate⟩ := hv hfinite hreading
    rcases List.mem_append.mp hr with hr | hr
    · exact absurd (hnewer r hr) hlate
    · refine ⟨r, mem_appliedOf.mpr ?_, hlate⟩
      exact List.mem_append_left _ (mem_appliedOf.mp hr)

theorem Timely.isFinite_of_applied (h : Timely past e)
    (hsplit : (e.addDrives samples).1 = front ++ rest) {q : DriveSample α}
    (hq : q ∈ appliedOf front) : Scalar.isFinite q.time = true ∧ q.reading.isFinite = true := by
  obtain ⟨before, behind, rfl⟩ := List.append_of_mem (mem_appliedOf.mp hq)
  rw [List.append_assoc, List.cons_append] at hsplit
  obtain ⟨htime, hreading, -⟩ := (h.eq_accepted_iff hsplit).mp rfl
  exact ⟨htime, hreading⟩

end Verdicts

/-! ## Batches in order -/

/-- What becomes of a reading `s` that an estimator `e` takes in behind the readings
`front`, where it has applied `past` before all of them. -/
structure Selected (past : List (DriveSample α)) (e : Estimator α)
    (front : List (DriveSample α × Verdict)) (s : DriveSample α) (v : Verdict) : Prop where
  /-- The first sound reading of each new time is applied. -/
  accepted_iff : v = .accepted ↔
    Scalar.isFinite s.time = true ∧ s.reading.isFinite = true ∧
      (∀ last, e.lastOdometry = some last → last < s.time) ∧
      ∀ q ∈ front, q.1.reading.isFinite = true → ¬ (q.1.time == s.time) = true
  /-- A malformed reading is one without a time, or one that would be the newest. -/
  nonFinite_iff : v = .rejected .nonFiniteOdometry ↔
    Scalar.isFinite s.time = false ∨
      s.reading.isFinite = false ∧ ∀ q ∈ past ++ appliedOf front, q.time < s.time
  /-- All others come too late. -/
  cases : v = .accepted ∨ v = .rejected .nonFiniteOdometry ∨ v = .rejected .outOfOrderOdometry

section Order

variable [RealScalar α] [GradualScalar α] [OrderedScalar α]

theorem Timely.selected (h : Timely past e)
    (hordered : samples.Pairwise fun a b => byTime DriveSample.time a b = true)
    (hsplit : (e.addDrives samples).1 = front ++ (s, v) :: rest) : Selected past e front s v := by
  have hmid := h.addDrives_front hsplit
  have hverdict := (addDrives_eq_append hsplit).2
  have hbefore : ∀ q ∈ front, byTime DriveSample.time q.1 s = true := by
    rw [← e.samples_addDrives samples, hsplit, List.map_append, List.map_cons] at hordered
    intro q hq
    exact (List.pairwise_append.mp hordered).2.2 _ (List.mem_map_of_mem hq) s List.mem_cons_self
  refine ⟨?_, ?_, ?_⟩
  · rw [h.eq_accepted_iff hsplit, h.last_lt_iff]
    simp only [List.forall_mem_append]
    refine and_congr_right fun hfinite => and_congr_right fun hreading => and_congr_right ?_
    intro hnewer
    constructor
    · intro happlied q hq hqreading hsame
      have hsq := ((GradualScalar.beq_iff _ _).mp hsame).2
      obtain ⟨r, hr, hlate⟩ := h.exists_applied hsplit hq
        (GradualScalar.isFinite_of_beq hsame hfinite) hqreading
        fun p hp => RealScalar.lt_of_lt_of_le (hnewer p hp) hsq
      exact hlate (RealScalar.lt_of_lt_of_le (happlied r hr) hsq)
    · intro hfirst q hq
      obtain ⟨hqfinite, hqreading⟩ := h.isFinite_of_applied hsplit hq
      have hqfront := mem_appliedOf.mp hq
      have hle : q.time ≤ s.time :=
        OrderedScalar.le_of_totalLe (RealScalar.isNaN_of_isFinite hqfinite)
          (RealScalar.isNaN_of_isFinite hfinite) (hbefore (q, .accepted) hqfront)
      exact GradualScalar.lt_of_le_of_not_beq hle (hfirst (q, .accepted) hqfront hqreading)
  · rw [hverdict]
    exact hmid.addDrive_eq_nonFinite_iff s
  · rw [hverdict]
    exact addDrive_verdict_cases _ s

/-- A new time at which there is a sound reading is the time of one that is applied. -/
theorem Timely.exists_applied_of_beq (h : Timely past e)
    (hordered : samples.Pairwise fun a b => byTime DriveSample.time a b = true) (hs : s ∈ samples)
    (htime : Scalar.isFinite s.time = true) (hreading : s.reading.isFinite = true)
    (hnewer : ∀ last, e.lastOdometry = some last → last < s.time) :
    ∃ q ∈ appliedOf (e.addDrives samples).1, (q.time == s.time) = true := by
  -- the first sound reading of this time in the batch
  let sound := fun p : DriveSample α × Verdict => p.1.reading.isFinite && p.1.time == s.time
  have hself : (s.time == s.time) = true := GradualScalar.beq_self htime
  obtain ⟨⟨q, v⟩, hfind⟩ : ∃ p, (e.addDrives samples).1.find? sound = some p := by
    rw [← e.samples_addDrives samples] at hs
    obtain ⟨p, hp, rfl⟩ := List.mem_map.mp hs
    rw [← Option.isSome_iff_exists, List.find?_isSome]
    exact ⟨p, hp, by simp [sound, hreading, hself]⟩
  obtain ⟨hq, front, rest, hsplit, hfront⟩ := List.find?_eq_some_iff_append.mp hfind
  obtain ⟨hqreading, hqtime⟩ : q.reading.isFinite = true ∧ (q.time == s.time) = true := by
    simpa [sound] using hq
  obtain ⟨hqs, hsq⟩ := (GradualScalar.beq_iff _ _).mp hqtime
  have haccepted : v = .accepted := by
    refine (h.selected hordered hsplit).accepted_iff.mpr
      ⟨GradualScalar.isFinite_of_beq hqtime htime, hqreading, ?_, ?_⟩
    · intro last hlast
      exact RealScalar.lt_of_lt_of_le (hnewer last hlast) hsq
    · intro p hp hpreading hpq
      obtain ⟨hle, hge⟩ := (GradualScalar.beq_iff _ _).mp hpq
      have hps : (p.1.time == s.time) = true := (GradualScalar.beq_iff _ _).mpr
        ⟨RealScalar.le_trans hle hqs, RealScalar.le_trans hsq hge⟩
      simpa [sound, hpreading, hps] using hfront p hp
  refine ⟨q, mem_appliedOf.mpr ?_, hqtime⟩
  rw [hsplit, haccepted]
  simp

/-- A batch is put in order, readings of one time as they came. Of each time after the last
applied one that has a sound reading, the first of them in this order is applied, and nothing
else is: the estimator ends up as if only these had come. All others are counted for their
reasons. The last applied time is now the largest of the times applied. -/
theorem addBatch_selects {chassis : Chassis α} {pose : Pose α} {settings : EstimatorSettings α}
    {start : Estimator α} (hbuild : build chassis pose settings = .ok start)
    (commands : List (Command α)) (batch : List (DriveSample α)) :
    let e := (start.run commands).2
    let past := appliedIn commands (start.run commands).1
    let judged := (e.addBatch batch).1
    let after := (e.addBatch batch).2
    let slice := judged.map Prod.fst
    let applied := appliedOf judged
    e.lastOdometry = past.getLast?.map DriveSample.time ∧
      Redelivered DriveSample.time batch slice ∧
      (slice.Pairwise fun a b => byTime DriveSample.time a b = true) ∧
      (∀ front s v rest, judged = front ++ (s, v) :: rest → Selected past e front s v) ∧
      (∀ s ∈ slice, Scalar.isFinite s.time = true → s.reading.isFinite = true →
        (∀ last, e.lastOdometry = some last → last < s.time) →
          ∃ q ∈ applied, (q.time == s.time) = true) ∧
      (applied.Pairwise fun a b => a.time < b.time) ∧
      (e.addDrives applied).1 = applied.map (fun s => (s, .accepted)) ∧
      after.unmarked = (e.addDrives applied).2.unmarked ∧
      appliedCount judged = applied.length ∧
      Tally.Advanced (judged.map fun p => .ofDrive p.2) e.tally after.tally ∧
      after.lastOdometry = (applied.getLast?.map DriveSample.time).or e.lastOdometry ∧
      ∀ last ∈ applied.getLast?, ∀ q ∈ past ++ applied, q.time ≤ last.time := by
  intro e past judged after slice applied
  have hpast : Timely past e := (timely_build hbuild).run commands
  have hslice : slice = DriveSample.inOrder batch := e.samples_addDrives _
  have hordered : (DriveSample.inOrder batch).Pairwise fun a b =>
      byTime DriveSample.time a b = true := List.pairwise_mergeSort byTime_trans byTime_total batch
  have hafter : Timely (past ++ applied) after := hpast.addDrives_judged _
  obtain ⟨hverdicts, halike⟩ := addDrives_appliedOf e (DriveSample.inOrder batch)
  refine ⟨hpast.last, ?_, ?_, ?_, ?_, ?_, hverdicts, halike.symm, (length_appliedOf judged).symm,
    advanced_addDrives e _, ?_, ?_⟩
  · rw [hslice]
    exact ⟨(List.mergeSort_perm _ _).symm, fun a =>
      (StableSort.filter_tied_mergeSort byTime_trans byTime_total a batch).symm⟩
  · rw [hslice]
    exact hordered
  · intro front s v rest hsplit
    exact hpast.selected hordered hsplit
  · rw [hslice]
    intro s hs
    exact hpast.exists_applied_of_beq hordered hs
  · exact (List.pairwise_append.mp hafter.ordered).2.1
  · rw [hafter.last, hpast.last, List.getLast?_append]
    cases applied.getLast? <;> rfl
  · intro last hlast q
    apply hafter.le_last
    rw [List.getLast?_append, Option.mem_def.mp hlast]
    rfl

end Order

section Words

open Binary64 (Word)

/-- A batch with a reading that comes too late, two readings at zero around a malformed one
at negative zero, and two without a time, one on either side of all numbers. -/
def twoZeros : List (DriveSample Word) :=
  let reading : DriveReading Word := ⟨0, .replicate ⟨0, 0⟩⟩
  [⟨-2.0, reading⟩, ⟨-Word.nan, reading⟩, ⟨0, reading⟩, ⟨-0, { reading with gyro := Word.nan }⟩,
    ⟨0, { reading with gyro := 0.5 }⟩, ⟨Word.nan, reading⟩]

theorem inOrder_twoZeros : DriveSample.inOrder twoZeros
    = [twoZeros[1], twoZeros[0], twoZeros[3], twoZeros[2], twoZeros[4], twoZeros[5]] := by
  have hswaps : Redelivered DriveSample.time twoZeros
      [twoZeros[1], twoZeros[0], twoZeros[3], twoZeros[2], twoZeros[4], twoZeros[5]] :=
    .trans (Redelivered.swap (by decide +kernel) []
      [twoZeros[2], twoZeros[3], twoZeros[4], twoZeros[5]]) <|
    Redelivered.swap (by decide +kernel) [twoZeros[1], twoZeros[0]] [twoZeros[4], twoZeros[5]]
  exact hswaps.mergeSort_eq.trans (List.mergeSort_of_pairwise (by decide +kernel))

theorem addBatch_selects_twoZeros :
    let start : Estimator Word := .fresh .square .origin
    let e := (start.run [.drive ⟨-1, ⟨0, .replicate ⟨0, 0⟩⟩⟩]).2
    Chassis.build (Chassis.rectangle 1 1) = .ok (.square : Chassis Word) ∧
      build .square .origin .standard = .ok start ∧
      (e.addBatch twoZeros).1
        = [(twoZeros[1], .rejected .nonFiniteOdometry),
          (twoZeros[0], .rejected .outOfOrderOdometry),
          (twoZeros[3], .rejected .nonFiniteOdometry), (twoZeros[2], .accepted),
          (twoZeros[4], .rejected .outOfOrderOdometry),
          (twoZeros[5], .rejected .nonFiniteOdometry)] ∧
      (e.addBatch twoZeros).2.lastOdometry = some 0 ∧
      (e.addBatch twoZeros).2.unmarked = (e.addDrives [twoZeros[2]]).2.unmarked := by
  intro start e
  have hbuild : build .square .origin .standard = .ok start := by decide +kernel
  obtain ⟨-, -, -, -, -, -, -, hafter, -, -, hlast, -⟩ :=
    addBatch_selects hbuild [.drive ⟨-1, ⟨0, .replicate ⟨0, 0⟩⟩⟩] twoZeros
  have hjudged : (e.addBatch twoZeros).1
      = [(twoZeros[1], .rejected .nonFiniteOdometry), (twoZeros[0], .rejected .outOfOrderOdometry),
        (twoZeros[3], .rejected .nonFiniteOdometry), (twoZeros[2], .accepted),
        (twoZeros[4], .rejected .outOfOrderOdometry),
        (twoZeros[5], .rejected .nonFiniteOdometry)] := by
    rw [addBatch, inOrder_twoZeros]
    decide +kernel
  have happlied : appliedOf (e.addBatch twoZeros).1 = [twoZeros[2]] := by
    rw [hjudged]
    rfl
  rw [happlied] at hlast hafter
  exact ⟨by decide +kernel, hbuild, hjudged, hlast, hafter⟩

end Words

end SwerveLocalization.Estimator
