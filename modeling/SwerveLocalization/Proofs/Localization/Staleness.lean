import Mathlib
import SwerveLocalization.Proofs.Localization.Acceptance

/-!
# Which camera poses are stale

A record keeps what lies within its window and drops the rest entry by entry. A
camera pose is stale if it was captured before the oldest entry. So the stretch
between the last entry outside the window and the first one inside is forgotten
with the former, although part of it lies within the window. Main statement: while
the record has had room for every reading, a sound camera pose is accepted exactly
if some reading within the window is not later than it. Where readings are sparse,
this is less than the window.
-/

namespace SwerveLocalization

open Scalar RealScalar

/-! ## What is dropped from the front of a list -/

/-- What would be dropped later may be dropped before. -/
theorem dropWhile_append_of_imp {β : Type} {p q : β → Bool} {front : List β} (back : List β)
    (h : ∀ a ∈ front, p a = true → q a = true) :
    (front.dropWhile p ++ back).dropWhile q = (front ++ back).dropWhile q := by
  induction front with
  | nil => rfl
  | cons a rest ih =>
    cases hp : p a with
    | true =>
      have hq := h a List.mem_cons_self hp
      rw [List.dropWhile_cons_of_pos hp, List.cons_append, List.dropWhile_cons_of_pos hq]
      exact ih fun b hb => h b (List.mem_cons_of_mem a hb)
    | false => rw [List.dropWhile_cons_of_neg (by simp [hp])]

/-- What is not to be dropped stays, wherever it stands. -/
theorem mem_dropWhile_of_eq_false {β : Type} {p : β → Bool} {l : List β} {a : β} (ha : a ∈ l)
    (hp : p a = false) : a ∈ l.dropWhile p := by
  rw [← List.takeWhile_append_dropWhile (p := p) (l := l), List.mem_append] at ha
  rcases ha with hdropped | hkept
  · rw [List.mem_takeWhile_imp hdropped] at hp
    contradiction
  · exact hkept

variable {α : Type}

/-! ## What falls out for want of room -/

/-- The oldest entries of a list, as many as there are beyond the capacity. -/
def Trajectory.crowdedOut (capacity : Nat) (l : List (Waypoint α)) : List (Waypoint α) :=
  l.take (l.length - capacity)

/-- What does not fall out is kept. -/
theorem Trajectory.keepLatest_of_crowdedOut {capacity : Nat} {l : List (Waypoint α)}
    (h : crowdedOut capacity l = []) : keepLatest capacity l = l := by
  have hsplit : crowdedOut capacity l ++ keepLatest capacity l = l := List.take_append_drop _ _
  rw [h] at hsplit
  exact hsplit

variable [Scalar α]

/-! ## What lies within a window -/

/-- The times from the first one on that is at most `window` before the last. -/
def recentTimes (window : α) (times : List α) : List α :=
  match times.getLast? with
  | none => []
  | some newest => times.dropWhile fun time => decide (window < newest - time)

theorem recentTimes_concat (window : α) (times : List α) (newest : α) :
    recentTimes window (times ++ [newest])
      = (times ++ [newest]).dropWhile fun time => decide (window < newest - time) := by
  rw [recentTimes, List.getLast?_concat]

section Windows

variable [RealScalar α] {window time : α} {times : List α}

/-- As time goes on, a window moves on. -/
theorem recentTimes_append (hfinite : ∀ t ∈ times ++ [time], isFinite t = true)
    (hlater : ∀ last, times.getLast? = some last → last < time) :
    (recentTimes window times ++ [time]).dropWhile (fun t => decide (window < time - t))
      = recentTimes window (times ++ [time]) := by
  rw [recentTimes_concat]
  rcases List.eq_nil_or_concat' times with rfl | ⟨front, last, rfl⟩
  · rfl
  · rw [recentTimes_concat]
    have hlt : last < time := hlater last List.getLast?_concat
    have htime : isFinite time = true := hfinite time (by simp)
    have hlast : isFinite last = true := hfinite last (by simp)
    -- whatever was too old at the last time is too old now
    refine dropWhile_append_of_imp [time] fun t ht hold => ?_
    have ht' : isFinite t = true := hfinite t (List.mem_append_left _ ht)
    have hage : last - t ≤ time - t :=
      RealScalar.sub_le_sub hlast htime ht' ht' (RealScalar.le_of_lt hlt) (RealScalar.le_refl ht')
    rw [decide_eq_true_eq] at hold ⊢
    exact RealScalar.lt_of_lt_of_le hold hage

/-- The oldest time within the window is not later than `time` exactly if any time within
the window is not. -/
theorem exists_recent_le_iff (hwindow : isNaN window = false) {newest : α}
    (hnewest : times.getLast? = some newest) (hfinite : ∀ t ∈ times, isFinite t = true)
    (hordered : times.Pairwise (· < ·)) (time : α) :
    (∃ oldest, (recentTimes window times).head? = some oldest ∧ oldest ≤ time) ↔
      ∃ t ∈ times, newest - t ≤ window ∧ t ≤ time := by
  have hnewest' : isFinite newest = true := hfinite newest (List.mem_of_getLast? hnewest)
  have hrecent : ∀ t ∈ times, ¬ window < newest - t ↔ newest - t ≤ window := fun t ht =>
    RealScalar.not_lt hwindow (isNaN_sub hnewest' (hfinite t ht))
  have hsuffix : recentTimes window times <:+ times := by
    rw [recentTimes, hnewest]
    exact List.dropWhile_suffix _
  constructor
  · rintro ⟨oldest, holdest, hle⟩
    have hmem := hsuffix.subset (List.mem_of_head? holdest)
    refine ⟨oldest, hmem, (hrecent oldest hmem).mp ?_, hle⟩
    rw [recentTimes, hnewest] at holdest
    have hnot := List.head?_dropWhile_not (fun t => decide (window < newest - t)) times
    rw [holdest] at hnot
    simpa using hnot
  · rintro ⟨t, ht, hage, hle⟩
    have hkept : t ∈ recentTimes window times := by
      rw [recentTimes, hnewest]
      refine mem_dropWhile_of_eq_false ht ?_
      simpa using (hrecent t ht).mpr hage
    obtain ⟨oldest, rest, hcons⟩ := List.exists_cons_of_ne_nil (List.ne_nil_of_mem hkept)
    have hbefore := hordered.sublist hsuffix.sublist
    rw [hcons, List.pairwise_cons] at hbefore
    rw [hcons] at hkept ⊢
    refine ⟨oldest, rfl, ?_⟩
    rcases List.mem_cons.mp hkept with rfl | hrest
    · exact hle
    · exact RealScalar.le_trans (RealScalar.le_of_lt (hbefore.1 t hrest)) hle

end Windows

namespace Estimator

/-! ## A run and what falls out during it -/

/-- What falls out of the record for want of room when a reading is applied. -/
def crowdedOutBy (e : Estimator α) (s : DriveSample α) : List (Waypoint α) :=
  match e.integrate s with
  | .error _ => []
  | .ok after =>
    Trajectory.crowdedOut e.trajectory.capacity (e.trajectory.entries ++ [⟨s.time, after.pose⟩])

theorem crowdedOutBy_of_integrate {e after : Estimator α} {s : DriveSample α}
    (h : e.integrate s = .ok after) :
    e.crowdedOutBy s
      = Trajectory.crowdedOut e.trajectory.capacity
        (e.trajectory.entries ++ [⟨s.time, after.pose⟩]) := by
  rw [crowdedOutBy, h]

/-- What falls out when readings are taken in one after the other. -/
def crowdedOutByAll (e : Estimator α) : List (DriveSample α) → List (Waypoint α)
  | [] => []
  | s :: rest => e.crowdedOutBy s ++ (e.addDrive s).2.crowdedOutByAll rest

/-- What has fallen out since the last reset, before a command and by it. -/
def crowdedOutAfter (before : List (Waypoint α)) (e : Estimator α) :
    Command α → List (Waypoint α)
  | .drive s => before ++ e.crowdedOutBy s
  | .batch samples => before ++ e.crowdedOutByAll (DriveSample.inOrder samples)
  | .vision _ => before
  | .reset _ => []

/-- What has fallen out since the last reset, before a run and during it. -/
def crowdedOutSince (before : List (Waypoint α)) (e : Estimator α) :
    List (Command α) → List (Waypoint α)
  | [] => before
  | c :: rest => crowdedOutSince (crowdedOutAfter before e c) (e.perform c).2 rest

/-- What has fallen out of the record for want of room since the last reset of a run. -/
def crowdedOutSinceReset (e : Estimator α) (commands : List (Command α)) : List (Waypoint α) :=
  crowdedOutSince [] e commands

/-! ## What is remembered -/

/-- Unless something has fallen out for want of room, the record reaches as far back as
its window. -/
structure Remembered (settings : EstimatorSettings α) (lost : List (Waypoint α))
    (applied : List (DriveSample α)) (e : Estimator α) : Prop where
  coherent : Coherent settings applied e
  finite : ∀ t ∈ applied.map DriveSample.time, isFinite t = true
  times : lost = [] → e.trajectory.entries.map Waypoint.time
    = recentTimes settings.window (applied.map DriveSample.time)

variable {settings : EstimatorSettings α} {lost : List (Waypoint α)}
  {applied : List (DriveSample α)} {e : Estimator α}

theorem remembered_build {chassis : Chassis α} {pose : Pose α}
    (h : build chassis pose settings = .ok e) : Remembered settings [] [] e := by
  refine ⟨coherent_build h, by simp, fun _ => ?_⟩
  obtain ⟨-, -, -, rfl⟩ := build_eq_ok h
  rfl

theorem Remembered.addPose (h : Remembered settings lost applied e) (m : PoseMeasurement α) :
    Remembered settings lost applied (e.addPose m).2 := by
  refine ⟨h.coherent.addPose m, h.finite, fun hlost => ?_⟩
  rw [← h.times hlost]
  rcases addPose_cases e m with ⟨d, -, hpose⟩ | ⟨r, -, hpose⟩
  · rw [hpose]
    exact Trajectory.times_shift e.trajectory d
  · rw [hpose]
    rfl

theorem Remembered.resetPose (h : Remembered settings lost applied e) (p : Pose α) :
    Remembered settings [] [] (e.resetPose p) :=
  ⟨h.coherent.reset p, by simp, fun _ => rfl⟩

variable [RealScalar α]

theorem Remembered.integrate (h : Remembered settings lost applied e)
    (hcapacity : 1 ≤ settings.capacity) (hwindow : 0 ≤ settings.window) {s : DriveSample α}
    {after : Estimator α} (hafter : e.integrate s = .ok after) :
    Remembered settings (lost ++ e.crowdedOutBy s) (applied ++ [s]) after := by
  obtain ⟨hfinite, hnewer, -, -, -⟩ := integrate_eq_ok hafter
  have hall : ∀ t ∈ applied.map DriveSample.time ++ [s.time], isFinite t = true := by
    simpa [or_imp, forall_and, hfinite] using h.finite
  refine ⟨h.coherent.integrate hcapacity hwindow hafter, by simpa using hall, fun hlost => ?_⟩
  obtain ⟨hbefore, hnone⟩ := List.append_eq_nil_iff.mp hlost
  obtain ⟨-, htrajectory⟩ := Trajectory.push?_eq_some (h.coherent.push?_of_integrate hafter)
  rw [crowdedOutBy_of_integrate hafter] at hnone
  have hlater : ∀ last, (applied.map DriveSample.time).getLast? = some last → last < s.time := by
    intro last hlast
    rw [List.getLast?_map, Option.map_eq_some_iff] at hlast
    obtain ⟨q, hq, rfl⟩ := hlast
    have hnewest := h.coherent.newest
    rw [hq] at hnewest
    exact h.coherent.lt_of_isNewer hfinite hnewer _ (List.mem_of_getLast? hnewest)
  -- only the window takes something away, and it does so by the times alone
  have hmap := List.dropWhile_map (f := Waypoint.time)
    (p := fun t => decide (settings.window < s.time - t))
    (l := e.trajectory.entries ++ [⟨s.time, after.pose⟩])
  rw [htrajectory, List.map_append, List.map_singleton, ← recentTimes_append hall hlater,
    ← h.times hbefore, Trajectory.evict, Trajectory.keepLatest_of_crowdedOut hnone,
    h.coherent.window_eq, Trajectory.keepRecent]
  rw [List.map_append] at hmap
  exact hmap.symm

theorem Remembered.addDrive (h : Remembered settings lost applied e)
    (hcapacity : 1 ≤ settings.capacity) (hwindow : 0 ≤ settings.window) (s : DriveSample α) :
    Remembered settings (lost ++ e.crowdedOutBy s)
      (applied ++ acceptedOf [s] [(e.addDrive s).1]) (e.addDrive s).2 := by
  refine addDrive_preserves (fun after hafter => h.integrate hcapacity hwindow hafter) fun r => ?_
  refine ⟨h.coherent.recordRejection r, h.finite, fun hlost => ?_⟩
  exact h.times (List.append_eq_nil_iff.mp hlost).1

theorem Remembered.addDrives (h : Remembered settings lost applied e)
    (hcapacity : 1 ≤ settings.capacity) (hwindow : 0 ≤ settings.window)
    (samples : List (DriveSample α)) :
    Remembered settings (lost ++ e.crowdedOutByAll samples)
      (applied ++ acceptedOf samples ((e.addDrives samples).1.map Prod.snd))
      (e.addDrives samples).2 := by
  induction samples generalizing e lost applied with
  | nil =>
    have hnone : acceptedOf [] ((e.addDrives []).1.map Prod.snd) = ([] : List (DriveSample α)) := rfl
    rw [hnone, crowdedOutByAll, List.append_nil, List.append_nil]
    exact h
  | cons s rest ih =>
    rw [addDrives_cons, List.map_cons, acceptedOf_cons, crowdedOutByAll, ← List.append_assoc,
      ← List.append_assoc]
    exact ih (h.addDrive hcapacity hwindow s)

/-- The invariant of a run. -/
theorem Remembered.run (h : Remembered settings lost applied e)
    (hcapacity : 1 ≤ settings.capacity) (hwindow : 0 ≤ settings.window)
    (commands : List (Command α)) :
    Remembered settings (crowdedOutSince lost e commands)
      ((commands.zip (e.run commands).1).foldl appliedAfter applied) (e.run commands).2 := by
  induction commands generalizing e lost applied with
  | nil => exact h
  | cons c rest ih =>
    cases c with
    | drive s => exact ih (h.addDrive hcapacity hwindow s)
    | batch samples => exact ih (h.addDrives hcapacity hwindow (DriveSample.inOrder samples))
    | vision m => exact ih (h.addPose m)
    | reset p => exact ih (h.resetPose p)

/-- How far the record reaches back, as the readings tell. -/
theorem Remembered.reaches_iff (h : Remembered settings [] applied e)
    (hwindow : 0 < settings.window) (hordered : applied.Pairwise fun a b => a.time < b.time)
    {newest : DriveSample α} (hnewest : applied.getLast? = some newest) (time : α) :
    (∃ oldest, e.trajectory.oldest? = some oldest ∧ oldest.time ≤ time) ↔
      ∃ s ∈ applied, newest.time - s.time ≤ settings.window ∧ s.time ≤ time := by
  have hlast : (applied.map DriveSample.time).getLast? = some newest.time := by
    rw [List.getLast?_map, hnewest]
    rfl
  have hreach := exists_recent_le_iff ((lt_iff _ _).mp hwindow).2.1 hlast h.finite
    (List.pairwise_map.mpr hordered) time
  rw [← h.times rfl, List.head?_map] at hreach
  simpa [Trajectory.oldest?, Option.map_eq_some_iff] using hreach

/-- Of a sound camera pose only the time matters, once there is a record. -/
theorem addPose_of_sound {m : PoseMeasurement α} (hfinite : m.isFinite = true)
    (husable : m.hasUsableDeviations = true) {oldest : Waypoint α}
    (holdest : e.trajectory.oldest? = some oldest) (hrecord : isFinite oldest.time = true) :
    (e.addPose m).1 = if oldest.time ≤ m.time then .accepted else .rejected .stale := by
  have htime : isFinite m.time = true := (Bool.and_eq_true_iff.mp hfinite).2
  have hlate := RealScalar.not_lt (isNaN_of_isFinite htime) (isNaN_of_isFinite hrecord)
  rw [addPose_verdict, hfinite, husable, holdest]
  by_cases hbefore : m.time < oldest.time
  · simp [hbefore, RealScalar.not_le_of_lt hbefore]
  · simp [hbefore, hlate.mp hbefore]

/-! ## Estimators on binary64 numbers -/

/-- After a run during which nothing has fallen out for want of room since the last reset, a
sound camera pose is accepted exactly if it is not earlier than some reading applied since
then that is within the window of the newest one. Otherwise it is stale, and it always is
if it was captured before the window. -/
theorem addPose_inWindow {chassis : Chassis Float} {pose : Pose Float}
    {settings : EstimatorSettings Float} {start : Estimator Float}
    (hbuild : build chassis pose settings = .ok start) {commands : List (Command Float)}
    (hroom : start.crowdedOutSinceReset commands = []) {m : PoseMeasurement Float}
    (hfinite : m.isFinite = true) (husable : m.hasUsableDeviations = true)
    {newest : DriveSample Float}
    (hnewest : (appliedSinceReset commands (start.run commands).1).getLast? = some newest) :
    let e := (start.run commands).2
    let applied := appliedSinceReset commands (start.run commands).1
    ((e.addPose m).1 = .accepted ↔
      ∃ s ∈ applied, newest.time - s.time ≤ settings.window ∧ s.time ≤ m.time) ∧
      ((e.addPose m).1 = .accepted ∨ (e.addPose m).1 = .rejected .stale) ∧
      (settings.window < newest.time - m.time → (e.addPose m).1 = .rejected .stale) := by
  intro e applied
  obtain ⟨hcapacity, hwindow, -, -⟩ := build_eq_ok hbuild
  have hremembered : Remembered settings (start.crowdedOutSinceReset commands) applied e :=
    (remembered_build hbuild).run (by omega) (RealScalar.le_of_lt hwindow) commands
  have htimely : Timely (appliedIn commands (start.run commands).1) e :=
    (timely_build hbuild).run commands
  have hordered : applied.Pairwise fun a b => a.time < b.time :=
    htimely.ordered.sublist (foldl_appliedAfter_suffix [] _).sublist
  have htimes : ∀ s ∈ applied, isFinite s.time = true :=
    fun s hs => hremembered.finite s.time (List.mem_map_of_mem hs)
  rw [hroom] at hremembered
  have hreach := hremembered.reaches_iff hwindow hordered hnewest m.time
  have hrecord := hremembered.coherent.newest
  rw [hnewest] at hrecord
  obtain ⟨oldest, rest, hentries⟩ :=
    List.exists_cons_of_ne_nil (List.ne_nil_of_mem (List.mem_of_getLast? hrecord))
  have holdest : e.trajectory.oldest? = some oldest := by
    rw [Trajectory.oldest?, hentries]
    rfl
  have hverdict := addPose_of_sound hfinite husable holdest
    (hremembered.coherent.finite oldest (List.mem_of_head? holdest))
  have haccepted : (e.addPose m).1 = .accepted ↔
      ∃ s ∈ applied, newest.time - s.time ≤ settings.window ∧ s.time ≤ m.time := by
    rw [← hreach, hverdict, holdest]
    simp
  have hcases : (e.addPose m).1 = .accepted ∨ (e.addPose m).1 = .rejected .stale := by
    rw [hverdict]
    split_ifs <;> simp
  refine ⟨haccepted, hcases, fun hbefore => hcases.resolve_left fun hok => ?_⟩
  -- a reading within the window that is not later than the camera pose puts it there, too
  obtain ⟨s, hs, hage, hle⟩ := haccepted.mp hok
  have htime : isFinite m.time = true := (Bool.and_eq_true_iff.mp hfinite).2
  have hnewer : isFinite newest.time = true := htimes newest (List.mem_of_getLast? hnewest)
  have hage' : newest.time - m.time ≤ newest.time - s.time :=
    RealScalar.sub_le_sub hnewer hnewer htime (htimes s hs) (RealScalar.le_refl hnewer) hle
  exact RealScalar.not_le_of_lt hbefore (RealScalar.le_trans hage' hage)

/-- Wheel readings at rest, at these times. -/
def restingAt (times : List Float) : List (Command Float) :=
  times.map fun time => .drive ⟨time, ⟨0, .replicate ⟨0, 0⟩⟩⟩

/-- A camera pose of the origin, captured at this time. -/
def originSeenAt (time : Float) : PoseMeasurement Float := ⟨.origin, time, ⟨1, 1, infinity⟩⟩

/-- Both camera poses lie within the window. The first reading of the window is between them. -/
theorem addPose_inWindow_betweenReadings :
    let start : Estimator Float := fresh .square .origin
    let commands := restingAt [0, 8.5, 10]
    let e := (start.run commands).2
    Chassis.build (Chassis.rectangle 1 1) = .ok start.reckoner.chassis ∧
      (e.addPose (originSeenAt 9)).1 = .accepted ∧
      (10 : Float) - 8.25 ≤ 2 ∧ (e.addPose (originSeenAt 8.25)).1 = .rejected .stale := by
  intro start commands e
  have hbuild : build .square .origin .standard = .ok start := build_fresh .square .origin
  have hroom : start.crowdedOutSinceReset commands = [] := by decide +kernel
  have hnewest : (appliedSinceReset commands (start.run commands).1).getLast?
      = some ⟨10, ⟨0, .replicate ⟨0, 0⟩⟩⟩ := by decide +kernel
  obtain ⟨hlater, -, -⟩ := addPose_inWindow hbuild hroom (m := originSeenAt 9)
    (by decide +kernel) (by decide +kernel) hnewest
  obtain ⟨-, hearlier, -⟩ := addPose_inWindow hbuild hroom (m := originSeenAt 8.25)
    (by decide +kernel) (by decide +kernel) hnewest
  refine ⟨Chassis.build_square, hlater.mpr ?_, by decide +kernel, hearlier.resolve_left (by decide +kernel)⟩
  refine ⟨⟨8.5, ⟨0, .replicate ⟨0, 0⟩⟩⟩, ?_, by decide +kernel, by decide +kernel⟩
  decide +kernel

/-- A camera pose that is one second old is stale when the last two readings are ten seconds
apart, although the window is two seconds and there was room for every reading. -/
theorem stale_insideWindow :
    let start : Estimator Float := fresh .square .origin
    let commands := restingAt [0, 10]
    let e := (start.run commands).2
    let m := originSeenAt 9
    Chassis.build (Chassis.rectangle 1 1) = .ok start.reckoner.chassis ∧
      build start.reckoner.chassis .origin .standard = .ok start ∧
      start.crowdedOutSinceReset commands = [] ∧
      m.isFinite = true ∧ m.hasUsableDeviations = true ∧
      (appliedSinceReset commands (start.run commands).1).map DriveSample.time = [0, 10] ∧
      (0 : Float) ≤ m.time ∧ 10 - m.time ≤ start.settings.window ∧
      (e.addPose m).1 = .rejected .stale := by
  decide +kernel

end Estimator

end SwerveLocalization
