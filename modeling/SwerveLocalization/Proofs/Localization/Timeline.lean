import Mathlib
import SwerveLocalization.Proofs.Binary64.Arithmetic
import SwerveLocalization.Proofs.Localization.Reset

/-!
# Readings are applied in the order of time

Whatever wheel readings come, those that are applied have finite times, each later
than the one before, also across resets. So the last applied time, which is all
that an estimator remembers of them, decides the same as all of them would.
-/

namespace SwerveLocalization.Estimator

open Scalar RealScalar

variable {α : Type} [Scalar α]

/-- All readings that a run has applied. -/
def appliedIn (commands : List (Command α)) (verdicts : List (List Verdict)) :
    List (DriveSample α) :=
  (commands.zip verdicts).flatMap appliedBy

/-- The readings that an estimator has applied come in the order of their times, and
it remembers the time of the last one. -/
structure Timely (applied : List (DriveSample α)) (e : Estimator α) : Prop where
  finite : ∀ s ∈ applied, isFinite s.time = true
  ordered : applied.Pairwise fun a b => a.time < b.time
  last : e.lastOdometry = applied.getLast?.map DriveSample.time

variable {applied : List (DriveSample α)} {e : Estimator α} {s : DriveSample α}

theorem timely_build {chassis : Chassis α} {pose : Pose α} {settings : EstimatorSettings α}
    (h : build chassis pose settings = .ok e) : Timely [] e := by
  obtain ⟨-, -, -, rfl⟩ := build_eq_ok h
  refine ⟨?_, List.Pairwise.nil, rfl⟩
  intro s hs
  cases hs

theorem Timely.addPose (h : Timely applied e) (m : PoseMeasurement α) :
    Timely applied (e.addPose m).2 := by
  rcases addPose_cases e m with ⟨d, -, hpose⟩ | ⟨r, -, hpose⟩ <;> rw [hpose] <;>
    exact ⟨h.finite, h.ordered, h.last⟩

theorem Timely.resetPose (h : Timely applied e) (p : Pose α) : Timely applied (e.resetPose p) :=
  ⟨h.finite, h.ordered, h.last⟩

theorem Timely.isFinite_last (h : Timely applied e) {last : α}
    (hlast : e.lastOdometry = some last) : isFinite last = true := by
  rw [h.last] at hlast
  obtain ⟨s, hs, rfl⟩ := Option.map_eq_some_iff.mp hlast
  exact h.finite s (List.mem_of_getLast? hs)

variable [RealScalar α]

/-- A time is later than the last applied one exactly if it is later than all of them. -/
theorem Timely.last_lt_iff (h : Timely applied e) {time : α} :
    (∀ last, e.lastOdometry = some last → last < time) ↔ ∀ q ∈ applied, q.time < time := by
  rw [h.last]
  rcases List.eq_nil_or_concat' applied with rfl | ⟨front, newest, rfl⟩
  · simp
  · have hbefore := (List.pairwise_append.mp h.ordered).2.2
    rw [List.getLast?_concat, Option.map_some]
    constructor
    · intro hlast q hq
      have hnewest : newest.time < time := hlast _ rfl
      rcases List.mem_append.mp hq with hq | hq
      · exact RealScalar.lt_trans (hbefore q hq newest List.mem_cons_self) hnewest
      · rw [List.mem_singleton.mp hq]
        exact hnewest
    · rintro hall last ⟨⟩
      exact hall newest (by simp)

theorem Timely.isNewer_iff (h : Timely applied e) {time : α} (htime : isFinite time = true) :
    e.isNewer time = true ↔ ∀ q ∈ applied, q.time < time := by
  rw [← h.last_lt_iff]
  unfold isNewer
  cases hlast : e.lastOdometry with
  | none => simp
  | some last =>
    have hlater : ¬ time ≤ last ↔ last < time :=
      RealScalar.not_le (isNaN_of_isFinite (h.isFinite_last hlast)) (isNaN_of_isFinite htime)
    simp [hlater]

/-- The last applied time is the largest. -/
theorem Timely.le_last (h : Timely applied e) {last q : DriveSample α}
    (hlast : applied.getLast? = some last) (hq : q ∈ applied) : q.time ≤ last.time := by
  obtain ⟨front, rfl⟩ := List.getLast?_eq_some_iff.mp hlast
  rcases List.mem_append.mp hq with hfront | hfront
  · have hbefore := (List.pairwise_append.mp h.ordered).2.2
    exact RealScalar.le_of_lt (hbefore q hfront last List.mem_cons_self)
  · rw [List.mem_singleton.mp hfront]
    exact RealScalar.le_refl (h.finite last (by simp))

theorem Timely.integrate (h : Timely applied e) {after : Estimator α}
    (hafter : e.integrate s = .ok after) : Timely (applied ++ [s]) after := by
  obtain ⟨hfinite, hnewer, reckoner, -, rfl⟩ := integrate_eq_ok hafter
  rw [h.isNewer_iff hfinite] at hnewer
  refine ⟨?_, List.pairwise_append.mpr ⟨h.ordered, List.pairwise_singleton _ _, ?_⟩, ?_⟩
  · intro q hq
    rcases List.mem_append.mp hq with hq | hq
    · exact h.finite q hq
    · rw [List.mem_singleton.mp hq]
      exact hfinite
  · intro q hq r hr
    rw [List.mem_singleton.mp hr]
    exact hnewer q hq
  · rw [List.getLast?_concat]
    rfl

theorem Timely.addDrive (h : Timely applied e) (s : DriveSample α) :
    Timely (applied ++ acceptedOf [s] [(e.addDrive s).1]) (e.addDrive s).2 :=
  addDrive_preserves (fun _ hafter => h.integrate hafter) fun _ => ⟨h.finite, h.ordered, h.last⟩

theorem Timely.addDrives (h : Timely applied e) (samples : List (DriveSample α)) :
    Timely (applied ++ acceptedOf samples ((e.addDrives samples).1.map Prod.snd))
      (e.addDrives samples).2 :=
  addDrives_preserves (P := Timely) (fun _ _ s htimely => htimely.addDrive s) h samples

/-- The invariant of a run. -/
theorem Timely.run (h : Timely applied e) (commands : List (Command α)) :
    Timely (applied ++ appliedIn commands (e.run commands).1) (e.run commands).2 :=
  run_preserves_applied (P := Timely) (fun _ _ s htimely => htimely.addDrive s)
    (fun _ _ m htimely => htimely.addPose m) (fun _ _ p htimely => htimely.resetPose p) h commands

/-! ## What becomes of a reading -/

/-- A reading is applied if it is finite and newer than all that have been applied. -/
theorem Timely.addDrive_eq_accepted_iff (h : Timely applied e) (s : DriveSample α) :
    (e.addDrive s).1 = .accepted ↔
      isFinite s.time = true ∧ s.reading.isFinite = true ∧ ∀ q ∈ applied, q.time < s.time := by
  rw [addDrive_verdict]
  cases hfinite : isFinite s.time
  · simp
  · rw [← h.isNewer_iff hfinite]
    cases e.isNewer s.time <;> cases s.reading.isFinite <;> simp

/-- Of a reading that is not finite, the time is looked at first. -/
theorem Timely.addDrive_eq_nonFinite_iff (h : Timely applied e) (s : DriveSample α) :
    (e.addDrive s).1 = .rejected .nonFiniteOdometry ↔
      isFinite s.time = false ∨ s.reading.isFinite = false ∧ ∀ q ∈ applied, q.time < s.time := by
  rw [addDrive_verdict]
  cases hfinite : isFinite s.time
  · simp
  · rw [← h.isNewer_iff hfinite]
    cases e.isNewer s.time <;> cases s.reading.isFinite <;> simp

end SwerveLocalization.Estimator
