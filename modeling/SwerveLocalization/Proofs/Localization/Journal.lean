import Mathlib
import SwerveLocalization.Proofs.Binary64.Arithmetic
import SwerveLocalization.Proofs.Localization.Eviction

/-!
# A trajectory against an unbounded log

A trajectory forgets for good, and it decides what to forget while it is being
filled. Beside it we keep a log that forgets nothing: every waypoint taken in
since the last clearing, as all later shifts leave it. Main statement: the
trajectory always is the longest suffix of this log within its bounds, and it
refuses a waypoint exactly when the log would not grow in time.
-/

namespace SwerveLocalization.Trajectory

open Scalar RealScalar

variable {α : Type} [Scalar α]

/-- One thing that happens to a trajectory. -/
inductive Operation (α : Type)
  /-- A waypoint is offered. -/
  | push (waypoint : Waypoint α)
  /-- Every entry is displaced. -/
  | shift (displacement : Shift α)
  /-- Every entry is forgotten. -/
  | clear
deriving DecidableEq

/-- A trajectory, and everything it has taken in since it was cleared. -/
structure Journal (α : Type) where
  trajectory : Trajectory α
  log : List (Waypoint α)
deriving DecidableEq

namespace Journal

/-- A journal without entries. -/
def start (capacity : Nat) (window : α) : Journal α := ⟨.empty capacity window, []⟩

/-- Carries out an operation. What the trajectory refuses is not logged. -/
def perform (j : Journal α) : Operation α → Journal α
  | .push e =>
    match j.trajectory.push? e with
    | none => j
    | some after => ⟨after, j.log ++ [e]⟩
  | .shift d => ⟨j.trajectory.shift d, j.log.map fun e => ⟨e.time, e.pose.shift d⟩⟩
  | .clear => ⟨j.trajectory.clear, []⟩

/-- Carries out operations one after the other. -/
def run (j : Journal α) (operations : List (Operation α)) : Journal α :=
  operations.foldl perform j

/-- What every operation keeps true, they keep true together. -/
theorem run_preserves {P : Journal α → Prop} {j : Journal α} (hj : P j)
    {operations : List (Operation α)} (hperform : ∀ j, ∀ o ∈ operations, P j → P (j.perform o)) :
    P (j.run operations) :=
  List.foldlRecOn operations perform hj fun j hj o ho => hperform j o ho hj

/-- The invariant: the times are finite and the trajectory is the longest
suffix of the log within the bounds it has been given. -/
structure InStep (capacity : Nat) (window : α) (j : Journal α) : Prop where
  capacity_eq : j.trajectory.capacity = capacity
  window_eq : j.trajectory.window = window
  finite : ∀ e ∈ j.log, isFinite e.time = true
  retained : Retained capacity window j.log j.trajectory.entries

theorem inStep_start (capacity : Nat) (window : α) : InStep capacity window (start capacity window) := by
  refine ⟨rfl, rfl, by simp [start], List.suffix_refl _, ⟨Nat.zero_le _, ?_⟩, ?_⟩
  · rintro first newest hfirst
    cases hfirst
  · intro s hs _
    rw [List.suffix_nil.mp hs]
    exact Nat.zero_le _

variable [RealScalar α] {capacity : Nat} {window : α}

theorem perform_push_of_later {j : Journal α} (h : InStep capacity window j)
    (hcapacity : 1 ≤ capacity) (hwindow : 0 ≤ window) {e : Waypoint α}
    (he : isFinite e.time = true) (hlater : IsLater j.log e.time) :
    ∃ after, j.trajectory.push? e = some after ∧ j.perform (.push e) = ⟨after, j.log ++ [e]⟩ := by
  have hadmits := (h.retained.admits_iff hcapacity hwindow h.finite rfl he).mpr hlater
  simp [perform, push?, hadmits]

theorem perform_push_of_not_later {j : Journal α} (h : InStep capacity window j)
    (hcapacity : 1 ≤ capacity) (hwindow : 0 ≤ window) {e : Waypoint α}
    (he : isFinite e.time = true) (hlater : ¬ IsLater j.log e.time) :
    j.trajectory.push? e = none ∧ j.perform (.push e) = j := by
  rw [← h.retained.admits_iff hcapacity hwindow h.finite rfl he] at hlater
  simp [perform, push?, hlater]

/-- Every operation keeps trajectory and log in step. -/
theorem InStep.perform {j : Journal α} (h : InStep capacity window j) (hcapacity : 1 ≤ capacity)
    (hwindow : 0 ≤ window) {o : Operation α}
    (ho : ∀ e, o = .push e → isFinite e.time = true) : InStep capacity window (j.perform o) := by
  cases o with
  | push e =>
    have he := ho e rfl
    by_cases hlater : IsLater j.log e.time
    · obtain ⟨after, hpush, hperform⟩ := perform_push_of_later h hcapacity hwindow he hlater
      have hfinite : ∀ x ∈ j.log ++ [e], isFinite x.time = true := by
        intro x hx
        rcases List.mem_append.mp hx with hx | hx
        · exact h.finite x hx
        · rw [List.mem_singleton.mp hx]
          exact he
      rw [hperform]
      obtain ⟨-, rfl⟩ := push?_eq_some hpush
      refine ⟨h.capacity_eq, h.window_eq, hfinite, ?_⟩
      show Retained capacity window (j.log ++ [e]) (evict j.trajectory.capacity j.trajectory.window _ e)
      rw [h.capacity_eq, h.window_eq]
      exact h.retained.push hcapacity hwindow hlater hfinite
    · rw [(perform_push_of_not_later h hcapacity hwindow he hlater).2]
      exact h
  | shift d =>
    refine ⟨h.capacity_eq, h.window_eq, ?_, h.retained.map_shift d⟩
    intro x hx
    obtain ⟨y, hy, rfl⟩ := List.mem_map.mp hx
    exact h.finite y hy
  | clear =>
    have hstart := inStep_start capacity window
    exact ⟨h.capacity_eq, h.window_eq, hstart.finite, hstart.retained⟩

theorem inStep_run (hcapacity : 1 ≤ capacity) (hwindow : 0 ≤ window)
    (operations : List (Operation α))
    (hfinite : ∀ e, .push e ∈ operations → isFinite e.time = true) :
    InStep capacity window ((start capacity window).run operations) := by
  refine run_preserves (inStep_start capacity window) fun j o ho hj => ?_
  apply hj.perform hcapacity hwindow
  rintro e rfl
  exact hfinite e ho

/-! ## Trajectories of binary64 numbers -/

/-- Whatever happened before, the trajectory is the longest suffix of its log
within its bounds. It takes in a waypoint whose time is greater than the last
one of the log, and it refuses any other and stays as it is. -/
theorem run_retained {capacity : Nat} {window : Float} (hcapacity : 1 ≤ capacity)
    (hwindow : 0 ≤ window) (operations : List (Operation Float))
    (hfinite : ∀ e, .push e ∈ operations → isFinite e.time = true) :
    let j := (start capacity window).run operations
    Retained capacity window j.log j.trajectory.entries ∧
      ∀ e, isFinite e.time = true →
        (IsLater j.log e.time →
          ∃ after, j.trajectory.push? e = some after ∧
            j.perform (.push e) = ⟨after, j.log ++ [e]⟩) ∧
        (¬ IsLater j.log e.time → j.trajectory.push? e = none ∧ j.perform (.push e) = j) := by
  intro j
  have hstep := inStep_run hcapacity hwindow operations hfinite
  refine ⟨hstep.retained, ?_⟩
  intro e he
  exact ⟨perform_push_of_later hstep hcapacity hwindow he,
    perform_push_of_not_later hstep hcapacity hwindow he⟩

/-- Two waypoints, a shift, a waypoint that comes too late, and one for which
the first falls out. -/
def lateAndEvicted : List (Operation Float) :=
  [.push ⟨0, .origin⟩, .push ⟨1, .origin⟩, .shift ⟨1, 0, 0⟩, .push ⟨0.5, .origin⟩,
    .push ⟨2, .origin⟩]

theorem finite_lateAndEvicted : ∀ e, .push e ∈ lateAndEvicted → isFinite e.time = true := by
  intro e he
  simp only [lateAndEvicted, List.mem_cons, Operation.push.injEq, reduceCtorEq, List.not_mem_nil,
    or_false, false_or] at he
  rcases he with rfl | rfl | rfl | rfl <;> rfl

theorem run_retained_lateAndEvicted :
    let j := (start 2 1.5).run lateAndEvicted
    Retained 2 1.5 j.log j.trajectory.entries ∧
      j.trajectory.push? ⟨2, .origin⟩ = none ∧
      j.log.map Waypoint.time = [0, 1, 2] ∧ j.trajectory.entries.map Waypoint.time = [1, 2] := by
  intro j
  have h := run_retained (by decide : 1 ≤ 2) (by decide +kernel : (0 : Float) ≤ 1.5) lateAndEvicted
    finite_lateAndEvicted
  refine ⟨h.1, ((h.2 ⟨2, .origin⟩ rfl).2 ?_).1, by decide +kernel, by decide +kernel⟩
  intro hlater
  have hlast : (j.log.getLast?.map Waypoint.time) = some 2 := by decide +kernel
  obtain ⟨last, hlast, htime⟩ := Option.map_eq_some_iff.mp hlast
  have hlt : last.time < 2 := hlater last hlast
  rw [htime] at hlt
  exact RealScalar.lt_irrefl _ hlt

end Journal

end SwerveLocalization.Trajectory
