import Mathlib
import SwerveLocalization.Proofs.Binary64.Arithmetic
import SwerveLocalization.Sensing.Sampler

/-!
# The last good readings

A sampler keeps nine values, one for each device, and every cycle replaces those
for which a good reading came in. Beside it stands the plain account: look back
through all cycles for the last good reading of a device, without regard to the
others. Main statement: in every cycle of every run the sampler gives these last
good readings, and nothing at all as long as the gyro or the travel of a wheel
has none.
-/

namespace SwerveLocalization

/-! ## Wheel by wheel -/

namespace Wheels

variable {β γ δ : Type}

/-- The value of one wheel, counted in wheel order. -/
def get (w : Wheels β) : Fin 4 → β
  | 0 => w.frontLeft
  | 1 => w.frontRight
  | 2 => w.backLeft
  | 3 => w.backRight

/-- The record of the values that a function gives for the wheels. -/
def ofFn (f : Fin 4 → β) : Wheels β := ⟨f 0, f 1, f 2, f 3⟩

@[ext] theorem ext_get {w v : Wheels β} (h : ∀ i, w.get i = v.get i) : w = v := by
  obtain ⟨a, b, c, d⟩ := w
  obtain ⟨a', b', c', d'⟩ := v
  obtain rfl : a = a' := h 0
  obtain rfl : b = b' := h 1
  obtain rfl : c = c' := h 2
  obtain rfl : d = d' := h 3
  rfl

/-- The list of the values goes through the wheels in their order. -/
theorem toList_eq_ofFn (w : Wheels β) : w.toList = List.ofFn w.get := rfl

@[simp] theorem get_ofFn (f : Fin 4 → β) (i : Fin 4) : (ofFn f).get i = f i := by
  fin_cases i <;> rfl

@[simp] theorem get_map (f : β → γ) (w : Wheels β) (i : Fin 4) : (w.map f).get i = f (w.get i) := by
  fin_cases i <;> rfl

@[simp] theorem get_zipWith (f : β → γ → δ) (w : Wheels β) (v : Wheels γ) (i : Fin 4) :
    (w.zipWith f v).get i = f (w.get i) (v.get i) := by
  fin_cases i <;> rfl

theorem allSome?_eq_none_iff {w : Wheels (Option β)} :
    w.allSome? = none ↔ ∃ i, w.get i = none := by
  obtain ⟨a, b, c, d⟩ := w
  cases a <;> cases b <;> cases c <;> cases d <;> simp [allSome?, get, Fin.exists_fin_succ]

end Wheels

/-! ## One device -/

section Device

variable {β : Type}

/-- The value of a reading, if it is a good one. -/
def Reading.good? (isGood : β → Bool) : Reading β → Option β
  | .ok b => if isGood b then some b else none
  | .error _ => none

/-- The last good reading of a device. -/
def lastGood? (isGood : β → Bool) (readings : List (Reading β)) : Option β :=
  readings.reverse.findSome? (Reading.good? isGood)

/-- Whether a reading is good. -/
def Reading.IsGood (isGood : β → Bool) (r : Reading β) : Prop := ∃ b, r = .ok b ∧ isGood b = true

/-- Whether a value is a good reading with no good one after it. -/
structure IsLastGood (isGood : β → Bool) (readings : List (Reading β)) (b : β) : Prop where
  good : isGood b = true
  last : ∃ before after, readings = before ++ .ok b :: after ∧
    ∀ r ∈ after, ¬ Reading.IsGood isGood r

variable {isGood : β → Bool} {r : Reading β} {readings : List (Reading β)} {b : β}

theorem Reading.good?_eq_some_iff : r.good? isGood = some b ↔ r = .ok b ∧ isGood b = true := by
  cases r with
  | error f => simp [good?]
  | ok a =>
    simp only [good?, Except.ok.injEq]
    constructor
    · intro h
      split_ifs at h with ha
      cases h
      exact ⟨rfl, ha⟩
    · rintro ⟨rfl, hb⟩
      rw [if_pos hb]

theorem Reading.good?_eq_none_iff : r.good? isGood = none ↔ ¬ r.IsGood isGood := by
  rw [← Option.not_isSome_iff_eq_none, Option.isSome_iff_exists, not_iff_not]
  exact exists_congr fun b => good?_eq_some_iff

theorem lastGood?_eq_none_iff :
    lastGood? isGood readings = none ↔ ∀ r ∈ readings, ¬ Reading.IsGood isGood r := by
  simp [lastGood?, Reading.good?_eq_none_iff]

theorem lastGood?_eq_some_iff :
    lastGood? isGood readings = some b ↔ IsLastGood isGood readings b := by
  unfold lastGood?
  rw [List.findSome?_eq_some_iff]
  constructor
  · rintro ⟨after, r, before, hsplit, hr, hafter⟩
    obtain ⟨rfl, hb⟩ := Reading.good?_eq_some_iff.mp hr
    refine ⟨hb, before.reverse, after.reverse, ?_, ?_⟩
    · rw [← List.reverse_reverse readings, hsplit]
      simp
    · intro r hr
      exact Reading.good?_eq_none_iff.mp (hafter r (List.mem_reverse.mp hr))
  · rintro ⟨hb, before, after, rfl, hafter⟩
    refine ⟨after.reverse, .ok b, before.reverse, by simp, Reading.good?_eq_some_iff.mpr ⟨rfl, hb⟩, ?_⟩
    intro r hr
    exact Reading.good?_eq_none_iff.mpr (hafter r (List.mem_reverse.mp hr))

theorem lastGood?_concat (readings : List (Reading β)) (r : Reading β) :
    lastGood? isGood (readings ++ [r]) = (r.good? isGood).or (lastGood? isGood readings) := by
  unfold lastGood?
  rw [List.reverse_concat, List.findSome?_cons]
  cases r.good? isGood <;> rfl

theorem Reading.orHeld_checked (held : β) (r : Reading β) :
    Reading.orHeld held (r.checked isGood) = (r.good? isGood).getD held := by
  cases r with
  | error f => rfl
  | ok b => cases hb : isGood b <;> simp [checked, orHeld, good?, hb]

theorem Reading.orHeld_checked_map_some (held : Option β) (r : Reading β) :
    Reading.orHeld held ((r.checked isGood).map some) = (r.good? isGood).or held := by
  cases r with
  | error f => rfl
  | ok b => cases hb : isGood b <;> simp [checked, orHeld, good?, hb, Except.map]

/-- A new reading takes the place of the last good one if it is good itself. -/
theorem orHeld_lastGood? (readings : List (Reading β)) (r : Reading β) :
    Reading.orHeld (lastGood? isGood readings) ((r.checked isGood).map some)
      = lastGood? isGood (readings ++ [r]) := by
  rw [Reading.orHeld_checked_map_some, lastGood?_concat]

theorem orHeld_getD_lastGood? (default : β) (readings : List (Reading β)) (r : Reading β) :
    Reading.orHeld ((lastGood? isGood readings).getD default) (r.checked isGood)
      = (lastGood? isGood (readings ++ [r])).getD default := by
  rw [Reading.orHeld_checked, lastGood?_concat]
  cases r.good? isGood <;> rfl

end Device

/-! ## All devices -/

attribute [ext] Sampler

namespace Sampler

variable {α : Type}

/-- One cycle: its time and what the devices answer. -/
structure Cycle (α : Type) where
  time : α
  readings : DeviceReadings α

/-- The answers of the gyro in some cycles. -/
def gyros (cycles : List (Cycle α)) : List (Reading α) := cycles.map fun c => c.readings.gyro

/-- What a wheel answers in some cycles when it is asked how far it has rolled. -/
def travels (cycles : List (Cycle α)) (i : Fin 4) : List (Reading (WheelTravel α)) :=
  cycles.map fun c => c.readings.travel.get i

/-- What a wheel answers in some cycles when it is asked how it moves. -/
def wheelStates (cycles : List (Cycle α)) (i : Fin 4) : List (Reading (WheelState α)) :=
  cycles.map fun c => c.readings.states.get i

theorem gyros_append (first second : List (Cycle α)) :
    gyros (first ++ second) = gyros first ++ gyros second := List.map_append

theorem travels_append (first second : List (Cycle α)) (i : Fin 4) :
    travels (first ++ second) i = travels first i ++ travels second i := List.map_append

theorem wheelStates_append (first second : List (Cycle α)) (i : Fin 4) :
    wheelStates (first ++ second) i = wheelStates first i ++ wheelStates second i :=
  List.map_append

/-- There is no sample as long as the gyro or a wheel is missing. -/
theorem inputs?_eq_none_iff {s : Sampler α} {time : α} :
    s.inputs? time = none ↔ s.gyro = none ∨ ∃ i, s.travel.get i = none := by
  rw [← Wheels.allSome?_eq_none_iff]
  unfold inputs?
  cases s.gyro <;> cases s.travel.allSome? <;> simp

/-- A sample is what the sampler holds, with the time of the cycle. -/
theorem inputs?_eq_some {s : Sampler α} {time : α} {inputs : DriveInputs α}
    (h : s.inputs? time = some inputs) :
    ∃ gyro travel, s.gyro = some gyro ∧ (∀ i, s.travel.get i = some (travel.get i)) ∧
      inputs = ⟨[⟨time, ⟨gyro, travel⟩⟩], s.states⟩ := by
  unfold inputs? at h
  split at h
  · rename_i gyro travel hgyro htravel
    refine ⟨gyro, travel, hgyro, ?_, (Option.some.inj h).symm⟩
    intro i
    rw [Wheels.allSome?_eq_some_iff.mp htravel, Wheels.get_map]
  · contradiction

variable [Scalar α]

/-- Runs cycles one after the other. -/
def run (s : Sampler α) : List (Cycle α) → List (Option (DriveInputs α)) × Sampler α
  | [] => ([], s)
  | c :: rest =>
    let (inputs, after) := s.sample c.time c.readings
    let (others, last) := after.run rest
    (inputs :: others, last)

/-- The last good reading of every device, and rest for a wheel that has never told
how it moves. -/
def ofLastGood (cycles : List (Cycle α)) : Sampler α where
  gyro := lastGood? Scalar.isFinite (gyros cycles)
  travel := .ofFn fun i => lastGood? WheelTravel.isFinite (travels cycles i)
  states := .ofFn fun i => (lastGood? WheelState.isFinite (wheelStates cycles i)).getD .rest

/-- One cycle brings the last good readings up to date, each device on its own. -/
theorem hold_ofLastGood (cycles : List (Cycle α)) (c : Cycle α) :
    (ofLastGood cycles).hold c.readings = ofLastGood (cycles ++ [c]) := by
  apply Sampler.ext
  · show _ = lastGood? _ (gyros (cycles ++ [c]))
    rw [gyros_append]
    exact orHeld_lastGood? (gyros cycles) c.readings.gyro
  · ext i
    simp only [hold, ofLastGood, DeviceReadings.checked, Wheels.get_zipWith, Wheels.get_map,
      Wheels.get_ofFn, travels_append, orHeld_lastGood?]
    rfl
  · ext i
    simp only [hold, ofLastGood, DeviceReadings.checked, Wheels.get_zipWith, Wheels.get_map,
      Wheels.get_ofFn, wheelStates_append, orHeld_getD_lastGood?]
    rfl

theorem run_concat (s : Sampler α) (cycles : List (Cycle α)) (c : Cycle α) :
    s.run (cycles ++ [c])
      = ((s.run cycles).1 ++ [((s.run cycles).2.sample c.time c.readings).1],
          (s.run cycles).2.hold c.readings) := by
  induction cycles generalizing s with
  | nil => rfl
  | cons first rest ih => simp [run, ih]

theorem length_run (s : Sampler α) (cycles : List (Cycle α)) :
    (s.run cycles).1.length = cycles.length := by
  induction cycles generalizing s with
  | nil => rfl
  | cons c rest ih => exact congrArg (· + 1) (ih _)

/-- After any run the sampler holds the last good reading of every device. -/
theorem run_eq_ofLastGood (cycles : List (Cycle α)) :
    ((start : Sampler α).run cycles).2 = ofLastGood cycles := by
  induction cycles using List.reverseRecOn with
  | nil => rfl
  | append_singleton cycles c ih => rw [run_concat, ih, hold_ofLastGood]

/-- What a cycle gives is made of the last good readings up to it. -/
theorem getElem?_run (cycles : List (Cycle α)) (n : ℕ) :
    ((start : Sampler α).run cycles).1[n]?
      = cycles[n]?.map fun c => (ofLastGood (cycles.take (n + 1))).inputs? c.time := by
  induction cycles using List.reverseRecOn with
  | nil => rfl
  | append_singleton cycles c ih =>
    have hlast : (((start : Sampler α).run cycles).2.sample c.time c.readings).1
        = (ofLastGood (cycles ++ [c])).inputs? c.time := by
      rw [run_eq_ofLastGood, ← hold_ofLastGood]
      rfl
    have hlength := length_run (start : Sampler α) cycles
    rw [run_concat, hlast]
    rcases lt_trichotomy n cycles.length with hbefore | rfl | hafter
    · rw [List.getElem?_append_left (by omega), List.getElem?_append_left hbefore, ih,
        List.take_append_of_le_length hbefore]
    · rw [← hlength, List.getElem?_concat_length, hlength, List.getElem?_concat_length,
        List.take_of_length_le (by simp)]
      rfl
    · rw [List.getElem?_eq_none (by simp; omega), List.getElem?_eq_none (by simp; omega)]
      rfl

variable {cycles : List (Cycle α)} {time : α}

theorem inputs?_ofLastGood_eq_none_iff :
    (ofLastGood cycles).inputs? time = none ↔
      (∀ r ∈ gyros cycles, ¬ Reading.IsGood Scalar.isFinite r) ∨
        ∃ i, ∀ r ∈ travels cycles i, ¬ Reading.IsGood WheelTravel.isFinite r := by
  rw [inputs?_eq_none_iff]
  simp only [ofLastGood, Wheels.get_ofFn, lastGood?_eq_none_iff]

/-- Once there is a sample there is one in every later cycle. -/
theorem isSome_inputs?_of_prefix {later : List (Cycle α)} {time' : α} (hearlier : cycles <+: later)
    (h : ((ofLastGood cycles).inputs? time).isSome = true) :
    ((ofLastGood later).inputs? time').isSome = true := by
  rw [Option.isSome_iff_ne_none, Ne, inputs?_ofLastGood_eq_none_iff] at h ⊢
  obtain ⟨rest, rfl⟩ := hearlier
  simp only [gyros_append, travels_append, List.mem_append]
  rintro (hgyro | ⟨i, htravel⟩)
  · exact h (.inl fun r hr => hgyro r (.inl hr))
  · exact h (.inr ⟨i, fun r hr => htravel r (.inl hr)⟩)

/-- The state of a wheel is the last good one, or rest if there is none. -/
theorem states_ofLastGood (cycles : List (Cycle α)) (i : Fin 4) :
    IsLastGood WheelState.isFinite (wheelStates cycles i) ((ofLastGood cycles).states.get i) ∨
      (∀ r ∈ wheelStates cycles i, ¬ Reading.IsGood WheelState.isFinite r) ∧
        (ofLastGood cycles).states.get i = .rest := by
  simp only [ofLastGood, Wheels.get_ofFn]
  cases hlast : lastGood? WheelState.isFinite (wheelStates cycles i) with
  | none => exact .inr ⟨lastGood?_eq_none_iff.mp hlast, rfl⟩
  | some state => exact .inl (lastGood?_eq_some_iff.mp hlast)

/-! ## Samplers of binary64 numbers -/

/-- In every cycle of a run there is no sample exactly if the gyro or the travel of
some wheel has had no good reading so far. Otherwise there is one, with the time of
the cycle and the last good reading of each device; a wheel that has never told how
it moves is at rest. Readings and states are finite, and no later cycle is without
a sample. -/
theorem sample_lastGood (before after : List (Cycle Float)) (c : Cycle Float) :
    let outputs := ((start : Sampler Float).run (before ++ c :: after)).1
    let cycles := before ++ [c]
    ∃ output, outputs[before.length]? = some output ∧
      (output = none ↔ (∀ r ∈ gyros cycles, ¬ Reading.IsGood Scalar.isFinite r) ∨
        ∃ i, ∀ r ∈ travels cycles i, ¬ Reading.IsGood WheelTravel.isFinite r) ∧
      (∀ inputs, output = some inputs → ∃ reading : DriveReading Float,
        inputs.odometry = [⟨c.time, reading⟩] ∧
        IsLastGood Scalar.isFinite (gyros cycles) reading.gyro ∧
        (∀ i, IsLastGood WheelTravel.isFinite (travels cycles i) (reading.travel.get i)) ∧
        (∀ i, IsLastGood WheelState.isFinite (wheelStates cycles i) (inputs.states.get i) ∨
          (∀ r ∈ wheelStates cycles i, ¬ Reading.IsGood WheelState.isFinite r) ∧
            inputs.states.get i = .rest) ∧
        reading.isFinite = true ∧ ∀ i, (inputs.states.get i).isFinite = true) ∧
      (output.isSome = true → ∀ later ∈ outputs.drop before.length, later.isSome = true) := by
  intro outputs cycles
  have houtput : outputs[before.length]? = some ((ofLastGood cycles).inputs? c.time) := by
    rw [getElem?_run, List.getElem?_append_right le_rfl, Nat.sub_self, List.getElem?_cons_zero,
      List.take_length_add_append]
    rfl
  refine ⟨_, houtput, inputs?_ofLastGood_eq_none_iff, ?_, ?_⟩
  · intro inputs hinputs
    obtain ⟨gyro, travel, hgyro, htravel, rfl⟩ := inputs?_eq_some hinputs
    have hgyro := lastGood?_eq_some_iff.mp hgyro
    have htravel : ∀ i, IsLastGood WheelTravel.isFinite (travels cycles i) (travel.get i) := by
      intro i
      rw [← lastGood?_eq_some_iff, ← htravel i, ofLastGood, Wheels.get_ofFn]
    have hstates := states_ofLastGood cycles
    refine ⟨⟨gyro, travel⟩, rfl, hgyro, htravel, hstates, ?_, ?_⟩
    · rw [DriveReading.isFinite, hgyro.good, Bool.true_and, Wheels.toList_eq_ofFn,
        List.all_eq_true]
      intro t ht
      obtain ⟨i, rfl⟩ := (List.mem_ofFn' _ _).mp ht
      exact (htravel i).good
    · intro i
      rcases hstates i with hlast | ⟨-, hrest⟩
      · exact hlast.good
      · rw [hrest]
        decide +kernel
  · intro hsome later hlater
    obtain ⟨k, hk⟩ := List.mem_iff_getElem?.mp hlater
    rw [List.getElem?_drop, getElem?_run] at hk
    obtain ⟨c', -, rfl⟩ := Option.map_eq_some_iff.mp hk
    have hearlier : cycles <+: (before ++ c :: after).take (before.length + k + 1) :=
      List.prefix_take_iff.mpr ⟨⟨after, by simp [cycles]⟩, by simp [cycles]⟩
    exact isSome_inputs?_of_prefix hearlier hsome

/-- Two cycles of a drivetrain. In the first the gyro answers, and so does every
wheel but one; in the second the gyro gives no number, the wheel answers, and the
states of the wheels cannot be read. -/
def lateWheel : List (Cycle Float) :=
  let travel (distance : Float) : Reading (WheelTravel Float) := .ok ⟨distance, 0⟩
  let state : Reading (WheelState Float) := .ok ⟨1, 0⟩
  [⟨0, ⟨.ok 0.5, ⟨travel 1, travel 2, travel 3, .error .disconnected⟩,
      ⟨state, state, state, .error .invalidReading⟩⟩⟩,
    ⟨0.02, ⟨.ok (0.0 / 0.0), ⟨.error .disconnected, travel 2.5, travel 3.5, travel 4⟩,
      .replicate (.error .disconnected)⟩⟩]

/-- The last wheel holds back the first sample and is at rest in the second. -/
theorem sample_lastGood_lateWheel :
    let travel : Wheels (WheelTravel Float) := ⟨⟨1, 0⟩, ⟨2.5, 0⟩, ⟨3.5, 0⟩, ⟨4, 0⟩⟩
    let states : Wheels (WheelState Float) := ⟨⟨1, 0⟩, ⟨1, 0⟩, ⟨1, 0⟩, .rest⟩
    ((start : Sampler Float).run lateWheel).1
        = [none, some ⟨[⟨0.02, ⟨0.5, travel⟩⟩], states⟩] ∧
      IsLastGood Scalar.isFinite (gyros lateWheel) 0.5 ∧
      (∀ i, IsLastGood WheelTravel.isFinite (travels lateWheel i) (travel.get i)) ∧
      IsLastGood WheelState.isFinite (wheelStates lateWheel 0) (states.get 0) := by
  intro travel states
  have houtputs : ((start : Sampler Float).run lateWheel).1
      = [none, some ⟨[⟨0.02, ⟨0.5, travel⟩⟩], states⟩] := by decide +kernel
  have hrun : lateWheel = [lateWheel[0]] ++ lateWheel[1] :: [] := rfl
  obtain ⟨output, houtput, -, hsome, -⟩ := sample_lastGood [lateWheel[0]] [] lateWheel[1]
  rw [← hrun, houtputs] at houtput
  obtain ⟨reading, hodometry, hgyro, htravel, hstates, -⟩ := hsome _ (Option.some.inj houtput).symm
  obtain rfl : (⟨0.5, travel⟩ : DriveReading Float) = reading := by
    cases hodometry
    rfl
  refine ⟨houtputs, hgyro, htravel, ?_⟩
  rcases hstates 0 with hlast | ⟨-, hrest⟩
  · exact hlast
  · exact absurd hrest (by decide +kernel)

end Sampler

end SwerveLocalization
