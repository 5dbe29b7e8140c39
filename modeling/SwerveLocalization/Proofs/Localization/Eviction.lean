import Mathlib
import SwerveLocalization.Localization.Trajectory
import SwerveLocalization.Proofs.Scalar

/-!
# What a trajectory keeps

A trajectory takes in a waypoint and lets the oldest ones fall out, first those
beyond the capacity and then those outside the window. Both steps drop a
prefix, and together they leave the longest suffix that is within both bounds.
The newest waypoint always stays.
-/

namespace SwerveLocalization.Trajectory

open Scalar RealScalar

variable {α : Type}

/-! ## The two evictions -/

theorem keepLatest_suffix (capacity : Nat) (l : List (Waypoint α)) :
    keepLatest capacity l <:+ l := List.drop_suffix _ _

theorem length_keepLatest_le (capacity : Nat) (l : List (Waypoint α)) :
    (keepLatest capacity l).length ≤ capacity := by
  unfold keepLatest
  rw [List.length_drop]
  omega

theorem suffix_keepLatest {capacity : Nat} {l s : List (Waypoint α)} (h : s <:+ l)
    (hlength : s.length ≤ capacity) : s <:+ keepLatest capacity l := by
  apply List.suffix_of_suffix_length_le h (keepLatest_suffix capacity l)
  unfold keepLatest
  rw [List.length_drop]
  have hle := h.length_le
  omega

variable [Scalar α]

theorem keepRecent_suffix (window now : α) (l : List (Waypoint α)) :
    keepRecent window now l <:+ l := List.dropWhile_suffix _

/-- The first waypoint that is kept is in the window. -/
theorem head?_keepRecent {window now : α} {l : List (Waypoint α)} {first : Waypoint α}
    (h : (keepRecent window now l).head? = some first) : ¬ window < now - first.time := by
  unfold keepRecent at h
  have hnot := List.head?_dropWhile_not (fun e => decide (window < now - e.time)) l
  rw [h] at hnot
  simpa using hnot

/-- Nothing is evicted from the first waypoint in the window on. -/
theorem suffix_keepRecent {window now : α} {l s : List (Waypoint α)} (h : s <:+ l)
    (hwindow : ∀ first, s.head? = some first → ¬ window < now - first.time) :
    s <:+ keepRecent window now l := by
  induction l with
  | nil => exact h
  | cons e rest ih =>
    -- either the suffix is the whole list and its head stays, or the head may go
    rcases List.suffix_cons_iff.mp h with rfl | hrest
    · have hin := hwindow e rfl
      rw [keepRecent, List.dropWhile_cons_of_neg (by simpa using hin)]
    · by_cases hold : window < now - e.time
      · rw [keepRecent, List.dropWhile_cons_of_pos (by simpa using hold)]
        exact ih hrest
      · rw [keepRecent, List.dropWhile_cons_of_neg (by simpa using hold)]
        exact h

/-! ## The bounds -/

/-- Waypoints within the bounds of a trajectory: not too many, and the first
one not too old when the last one is recorded. -/
@[mk_iff] structure Fits (capacity : Nat) (window : α) (entries : List (Waypoint α)) : Prop where
  few : entries.length ≤ capacity
  recent : ∀ first newest, entries.head? = some first → entries.getLast? = some newest →
    newest.time - first.time ≤ window

/-- The longest suffix of a log that is within the bounds. -/
structure Retained (capacity : Nat) (window : α) (log entries : List (Waypoint α)) : Prop where
  suffix : entries <:+ log
  fits : Fits capacity window entries
  longest : ∀ s, s <:+ log → Fits capacity window s → s.length ≤ entries.length

/-- Whether a time is later than the last one of a log. -/
def IsLater (log : List (Waypoint α)) (time : α) : Prop :=
  ∀ last, log.getLast? = some last → last.time < time

/-- There is one longest suffix only. -/
theorem Retained.unique {capacity : Nat} {window : α} {log first second : List (Waypoint α)}
    (h : Retained capacity window log first) (h' : Retained capacity window log second) :
    first = second := by
  have hle := h'.longest first h.suffix h.fits
  have hge := h.longest second h'.suffix h'.fits
  exact (List.suffix_of_suffix_length_le h.suffix h'.suffix hle).eq_of_length (by omega)

theorem fits_map_shift (capacity : Nat) (window : α) (d : Shift α) (l : List (Waypoint α)) :
    Fits capacity window (l.map fun e => ⟨e.time, e.pose.shift d⟩) ↔ Fits capacity window l := by
  rw [fits_iff, fits_iff]
  rw [List.length_map, List.head?_map, List.getLast?_map]
  cases l.head? <;> cases l.getLast? <;> simp

/-- Displacing every waypoint does not change which of them are retained. -/
theorem Retained.map_shift {capacity : Nat} {window : α} {log entries : List (Waypoint α)}
    (h : Retained capacity window log entries) (d : Shift α) :
    Retained capacity window (log.map fun e => ⟨e.time, e.pose.shift d⟩)
      (entries.map fun e => ⟨e.time, e.pose.shift d⟩) := by
  refine ⟨h.suffix.map _, (fits_map_shift _ _ _ _).mpr h.fits, ?_⟩
  intro s hs hsfits
  obtain ⟨s', hs', rfl⟩ := List.suffix_map_iff.mp hs
  rw [fits_map_shift] at hsfits
  rw [List.length_map, List.length_map]
  exact h.longest s' hs' hsfits

/-! ## Taking in a waypoint -/

/-- What is left of a list that ends in `e` once the oldest waypoints have
fallen out. -/
def evict (capacity : Nat) (window : α) (l : List (Waypoint α)) (e : Waypoint α) :
    List (Waypoint α) :=
  keepRecent window e.time (keepLatest capacity (l ++ [e]))

theorem push?_eq_some {h after : Trajectory α} {e : Waypoint α} (hpush : h.push? e = some after) :
    h.admits e.time = true ∧ after = { h with entries := evict h.capacity h.window h.entries e } := by
  unfold push? at hpush
  split at hpush
  · rename_i hadmits
    exact ⟨hadmits, (Option.some.inj hpush).symm⟩
  · contradiction

theorem evict_suffix (capacity : Nat) (window : α) (l : List (Waypoint α)) (e : Waypoint α) :
    evict capacity window l e <:+ l ++ [e] :=
  (keepRecent_suffix _ _ _).trans (keepLatest_suffix _ _)

theorem length_evict_le (capacity : Nat) (window : α) (l : List (Waypoint α)) (e : Waypoint α) :
    (evict capacity window l e).length ≤ capacity :=
  (keepRecent_suffix _ _ _).length_le.trans (length_keepLatest_le _ _)

variable [RealScalar α] {capacity : Nat} {window : α}

/-- The newest waypoint is within any bounds by itself. -/
theorem fits_singleton (hcapacity : 1 ≤ capacity) (hwindow : 0 ≤ window) {e : Waypoint α}
    (he : isFinite e.time = true) : Fits capacity window [e] := by
  refine ⟨hcapacity, ?_⟩
  rintro first newest hfirst hnewest
  cases hfirst
  cases hnewest
  exact sub_self_le hwindow he

theorem suffix_evict (hwindow : isNaN window = false) {l s : List (Waypoint α)} {e : Waypoint α}
    (hs : s ++ [e] <:+ l ++ [e]) (hfits : Fits capacity window (s ++ [e])) :
    s ++ [e] <:+ evict capacity window l e := by
  apply suffix_keepRecent (suffix_keepLatest hs hfits.few)
  intro first hfirst
  have hle := hfits.recent first e hfirst (by simp)
  rw [RealScalar.not_lt hwindow ((le_iff _ _).mp hle).1]
  exact hle

/-- Nothing falls out of a list that is within the bounds. -/
theorem evict_of_fits (hwindow : isNaN window = false) {l : List (Waypoint α)} {e : Waypoint α}
    (hfits : Fits capacity window (l ++ [e])) : evict capacity window l e = l ++ [e] := by
  have hkept := suffix_evict hwindow (List.suffix_refl _) hfits
  exact (evict_suffix _ _ _ _).eq_of_length_le hkept.length_le

theorem push?_of_fits {h : Trajectory α} {e : Waypoint α} (hadmits : h.admits e.time = true)
    (hwindow : isNaN h.window = false) (hfits : Fits h.capacity h.window (h.entries ++ [e])) :
    h.push? e = some { h with entries := h.entries ++ [e] } := by
  unfold push?
  rw [if_pos hadmits]
  exact congrArg (fun l => some { h with entries := l }) (evict_of_fits hwindow hfits)

theorem getLast?_evict (hcapacity : 1 ≤ capacity) (hwindow : 0 ≤ window) (l : List (Waypoint α))
    {e : Waypoint α} (he : isFinite e.time = true) :
    (evict capacity window l e).getLast? = some e := by
  have hsuffix : [] ++ [e] <:+ evict capacity window l e :=
    suffix_evict ((le_iff _ _).mp hwindow).2.1 (List.suffix_append l [e])
      (fits_singleton hcapacity hwindow he)
  obtain ⟨front, hfront⟩ := hsuffix
  rw [← hfront]
  simp

/-! ## The longest suffix -/

variable {log entries : List (Waypoint α)}

/-- The newest waypoint of a log is always retained. -/
theorem Retained.getLast?_eq (h : Retained capacity window log entries) (hcapacity : 1 ≤ capacity)
    (hwindow : 0 ≤ window) (hfinite : ∀ e ∈ log, isFinite e.time = true) :
    entries.getLast? = log.getLast? := by
  obtain ⟨hsuffix, -, hlongest⟩ := h
  rcases List.eq_nil_or_concat' log with rfl | ⟨front, last, rfl⟩
  · rw [List.suffix_nil.mp hsuffix]
  · have hlast : isFinite last.time = true := hfinite last (by simp)
    have hlength := hlongest [last] (List.suffix_append _ _)
      (fits_singleton hcapacity hwindow hlast)
    rcases List.suffix_concat_iff.mp hsuffix with rfl | ⟨kept, rfl, -⟩
    · simp at hlength
    · simp

theorem Retained.admits_iff (h : Retained capacity window log entries) (hcapacity : 1 ≤ capacity)
    (hwindow : 0 ≤ window) (hfinite : ∀ e ∈ log, isFinite e.time = true) {t : Trajectory α}
    (ht : t.entries = entries) {time : α} (htime : isFinite time = true) :
    t.admits time = true ↔ IsLater log time := by
  have hlast := h.getLast?_eq hcapacity hwindow hfinite
  unfold admits IsLater newest?
  rw [ht, hlast]
  cases hnewest : log.getLast? with
  | none => simp
  | some last =>
    have hfinite' := hfinite last (List.mem_of_getLast? hnewest)
    have hle := RealScalar.not_le (isNaN_of_isFinite hfinite') (isNaN_of_isFinite htime)
    simp [hle]

/-- A suffix that fits with a later waypoint behind it fits without. -/
theorem fits_of_fits_append {e : Waypoint α} {s : List (Waypoint α)}
    (hs : s <:+ log) (hlater : IsLater log e.time)
    (hfinite : ∀ x ∈ log ++ [e], isFinite x.time = true)
    (hfits : Fits capacity window (s ++ [e])) : Fits capacity window s := by
  have hlength := hfits.few
  rw [List.length_append, List.length_singleton] at hlength
  refine ⟨by omega, ?_⟩
  intro first newest hfirst hnewest
  have hmem : ∀ x ∈ s, isFinite x.time = true :=
    fun x hx => hfinite x (List.mem_append_left _ (hs.subset hx))
  have hlast : log.getLast? = some newest := by
    obtain ⟨front, rfl⟩ := hs
    rw [List.getLast?_append, hnewest]
    rfl
  have hspan' : e.time - first.time ≤ window := by
    apply hfits.recent first e _ (by simp)
    rw [List.head?_append, hfirst]
    rfl
  have hfirst' := hmem first (List.mem_of_head? hfirst)
  have hnewest' := hmem newest (List.mem_of_getLast? hnewest)
  exact RealScalar.le_trans (RealScalar.sub_le_sub hnewest' (hfinite e (by simp)) hfirst' hfirst'
    (RealScalar.le_of_lt (hlater newest hlast)) (RealScalar.le_refl hfirst')) hspan'

/-- What was forgotten earlier would be forgotten now, so taking in a waypoint
retains as much of the whole log as the bounds allow. -/
theorem Retained.push (h : Retained capacity window log entries) (hcapacity : 1 ≤ capacity)
    (hwindow : 0 ≤ window) {e : Waypoint α} (hlater : IsLater log e.time)
    (hfinite : ∀ x ∈ log ++ [e], isFinite x.time = true) :
    Retained capacity window (log ++ [e]) (evict capacity window entries e) := by
  obtain ⟨hsuffix, -, hlongest⟩ := h
  have hgrown : ∀ {s t : List (Waypoint α)}, s <:+ t → s ++ [e] <:+ t ++ [e] :=
    fun hst => List.suffix_concat_iff.mpr (.inr ⟨_, rfl, hst⟩)
  have he : isFinite e.time = true := hfinite e (by simp)
  have hkept := (evict_suffix capacity window entries e).trans (hgrown hsuffix)
  refine ⟨hkept, ⟨length_evict_le _ _ _ _, ?_⟩, ?_⟩
  · intro first newest hfirst hnewest
    rw [getLast?_evict hcapacity hwindow entries he] at hnewest
    cases hnewest
    have hfirst' := hfinite first (hkept.subset (List.mem_of_head? hfirst))
    have hnan := (RealScalar.not_lt ((le_iff _ _).mp hwindow).2.1 (isNaN_sub he hfirst')).mp
    exact hnan (head?_keepRecent hfirst)
  · -- a longer suffix would have fitted without the new waypoint, too
    intro s hs hsfits
    rcases List.suffix_concat_iff.mp hs with rfl | ⟨t, rfl, ht⟩
    · exact Nat.zero_le _
    · have htfits := fits_of_fits_append ht hlater hfinite hsfits
      have htkept : t <:+ entries :=
        List.suffix_of_suffix_length_le ht hsuffix (hlongest t ht htfits)
      exact (suffix_evict ((le_iff _ _).mp hwindow).2.1 (hgrown htkept) hsfits).length_le

end SwerveLocalization.Trajectory
