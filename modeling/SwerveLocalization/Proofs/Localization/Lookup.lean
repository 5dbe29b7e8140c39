import Mathlib
import SwerveLocalization.Proofs.BinarySearch
import SwerveLocalization.Proofs.Localization.Journal

/-!
# Looking up a record

A lookup walks along the record until it has passed the time it looks for. The
times of a record always increase, so it ends at the entry of this time, between its
neighbours, or behind the newest entry. Main statement: the place where it ends is
the one that a bisection of the times finds, where an entry stands on either side
and the time between them is not zero.
-/

namespace SwerveLocalization.Trajectory

open BinarySearch Scalar RealScalar

variable {α : Type} [Scalar α]

/-! ## The order of a record -/

/-- Entries at finite times, each later than the one before. -/
structure InOrder (entries : List (Waypoint α)) : Prop where
  finite : ∀ w ∈ entries, isFinite w.time = true
  ordered : entries.Pairwise fun a b => a.time < b.time

variable {entries front back : List (Waypoint α)} {p q : Waypoint α} {t : α}

theorem InOrder.suffix (h : InOrder entries) (hback : back <:+ entries) : InOrder back :=
  ⟨fun w hw => h.finite w (hback.subset hw), h.ordered.sublist hback.sublist⟩

theorem InOrder.map_shift (h : InOrder entries) (d : Shift α) :
    InOrder (entries.map fun w => ⟨w.time, w.pose.shift d⟩) := by
  refine ⟨?_, List.pairwise_map.mpr h.ordered⟩
  intro w hw
  obtain ⟨v, hv, rfl⟩ := List.mem_map.mp hw
  exact h.finite v hv

/-- The entries on either side of one of them. -/
theorem InOrder.around (h : InOrder (front ++ p :: back)) :
    (∀ w ∈ front, w.time < p.time) ∧ ∀ w ∈ back, p.time < w.time := by
  obtain ⟨-, htail, hfront⟩ := List.pairwise_append.mp h.ordered
  exact ⟨fun w hw => hfront w hw p List.mem_cons_self, (List.pairwise_cons.mp htail).1⟩

/-- What a record holds after an entry is added, it held before, or it is this entry. -/
theorem mem_push? {h after : Trajectory α} {e w : Waypoint α} (hpush : h.push? e = some after)
    (hw : w ∈ after.entries) : w ∈ h.entries ∨ w = e := by
  obtain ⟨-, rfl⟩ := push?_eq_some hpush
  have hmem := (evict_suffix _ _ _ _).subset hw
  simpa using hmem

/-- A walk passes the entries before the time it looks for. -/
theorem walk_append {e : Waypoint α} (hfront : ∀ w ∈ front, w.time < t) (hp : p.time < t) :
    walk t e (front ++ p :: back) = walk t p back := by
  induction front generalizing e with
  | nil => exact if_pos hp
  | cons c front ih =>
    rw [List.cons_append, walk, if_pos (hfront c List.mem_cons_self)]
    exact ih fun w hw => hfront w (List.mem_cons_of_mem c hw)

/-- A lookup fails only in an empty record and before the oldest entry. -/
theorem poseAt?_eq_none_iff {h : Trajectory α} :
    h.poseAt? t = none ↔ h.entries = [] ∨ ∃ first, h.oldest? = some first ∧ t < first.time := by
  unfold poseAt? oldest?
  cases h.entries with
  | nil => simp
  | cons first rest =>
    simp only [reduceCtorEq, List.head?_cons, Option.some.injEq, exists_eq_left', false_or]
    split_ifs with hbefore hat
    · simp [hbefore]
    · simp [hbefore]
    · simp [hbefore]

variable [RealScalar α]

/-- An entry that is admitted is later than all others. -/
theorem InOrder.concat {h : Trajectory α} (horder : InOrder h.entries)
    (hp : isFinite p.time = true) (hadmits : h.admits p.time = true) :
    InOrder (h.entries ++ [p]) := by
  refine ⟨?_, List.pairwise_append.mpr ⟨horder.ordered, List.pairwise_singleton _ _, ?_⟩⟩
  · intro w hw
    rcases List.mem_append.mp hw with hw | hw
    · exact horder.finite w hw
    · rw [List.mem_singleton.mp hw]
      exact hp
  · intro w hw v hv
    rw [List.mem_singleton.mp hv]
    unfold admits newest? at hadmits
    rcases List.eq_nil_or_concat' h.entries with hnil | ⟨earlier, last, hlast⟩
    · rw [hnil] at hw
      cases hw
    · rw [hlast] at hadmits hw horder
      rw [List.getLast?_concat] at hadmits
      have hfinite : isFinite last.time = true := horder.finite last (by simp)
      have hlt : last.time < p.time :=
        (RealScalar.not_le (isNaN_of_isFinite hfinite) (isNaN_of_isFinite hp)).mp
          (by simpa using hadmits)
      rcases List.mem_append.mp hw with hw | hw
      · exact RealScalar.lt_trans (horder.around.1 w hw) hlt
      · rw [List.mem_singleton.mp hw]
        exact hlt

theorem InOrder.perform {j : Journal α} (h : InOrder j.trajectory.entries) {o : Operation α}
    (hfinite : ∀ e, o = .push e → isFinite e.time = true) :
    InOrder (j.perform o).trajectory.entries := by
  cases o with
  | push e =>
    cases hpush : j.trajectory.push? e with
    | none => simpa only [Journal.perform, hpush] using h
    | some after =>
      obtain ⟨hadmits, rfl⟩ := push?_eq_some hpush
      simp only [Journal.perform, hpush]
      exact (h.concat (hfinite e rfl) hadmits).suffix (evict_suffix _ _ _ _)
  | shift d => exact h.map_shift d
  | clear => exact ⟨fun _ hw => absurd hw List.not_mem_nil, List.Pairwise.nil⟩

/-- Whatever happens to a record, and whatever its bounds are, it is in order. -/
theorem inOrder_run (capacity : Nat) (window : α) {operations : List (Operation α)}
    (hfinite : ∀ e, .push e ∈ operations → isFinite e.time = true) :
    InOrder ((Journal.start capacity window).run operations).trajectory.entries := by
  refine Journal.run_preserves (P := fun j => InOrder j.trajectory.entries)
    ⟨fun _ hw => absurd hw List.not_mem_nil, List.Pairwise.nil⟩ fun j o ho hj => ?_
  apply hj.perform
  rintro e rfl
  exact hfinite e ho

/-! ## Where a lookup ends -/

variable [GradualScalar α] {h : Trajectory α} {first w : Waypoint α}

theorem poseAt?_cons (hentries : h.entries = p :: back) (hp : p.time < t) :
    h.poseAt? t = some (walk t p back) := by
  have hbefore : ¬ t < p.time := fun hlt => RealScalar.lt_irrefl _ (RealScalar.lt_trans hp hlt)
  have hat : ¬ (t == p.time) = true :=
    fun heq => RealScalar.not_le_of_lt hp ((GradualScalar.beq_iff _ _).mp heq).1
  unfold poseAt?
  rw [hentries]
  exact (if_neg hbefore).trans (if_neg hat)

/-- A lookup behind an entry starts from there. -/
theorem poseAt?_of_lt (horder : InOrder h.entries) (hentries : h.entries = front ++ p :: back)
    (hp : p.time < t) : h.poseAt? t = some (walk t p back) := by
  cases front with
  | nil => exact poseAt?_cons hentries hp
  | cons first front =>
    rw [hentries] at horder
    have hpassed : ∀ w ∈ first :: front, w.time < t :=
      fun w hw => RealScalar.lt_trans (horder.around.1 w hw) hp
    refine (poseAt?_cons hentries (hpassed first List.mem_cons_self)).trans (congrArg some ?_)
    exact walk_append (fun w hw => hpassed w (List.mem_cons_of_mem _ hw)) hp

/-- At the time of an entry, the lookup gives its pose. -/
theorem poseAt?_stored (horder : InOrder h.entries) (hw : w ∈ h.entries)
    (ht : (t == w.time) = true) : h.poseAt? t = some w.pose := by
  obtain ⟨hle, hge⟩ := (GradualScalar.beq_iff _ _).mp ht
  obtain ⟨front, back, hentries⟩ := List.append_of_mem hw
  rcases List.eq_nil_or_concat' front with rfl | ⟨earlier, p, rfl⟩
  · have hbefore : ¬ t < w.time := fun hlt => RealScalar.not_le_of_lt hlt hge
    unfold poseAt?
    rw [hentries]
    exact (if_neg hbefore).trans (if_pos ht)
  · have hafter : ¬ w.time < t := fun hlt => RealScalar.not_le_of_lt hlt hle
    have hat : (w.time == t) = true := (GradualScalar.beq_iff _ _).mpr ⟨hge, hle⟩
    rw [hentries] at horder
    have hlt : p.time < t := RealScalar.lt_of_lt_of_le (horder.around.1 p (by simp)) hge
    rw [List.append_assoc, List.singleton_append] at hentries
    rw [poseAt?_of_lt (hentries ▸ by simpa using horder) hentries hlt, walk, if_neg hafter,
      if_pos hat]

/-- From the newest entry on, the lookup gives its pose. -/
theorem poseAt?_newest (horder : InOrder h.entries) (hw : h.newest? = some w)
    (ht : w.time ≤ t) : h.poseAt? t = some w.pose := by
  obtain ⟨front, hentries⟩ := List.getLast?_eq_some_iff.mp hw
  by_cases hle : t ≤ w.time
  · have hat : (t == w.time) = true := (GradualScalar.beq_iff _ _).mpr ⟨hle, ht⟩
    exact poseAt?_stored horder (List.mem_of_getLast? hw) hat
  · obtain ⟨hwnan, htnan, -⟩ := (RealScalar.le_iff _ _).mp ht
    have hlt : w.time < t := (RealScalar.not_le hwnan htnan).mp hle
    exact poseAt?_of_lt horder hentries hlt

/-! ## Bisection -/

/-- How many entries are before `t`, found by bisection. -/
def passedCount (entries : List (Waypoint α)) (t : α) : Nat :=
  partitionPoint (fun w => decide (w.time < t)) entries

omit [RealScalar α] [GradualScalar α] in
/-- Behind the last entry before a time there are only entries that are not before it. -/
theorem exists_split (hfirst : first.time < t) (rest : List (Waypoint α)) :
    ∃ front p back, first :: rest = front ++ p :: back ∧ p.time < t ∧
      ∀ q ∈ back.head?, ¬ q.time < t := by
  induction rest generalizing first with
  | nil => exact ⟨[], first, [], rfl, hfirst, fun _ hq => by contradiction⟩
  | cons q rest ih =>
    by_cases hq : q.time < t
    · obtain ⟨front, p, back, hsplit, hp, hback⟩ := ih hq
      exact ⟨first :: front, p, back, by rw [hsplit, List.cons_append], hp, hback⟩
    · refine ⟨[], first, q :: rest, rfl, hfirst, ?_⟩
      rintro _ ⟨⟩
      exact hq

omit [GradualScalar α] in
theorem passedCount_append (horder : InOrder (front ++ p :: back)) (hp : p.time < t)
    (hback : ∀ q ∈ back.head?, ¬ q.time < t) :
    passedCount (front ++ p :: back) t = front.length + 1 := by
  have hsplit : front ++ p :: back = (front ++ [p]) ++ back := by simp
  unfold passedCount
  rw [hsplit, partitionPoint_append, List.length_append, List.length_singleton]
  · intro w hw
    apply decide_eq_true
    rcases List.mem_append.mp hw with hw | hw
    · exact RealScalar.lt_trans (horder.around.1 w hw) hp
    · rw [List.mem_singleton.mp hw]
      exact hp
  · intro w hw
    apply decide_eq_false
    cases back with
    | nil => cases hw
    | cons q back =>
      rw [hsplit] at horder
      rcases List.mem_cons.mp hw with rfl | hmem
      · exact hback w rfl
      · intro hlt
        exact hback q rfl (RealScalar.lt_trans (horder.around.2 w hmem) hlt)

/-- A bisection of the times finds where a lookup ends: behind the newest entry, or between two
entries that the record has and whose times are apart. -/
def Bisects (h : Trajectory α) (t : α) : Prop :=
  let upper := passedCount h.entries t
  (upper = h.length ∧ ∃ w, h.newest? = some w ∧ h.poseAt? t = some w.pose) ∨
    (1 ≤ upper ∧ upper < h.length ∧
      ∃ p q, h.entries[upper - 1]? = some p ∧ h.entries[upper]? = some q ∧
        0 < q.time - p.time ∧
        h.poseAt? t = some (if q.time == t then q.pose
          else p.pose.blend q.pose (inverseLerp p.time q.time t)))

/-- How a record answers: nothing before its oldest entry, an entry at its time and the
newest from there on. Behind its oldest entry it can be bisected. -/
structure LooksUp (h : Trajectory α) (t : α) : Prop where
  none_iff : h.poseAt? t = none ↔
    h.entries = [] ∨ ∃ first, h.oldest? = some first ∧ t < first.time
  stored : ∀ w ∈ h.entries, (t == w.time) = true → h.poseAt? t = some w.pose
  newest : ∀ w, h.newest? = some w → w.time ≤ t → h.poseAt? t = some w.pose
  bisected : isNaN t = false → ∀ first, h.oldest? = some first → ¬ t < first.time →
    (t == first.time) = false → h.Bisects t

theorem bisects_of_lt (horder : InOrder h.entries) (hfirst : h.oldest? = some first)
    (hlt : first.time < t) : h.Bisects t := by
  obtain ⟨rest, hentries⟩ := List.head?_eq_some_iff.mp hfirst
  obtain ⟨front, p, back, hsplit, hp, hback⟩ := exists_split hlt rest
  rw [hsplit] at hentries
  have hlookup := poseAt?_of_lt horder hentries hp
  rw [hentries] at horder
  have hupper : passedCount h.entries t = front.length + 1 := by
    rw [hentries]
    exact passedCount_append horder hp hback
  unfold Bisects
  rw [hupper]
  cases back with
  | nil =>
    refine .inl ⟨?_, p, ?_, hlookup⟩
    · simp [Trajectory.length, hentries]
    · simp [newest?, hentries]
  | cons q back =>
    have hpq : p.time < q.time := horder.around.2 q List.mem_cons_self
    have hfinite : isFinite q.time = true ∧ isFinite p.time = true :=
      ⟨horder.finite q (by simp), horder.finite p (by simp)⟩
    refine .inr ⟨by omega, ?_, p, q, ?_, ?_,
      GradualScalar.sub_pos hfinite.2 hfinite.1 hpq, ?_⟩
    · simp [Trajectory.length, hentries]
    · simp [hentries]
    · simp [hentries]
    · rw [hlookup, walk, if_neg (hback q rfl)]

theorem looksUp (horder : InOrder h.entries) (t : α) : LooksUp h t where
  none_iff := poseAt?_eq_none_iff
  stored _ hw ht := poseAt?_stored horder hw ht
  newest _ hw ht := poseAt?_newest horder hw ht
  bisected htnan first hfirst hbefore hat := by
    apply bisects_of_lt horder hfirst
    have hmem : first ∈ h.entries := List.mem_of_head? hfirst
    have hnan := isNaN_of_isFinite (horder.finite first hmem)
    have hle : first.time ≤ t := (RealScalar.not_lt htnan hnan).mp hbefore
    refine (RealScalar.not_le hnan htnan).mp fun hge => ?_
    rw [(GradualScalar.beq_iff _ _).mpr ⟨hge, hle⟩] at hat
    contradiction

end SwerveLocalization.Trajectory
