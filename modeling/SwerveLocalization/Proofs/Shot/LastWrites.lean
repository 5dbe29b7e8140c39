import Mathlib
import SwerveLocalization.Proofs.BinarySearch
import SwerveLocalization.Proofs.Shot.Replacement

/-!
# A calibration curve is a map

Points are written to a curve one after the other, in any order, and some of them
are refused. Beside the curve stands the plain map of keys to the values that
were written to them last. Main statement: at any moment the curve lists this map
in the strict order of the keys. So it does not show in which order points of
different keys were written, and a point that is refused leaves no trace. The
place of a point is found by bisection, which needs just this order.
-/

namespace SwerveLocalization

/-- Whether key and value of a point are finite. -/
def CalibrationPoint.isFinite {α : Type} [Scalar α] (p : CalibrationPoint α) : Bool :=
  Scalar.isFinite p.key && Scalar.isFinite p.value

namespace CalibrationCurve

open Binary64 BinarySearch

/-! ## Writing -/

section Writing

variable {α : Type} [Scalar α]

/-- Writes a point to a curve. The answer is an error if the point is refused, and
then the curve stays. -/
def write (c : CalibrationCurve α) (p : CalibrationPoint α) :
    Except (ConfigurationFault α) Unit × CalibrationCurve α :=
  match c.insert p with
  | .ok after => (.ok (), after)
  | .error fault => (.error fault, c)

/-- Writes points one after the other. -/
def writeAll (c : CalibrationCurve α) (ps : List (CalibrationPoint α)) : CalibrationCurve α :=
  ps.foldl (fun c p => (c.write p).2) c

variable {c : CalibrationCurve α} {p : CalibrationPoint α} {ps : List (CalibrationPoint α)}

theorem insert_of_isFinite (h : p.isFinite = true) : c.insert p = .ok ⟨place p c.points⟩ := if_pos h

theorem insert_of_not_isFinite (h : p.isFinite = false) :
    c.insert p = .error (.nonFinitePoint p.key p.value) := by
  rw [CalibrationPoint.isFinite] at h
  rw [CalibrationCurve.insert, h]
  rfl

theorem write_of_isFinite (h : p.isFinite = true) : c.write p = (.ok (), ⟨place p c.points⟩) := by
  rw [write, insert_of_isFinite h]

theorem write_of_not_isFinite (h : p.isFinite = false) :
    c.write p = (.error (.nonFinitePoint p.key p.value), c) := by
  rw [write, insert_of_not_isFinite h]

/-- Insertions stop at the first point that is not finite. -/
theorem foldlM_insert (c : CalibrationCurve α) (ps : List (CalibrationPoint α)) :
    ps.foldlM insert c = match ps.find? fun p => !p.isFinite with
      | none => .ok (c.writeAll ps)
      | some p => .error (.nonFinitePoint p.key p.value) := by
  induction ps generalizing c with
  | nil => rfl
  | cons p rest ih =>
    rw [List.foldlM_cons]
    cases hp : p.isFinite with
    | true =>
      rw [insert_of_isFinite hp, List.find?_cons_of_neg (by simp [hp]), writeAll, List.foldl_cons,
        write_of_isFinite hp]
      exact ih _
    | false =>
      rw [insert_of_not_isFinite hp, List.find?_cons_of_pos (by simp [hp])]
      rfl

theorem ofPoints_eq_ok_iff {start : CalibrationCurve α} :
    ofPoints ps = .ok start ↔ (∀ p ∈ ps, p.isFinite = true) ∧ start = empty.writeAll ps := by
  rw [ofPoints, foldlM_insert]
  cases hfirst : ps.find? fun p => !p.isFinite with
  | none =>
    have hall : ∀ p ∈ ps, p.isFinite = true := by simpa using hfirst
    rw [Except.ok.injEq, eq_comm, and_iff_right hall]
  | some p =>
    have hp : p.isFinite = false := by simpa using List.find?_some hfirst
    refine iff_of_false (by simp) ?_
    rintro ⟨hall, -⟩
    rw [hall p (List.mem_of_find?_eq_some hfirst)] at hp
    contradiction

end Writing

/-! ## The map -/

/-- What is written last stands: the map of keys to values after a point has been
written. -/
def record (m : Float → Option Float) (p : CalibrationPoint Float) : Float → Option Float :=
  if p.isFinite then Function.update m p.key (some p.value) else m

/-- The value that was written last to each key. -/
def lastWrites (ps : List (CalibrationPoint Float)) : Float → Option Float :=
  ps.foldl record fun _ => none

/-- A curve that lists a map in the order of the keys. -/
structure Lists (c : CalibrationCurve Float) (m : Float → Option Float) : Prop where
  strict : Strict c.points
  mem_iff : ∀ k v, ⟨k, v⟩ ∈ c.points ↔ m k = some v

variable {c c' : CalibrationCurve Float} {m : Float → Option Float} {p : CalibrationPoint Float}
  {points ps ps' : List (CalibrationPoint Float)}

theorem lists_empty : Lists empty fun _ => none := by
  refine ⟨strict_empty, ?_⟩
  intro k v
  simp [empty]

theorem Lists.write (h : Lists c m) (p : CalibrationPoint Float) :
    Lists (c.write p).2 (record m p) := by
  cases hp : p.isFinite with
  | false =>
    rw [write_of_not_isFinite hp, record, hp]
    exact h
  | true =>
    rw [write_of_isFinite hp, record, hp]
    refine ⟨h.strict.place p, ?_⟩
    intro k v
    obtain ⟨key, value⟩ := p
    rw [h.strict.mem_place_iff, h.mem_iff, if_pos rfl, Function.update_apply,
      CalibrationPoint.mk.injEq]
    by_cases hk : k = key
    · simp [hk, eq_comm]
    · simp [hk]

theorem Lists.writeAll (h : Lists c m) (ps : List (CalibrationPoint Float)) :
    Lists (c.writeAll ps) (ps.foldl record m) := by
  induction ps generalizing c m with
  | nil => exact h
  | cons p rest ih => exact ih (h.write p)

/-- A map is listed in one way only. -/
theorem Lists.unique (h : Lists c m) (h' : Lists c' m) : c = c' := by
  obtain ⟨points⟩ := c
  obtain ⟨points'⟩ := c'
  have hmem : ∀ p, p ∈ points ↔ p ∈ points' := fun p =>
    (h.mem_iff p.key p.value).trans (h'.mem_iff p.key p.value).symm
  have hirrefl : Std.Irrefl fun p q : CalibrationPoint Float => rank p.key < rank q.key :=
    ⟨fun _ => lt_irrefl _⟩
  have hantisymm : Std.Antisymm fun p q : CalibrationPoint Float => rank p.key < rank q.key :=
    ⟨fun _ _ hpq hqp => absurd hqp hpq.not_gt⟩
  exact congrArg CalibrationCurve.mk (List.Pairwise.eq_of_mem_iff h.strict h'.strict hmem)

/-- Points of different keys are written in any order. -/
theorem record_comm (m : Float → Option Float) {p q : CalibrationPoint Float} (h : p.key ≠ q.key) :
    record (record m p) q = record (record m q) p := by
  unfold record
  split_ifs
  · exact Function.update_comm h ..
  · rfl
  · rfl
  · rfl

/-- Points of which no two have one key. -/
def DistinctKeys (ps : List (CalibrationPoint Float)) : Prop := ps.Pairwise fun p q => p.key ≠ q.key

theorem record_perm (hperm : ps.Perm ps') (h : DistinctKeys ps) (m : Float → Option Float) :
    ps.foldl record m = ps'.foldl record m := by
  refine hperm.foldl_eq' (fun p hp q hq m => ?_) m
  by_cases hpq : p = q
  · rw [hpq]
  · have hne : Std.Symm fun p q : CalibrationPoint Float => p.key ≠ q.key := ⟨fun _ _ => Ne.symm⟩
    exact record_comm m (List.Pairwise.forall h hp hq hpq)

/-! ## Finding the place of a point -/

/-- How the key of a point stands to another key. -/
def keyOrder (key : Float) (q : CalibrationPoint Float) : Ordering :=
  compare (rank q.key) (rank key)

/-- Puts a point where a search for its key has ended. -/
def putAt (p : CalibrationPoint Float) (points : List (CalibrationPoint Float)) :
    Outcome → List (CalibrationPoint Float)
  | .found i => points.modify i fun q => ⟨q.key, p.value⟩
  | .absent i => points.insertIdx i p

theorem keyOrder_eq_lt {key : Float} {q : CalibrationPoint Float} (h : rank q.key < rank key) :
    keyOrder key q = .lt := compare_lt_iff_lt.mpr h

theorem keyOrder_eq_gt {key : Float} {q : CalibrationPoint Float} (h : rank key < rank q.key) :
    keyOrder key q = .gt := compare_gt_iff_gt.mpr h

theorem place_append {front : List (CalibrationPoint Float)}
    (h : ∀ q ∈ front, rank q.key < rank p.key) (rest : List (CalibrationPoint Float)) :
    place p (front ++ rest) = front ++ place p rest := by
  induction front with
  | nil => rfl
  | cons q front ih =>
    rw [List.forall_mem_cons] at h
    rw [List.cons_append, place_after h.1, ih h.2, List.cons_append]

/-- A point is put where a search for its key by bisection ends. -/
theorem Strict.place_eq_putAt (h : Strict points) (p : CalibrationPoint Float) :
    CalibrationCurve.place p points = putAt p points (search (keyOrder p.key) points) := by
  let before := fun q : CalibrationPoint Float => decide (rank q.key < rank p.key)
  have hsplit : points.takeWhile before ++ points.dropWhile before = points :=
    List.takeWhile_append_dropWhile
  have hfront : ∀ q ∈ points.takeWhile before, rank q.key < rank p.key := by
    intro q hq
    simpa [before] using List.mem_takeWhile_imp hq
  have hhead := List.head?_dropWhile_not before points
  generalize points.takeWhile before = front, points.dropWhile before = rest at hsplit hfront hhead
  subst hsplit
  have hbefore : ∀ q ∈ front, keyOrder p.key q = .lt := fun q hq => keyOrder_eq_lt (hfront q hq)
  have hrest := (List.pairwise_append.mp h).2.1
  rw [place_append hfront]
  cases rest with
  | nil =>
    rw [search_absent hbefore (by simp)]
    exact (List.modifyTailIdx_add _ 0 front []).symm
  | cons q back =>
    have hback := (List.pairwise_cons.mp hrest).1
    have hq : ¬ rank q.key < rank p.key := by simpa [before] using hhead
    rcases (not_lt.mp hq).lt_or_eq with hlt | heq
    · have hbehind : ∀ r ∈ q :: back, keyOrder p.key r = .gt := by
        refine List.forall_mem_cons.mpr ⟨keyOrder_eq_gt hlt, fun r hr => ?_⟩
        exact keyOrder_eq_gt (hlt.trans (hback r hr))
      rw [place_before hlt, search_absent hbefore hbehind]
      exact (List.modifyTailIdx_add _ 0 front (q :: back)).symm
    · have hbehind : ∀ r ∈ back, keyOrder p.key r = .gt := fun r hr =>
        keyOrder_eq_gt (heq ▸ hback r hr)
      have hmodify : putAt p (front ++ q :: back) (.found front.length)
          = front ++ ⟨q.key, p.value⟩ :: back := List.modifyTailIdx_add _ 0 front (q :: back)
      rw [place_same heq, search_found hbefore (compare_eq_iff_eq.mpr heq.symm) hbehind, hmodify,
        ← eq_of_rank_eq heq]

/-! ## Curves of binary64 numbers -/

/-- A curve can be made of points exactly if all of them are finite; otherwise the
first one that is not is named. From then on the curve lists the values that
were written last, whatever is written. Points of different keys may be written
in any order. A point that is not finite is refused and changes nothing; any
other is put where a bisection finds its key or the gap for it. -/
theorem ofPoints_lastWrites (ps : List (CalibrationPoint Float)) :
    ((∃ start, ofPoints ps = .ok start) ↔ ∀ p ∈ ps, p.isFinite = true) ∧
      (∀ p, (ps.find? fun p => !p.isFinite) = some p →
        ofPoints ps = .error (.nonFinitePoint p.key p.value)) ∧
      ∀ start, ofPoints ps = .ok start →
        (∀ ps', ps.Perm ps' → DistinctKeys ps → ofPoints ps' = .ok start) ∧
        ∀ qs, let c := start.writeAll qs
          Strict c.points ∧
          (∀ k v, ⟨k, v⟩ ∈ c.points ↔ lastWrites (ps ++ qs) k = some v) ∧
          (∀ qs', qs.Perm qs' → DistinctKeys qs → start.writeAll qs' = c) ∧
          ∀ p, c.write p =
            if p.isFinite then
              (.ok (), ⟨putAt p c.points (search (keyOrder p.key) c.points)⟩)
            else (.error (.nonFinitePoint p.key p.value), c) := by
  refine ⟨?_, ?_, ?_⟩
  · simp only [ofPoints_eq_ok_iff, exists_and_left, exists_eq, and_true]
  · intro p hp
    rw [ofPoints, foldlM_insert, hp]
  · intro start hstart
    obtain ⟨hfinite, rfl⟩ := ofPoints_eq_ok_iff.mp hstart
    have hlists : ∀ ps, Lists (empty.writeAll ps) (lastWrites ps) := lists_empty.writeAll
    refine ⟨?_, ?_⟩
    · intro ps' hperm hkeys
      have hsame : empty.writeAll ps = empty.writeAll ps' := by
        apply (hlists ps).unique
        rw [lastWrites, record_perm hperm hkeys]
        exact hlists ps'
      exact ofPoints_eq_ok_iff.mpr ⟨fun p hp => hfinite p (hperm.mem_iff.mpr hp), hsame⟩
    · intro qs c
      have hc : Lists c (lastWrites (ps ++ qs)) := by
        rw [lastWrites, List.foldl_append]
        exact (hlists ps).writeAll qs
      refine ⟨hc.strict, hc.mem_iff, ?_, ?_⟩
      · intro qs' hperm hkeys
        have hc' := (hlists ps).writeAll qs'
        rw [← record_perm hperm hkeys] at hc'
        exact hc'.unique ((hlists ps).writeAll qs)
      · intro p
        split_ifs with hp
        · rw [write_of_isFinite hp, hc.strict.place_eq_putAt]
        · exact write_of_not_isFinite (by simpa using hp)

/-- One point is written anew, one is refused, and one is new. -/
theorem ofPoints_lastWrites_rewritten :
    let ps : List (CalibrationPoint Float) := [⟨3.0, 1500.0⟩, ⟨1.0, 1000.0⟩]
    let qs : List (CalibrationPoint Float) := [⟨1.0, 900.0⟩, ⟨0.0 / 0.0, 1.0⟩, ⟨2.0, 1100.0⟩]
    ∃ start, ofPoints ps = .ok start ∧ ofPoints ps.reverse = .ok start ∧
      (∀ v, ⟨1.0, v⟩ ∈ (start.writeAll qs).points ↔ v = 900.0) ∧
      start.writeAll qs.reverse = start.writeAll qs := by
  intro ps qs
  obtain ⟨hok, -, hcurve⟩ := ofPoints_lastWrites ps
  obtain ⟨start, hstart⟩ := hok.mpr (by decide +kernel)
  obtain ⟨hperm, hwrites⟩ := hcurve start hstart
  obtain ⟨-, hlast, hperm', -⟩ := hwrites qs
  have hkeys : DistinctKeys ps := by
    unfold DistinctKeys
    decide +kernel
  have hkeys' : DistinctKeys qs := by
    unfold DistinctKeys
    decide +kernel
  have hvalue : lastWrites (ps ++ qs) 1.0 = some 900.0 := by decide +kernel
  refine ⟨start, hstart, hperm _ (List.reverse_perm ps).symm hkeys, ?_, ?_⟩
  · intro v
    rw [hlast, hvalue, Option.some.injEq, eq_comm]
  · exact hperm' _ (List.reverse_perm qs).symm hkeys'

end CalibrationCurve

end SwerveLocalization
