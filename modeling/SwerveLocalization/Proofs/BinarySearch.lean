import Mathlib

/-!
# Binary search

A search that halves a list at every step. Each element tells whether it stands
before the place that is looked for, at it or behind it. On a list whose elements
give these answers in order, the search ends where a walk from the front would
end, so what is defined by a walk along the list can be computed by bisection.
-/

namespace SwerveLocalization.BinarySearch

variable {β : Type}

/-- How a search ends: at an element, or at the place where it would have to be. -/
inductive Outcome
  | found (place : Nat)
  | absent (place : Nat)
deriving DecidableEq

/-- The place at which a search ends. -/
def Outcome.place : Outcome → Nat
  | found i => i
  | absent i => i

/-- Searches the places from `low` on and before `high`. Every element that is
asked is one of the list. -/
def searchIn (order : β → Ordering) (l : List β) (low high : Nat) (hhigh : high ≤ l.length) :
    Outcome :=
  if hlow : low < high then
    let middle := (low + high) / 2
    have hmiddle : middle < l.length := by omega
    match order l[middle] with
    | .lt => searchIn order l (middle + 1) high hhigh
    | .eq => .found middle
    | .gt => searchIn order l low middle (by omega)
  else .absent low
termination_by high - low

/-- Searches a list by what its elements are, relative to what is looked for. -/
def search (order : β → Ordering) (l : List β) : Outcome :=
  searchIn order l 0 l.length (Nat.le_refl _)

/-- The first place of a list from which on a condition fails. -/
def partitionPoint (holds : β → Bool) (l : List β) : Nat :=
  (search (fun b => if holds b then .lt else .gt) l).place

variable {order : β → Ordering} {front here back : List β}

/-- The answers of a list that is in order for them. -/
theorem order_getElem (hfront : ∀ a ∈ front, order a = .lt) (hhere : ∀ a ∈ here, order a = .eq)
    (hback : ∀ a ∈ back, order a = .gt) {i : Nat} (hi : i < (front ++ (here ++ back)).length) :
    order (front ++ (here ++ back))[i]
      = if i < front.length then .lt else if i < front.length + here.length then .eq else .gt := by
  split_ifs with hlt heq
  · rw [List.getElem_append_left hlt]
    exact hfront _ (List.getElem_mem hlt)
  · rw [List.getElem_append_right (by omega), List.getElem_append_left (by omega)]
    exact hhere _ (List.getElem_mem _)
  · rw [List.getElem_append_right (by omega), List.getElem_append_right (by omega)]
    exact hback _ (List.getElem_mem _)

/-- A search keeps all that is looked for within its bounds, so it ends there, or
between the elements before it and those behind it if there is none. -/
theorem searchIn_cases (hfront : ∀ a ∈ front, order a = .lt) (hhere : ∀ a ∈ here, order a = .eq)
    (hback : ∀ a ∈ back, order a = .gt) {low high : Nat}
    (hhigh : high ≤ (front ++ (here ++ back)).length) (hlow : low ≤ front.length)
    (hborder : front.length + here.length ≤ high) :
    (∃ i, searchIn order (front ++ (here ++ back)) low high hhigh = .found i ∧
        front.length ≤ i ∧ i < front.length + here.length) ∨
      searchIn order (front ++ (here ++ back)) low high hhigh = .absent front.length ∧
        here = [] := by
  fun_induction searchIn order (front ++ (here ++ back)) low high hhigh with
  | case1 low high hhigh hlt middle hmiddle hanswer ih =>
    rw [order_getElem hfront hhere hback] at hanswer
    split_ifs at hanswer with hbefore
    exact ih (by omega) hborder
  | case2 low high hhigh hlt middle hmiddle hanswer =>
    rw [order_getElem hfront hhere hback] at hanswer
    split_ifs at hanswer with hbefore hat
    exact .inl ⟨middle, rfl, by omega, hat⟩
  | case3 low high hhigh hlt middle hmiddle hanswer ih =>
    rw [order_getElem hfront hhere hback] at hanswer
    split_ifs at hanswer with hbefore hat
    exact ih hlow (by omega)
  | case4 low high hhigh hge =>
    have hborders : low = front.length ∧ here.length = 0 := by omega
    exact .inr ⟨congrArg Outcome.absent hborders.1, List.length_eq_zero_iff.mp hborders.2⟩

theorem search_found {b : β} (hfront : ∀ a ∈ front, order a = .lt) (hb : order b = .eq)
    (hback : ∀ a ∈ back, order a = .gt) :
    search order (front ++ b :: back) = .found front.length := by
  have hhere : ∀ a ∈ [b], order a = .eq := by simpa using hb
  rcases searchIn_cases hfront hhere hback (Nat.le_refl _) (Nat.zero_le _) (by simp) with
    ⟨i, hfound, hlow, hhigh⟩ | ⟨-, hnone⟩
  · rw [List.length_singleton] at hhigh
    obtain rfl : i = front.length := by omega
    exact hfound
  · contradiction

theorem search_absent (hfront : ∀ a ∈ front, order a = .lt) (hback : ∀ a ∈ back, order a = .gt) :
    search order (front ++ back) = .absent front.length := by
  have hhere : ∀ a ∈ ([] : List β), order a = .eq := by simp
  rcases searchIn_cases hfront hhere hback (Nat.le_refl _) (Nat.zero_le _) (by simp) with
    ⟨i, -, hlow, hhigh⟩ | ⟨habsent, -⟩
  · rw [List.length_nil] at hhigh
    omega
  · exact habsent

/-- A list whose elements meet a condition first and then fail it changes at the
partition point. -/
theorem partitionPoint_append {holds : β → Bool} (hfront : ∀ a ∈ front, holds a = true)
    (hback : ∀ a ∈ back, holds a = false) :
    partitionPoint holds (front ++ back) = front.length := by
  unfold partitionPoint
  rw [search_absent]
  · rfl
  · intro a ha
    rw [hfront a ha]
    rfl
  · intro a ha
    rw [hback a ha]
    rfl

end SwerveLocalization.BinarySearch
