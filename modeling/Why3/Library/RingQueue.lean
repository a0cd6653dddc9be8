import Mathlib

/-!
A growing ring buffer. The elements are the cells that follow `pointer` around
the buffer; a full buffer is doubled, and the cells from `pointer` on are moved
to its new end. `toList` is the queue that the buffer stands for.
-/

structure RingQueue (α : Type) where
  data : Nat → Option α
  pointer : Nat
  len : Nat
  capacity : Nat
  pointer_lt : pointer < capacity
  len_le : len ≤ capacity
  filled : ∀ i < len, (data ((pointer + i) % capacity)).isSome

namespace RingQueue

open List

variable {α : Type}

def init (capacity : Nat) (h : 0 < capacity) : RingQueue α where
  data := fun _ => none
  pointer := 0
  len := 0
  capacity := capacity
  pointer_lt := h
  len_le := Nat.zero_le _
  filled := fun _ hi => absurd hi (Nat.not_lt_zero _)

variable (q : RingQueue α)

def isEmpty : Bool := q.len == 0

theorem first_isSome (h : 0 < q.len) : (q.data q.pointer).isSome := by
  have hfirst := q.filled 0 h
  rwa [Nat.add_zero, Nat.mod_eq_of_lt q.pointer_lt] at hfirst

theorem succ_mod (a i c : Nat) : ((a + 1) % c + i) % c = (a + (i + 1)) % c := by
  rw [Nat.add_mod, Nat.mod_mod, ← Nat.add_mod]
  congr 1
  omega

def rest (h : 0 < q.len) : RingQueue α where
  data := q.data
  pointer := (q.pointer + 1) % q.capacity
  len := q.len - 1
  capacity := q.capacity
  pointer_lt := Nat.mod_lt _ (Nat.lt_of_le_of_lt (Nat.zero_le _) q.pointer_lt)
  len_le := Nat.le_trans (Nat.sub_le _ _) q.len_le
  filled := by
    intro i hi
    rw [succ_mod]
    exact q.filled (i + 1) (by omega)

def pop : Option (α × RingQueue α) :=
  if h : 0 < q.len then some ((q.data q.pointer).get (q.first_isSome h), q.rest h) else none

def simplePush (elt : α) (h : q.len < q.capacity) : RingQueue α where
  data := fun i => if i = (q.pointer + q.len) % q.capacity then some elt else q.data i
  pointer := q.pointer
  len := q.len + 1
  capacity := q.capacity
  pointer_lt := q.pointer_lt
  len_le := h
  filled := by
    intro i hi
    by_cases heq : i = q.len
    · simp [heq]
    · split
      · rfl
      · exact q.filled i (by omega)

variable {i : Nat} {q : RingQueue α}

theorem mod_index {p c : Nat} (hp : p < c) (hi : i < c) :
    (p + i) % c = if p + i < c then p + i else p + i - c := by
  split
  · rw [Nat.mod_eq_of_lt (by omega)]
  · rw [Nat.mod_eq_sub_mod (by omega), Nat.mod_eq_of_lt (by omega)]

/-- The memory after the cells from `old` on are copied to `new`. -/
def copied (data : Nat → Option α) (new old size : Nat) : Nat → Option α := fun i =>
  if new ≤ i ∧ i < new + size then data (old + (i - new)) else data i

theorem copied_resize (q : RingQueue α) (hi : i < q.capacity) :
    copied q.data (2 * q.capacity - q.capacity + q.pointer) q.pointer (q.capacity - q.pointer)
        ((2 * q.capacity - q.capacity + q.pointer + i) % (2 * q.capacity)) =
      q.data ((q.pointer + i) % q.capacity) := by
  have hp := q.pointer_lt
  rw [mod_index (by omega) (by omega), mod_index hp hi]
  by_cases hlt : q.pointer + i < q.capacity
  · rw [if_pos (by omega), if_pos hlt, copied, if_pos (by omega)]
    congr 1
    omega
  · rw [if_neg (by omega), if_neg hlt, copied, if_neg (by omega)]
    congr 1
    omega

def resize (q : RingQueue α) : RingQueue α where
  data := copied q.data (2 * q.capacity - q.capacity + q.pointer) q.pointer
    (q.capacity - q.pointer)
  pointer := 2 * q.capacity - q.capacity + q.pointer
  len := q.len
  capacity := 2 * q.capacity
  pointer_lt := by
    have hp := q.pointer_lt
    omega
  len_le := by
    have hl := q.len_le
    omega
  filled := by
    intro i hi
    rw [q.copied_resize (Nat.lt_of_lt_of_le hi q.len_le)]
    exact q.filled i hi

def push (q : RingQueue α) (elt : α) : RingQueue α :=
  if h : q.len = q.capacity then
    q.resize.simplePush elt (by
      have hp := q.pointer_lt
      simp only [resize]
      omega)
  else q.simplePush elt (Nat.lt_of_le_of_ne q.len_le h)

/-! The queue that a buffer stands for. -/

def toList (q : RingQueue α) : List α :=
  (range q.len).filterMap fun i => q.data ((q.pointer + i) % q.capacity)

@[simp] theorem toList_init (capacity : Nat) (h : 0 < capacity) :
    (init capacity h : RingQueue α).toList = [] := rfl

theorem length_toList (q : RingQueue α) : q.toList.length = q.len := by
  unfold toList
  rw [length_filterMap_eq_countP, countP_eq_length.mpr, length_range]
  intro i hi
  exact q.filled i (mem_range.mp hi)

theorem toList_pos (q : RingQueue α) (h : 0 < q.len) :
    q.toList = (q.data q.pointer).get (q.first_isSome h) :: (q.rest h).toList := by
  have hrange : range q.len = 0 :: (range (q.len - 1)).map Nat.succ := by
    rw [← range_succ_eq_map]
    congr 1
    omega
  have hfirst : q.data ((q.pointer + 0) % q.capacity) =
      some ((q.data q.pointer).get (q.first_isSome h)) := by
    rw [Nat.add_zero, Nat.mod_eq_of_lt q.pointer_lt, Option.some_get]
  unfold toList
  simp only [hrange, filterMap_cons, hfirst, filterMap_map]
  congr 1
  apply filterMap_congr
  intro i _
  simp only [Function.comp, rest, succ_mod]

theorem pop_eq_none : q.pop = none ↔ q.toList = [] := by
  rw [← length_eq_zero_iff, length_toList]
  unfold pop
  split
  next h =>
    simp only [reduceCtorEq, false_iff]
    omega
  next h =>
    simp only [true_iff]
    omega

theorem toList_of_pop {q' : RingQueue α} {x : α} (h : q.pop = some (x, q')) :
    q.toList = x :: q'.toList := by
  unfold pop at h
  split at h
  next hlen =>
    cases h
    exact q.toList_pos hlen
  next => cases h

theorem toList_simplePush (q : RingQueue α) (elt : α) (h : q.len < q.capacity) :
    (q.simplePush elt h).toList = q.toList ++ [elt] := by
  have hp := q.pointer_lt
  unfold toList simplePush
  simp only
  rw [range_succ, filterMap_append]
  congr 1
  · apply filterMap_congr
    intro i hi
    have hi' := mem_range.mp hi
    rw [if_neg]
    rw [mod_index hp (by omega), mod_index hp h]
    split <;> split <;> omega
  · simp

theorem toList_resize (q : RingQueue α) : q.resize.toList = q.toList := by
  apply filterMap_congr
  intro i hi
  exact q.copied_resize (Nat.lt_of_lt_of_le (mem_range.mp hi) q.len_le)

@[simp] theorem toList_push (q : RingQueue α) (elt : α) :
    (q.push elt).toList = q.toList ++ [elt] := by
  unfold push
  split
  · rw [toList_simplePush, toList_resize]
  · rw [toList_simplePush]

end RingQueue
