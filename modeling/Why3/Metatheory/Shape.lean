import Why3.Metatheory.ProveClient
import Why3.Session.Shape

/-!
Parsing of shapes does not depend on the cache: what is shared with the last shape are the
integers that the end of the text has.
-/
namespace Why3
namespace Shape

open List
open ProveClient (intOfString revSplit revSplit_eq stringOfInt)
open Server (Text)

/-- The integers among the fields of a text. -/
def fieldInts (s : Text) : List Int := (s.splitOn 'H').filterMap (intOfString 63)

theorem chop_eq {n : Nat} {l : List Int} (h : n ≤ l.length) : chop n l = some (l.drop n) := by
  induction l generalizing n with
  | nil => simp [chop, Nat.le_zero.mp h]
  | cons x l ih =>
    cases n with
    | zero => simp [chop]
    | succ n =>
      have hpred : ((n + 1 : Nat) : Int) - 1 = n := by omega
      rw [chop, if_neg (by omega), if_neg (by omega), hpred, ih (Nat.le_of_succ_le_succ h),
        drop_succ_cons]

/-- The integers of the fields that were passed are the first ones of `c`. -/
theorem aux_spec (c : List Int) (s : List Text) (n : Int) :
    ∃ k ≤ c.length, ∃ rest, aux c s n = (n + k, rest) ∧
      s.filterMap (intOfString 63) = c.take k ++ rest.filterMap (intOfString 63) := by
  induction s generalizing c n with
  | nil => exact ⟨0, Nat.zero_le _, [], by cases c <;> simp [aux], by simp⟩
  | cons hs ts ih =>
    cases c with
    | nil => exact ⟨0, Nat.zero_le _, hs :: ts, by simp [aux], by simp⟩
    | cons hc tc =>
      rw [aux]
      cases hx : intOfString 63 hs with
      | none =>
        obtain ⟨k, hk, rest, haux, hints⟩ := ih (hc :: tc) n
        exact ⟨k, hk, rest, haux, by rw [filterMap_cons_none hx, hints]⟩
      | some x =>
        by_cases he : x = hc
        · obtain ⟨k, hk, rest, haux, hints⟩ := ih tc (n + 1)
          refine ⟨k + 1, Nat.succ_le_succ hk, rest, ?_, ?_⟩
          · simp only [if_pos he, haux]
            congr 1
            omega
          · rw [filterMap_cons_some hx, hints, he, take_succ_cons, cons_append]
        · exact ⟨0, Nat.zero_le _, hs :: ts, by simp [he], by simp⟩

theorem foldl_addInt (s : List Text) (acc : List Int) :
    s.foldl addInt acc = (s.filterMap (intOfString 63)).reverse ++ acc := by
  induction s generalizing acc with
  | nil => rfl
  | cons x s ih =>
    rw [foldl_cons, ih, addInt]
    cases hx : intOfString 63 x with
    | none => rw [filterMap_cons_none hx]
    | some i => rw [filterMap_cons_some hx, reverse_cons, append_assoc, singleton_append]

theorem cacheFor_eq (cache : List Int) (ls : Nat) :
    ∃ c : List Int, cacheFor cache ls = some (c, (c.length : Int)) := by
  rw [cacheFor]
  by_cases hlt : (ls : Int) < cache.length
  · have hsub : (cache.length : Int) - ls = (cache.length - ls : Nat) := by omega
    refine ⟨cache.drop (cache.length - ls), ?_⟩
    rw [if_pos hlt, hsub, chop_eq (Nat.sub_le _ _), Option.map_some, length_drop]
    congr 2
    omega
  · exact ⟨cache, if_neg hlt⟩

theorem shapeOfString_eq (cache : List Int) (s : Text) :
    shapeOfString cache .sv6 s = some (.boundShape (fieldInts s), fieldInts s) := by
  obtain ⟨c, hc⟩ := cacheFor_eq cache (revSplit 'H' s).length
  obtain ⟨k, hk, rest, haux, hints⟩ := aux_spec c.reverse (revSplit 'H' s) 0
  have hsub : (c.length : Int) - (0 + k) = (c.length - k : Nat) := by
    rw [length_reverse] at hk
    omega
  have hresult : (rest.filterMap (intOfString 63)).reverse ++ c.drop (c.length - k) =
      fieldInts s := by
    rw [revSplit_eq, filterMap_reverse, reverse_eq_iff] at hints
    rw [fieldInts, hints, reverse_append, take_reverse, reverse_reverse]
  simp only [shapeOfString, isBoundSumShapeVersion, decide_true, if_true, hc, Option.bind_eq_bind,
    Option.bind_some, haux, hsub, chop_eq (Nat.sub_le _ _), foldl_addInt, hresult]

/-- The fields of a shape that was written. -/
theorem fieldInts_stringOfShape {l : List Int} (h : ∀ x ∈ l, -2 ^ 62 ≤ x ∧ x < 2 ^ 62) :
    fieldInts (stringOfShape (.boundShape l)) = l := by
  cases l with
  | nil => rfl
  | cons x l =>
    have hH : ∀ y ∈ (x :: l).map stringOfInt, 'H' ∉ y := forall_mem_map.mpr fun _ _ =>
      ProveClient.not_mem_stringOfInt (by decide) (by decide)
    rw [fieldInts, stringOfShape, splitOn_intercalate 'H' hH (cons_ne_nil _ _), filterMap_map]
    refine (filterMap_congr fun y hy => ?_).trans filterMap_some
    exact ProveClient.intOfString_stringOfInt (h y hy).1 (h y hy).2

theorem shapesOfStrings_eq (cache : List Int) (ss : List Text) :
    shapesOfStrings .sv6 cache ss = some (ss.map fun s => .boundShape (fieldInts s)) := by
  induction ss generalizing cache with
  | nil => rfl
  | cons s ss ih => simp [shapesOfStrings, shapeOfString_eq, ih]

/-- Each shape is that of its own text, and a shape that was written is read back. -/
theorem shapesOfStrings_independent (ss : List Text) :
    shapesOfStrings .sv6 [] ss = some (ss.map fun s => .boundShape (fieldInts s)) ∧
      ∀ cache l, (∀ x ∈ l, -2 ^ 62 ≤ x ∧ x < 2 ^ 62) →
        shapeOfString cache .sv6 (stringOfShape (.boundShape l)) = some (.boundShape l, l) := by
  refine ⟨shapesOfStrings_eq [] ss, fun cache l hl => ?_⟩
  rw [shapeOfString_eq, fieldInts_stringOfShape hl]

theorem shapesOfStrings_independent_two :
    shapeOfString [7, 2] .sv6 (stringOfShape (.boundShape [1, 2])) =
      some (.boundShape [1, 2], [1, 2]) :=
  (shapesOfStrings_independent []).2 [7, 2] [1, 2] (by decide)

end Shape
end Why3
