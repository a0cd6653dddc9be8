import Why3.Mlw.Typeinv

/-!
The meet of commitment maps: its classes are the intersections of those of the two maps.
-/
namespace Why3
namespace Typeinv

variable {uf1 uf2 : Uf}

theorem getIndex_ufInter (uf1 uf2 : Uf) (n k : Nat) :
    getIndex (ufInter uf1 uf2) n = getIndex (ufInter uf1 uf2) k ↔
      getIndex uf1 n = getIndex uf1 k ∧ getIndex uf2 n = getIndex uf2 k := by
  -- the representative is the least pin of the class
  have hrep : ∀ n, classOf uf1 uf2 (getIndex (ufInter uf1 uf2) n) = classOf uf1 uf2 n ∧
      ∀ k, classOf uf1 uf2 k = classOf uf1 uf2 n → getIndex (ufInter uf1 uf2) n ≤ k := by
    intro n
    induction n using (ufInter uf1 uf2).induct with
    | root n h =>
      rw [getIndex_of_none _ h]
      obtain ⟨m, -, hm, -⟩ | ⟨-, hle⟩ := interFind_cases uf1 uf2 n
      · cases h.symm.trans hm
      · exact ⟨rfl, hle⟩
    | step n m h ih =>
      rw [getIndex_of_find _ h]
      obtain ⟨k, -, hk, -, hclass⟩ | ⟨hnone, -⟩ := interFind_cases uf1 uf2 n
      · cases h.symm.trans hk
        rwa [← hclass]
      · cases h.symm.trans hnone
  rw [← Prod.mk.injEq]
  change _ ↔ classOf uf1 uf2 n = classOf uf1 uf2 k
  constructor
  · intro h
    rw [← (hrep n).1, h, (hrep k).1]
  · intro h
    exact Nat.le_antisymm ((hrep n).2 _ ((hrep k).1.trans h.symm))
      ((hrep k).2 _ ((hrep n).1.trans h))

/-- Maps with the same classes have the same representatives. -/
theorem getIndex_eq_of_iff (h : ∀ n k, getIndex uf1 n = getIndex uf1 k ↔
    getIndex uf2 n = getIndex uf2 k) (n : Nat) : getIndex uf1 n = getIndex uf2 n := by
  have h1 := (h _ n).mp (getIndex_getIndex uf1 n)
  have h2 := (h _ n).mpr (getIndex_getIndex uf2 n)
  have hle1 := getIndex_le uf1 (getIndex uf2 n)
  have hle2 := getIndex_le uf2 (getIndex uf1 n)
  omega

theorem capValid_ufInter (uf1 uf2 : Uf) (c : Cap) :
    capValid (ufInter uf1 uf2) c = (capValid uf1 c && capValid uf2 c) := by
  have hzero : ∀ uf : Uf, getIndex uf 0 = 0 := fun uf => Nat.le_zero.mp (getIndex_le uf 0)
  have hpin : ∀ n, getIndex (ufInter uf1 uf2) n = 0 ↔ getIndex uf1 n = 0 ∧ getIndex uf2 n = 0 := by
    intro n
    have h := getIndex_ufInter uf1 uf2 n 0
    rwa [hzero, hzero, hzero] at h
  rw [Bool.eq_iff_iff]
  simp [capValid, hpin, forall_and]

/-- The join of commitment maps at a conditional, a disjunction or a match is their meet. -/
theorem ufInter_meet (uf1 uf2 uf3 : Uf) :
    (∀ n k, getIndex (ufInter uf1 uf2) n = getIndex (ufInter uf1 uf2) k ↔
      getIndex uf1 n = getIndex uf1 k ∧ getIndex uf2 n = getIndex uf2 k) ∧
    (∀ n, getIndex (ufInter uf1 uf2) n = getIndex (ufInter uf2 uf1) n) ∧
    (∀ n, getIndex (ufInter (ufInter uf1 uf2) uf3) n =
      getIndex (ufInter uf1 (ufInter uf2 uf3)) n) ∧
    (∀ n, getIndex (ufInter uf1 uf1) n = getIndex uf1 n) ∧
    (∀ c, capValid (ufInter uf1 uf2) c = (capValid uf1 c && capValid uf2 c)) ∧
    ∀ l, ∃ u, ufBranches (uf1 :: l) = some u ∧
      ∀ c, capValid u c = (uf1 :: l).all (capValid · c) := by
  refine ⟨getIndex_ufInter uf1 uf2, getIndex_eq_of_iff fun n k => ?_,
    getIndex_eq_of_iff fun n k => ?_, getIndex_eq_of_iff fun n k => ?_,
    capValid_ufInter uf1 uf2, fun l => ?_⟩
  · simp only [getIndex_ufInter, and_comm]
  · simp only [getIndex_ufInter, and_assoc]
  · simp only [getIndex_ufInter, and_self]
  · induction l generalizing uf1 with
    | nil => exact ⟨uf1, rfl, by simp⟩
    | cons uf l ih =>
      obtain ⟨u, hu, hc⟩ := ih uf
      refine ⟨ufInter uf1 u, by rw [ufBranches, hu], fun c => ?_⟩
      rw [capValid_ufInter, hc]
      rfl

end Typeinv
end Why3
