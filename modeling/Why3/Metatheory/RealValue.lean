import Why3.Util.Number

/-!
Values of real literals: `real_value` gives the one canonical form of a number, so that two
values are compared by their fields or as numbers with the same result.
-/
namespace Why3
namespace Number

/-! Removal of the powers of a number. -/

variable {p v : Int} {r : RealValue}

theorem computerDivMod_of_dvd (hp : 0 < p) (h : p ∣ v) : computerDivMod v p = (v / p, 0) := by
  have hmod : (euclideanDivMod v p).2 = 0 := by
    rw [euclideanDivMod, if_neg hp.ne']
    exact Int.emod_eq_zero_of_dvd h
  rw [computerDivMod, if_pos (.inr hmod), euclideanDivMod, if_neg hp.ne', Int.emod_eq_zero_of_dvd h]

theorem computerDivMod_snd_eq_zero (hp : 0 < p) : (computerDivMod v p).2 = 0 ↔ p ∣ v := by
  refine ⟨fun h => ?_, fun h => by rw [computerDivMod_of_dvd hp h]⟩
  apply Int.dvd_of_emod_eq_zero
  have hlt := Int.emod_lt_of_pos v hp
  simp only [computerDivMod, euclideanDivMod, if_neg hp.ne'] at h
  split at h
  · exact h
  · rw [if_neg hp.not_gt] at h
    omega

/-- What is removed at a depth: the power `p ^ 2` is removed below, and `p` once or twice. -/
theorem normalizeLoop_ok {b : Int} {n : Nat} : ∀ {v p : Int} {e : Nat}, v.natAbs < n → v ≠ 0 →
    2 ≤ p → p = b ^ e → ∃ (v' : Int) (f : Nat), normalizeLoop n v p e = .ok (v', (f : Int)) ∧
      v = v' * b ^ f ∧ ¬ p ∣ v' := by
  induction n with
  | zero => exact fun h => absurd h (Nat.not_lt_zero _)
  | succ n ih =>
    intro v p e hn hv hp hpe
    have hpos : 0 < p := by omega
    rw [normalizeLoop]
    by_cases hd : p ∣ v
    · obtain ⟨d, rfl⟩ := hd
      have hd : d ≠ 0 := right_ne_zero_of_mul hv
      have hlt : d.natAbs < n := by
        rw [Int.natAbs_mul] at hn
        have hle := Nat.mul_le_mul_right d.natAbs (show 2 ≤ p.natAbs by omega)
        omega
      obtain ⟨v', f, hrun, hval, hndvd⟩ := ih hlt hd (by nlinarith)
        (show p * p = b ^ (e + e) by rw [hpe, pow_add])
      simp only [computerDivMod_of_dvd hpos (Int.dvd_mul_right p d),
        Int.mul_ediv_cancel_left d hpos.ne', if_true, Except.bind_eq_ok]
      by_cases hd' : p ∣ v'
      · obtain ⟨w, rfl⟩ := hd'
        refine ⟨w, f + (e + e), ?_, ?_, fun h => hndvd (mul_dvd_mul_left p h)⟩
        · refine ⟨_, hrun, ?_⟩
          simp only [computerDivMod_of_dvd hpos (Int.dvd_mul_right p w),
            Int.mul_ediv_cancel_left w hpos.ne', if_true, Nat.cast_add]
        · rw [hval, pow_add, pow_add, ← hpe]
          ring
      · refine ⟨v', f + e, ?_, ?_, hd'⟩
        · refine ⟨_, hrun, ?_⟩
          simp only [mt (computerDivMod_snd_eq_zero hpos).mp hd', if_false, Nat.cast_add]
        · rw [hval, pow_add, ← hpe]
          ring
    · refine ⟨v, 0, ?_, by rw [pow_zero, mul_one], hd⟩
      simp only [mt (computerDivMod_snd_eq_zero hpos).mp hd, if_false, Nat.cast_zero]

theorem normalize_ok (hv : v ≠ 0) (hp : 2 ≤ p) :
    ∃ (v' : Int) (f : Nat), normalize v p = .ok (v', (f : Int)) ∧ v = v' * p ^ f ∧ ¬ p ∣ v' :=
  normalizeLoop_ok (Nat.lt_succ_self _) hv hp (pow_one p).symm

/-! Canonical values. -/

def RealValue.toRat (r : RealValue) : ℚ := r.rvSig * 2 ^ r.rvPow2 * 5 ^ r.rvPow5

def RealValue.Canonical (r : RealValue) : Prop :=
  r = ⟨0, 0, 0⟩ ∨ ¬ 2 ∣ r.rvSig ∧ ¬ 5 ∣ r.rvSig

theorem realValue_ok (pow2 pow5 i : Int) : ∃ r, realValue pow2 pow5 i = .ok r ∧ r.Canonical ∧
    r.toRat = i * 2 ^ pow2 * 5 ^ pow5 ∧ (i ≠ 0 → pow2 ≤ r.rvPow2 ∧ pow5 ≤ r.rvPow5) := by
  rw [realValue]
  by_cases hi : i = 0
  · refine ⟨⟨i, i, i⟩, if_pos hi, .inl (by rw [hi]), ?_, fun h => absurd hi h⟩
    rw [hi, RealValue.toRat]
    simp
  · obtain ⟨i2, p2, hrun2, hval2, hnd2⟩ := normalize_ok (p := 2) hi le_rfl
    have hi2 : i2 ≠ 0 := fun h => hnd2 (h ▸ dvd_zero 2)
    obtain ⟨i5, p5, hrun5, hval5, hnd5⟩ := normalize_ok (p := 5) hi2 (by decide)
    refine ⟨⟨i5, pow2 + p2, pow5 + p5⟩, ?_, .inr ⟨fun h => ?_, hnd5⟩, ?_, fun _ => ?_⟩
    · rw [if_neg hi]
      exact Except.bind_eq_ok.mpr ⟨_, hrun2, Except.bind_eq_ok.mpr ⟨_, hrun5, rfl⟩⟩
    · exact hnd2 (hval5 ▸ Dvd.dvd.mul_right h _)
    · rw [RealValue.toRat, hval2, hval5, zpow_add₀ two_ne_zero, zpow_add₀ (by norm_num)]
      push_cast
      rw [zpow_natCast, zpow_natCast]
      ring
    · exact ⟨Int.le_add_of_nonneg_right p2.cast_nonneg, Int.le_add_of_nonneg_right p5.cast_nonneg⟩

theorem RealValue.toRat_ne_zero (h : r.rvSig ≠ 0) : r.toRat ≠ 0 :=
  mul_ne_zero (mul_ne_zero (Int.cast_ne_zero.mpr h) (zpow_ne_zero _ two_ne_zero))
    (zpow_ne_zero _ (by norm_num))

theorem padicValRat_of_not_dvd {p : Nat} {i : Int} (h : ¬ (p : Int) ∣ i) :
    padicValRat p (i : ℚ) = 0 := by
  rw [padicValRat.of_int, padicValInt.eq_zero_of_not_dvd h, Nat.cast_zero]

/-- The powers are the valuations of the number. -/
theorem RealValue.padicValRat_toRat (h2 : ¬ 2 ∣ r.rvSig) (h5 : ¬ 5 ∣ r.rvSig) :
    padicValRat 2 r.toRat = r.rvPow2 ∧ padicValRat 5 r.toRat = r.rvPow5 := by
  have : Fact (Nat.Prime 5) := ⟨Nat.prime_five⟩
  have hs : (r.rvSig : ℚ) ≠ 0 := Int.cast_ne_zero.mpr fun h => h2 (h ▸ dvd_zero 2)
  have hn2 : ((2 : Int) : ℚ) ^ r.rvPow2 ≠ 0 := zpow_ne_zero _ (by norm_num)
  have hn5 : ((5 : Int) : ℚ) ^ r.rvPow5 ≠ 0 := zpow_ne_zero _ (by norm_num)
  have h22 : padicValRat 2 ((2 : Int) : ℚ) = 1 := padicValRat.self one_lt_two
  have h55 : padicValRat 5 ((5 : Int) : ℚ) = 1 := padicValRat.self (by decide)
  have hform : r.toRat = r.rvSig * ((2 : Int) : ℚ) ^ r.rvPow2 * ((5 : Int) : ℚ) ^ r.rvPow5 := rfl
  rw [hform]
  constructor
  · rw [padicValRat.mul (mul_ne_zero hs hn2) hn5, padicValRat.mul hs hn2, padicValRat.zpow,
      padicValRat.zpow, padicValRat_of_not_dvd (p := 2) h2,
      padicValRat_of_not_dvd (p := 2) (i := 5) (by decide), h22]
    omega
  · rw [padicValRat.mul (mul_ne_zero hs hn2) hn5, padicValRat.mul hs hn2, padicValRat.zpow,
      padicValRat.zpow, padicValRat_of_not_dvd (p := 5) h5,
      padicValRat_of_not_dvd (p := 5) (i := 2) (by decide), h55]
    omega

theorem RealValue.Canonical.rvSig_ne_zero (h2 : ¬ 2 ∣ r.rvSig) : r.rvSig ≠ 0 :=
  fun h => h2 (h ▸ dvd_zero 2)

theorem RealValue.Canonical.eq_of_toRat {r' : RealValue} (h : r.Canonical) (h' : r'.Canonical)
    (heq : r.toRat = r'.toRat) : r = r' := by
  have hzero : (⟨0, 0, 0⟩ : RealValue).toRat = 0 := by simp [RealValue.toRat]
  cases h with
  | inl h =>
    cases h' with
    | inl h' => rw [h, h']
    | inr h' =>
      rw [h, hzero] at heq
      exact absurd heq.symm (RealValue.toRat_ne_zero (rvSig_ne_zero h'.1))
  | inr h =>
    cases h' with
    | inl h' =>
      rw [h', hzero] at heq
      exact absurd heq (RealValue.toRat_ne_zero (rvSig_ne_zero h.1))
    | inr h' =>
      have hp := RealValue.padicValRat_toRat h.1 h.2
      have hp' := RealValue.padicValRat_toRat h'.1 h'.2
      obtain ⟨s, p2, p5⟩ := r
      obtain ⟨s', p2', p5'⟩ := r'
      have h2 : p2 = p2' := hp.1.symm.trans (heq ▸ hp'.1)
      have h5 : p5 = p5' := hp.2.symm.trans (heq ▸ hp'.2)
      subst h2 h5
      have hs := mul_right_cancel₀ (zpow_ne_zero _ two_ne_zero)
        (mul_right_cancel₀ (zpow_ne_zero _ (by norm_num)) heq)
      exact congrArg (RealValue.mk · p2 p5) (Int.cast_injective hs)

/-! Comparison. -/

theorem compareReal_structural {r' : RealValue} : compareReal true r r' = .eq ↔ r = r' := by
  obtain ⟨s, p2, p5⟩ := r
  obtain ⟨s', p2', p5'⟩ := r'
  simp only [compareReal, if_true, Ordering.then_eq_eq, compare_eq_iff_eq, RealValue.mk.injEq,
    and_assoc]

theorem zpow_eq_mul {b : ℚ} (hb : b ≠ 0) {n m : Int} (h : m ≤ n) :
    b ^ n = b ^ (n - m).toNat * b ^ m := by
  rw [← zpow_natCast, ← zpow_add₀ hb, Int.toNat_of_nonneg (by omega), sub_add_cancel]

theorem RealValue.toRat_scaled (r : RealValue) {m2 m5 : Int} (h2 : m2 ≤ r.rvPow2)
    (h5 : m5 ≤ r.rvPow5) :
    r.toRat = ((r.rvSig * (powIntPosBigint 2 (r.rvPow2 - m2) * powIntPosBigint 5 (r.rvPow5 - m5)) :
      Int) : ℚ) * (2 ^ m2 * 5 ^ m5) := by
  rw [RealValue.toRat, zpow_eq_mul two_ne_zero h2, zpow_eq_mul (by norm_num) h5, powIntPosBigint,
    powIntPosBigint]
  push_cast
  ring

theorem compareReal_value (r r' : RealValue) :
    compareReal false r r' = compare r.toRat r'.toRat := by
  let m2 := min r.rvPow2 r'.rvPow2
  let m5 := min r.rvPow5 r'.rvPow5
  have hpos : (0 : ℚ) < 2 ^ m2 * 5 ^ m5 :=
    mul_pos (zpow_pos two_pos m2) (zpow_pos (by norm_num) m5)
  have hmono : StrictMono fun i : Int => (i : ℚ) * (2 ^ m2 * 5 ^ m5) := fun i j hij =>
    mul_lt_mul_of_pos_right (Int.cast_lt.mpr hij) hpos
  rw [r.toRat_scaled (min_le_left _ r'.rvPow2) (min_le_left _ r'.rvPow5),
    r'.toRat_scaled (min_le_right r.rvPow2 _) (min_le_right r.rvPow5 _), ← cmp_eq_compare,
    hmono.cmp_map_eq, cmp_eq_compare]
  rfl

/-- Real values are canonical, their comparisons agree, and `normalize` gives the valuation. -/
theorem realValue_canonical (pow2 pow5 i pow2' pow5' i' : Int) :
    (∃ r r', realValue pow2 pow5 i = .ok r ∧ realValue pow2' pow5' i' = .ok r' ∧
      r.toRat = i * 2 ^ pow2 * 5 ^ pow5 ∧ r.Canonical ∧
      (compareReal true r r' = .eq ↔ compareReal false r r' = .eq) ∧
      (compareReal false r r' = .eq ↔ r.toRat = r'.toRat) ∧
      compareReal false r r' = compare r.toRat r'.toRat) ∧
    ∀ v p : Int, v ≠ 0 → 2 ≤ p → ∃ (v' : Int) (f : Nat), normalize v p = .ok (v', (f : Int)) ∧
      v = v' * p ^ f ∧ emultiplicity p v = f := by
  obtain ⟨r, hrun, hcan, hval, -⟩ := realValue_ok pow2 pow5 i
  obtain ⟨r', hrun', hcan', -⟩ := realValue_ok pow2' pow5' i'
  have heq : compareReal false r r' = .eq ↔ r.toRat = r'.toRat := by
    rw [compareReal_value, compare_eq_iff_eq]
  refine ⟨⟨r, r', hrun, hrun', hval, hcan, ?_, heq, compareReal_value r r'⟩, fun v p hv hp => ?_⟩
  · rw [compareReal_structural, heq]
    exact ⟨congrArg _, hcan.eq_of_toRat hcan'⟩
  · obtain ⟨v', f, hnorm, hvf, hndvd⟩ := normalize_ok hv hp
    refine ⟨v', f, hnorm, hvf, emultiplicity_eq_coe.mpr ⟨Dvd.intro_left v' hvf.symm, fun h => ?_⟩⟩
    rw [hvf, pow_succ, mul_comm v'] at h
    exact hndvd ((mul_dvd_mul_iff_left (pow_ne_zero f (by omega))).mp h)

theorem realValue_canonical_twenty :
    ∃ (v' : Int) (f : Nat), normalize 20 2 = .ok (v', (f : Int)) ∧ (20 : Int) = v' * 2 ^ f ∧
      emultiplicity (2 : Int) 20 = f :=
  (realValue_canonical 0 0 20 0 0 20).2 20 2 (by decide) (by decide)

end Number
end Why3
