import Why3.Metatheory.RealValue

/-!
Float literals: `compute_float` accepts the numbers that a binary format represents and returns
the fields of their encoding. A negative significand stays below every bound of the loops, so
that only the negative numbers below the normal ones are treated right.
-/
namespace Why3
namespace Number

/-! Formats. -/

variable (fp : FloatFormat)

/-- The exponent of the infinities. -/
def FloatFormat.emax : Int := powIntPosBigint 2 (fp.fpExponentDigits - 1)

/-- The exponent of the last place of the subnormal numbers. -/
def FloatFormat.emin : Int := 3 - fp.emax - fp.fpSignificandDigits

/-- The least significand of the normal numbers. -/
abbrev FloatFormat.smin : Int := powIntPosBigint 2 (fp.fpSignificandDigits - 1)

def FloatFormat.Representable (x : ℚ) : Prop :=
  ∃ (m : Nat) (e : Int), x = m * 2 ^ e ∧ (m : Int) < powIntPosBigint 2 fp.fpSignificandDigits ∧
    fp.emin ≤ e ∧ x < 2 ^ fp.emax

/-- The number with the biased exponent `e` and the significand `m`. -/
def FloatFormat.decode (e m : Int) : ℚ :=
  let bias := fp.emax - 1
  let sb := fp.fpSignificandDigits
  if e = 0 then m * 2 ^ (1 - bias - (sb - 1)) else (2 ^ (sb - 1) + m) * 2 ^ (e - bias - (sb - 1))

structure FloatFormat.Encodes (fp : FloatFormat) (c : RealConstant) (e m : Int) : Prop where
  exponent : 0 ≤ e ∧ e < powIntPosBigint 2 fp.fpExponentDigits - 1
  significand : |m| < powIntPosBigint 2 (fp.fpSignificandDigits - 1)
  sign : (0 ≤ c.rlReal.rvSig → 0 ≤ m) ∧ (c.rlReal.rvSig ≤ 0 → m ≤ 0)
  value : fp.decode e |m| = |c.rlReal.toRat|

theorem cast_powIntPosBigint {n : Int} (h : 0 ≤ n) : ((powIntPosBigint 2 n : Int) : ℚ) = 2 ^ n := by
  rw [powIntPosBigint]
  push_cast
  rw [← zpow_natCast, Int.toNat_of_nonneg h]

theorem cast_lt_zpow {n s : Int} (hn : 0 ≤ n) : (s : ℚ) < 2 ^ n ↔ s < powIntPosBigint 2 n := by
  rw [← cast_powIntPosBigint hn, Int.cast_lt]

theorem powIntPosBigint_succ {n : Int} (h : 1 ≤ n) :
    powIntPosBigint 2 n = 2 * powIntPosBigint 2 (n - 1) := by
  have hn : n.toNat = (n - 1).toNat + 1 := by omega
  rw [powIntPosBigint, hn, mul_comm]
  rfl

example : powIntPosBigint 2 3 = 2 * powIntPosBigint 2 2 := by decide +kernel

theorem powIntPosBigint_pos (n : Int) : 0 < powIntPosBigint 2 n := by
  rw [powIntPosBigint]
  positivity

/-! The loops. -/

theorem removeZeros_spec (c : RealConstant) (smax emin : Int) {n : Nat} :
    ∀ {s e : Int}, s.natAbs < n → s ≠ 0 → ∃ (s' : Int) (j : Nat), s = s' * 2 ^ j ∧
      (removeZeros c smax emin n s e = .ok (s', e + j) ∧ s' ≤ smax ∧ emin ≤ e + j ∨
        removeZeros c smax emin n s e = .error (.nonRepresentableFloat c) ∧ ¬ 2 ∣ s' ∧
          (smax < s' ∨ e + j < emin)) := by
  induction n with
  | zero => exact fun h => absurd h (Nat.not_lt_zero _)
  | succ n ih =>
    intro s e hn hs
    rw [removeZeros]
    by_cases hc : smax < s ∨ e < emin
    · rw [if_pos hc]
      simp only [euclideanDivMod, if_neg (show (2 : Int) ≠ 0 by decide)]
      by_cases hodd : s % 2 ≠ 0
      · refine ⟨s, 0, by rw [pow_zero, mul_one], .inr ⟨if_pos hodd, ?_, ?_⟩⟩
        · exact fun h => hodd (Int.emod_eq_zero_of_dvd h)
        · rwa [Nat.cast_zero, add_zero]
      · rw [if_neg hodd]
        obtain ⟨s', j, hval, hrun⟩ := ih (s := s / 2) (e := e + 1) (by omega) (by omega)
        refine ⟨s', j + 1, ?_, ?_⟩
        · rw [pow_succ, ← mul_assoc]
          omega
        · rwa [Nat.cast_add, Nat.cast_one, add_comm (j : Int), ← add_assoc]
    · rw [if_neg hc]
      refine ⟨s, 0, by rw [pow_zero, mul_one], .inl ⟨?_, by omega, by omega⟩⟩
      rw [Nat.cast_zero, add_zero]

theorem addZeros_spec (smin emin : Int) {n : Nat} : ∀ {s e : Int}, (e - emin).toNat < n →
    emin ≤ e → ∃ j : Nat, addZeros smin emin n s e = .ok (s * 2 ^ j, e - j) ∧ emin ≤ e - j ∧
      (smin ≤ s * 2 ^ j ∨ e - j = emin) ∧ (j = 0 ∨ s * 2 ^ j < 2 * smin) := by
  induction n with
  | zero => exact fun h => absurd h (Nat.not_lt_zero _)
  | succ n ih =>
    intro s e hn he
    rw [addZeros]
    by_cases hc : s < smin ∧ emin < e
    · rw [if_pos hc]
      obtain ⟨j, hrun, hmin, hend, hlt⟩ := ih (s := 2 * s) (e := e - 1) (by omega) (by omega)
      have hpow : 2 * s * 2 ^ j = s * 2 ^ (j + 1) := by ring
      have hexp : e - 1 - (j : Int) = e - ((j + 1 : Nat) : Int) := by omega
      rw [hpow, hexp] at hrun
      rw [hpow] at hend hlt
      refine ⟨j + 1, hrun, by omega, by omega, .inr ?_⟩
      cases hlt with
      | inl hj =>
        rw [hj]
        omega
      | inr hlt => exact hlt
    · rw [if_neg hc]
      refine ⟨0, ?_, by omega, ?_, .inl rfl⟩
      · rw [pow_zero, mul_one, Nat.cast_zero, sub_zero]
      · rw [pow_zero]
        omega

/-! Numbers out of a format. -/

variable {s : Int}

section

variable {fp : FloatFormat}

/-- An odd significand that is too long or too low is the only one of its number. -/
theorem not_representable_of_odd {e : Int} (hodd : ¬ 2 ∣ s)
    (h : powIntPosBigint 2 fp.fpSignificandDigits ≤ |s| ∨ e < fp.emin) :
    ¬ fp.Representable (|s| * 2 ^ e) := by
  rintro ⟨m, e', heq, hm, he', -⟩
  have hs : ¬ 2 ∣ |s| := fun h => hodd ((dvd_abs 2 s).mp h)
  by_cases hle : e' ≤ e
  · have hms : (m : Int) = |s| * 2 ^ (e - e').toNat := by
      rw [zpow_eq_mul two_ne_zero hle, ← mul_assoc] at heq
      have := mul_right_cancel₀ (zpow_ne_zero _ two_ne_zero) heq
      exact_mod_cast this.symm
    have : |s| ≤ m := hms ▸ le_mul_of_one_le_right (abs_nonneg s) (one_le_pow₀ one_le_two)
    omega
  · have hms : |s| = m * 2 ^ (e' - e).toNat := by
      rw [zpow_eq_mul two_ne_zero (not_le.mp hle).le, ← mul_assoc] at heq
      have := mul_right_cancel₀ (zpow_ne_zero _ two_ne_zero) heq
      exact_mod_cast this
    exact hs (hms ▸ Dvd.dvd.mul_left (dvd_pow_self 2 (by omega)) _)

theorem not_representable_of_five {r : RealValue} (hr : r.Canonical) (h : r.rvPow5 < 0) :
    ¬ fp.Representable |r.toRat| := by
  have : Fact (Nat.Prime 5) := ⟨Nat.prime_five⟩
  rintro ⟨m, e, heq, -⟩
  cases hr with
  | inl hr =>
    rw [hr] at h
    exact absurd h (lt_irrefl 0)
  | inr hr =>
    have hne := RealValue.toRat_ne_zero (RealValue.Canonical.rvSig_ne_zero hr.1)
    have hm : (m : ℚ) ≠ 0 := fun hm => abs_ne_zero.mpr hne (by rw [heq, hm, zero_mul])
    have hval : padicValRat 5 |r.toRat| = r.rvPow5 := by
      rw [← (RealValue.padicValRat_toRat hr.1 hr.2).2]
      rcases abs_choice r.toRat with h | h
      · rw [h]
      · rw [h, padicValRat.neg]
    have h2 : padicValRat 5 ((2 : Int) : ℚ) = 0 := padicValRat_of_not_dvd (p := 5) (by decide)
    rw [heq, padicValRat.mul hm (zpow_ne_zero _ two_ne_zero), padicValRat.of_nat] at hval
    have hpow : padicValRat 5 ((2 : ℚ) ^ e) = 0 := by
      rw [padicValRat.zpow]
      exact mul_eq_zero_of_right e h2
    omega

theorem two_zpow_le {a b : Int} (h : a ≤ b) : (2 : ℚ) ^ a ≤ 2 ^ b :=
  zpow_le_zpow_right₀ one_le_two h

theorem not_representable_of_large {e : Int} (hsb : 1 ≤ fp.fpSignificandDigits)
    (hs : fp.smin ≤ s) (he : fp.emax ≤ e + (fp.fpSignificandDigits - 1)) :
    ¬ fp.Representable (s * 2 ^ e) := by
  rintro ⟨m, e', -, -, -, hlt⟩
  have hs' := not_lt.mp (mt (cast_lt_zpow (by omega)).mp hs.not_gt)
  have hle : (2 : ℚ) ^ fp.emax ≤ s * 2 ^ e :=
    calc (2 : ℚ) ^ fp.emax ≤ 2 ^ (fp.fpSignificandDigits - 1 + e) := two_zpow_le (by omega)
      _ = 2 ^ (fp.fpSignificandDigits - 1) * 2 ^ e := zpow_add₀ two_ne_zero _ _
      _ ≤ s * 2 ^ e := mul_le_mul_of_nonneg_right hs' (zpow_nonneg zero_le_two e)
  exact absurd hlt hle.not_gt

end

theorem RealValue.abs_toRat {r : RealValue} (h : 0 ≤ r.rvPow5) :
    |r.toRat| = |r.rvSig * powIntPosBigint 5 r.rvPow5| * 2 ^ r.rvPow2 := by
  have hpow : (5 : ℚ) ^ r.rvPow5 = (powIntPosBigint 5 r.rvPow5 : Int) := by
    rw [powIntPosBigint]
    push_cast
    rw [← zpow_natCast, Int.toNat_of_nonneg h]
  have h2 : |(2 : ℚ) ^ r.rvPow2| = 2 ^ r.rvPow2 := abs_of_pos (zpow_pos two_pos _)
  rw [RealValue.toRat, hpow, mul_right_comm, abs_mul, h2]
  push_cast
  rfl

theorem sameSign_of_mul {a b d d' : Int} (hd : 0 < d) (hd' : 0 < d') (h : a * d = b * d') :
    (0 ≤ a → 0 ≤ b) ∧ (a ≤ 0 → b ≤ 0) := by
  constructor
  · intro ha
    nlinarith
  · intro ha
    nlinarith

/-! The result. -/

section

variable {c : RealConstant} {fp : FloatFormat} {s e : Int}

/-- What the loops leave. -/
structure Normalized (c : RealConstant) (fp : FloatFormat) (s e : Int) : Prop where
  value : |c.rlReal.toRat| = |s| * 2 ^ e
  sign : (0 ≤ c.rlReal.rvSig → 0 ≤ s) ∧ (c.rlReal.rvSig ≤ 0 → s ≤ 0)
  le : fp.emin ≤ e
  last : powIntPosBigint 2 (fp.fpSignificandDigits - 1) ≤ s ∨ e = fp.emin
  short : s < powIntPosBigint 2 fp.fpSignificandDigits

variable (heb : 1 ≤ fp.fpExponentDigits) (hsb : 1 ≤ fp.fpSignificandDigits)
  (h : Normalized c fp s e)

include heb hsb h

omit heb hsb in
theorem Normalized.representable {k : Int} (hk : 0 ≤ k) (hs : |s| < powIntPosBigint 2 k)
    (hshort : |s| < powIntPosBigint 2 fp.fpSignificandDigits) (he : k + e ≤ fp.emax) :
    fp.Representable |c.rlReal.toRat| := by
  refine ⟨s.natAbs, e, ?_, by rwa [Int.natCast_natAbs], h.le, ?_⟩
  · rw [h.value, ← Int.natCast_natAbs, Int.cast_natCast]
  calc |c.rlReal.toRat| = |s| * 2 ^ e := h.value
    _ < 2 ^ k * 2 ^ e := mul_lt_mul_of_pos_right ((cast_lt_zpow hk).mpr hs) (zpow_pos two_pos e)
    _ = 2 ^ (k + e) := (zpow_add₀ two_ne_zero _ _).symm
    _ ≤ 2 ^ fp.emax := two_zpow_le he

theorem Normalized.subnormal (hs : |s| < fp.smin) :
    fp.Encodes c 0 s ∧ fp.Representable |c.rlReal.toRat| := by
  have hpos : 0 < fp.smin := powIntPosBigint_pos _
  have hemax : 0 < fp.emax := powIntPosBigint_pos _
  have hmin : e = 3 - fp.emax - fp.fpSignificandDigits :=
    h.last.resolve_left ((le_abs_self s).trans_lt hs).not_ge
  refine ⟨⟨⟨le_rfl, ?_⟩, hs, h.sign, ?_⟩, h.representable (by omega) hs ?_ (by omega)⟩
  · rw [powIntPosBigint_succ heb, ← FloatFormat.emax]
    omega
  · have hexp : 1 - (fp.emax - 1) - (fp.fpSignificandDigits - 1) = e := by omega
    rw [FloatFormat.decode, if_pos rfl, hexp, h.value]
  · rw [powIntPosBigint_succ hsb]
    exact hs.trans (lt_two_mul_self hpos)

theorem Normalized.normal (hs : fp.smin ≤ s) (he : e + (fp.fpSignificandDigits - 1) < fp.emax) :
    fp.Encodes c (e + (fp.fpSignificandDigits - 1) + (fp.emax - 1)) (s - fp.smin) ∧
      fp.Representable |c.rlReal.toRat| := by
  have hpos : 0 < fp.smin := powIntPosBigint_pos _
  have hmin := h.le
  rw [FloatFormat.emin] at hmin
  have habs : |s| = s := abs_of_pos (by omega)
  have hs' : |s| < powIntPosBigint 2 fp.fpSignificandDigits := habs.symm ▸ h.short
  have hrep := h.representable (by omega) hs' hs' (by omega)
  have hexp : powIntPosBigint 2 fp.fpExponentDigits = 2 * fp.emax := powIntPosBigint_succ heb
  have hshort : s < 2 * fp.smin := powIntPosBigint_succ hsb ▸ h.short
  have hsub : |s - fp.smin| = s - fp.smin := abs_of_nonneg (by omega)
  have hlt : |s - fp.smin| < fp.smin := by omega
  refine ⟨⟨⟨by omega, by omega⟩, hlt, ⟨fun _ => by omega, fun hneg => ?_⟩, ?_⟩, hrep⟩
  · have := h.sign.2 hneg
    omega
  · rw [hsub, FloatFormat.decode, if_neg (by omega), h.value, habs]
    push_cast
    rw [cast_powIntPosBigint (by omega), add_sub_cancel]
    congr 2
    omega

end

variable {c : RealConstant}

theorem computeFloat_eq (h5 : 0 ≤ c.rlReal.rvPow5)
    (hs : s = c.rlReal.rvSig * powIntPosBigint 5 c.rlReal.rvPow5) (hne : s ≠ 0) :
    computeFloat c fp =
      (removeZeros c (powIntPosBigint 2 fp.fpSignificandDigits - 1) fp.emin (s.natAbs + 1) s
        c.rlReal.rvPow2 >>= fun se =>
      addZeros fp.smin fp.emin ((se.2 - fp.emin).toNat + 1) se.1 se.2 >>= fun se =>
      floatFields c fp se.1 se.2) := by
  have hmin : 2 + (1 - powIntPosBigint 2 (fp.fpExponentDigits - 1)) - fp.fpSignificandDigits =
      fp.emin := by
    rw [FloatFormat.emin, FloatFormat.emax]
    omega
  have hparse : floatParser c = .ok (s, c.rlReal.rvPow2) := by
    rw [floatParser, if_neg h5.not_gt, hs]
  rw [computeFloat, hparse, hmin]
  exact if_neg hne

/-- The loops reach such a form, unless an odd significand does not fit. -/
theorem computeFloat_loops {fp : FloatFormat} (hsb : 1 ≤ fp.fpSignificandDigits)
    (h5 : 0 ≤ c.rlReal.rvPow5) (hs : s = c.rlReal.rvSig * powIntPosBigint 5 c.rlReal.rvPow5)
    (hodd : ¬ 2 ∣ s) : (∃ s' e, Normalized c fp s' e ∧ fp.emin ≤ c.rlReal.rvPow2 ∧
      computeFloat c fp = floatFields c fp s' e) ∨
    computeFloat c fp = .error (.nonRepresentableFloat c) ∧
      ¬ fp.Representable |c.rlReal.toRat| := by
  have hne : s ≠ 0 := fun h => hodd (h ▸ dvd_zero 2)
  have hmax := powIntPosBigint_succ hsb
  have hvalue : |c.rlReal.toRat| = |s| * 2 ^ c.rlReal.rvPow2 := by
    rw [RealValue.abs_toRat h5, hs]
  obtain ⟨s1, j, hs1, hrun⟩ := removeZeros_spec c (powIntPosBigint 2 fp.fpSignificandDigits - 1)
    fp.emin (e := c.rlReal.rvPow2) (Nat.lt_succ_self _) hne
  -- an odd significand is left as it is
  have hj : j = 0 := by
    by_contra hj
    exact hodd (hs1 ▸ Dvd.dvd.mul_left (dvd_pow_self 2 hj) s1)
  rw [hj, pow_zero, mul_one] at hs1
  rw [hj, Nat.cast_zero, add_zero, ← hs1] at hrun
  rw [computeFloat_eq fp h5 hs hne]
  rcases hrun with ⟨hrun, hle, he⟩ | ⟨hrun, -, hout⟩
  · left
    obtain ⟨i, hrun', he', hlast, hshort⟩ := addZeros_spec fp.smin fp.emin (s := s)
      (Nat.lt_succ_self _) he
    have hpos : (0 : Int) < 2 ^ i := by positivity
    refine ⟨s * 2 ^ i, c.rlReal.rvPow2 - i, ⟨?_, ?_, he', hlast, ?_⟩, he, ?_⟩
    · have hsplit := zpow_eq_mul (b := 2) two_ne_zero
        (sub_le_self c.rlReal.rvPow2 (Int.natCast_nonneg i))
      rw [sub_sub_cancel, Int.toNat_natCast] at hsplit
      rw [hvalue, hsplit, abs_mul, abs_of_pos hpos]
      push_cast
      ring
    · refine sameSign_of_mul (d := powIntPosBigint 5 c.rlReal.rvPow5 * 2 ^ i) ?_ one_pos ?_
      · exact mul_pos (pow_pos (by decide) _) hpos
      · rw [mul_one, ← mul_assoc, hs]
    · cases hshort with
      | inl hi =>
        rw [hi, pow_zero]
        omega
      | inr hshort => rwa [hmax]
    · rw [hrun]
      exact congrArg (· >>= fun se : Int × Int => floatFields c fp se.1 se.2) hrun'
  · right
    rw [hrun, hvalue]
    refine ⟨rfl, not_representable_of_odd hodd (hout.imp_left fun h => ?_)⟩
    have := le_abs_self s
    omega

/-- A multiple of the last place that is negative and not below the normal numbers. -/
def FloatFormat.NegativeNormal (c : RealConstant) : Prop :=
  c.rlReal.rvSig < 0 ∧ 0 ≤ c.rlReal.rvPow5 ∧ fp.emin ≤ c.rlReal.rvPow2 ∧
    (2 : ℚ) ^ (2 - fp.emax) ≤ |c.rlReal.toRat|

/-- A negative significand that is left is short. -/
theorem Normalized.abs_lt {fp : FloatFormat} {e : Int} (h : Normalized c fp s e)
    (hsb : 1 ≤ fp.fpSignificandDigits) (h5 : 0 ≤ c.rlReal.rvPow5) (hmin : fp.emin ≤ c.rlReal.rvPow2)
    (hneg : ¬ fp.NegativeNormal c) (hs : s < fp.smin) : |s| < fp.smin := by
  by_cases h0 : 0 ≤ s
  · rwa [abs_of_nonneg h0]
  · by_contra hle
    refine hneg ⟨not_le.mp fun hsig => h0 (h.sign.1 hsig), h5, hmin, ?_⟩
    have hlast : e = fp.emin := h.last.resolve_left hs.not_ge
    have hs' := not_lt.mp (mt (cast_lt_zpow (by omega)).mp hle)
    have hexp : 2 - fp.emax = fp.fpSignificandDigits - 1 + e := by
      rw [hlast, FloatFormat.emin]
      omega
    rw [h.value, hexp, zpow_add₀ two_ne_zero]
    exact mul_le_mul_of_nonneg_right hs' (zpow_nonneg zero_le_two e)

end Number
end Why3
