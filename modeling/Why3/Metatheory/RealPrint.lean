import Why3.Metatheory.NumberPrint

/-!
Real literals: the pieces that are printed for a literal are read back to its absolute value,
and the fractions that are printed for it denote that number.
-/
namespace Why3
namespace Number

open Except (bind_eq_ok ok_bind)
open List

/-! The pieces of a number. -/

/-- The value of the last of `len` places after the point. -/
def placeValue (radix : Nat) (k : Int) (len : Nat) : ℚ :=
  if radix = 16 then 2 ^ (k - 4 * len) else 10 ^ (k - len)

theorem placeValue_pos (radix : Nat) (k : Int) (len : Nat) : 0 < placeValue radix k len := by
  rw [placeValue]
  split
  · exact zpow_pos two_pos _
  · exact zpow_pos (by norm_num) _

variable {radix : Nat}

theorem placeValue_add (hr : radix = 10 ∨ radix = 16) (k : Int) (len j : Nat) :
    placeValue radix k len = radix ^ j * placeValue radix k (len + j) := by
  rcases hr with rfl | rfl
  · rw [placeValue, placeValue, if_neg (by decide), if_neg (by decide)]
    rw [← zpow_natCast, Nat.cast_ofNat, ← zpow_add₀ (by norm_num)]
    congr 1
    omega
  · have h16 : ((16 : Nat) : ℚ) ^ j = 2 ^ (4 * j : Int) := by
      rw [zpow_mul]
      norm_num
    rw [placeValue, placeValue, if_pos rfl, if_pos rfl, h16, ← zpow_add₀ two_ne_zero]
    congr 1
    omega

/-- The number `q` is `i.f` with the exponent `k`, with `p` places after the point. -/
structure Pieces (radix : Nat) (k : Int) (q : ℚ) (p : Nat) (i f : Text) : Prop where
  int : i ≠ [] ∧ Digits radix i
  frac : f ≠ [] ∧ Digits radix f
  places : f = ['0'] ∨ f.length = p
  length : i.length + f.length ≤ maxStringLength
  value : textValue radix (i ++ f) * placeValue radix k f.length = q

variable {s : Text} {p : Nat}

theorem padDigits_ok (hr : 0 < radix) (hd : Digits radix s) (hp : p + 1 ≤ maxStringLength)
    : ∃ t : Text, padDigits s p = .ok (t, (t.length : Int)) ∧
      Digits radix t ∧ textValue radix t = textValue radix s ∧
      t.length = max s.length (p + 1) := by
  rw [padDigits]
  by_cases h : s.length ≤ p
  · have hn : (p + 1 - s.length : Int) = ((p + 1 - s.length : Nat) : Int) := by omega
    have hmake : stringMake (p + 1 - s.length) = .ok (replicate (p + 1 - s.length) '0') := by
      rw [stringMake, hn, if_neg (by omega), Int.toNat_natCast]
    have hlen : (replicate (p + 1 - s.length) '0' ++ s).length = p + 1 := by
      rw [length_append, length_replicate]
      omega
    refine ⟨replicate (p + 1 - s.length) '0' ++ s, ?_,
      Digits.append.mpr ⟨digits_replicate hr _, hd⟩, ?_, ?_⟩
    · rw [if_pos (by omega), bind_eq_ok]
      refine ⟨_, hmake, bind_eq_ok.mpr ⟨_, if_pos ?_, ?_⟩⟩
      · rwa [← length_append, hlen]
      · rw [hlen]
        rfl
    · rw [textValue_append, textValue_replicate, Nat.zero_mul, Nat.zero_add]
    · rw [hlen]
      omega
  · refine ⟨s, if_neg (by omega), hd, rfl, by omega⟩

theorem stringSub_ok (a n : Nat) (h : a + n ≤ s.length) :
    stringSub s a n = .ok ((s.drop a).take n) := by
  rw [stringSub, if_neg (by omega), Int.toNat_natCast, Int.toNat_natCast]

theorem cutDigits_ok (hr : 0 < radix) (hs : s ≠ []) (hd : Digits radix s)
    (hp : p + 1 ≤ maxStringLength) : ∃ i f j,
      cutDigits s p = .ok (i, f) ∧ (i ≠ [] ∧ Digits radix i) ∧ (f ≠ [] ∧ Digits radix f) ∧
      (f = ['0'] ∨ f.length = p) ∧ f.length = p + j ∧
      i.length + f.length ≤ max (s.length + 1) (p + 1) ∧
      textValue radix (i ++ f) = textValue radix s * radix ^ j := by
  obtain ⟨t, ht, htd, htv, htl⟩ := padDigits_ok hr hd hp
  have hslen := length_pos_of_ne_nil hs
  have hsub : (t.length : Int) - p = ((t.length - p : Nat) : Int) := by omega
  have hi : stringSub t 0 (t.length - p) = .ok (t.take (t.length - p)) := by
    rw [hsub]
    exact stringSub_ok 0 _ (by omega)
  have hf : stringSub t (t.length - p) p = .ok (t.drop (t.length - p)) := by
    have hlen : (t.drop (t.length - p)).length = p := by
      rw [length_drop]
      omega
    rw [hsub, stringSub_ok _ _ (by omega), take_of_length_le hlen.le]
  have hrun : cutDigits s p = .ok (t.take (t.length - p),
      if t.drop (t.length - p) = [] then ['0'] else t.drop (t.length - p)) :=
    bind_eq_ok.mpr ⟨_, ht, bind_eq_ok.mpr ⟨_, hi, bind_eq_ok.mpr
      ⟨_, hf, rfl⟩⟩⟩
  have hdt := htd
  rw [← take_append_drop (t.length - p) t, Digits.append] at hdt
  have hine : t.take (t.length - p) ≠ [] := by
    apply ne_nil_of_length_pos
    rw [length_take]
    omega
  by_cases hp0 : p = 0
  · have hnil : t.drop (t.length - p) = [] := drop_eq_nil_of_le (by omega)
    have htake : t.take (t.length - p) = t := take_of_length_le (by omega)
    rw [if_pos hnil, htake] at hrun
    refine ⟨t, ['0'], 1, hrun, ⟨htake ▸ hine, htd⟩, ⟨by simp, digits_replicate hr 1⟩, .inl rfl,
      ?_, ?_, ?_⟩
    · rw [hp0]
      rfl
    · rw [length_singleton]
      omega
    · have h0 : textValue radix ['0'] = 0 := textValue_replicate radix 1
      rw [textValue_append, htv, h0, add_zero, length_singleton]
  · have hlen : (t.drop (t.length - p)).length = p := by
      rw [length_drop]
      omega
    have hne : t.drop (t.length - p) ≠ [] := ne_nil_of_length_pos (by omega)
    rw [if_neg hne] at hrun
    refine ⟨_, _, 0, hrun, ⟨hine, hdt.1⟩, ⟨hne, hdt.2⟩, .inr hlen, hlen, ?_, ?_⟩
    · rw [length_take]
      omega
    · rw [take_append_drop, htv, pow_zero, mul_one]

variable {k : Int}

/-- The digits of `N` are cut into the pieces of a number. -/
theorem cutDigits_pieces (hr : radix = 10 ∨ radix = 16) {N L : Nat} {q : ℚ} (hs : Printed radix N s)
    (hN : N < radix ^ L) (hL : 0 < L) (hL' : L < maxStringLength) (hp : p < maxStringLength)
    (hq : N * placeValue radix k p = q) :
    ∃ i f, cutDigits s p = .ok (i, f) ∧ Pieces radix k q p i f := by
  have hr0 : 0 < radix := by omega
  obtain ⟨i, f, j, hrun, hi, hf, hplaces, hlen, hlen', hval⟩ :=
    cutDigits_ok hr0 hs.nonempty hs.digits (p := p) (by omega)
  have hslen := hs.length L hL hN
  refine ⟨i, f, hrun, hi, hf, hplaces, by omega, ?_⟩
  rw [hval, hs.value, hlen, ← hq, placeValue_add hr k p j]
  push_cast
  ring

/-! Reading. -/

theorem all_isDec (h : Digits 10 s) : s.all isDec = true := by
  refine all_eq_true.mpr fun c hc => ?_
  obtain ⟨v, hv, rfl⟩ := h c hc
  exact (charOfInt_spec v (by omega)).2.2.1 hv

theorem all_isHex (h : Digits 16 s) : s.all isHex = true := by
  refine all_eq_true.mpr fun c hc => ?_
  obtain ⟨v, hv, rfl⟩ := h c hc
  exact (charOfInt_spec v hv).2.1

variable {n : Nat}

theorem checkIntegerLiteral_ok {check : Char → Bool} (hs : s ≠ []) (h : s.all check = true)
    : checkIntegerLiteral n check s = .ok () := by
  rw [checkIntegerLiteral, if_neg]
  rintro (h' | h')
  · exact hs h'
  · rw [h] at h'
    nomatch h'

theorem Printed.head_ne (h : Printed 10 n s) : s.head? ≠ some '-' := by
  intro hhead
  obtain ⟨v, hv, heq⟩ := h.digits '-' (mem_of_head? hhead)
  exact (charOfInt_spec v (by omega)).2.2.2 heq.symm

theorem expText_spec (hk : minInt ≤ k ∧ k ≤ maxInt) :
    readExp (expText k) = .ok k ∧ expValue (expText k) = .ok k := by
  by_cases h0 : k = 0
  · rw [h0]
    exact ⟨rfl, rfl⟩
  have hprinted : Printed 10 k.natAbs (printLoop 10 (k.natAbs + 1) 1 k.natAbs) :=
    printLoop_printed (by decide) (by decide) _
  have hcheck := checkIntegerLiteral_ok (n := 10) hprinted.nonempty (all_isDec hprinted.digits)
  rw [expText, if_neg h0, toString]
  suffices h : ∀ s, checkExp s = .ok () → intOfString s = .ok k →
      readExp (some s) = .ok k ∧ expValue (some s) = .ok k by
    by_cases hneg : k < 0
    · rw [if_pos hneg]
      refine h _ hcheck ?_
      refine bind_eq_ok.mpr ⟨_, hprinted.parse (by decide), ?_⟩
      have : -(k.natAbs : Int) = k := by omega
      rw [this]
      exact if_pos hk
    · rw [if_neg hneg]
      refine h _ ?_ ?_
      · rw [checkExp, if_neg hprinted.nonempty, if_neg hprinted.head_ne]
        exact hcheck
      · rw [intOfString, if_neg hprinted.head_ne]
        refine bind_eq_ok.mpr ⟨_, hprinted.parse (by decide), ?_⟩
        have : (k.natAbs : Int) = k := by omega
        rw [this]
        exact if_pos hk
  intro s hs hs'
  exact ⟨bind_eq_ok.mpr ⟨(), hs, hs'⟩, hs'⟩

def literalOf (radix : Nat) (k : Int) : RealLiteralKind :=
  if radix = 16 then .rlitHex k else .rlitDec k

section

variable {radix : Nat} (hr : radix = 10 ∨ radix = 16)

include hr

theorem literalKind_ok (k : Int) : ∃ check, literalKind radix k = .ok (literalOf radix k, check) ∧
    ∀ s, Digits radix s → s.all check = true := by
  rcases hr with rfl | rfl
  · exact ⟨isDec, rfl, fun _ => all_isDec⟩
  · exact ⟨isHex, rfl, fun _ => all_isHex⟩

theorem literalValue_ok (k : Int) (len : Nat) (s : Int) : ∃ r,
    literalValue radix k len s = .ok r ∧ r.Canonical ∧ r.toRat = s * placeValue radix k len ∧
    (s ≠ 0 → if radix = 16 then k - 4 * len ≤ r.rvPow2 ∧ 0 ≤ r.rvPow5
      else k - len ≤ r.rvPow2 ∧ k - len ≤ r.rvPow5) := by
  rcases hr with rfl | rfl
  · obtain ⟨r, hrun, hcan, hval, hpow⟩ := realValue_ok (k - len) (k - len) s
    refine ⟨r, hrun, hcan, ?_, hpow⟩
    rw [hval, placeValue, mul_assoc, ← mul_zpow]
    norm_num
  · obtain ⟨r, hrun, hcan, hval, hpow⟩ := realValue_ok (k - 4 * len) 0 s
    have hexp : k + 4 * -(len : Int) = k - 4 * len := by omega
    refine ⟨r, ?_, hcan, ?_, hpow⟩
    · rw [literalValue, if_pos rfl, hexp]
      exact hrun
    · rw [hval, placeValue, if_pos rfl, zpow_zero, mul_one]

/-- The pieces of a number are read to its canonical value. -/
theorem Pieces.read {r : RealValue} {i f : Text} (h : Pieces radix k r.toRat p i f)
    (hk : minInt ≤ k ∧ k ≤ maxInt) (hc : r.Canonical) :
    realLiteral radix false i f (expText k) = .ok ⟨literalOf radix k, r⟩ := by
  have hcat : stringCat i f = .ok (i ++ f) := if_pos h.length
  have hparse := parseInBase_ok (by omega) (Digits.append.mpr ⟨h.int.2, h.frac.2⟩)
  obtain ⟨check, hkind, hcheck⟩ := literalKind_ok hr k
  obtain ⟨r', hrun, hcan, hval, -⟩ := literalValue_ok hr k f.length (textValue radix (i ++ f) : Nat)
  rw [Int.cast_natCast, h.value] at hval
  rw [hcan.eq_of_toRat hc hval] at hrun
  refine bind_eq_ok.mpr ⟨k, (expText_spec hk).1, bind_eq_ok.mpr ⟨_, hkind,
    bind_eq_ok.mpr ⟨(), ?_, bind_eq_ok.mpr ⟨(), ?_, bind_eq_ok.mpr
    ⟨_, hcat, bind_eq_ok.mpr ⟨_, hparse, bind_eq_ok.mpr ⟨_, hrun, rfl⟩⟩⟩⟩⟩⟩⟩
  · exact (if_neg h.int.1).trans (checkIntegerLiteral_ok h.int.1 (hcheck i h.int.2))
  · exact (if_neg h.frac.1).trans (checkIntegerLiteral_ok h.frac.1 (hcheck f h.frac.2))

end

/-- What is known of the absolute value of a literal with `len` digits after the point. -/
structure ReadAs (radix : Nat) (k : Int) (n len : Nat) (r : RealValue) : Prop where
  canonical : r.Canonical
  nonneg : 0 ≤ r.rvSig
  value : r.toRat = n * placeValue radix k len
  powers : r.rvSig ≠ 0 → if radix = 16 then k - 4 * len ≤ r.rvPow2 ∧ 0 ≤ r.rvPow5
    else k - len ≤ r.rvPow2 ∧ k - len ≤ r.rvPow5

theorem readExp_range {x : Option Text} (h : readExp x = .ok k) : minInt ≤ k ∧ k ≤ maxInt := by
  have hto {i k : Int} (h : toInt i = .ok k) : minInt ≤ k ∧ k ≤ maxInt := by
    rw [toInt] at h
    split at h
    · cases h
      assumption
    · nomatch h
  cases x with
  | none =>
    cases h
    decide
  | some e =>
    rw [readExp, bind_eq_ok] at h
    obtain ⟨_, -, h⟩ := h
    rw [intOfString] at h
    split at h
    · obtain ⟨_, -, h⟩ := bind_eq_ok.mp h
      exact hto h
    · obtain ⟨_, -, h⟩ := bind_eq_ok.mp h
      exact hto h

theorem RealValue.toRat_natAbs (r : RealValue) :
    (⟨r.rvSig.natAbs, r.rvPow2, r.rvPow5⟩ : RealValue).toRat = |r.toRat| := by
  have h2 : |(2 : ℚ) ^ r.rvPow2| = 2 ^ r.rvPow2 := abs_of_pos (zpow_pos two_pos _)
  have h5 : |(5 : ℚ) ^ r.rvPow5| = 5 ^ r.rvPow5 := abs_of_pos (zpow_pos (by norm_num) _)
  rw [RealValue.toRat, RealValue.toRat, abs_mul, abs_mul, h2, h5, Int.natCast_natAbs, Int.cast_abs]

theorem RealValue.Canonical.natAbs {r : RealValue} (h : r.Canonical) :
    (⟨r.rvSig.natAbs, r.rvPow2, r.rvPow5⟩ : RealValue).Canonical := by
  refine h.imp (fun h => by rw [h]; rfl) fun h => ?_
  exact ⟨fun h' => h.1 (Int.dvd_natAbs.mp h'), fun h' => h.2 (Int.dvd_natAbs.mp h')⟩

theorem realLiteral_ok {neg : Bool} {int frac : Text} {exp : Option Text} {c : RealConstant}
    (h : realLiteral radix neg int frac exp = .ok c) :
    (radix = 10 ∨ radix = 16) ∧ ∃ (k : Int) (n : Nat), c.rlKind = literalOf radix k ∧
      (minInt ≤ k ∧ k ≤ maxInt) ∧ n < radix ^ (int.length + frac.length) ∧
      ReadAs radix k n frac.length (absReal c).rlReal := by
  obtain ⟨k, hexp, h⟩ := bind_eq_ok.mp h
  obtain ⟨kc, hkind, h⟩ := bind_eq_ok.mp h
  obtain ⟨_, -, h⟩ := bind_eq_ok.mp h
  obtain ⟨_, -, h⟩ := bind_eq_ok.mp h
  obtain ⟨t, hcat, h⟩ := bind_eq_ok.mp h
  obtain ⟨n, hparse, h⟩ := bind_eq_ok.mp h
  obtain ⟨r, hrun, h⟩ := bind_eq_ok.mp h
  cases h
  have hr : radix = 10 ∨ radix = 16 := by
    rw [literalKind] at hkind
    split at hkind
    · exact .inl ‹_›
    · split at hkind
      · exact .inr ‹_›
      · nomatch hkind
  obtain ⟨check, hkind', -⟩ := literalKind_ok hr k
  rw [hkind'] at hkind
  cases hkind
  have ht : t = int ++ frac := by
    rw [stringCat] at hcat
    split at hcat
    · cases hcat
      rfl
    · nomatch hcat
  have hlt := parseInBase_lt hparse
  rw [ht, length_append] at hlt
  obtain ⟨r', hrun', hcan, hval, hpow⟩ := literalValue_ok hr k frac.length (if neg then -n else n)
  rw [hrun'] at hrun
  cases hrun
  refine ⟨hr, k, n, rfl, readExp_range hexp, hlt, hcan.natAbs, Int.natCast_nonneg _, ?_,
    fun hne => ?_⟩
  · have habs : |((if neg then -(n : Int) else n : Int) : ℚ)| = n := by
      cases neg <;> simp
    have h := r.toRat_natAbs
    rw [hval, abs_mul, habs, abs_of_pos (placeValue_pos radix k frac.length)] at h
    exact h
  · refine hpow fun h0 => hne ?_
    rw [h0, Int.cast_zero, zero_mul] at hval
    by_contra hsig
    exact RealValue.toRat_ne_zero (fun h => hsig (by rw [absReal, h]; rfl)) hval

/-! Printing. -/

section

variable {k : Int} {n len L : Nat} {r : RealValue}

/-- The digits that are printed are no more than those that were read. -/
theorem ReadAs.digits_lt (hr : radix = 10 ∨ radix = 16) (h : ReadAs radix k n len r)
    (hn : n < radix ^ L) {N : Nat} (hp : r.rvSig ≠ 0 → p ≤ len)
    (hN : r.toRat = N * placeValue radix k p) : N < radix ^ max L 1 := by
  have hr1 : 1 < radix := by omega
  by_cases hsig : r.rvSig = 0
  · have h0 : (N : ℚ) * placeValue radix k p = 0 := by
      rw [← hN, RealValue.toRat, hsig, Int.cast_zero, zero_mul, zero_mul]
    have hN0 : N = 0 := by
      exact_mod_cast (mul_eq_zero.mp h0).resolve_right (placeValue_pos radix k p).ne'
    rw [hN0]
    positivity
  · obtain ⟨d, rfl⟩ := Nat.exists_eq_add_of_le (hp hsig)
    rw [h.value, placeValue_add hr k p d, ← mul_assoc] at hN
    have hNn : n = N * radix ^ d := by
      exact_mod_cast mul_right_cancel₀ (placeValue_pos radix k (p + d)).ne' hN
    calc N ≤ N * radix ^ d := Nat.le_mul_of_pos_right N (by positivity)
      _ < radix ^ L := hNn ▸ hn
      _ ≤ radix ^ max L 1 := Nat.pow_le_pow_right (by omega) (Nat.le_max_left L 1)

theorem toInt_ok {i : Int} (h : 0 ≤ i ∧ i ≤ 2 ^ 60) : toInt i = .ok i :=
  if_pos ⟨by rw [minInt]; omega, by rw [maxInt]; omega⟩

theorem maxStringLength_bounds : 1 < maxStringLength ∧ maxStringLength ≤ 2 ^ 57 := by decide

theorem ReadAs.zero (h : ReadAs radix k n len r) (h0 : r.rvSig = 0) :
    r.rvPow2 = 0 ∧ r.rvPow5 = 0 := by
  cases h.canonical with
  | inl hz =>
    rw [hz]
    exact ⟨rfl, rfl⟩
  | inr hodd => exact absurd (h0 ▸ dvd_zero 2) hodd.1

theorem ReadAs.printDec (h : ReadAs 10 k n len r) (support : NumberSupport) (hn : n < 10 ^ L)
    (hlen : len ≤ L) (hL : L < maxStringLength) (hz : r.rvSig ≠ 0 ∨ k < maxStringLength) : ∃ p i f,
      printDecConstant support k r = printDecReal support i f (expText k) ∧
      Pieces 10 k r.toRat p i f ∧ (r.rvSig ≠ 0 → p ≤ len) ∧
        (r.rvSig = 0 → k - p = min k 0) := by
  let e := min (min r.rvPow2 r.rvPow5) k
  have hpow := h.powers
  rw [if_neg (by decide)] at hpow
  have hmax := maxStringLength_bounds
  obtain ⟨p, hp⟩ : ∃ p : Nat, k - e = p := Int.eq_ofNat_of_zero_le (by omega)
  have hp' : r.rvSig ≠ 0 → p ≤ len := by
    intro hsig
    omega
  have hp0 : r.rvSig = 0 → k - p = min k 0 := by
    intro hsig
    have := h.zero hsig
    omega
  have hplt : p < maxStringLength := by
    by_cases hsig : r.rvSig = 0
    · have := hp0 hsig
      omega
    · have := hp' hsig
      omega
  obtain ⟨N, hN⟩ : ∃ N : Nat,
      r.rvSig * powIntPosBigint 2 (r.rvPow2 - e) * powIntPosBigint 5 (r.rvPow5 - e) = N := by
    refine Int.eq_ofNat_of_zero_le (mul_nonneg (mul_nonneg h.nonneg ?_) ?_) <;>
      exact pow_nonneg (by decide) _
  have hval : r.toRat = N * placeValue 10 k p := by
    have he : k - p = e := by omega
    rw [r.toRat_scaled (show e ≤ r.rvPow2 by omega) (show e ≤ r.rvPow5 by omega),
      ← mul_assoc r.rvSig, hN, ← mul_zpow, placeValue, he]
    norm_num
  obtain ⟨i, f, hcut, hpieces⟩ := cutDigits_pieces (.inl rfl) (toString_printed N)
    (h.digits_lt (.inl rfl) hn hp' hval) (by omega) (by omega) hplt hval.symm
  refine ⟨p, i, f, ?_, hpieces, hp', hp0⟩
  rw [printDecConstant]
  rw [hN, hp, toInt_ok (by omega)]
  exact congrArg (· >>= fun x : Text × Text => printDecReal support x.1 x.2 (expText k)) hcut

/-- The exponent of a hexadecimal literal is lowered to the places that are printed. -/
theorem hexExponent (p2 k : Int) : ∃ p : Nat,
    (if p2 < k then p2 - (p2 - k) % 4 else k) = k - 4 * p ∧ k - 4 * p ≤ p2 ∧
      (∀ len : Nat, k - 4 * len ≤ p2 → p ≤ len) ∧ 4 * p ≤ max 0 (k - p2 + 3) := by
  split
  · refine ⟨((k - p2 + (p2 - k) % 4) / 4).toNat, by omega, by omega, fun len h => ?_, by omega⟩
    omega
  · exact ⟨0, by omega, by omega, fun len _ => Nat.zero_le len, by omega⟩

theorem ReadAs.printHex (h : ReadAs 16 k n len r) (support : NumberSupport) (hn : n < 16 ^ L)
    (hlen : len ≤ L) (hL : L < maxStringLength) (hz : r.rvSig ≠ 0 ∨ k < maxStringLength) : ∃ p i f,
      printHexConstant support k r = printHexReal support i f (expText k) ∧
      Pieces 16 k r.toRat p i f := by
  obtain ⟨p, he, hle, hplen, hpmax⟩ := hexExponent r.rvPow2 k
  have hpow := h.powers
  have hmax := maxStringLength_bounds
  have hp' : r.rvSig ≠ 0 → p ≤ len := fun hsig => hplen len (hpow hsig).1
  have hplt : p < maxStringLength := by
    by_cases hsig : r.rvSig = 0
    · have := (h.zero hsig).1
      omega
    · have := hp' hsig
      omega
  have h5 : 0 ≤ r.rvPow5 := by
    by_cases hsig : r.rvSig = 0
    · rw [(h.zero hsig).2]
    · exact (hpow hsig).2
  obtain ⟨N, hN⟩ : ∃ N : Nat,
      r.rvSig * powIntPosBigint 2 (r.rvPow2 - (k - 4 * p)) * powIntPosBigint 5 r.rvPow5 = N := by
    refine Int.eq_ofNat_of_zero_le (mul_nonneg (mul_nonneg h.nonneg ?_) ?_) <;>
      exact pow_nonneg (by decide) _
  have hval : r.toRat = N * placeValue 16 k p := by
    have hscaled := r.toRat_scaled hle h5
    rw [sub_zero, ← mul_assoc r.rvSig, hN, zpow_zero, mul_one] at hscaled
    rw [hscaled, placeValue]
    rfl
  obtain ⟨s, hs, hprinted⟩ := printInBase_ok (show 2 ≤ 16 by decide) (by decide) N
  obtain ⟨i, f, hcut, hpieces⟩ := cutDigits_pieces (.inr rfl) hprinted
    (h.digits_lt (.inr rfl) hn hp' hval) (by omega) (by omega) hplt hval.symm
  have hdiv : (4 * p : Int).tdiv 4 = p := Int.mul_tdiv_cancel_left _ (by decide)
  refine ⟨p, i, f, ?_, hpieces⟩
  have hint : toInt (4 * p) = .ok (4 * p : Int) := toInt_ok (by omega)
  have hmod : ¬ (4 * p : Int).tmod 4 ≠ 0 := not_not.mpr (Int.mul_tmod_right 4 p)
  simp only [printHexConstant, if_neg h5.not_gt, he, hN, hs, sub_sub_cancel, hint, if_neg hmod,
    hdiv, hcut, ok_bind]

end

/-! Fractions. -/

/-- The strings given to a callback are numerals, and the number is what the callback stands for:
the numerator, its product with the denominator or its quotient by it. -/
def Denotes (expZero : Text → Text) (expPos expNeg : Text → Text → Text) (q : ℚ)
    (x : Except NumberExn Text) : Prop :=
  ∃ num den a b, parseInBase 10 num = .ok a ∧ parseInBase 10 den = .ok b ∧ b ≠ 0 ∧
    (x = .ok (expZero num) ∧ q = a ∨ x = .ok (expPos num den) ∧ q = a * b ∨
      x = .ok (expNeg num den) ∧ q = a / b)

section

variable {k : Int} {q : ℚ} {p : Nat} {i f : Text} {expZero : Text → Text}
  {expPos expNeg : Text → Text → Text}

/-- A fraction that is a zero is dropped. -/
theorem Pieces.trim (hr : radix = 10 ∨ radix = 16) (h : Pieces radix k q p i f) :
    ∃ t, (if f = ['0'] then [] else f) = t ∧ Digits radix (i ++ t) ∧
      stringCat i t = .ok (i ++ t) ∧ (t = [] ∨ t.length = p) ∧
      textValue radix (i ++ t) * placeValue radix k t.length = q := by
  by_cases hf : f = ['0']
  · refine ⟨[], if_pos hf, ?_, if_pos ?_, .inl rfl, ?_⟩
    · rw [append_nil]
      exact h.int.2
    · have := h.length
      rw [length_nil]
      omega
    · have h0 : textValue radix ['0'] = 0 := textValue_replicate radix 1
      rw [← h.value, hf, append_nil, textValue_append, h0, length_singleton,
        length_nil, placeValue_add hr k 0 1]
      push_cast
      ring
  · exact ⟨f, if_neg hf, Digits.append.mpr ⟨h.int.2, h.frac.2⟩, if_pos h.length,
      .inr (h.places.resolve_left hf), h.value⟩

theorem tenPower_ok (h : n < maxStringLength) :
    ∃ t, tenPower n = .ok t ∧ parseInBase 10 t = .ok (10 ^ n) := by
  have hlen : (replicate n '0').length = n := length_replicate
  refine ⟨['1'] ++ replicate n '0', bind_eq_ok.mpr ⟨_, ?_, if_pos ?_⟩, ?_⟩
  · rw [stringMake, if_neg (by omega), Int.toNat_natCast]
  · rw [length_singleton]
    omega
  · have hdigits : Digits 10 (['1'] ++ replicate n '0') :=
      Digits.append.mpr ⟨fun c hc => ⟨1, by decide, mem_singleton.mp hc⟩,
        digits_replicate (by decide) n⟩
    have h1 : textValue 10 ['1'] = 1 := by decide
    rw [parseInBase_ok (by decide) hdigits, textValue_append, textValue_replicate, hlen, h1,
      one_mul, add_zero]

theorem numerator_ok {t : Text} (hcat : stringCat i t = .ok (i ++ t))
    (hdigits : Digits 10 (i ++ t)) :
    ∃ num, numerator i t = .ok num ∧ parseInBase 10 num = .ok (textValue 10 (i ++ t)) := by
  by_cases hi : i = ['0'] ∧ t ≠ []
  · refine ⟨t, if_pos hi, ?_⟩
    have h0 : textValue 10 ['0'] = 0 := textValue_replicate 10 1
    rw [parseInBase_ok (by decide) (Digits.append.mp hdigits).2, hi.1, textValue_append, h0,
      zero_mul, zero_add]
  · exact ⟨i ++ t, (if_neg hi).trans hcat, parseInBase_ok (by decide) hdigits⟩

/-- A number with an exponent of the base `b`, the powers of which are written. -/
theorem denotes_scaled {num : Text} {a b : Nat} {e : Int} {P : Int → Except NumberExn Text}
    (hb : b ≠ 0) (hnum : parseInBase 10 num = .ok a)
    (hP : ∀ d : Nat, d ≤ e.natAbs → ∃ t, P d = .ok t ∧ parseInBase 10 t = .ok (b ^ d))
    (hq : (a : ℚ) * (b : ℚ) ^ e = q) :
    Denotes expZero expPos expNeg q (if e = 0 then .ok (expZero num)
      else if 0 < e then P e >>= fun d => .ok (expPos num d)
      else P (-e) >>= fun d => .ok (expNeg num d)) := by
  obtain ⟨d, hd⟩ := e.eq_nat_or_neg
  obtain ⟨den, hden, hparse⟩ := hP d (by omega)
  refine ⟨num, den, a, b ^ d, hnum, hparse, pow_ne_zero d hb, ?_⟩
  by_cases h0 : e = 0
  · refine .inl ⟨if_pos h0, ?_⟩
    rw [← hq, h0, zpow_zero, mul_one]
  · rw [if_neg h0, ← hq]
    rcases hd with rfl | rfl
    · refine .inr (.inl ⟨?_, ?_⟩)
      · rw [if_pos (by omega), hden, ok_bind]
      · rw [zpow_natCast, Nat.cast_pow]
    · refine .inr (.inr ⟨?_, ?_⟩)
      · rw [if_neg (by omega), neg_neg, hden, ok_bind]
      · rw [zpow_neg, zpow_natCast, Nat.cast_pow, div_eq_mul_inv]

theorem Pieces.decFrac_denotes (h : Pieces 10 k q p i f) (hk : minInt ≤ k ∧ k ≤ maxInt)
    (h0 : |k| < maxStringLength) (hp : |k - p| < maxStringLength) :
    Denotes expZero expPos expNeg q (decFrac expZero expPos expNeg i f (expText k)) := by
  obtain ⟨t, ht, hdigits, hcat, hlen, hval⟩ := h.trim (.inl rfl)
  obtain ⟨num, hnum, hparse⟩ := numerator_ok hcat hdigits
  have he : |k - t.length| < maxStringLength := by
    rcases hlen with rfl | hlen
    · rwa [length_nil, Nat.cast_zero, sub_zero]
    · rwa [hlen]
  rw [abs_lt] at he
  rw [decFrac, ht, (expText_spec hk).2]
  simp only [ok_bind, hnum]
  exact denotes_scaled (b := 10) (by decide) hparse (fun d _ => tenPower_ok (by omega)) hval

theorem toString_pow (e : Int) :
    parseInBase 10 (toString (powIntPosBigint 2 e)) = .ok (2 ^ e.toNat) :=
  (toString_printed (2 ^ e.toNat)).parse (by decide)

theorem Pieces.hexFrac_denotes (h : Pieces 16 k q p i f) (hk : minInt ≤ k ∧ k ≤ maxInt) :
    Denotes expZero expPos expNeg q (hexFrac expZero expPos expNeg i f (expText k)) := by
  obtain ⟨t, ht, hdigits, hcat, -, hval⟩ := h.trim (.inr rfl)
  have hparse := parseInBase_ok (by decide) hdigits
  have hnum := (toString_printed (textValue 16 (i ++ t))).parse (by decide)
  rw [hexFrac, ht, hcat, (expText_spec hk).2]
  simp only [ok_bind, hparse]
  exact denotes_scaled (b := 2) (P := fun e => .ok (toString (powIntPosBigint 2 e))) two_ne_zero
    hnum (fun d _ => ⟨_, rfl, toString_pow d⟩) hval

end

def RealLiteralKind.exponent : RealLiteralKind → Int
  | .rlitUnk => 0
  | .rlitDec e => e
  | .rlitHex e => e

def realText (radix : Nat) : Text → Text → Option Text → Text :=
  if radix = 16 then hexRealText else decRealText

end Number
end Why3
