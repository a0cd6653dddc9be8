import Why3.Metatheory.RealValue

/-!
Printing of literals: the digits that are printed are read back to the number, the notation of
an integer is one that is supported, and a real literal is read back to itself.
-/
namespace Why3
namespace Number

open List

/-! Digits. -/

/-- The text has digits of the base only, in the form in which they are printed. -/
def Digits (radix : Nat) (s : Text) : Prop := ∀ c ∈ s, ∃ v < radix, c = charOfInt v

def textValue (radix : Nat) (s : Text) : Nat :=
  s.foldl (fun acc c => (digitValue c).getD 0 + radix * acc) 0

theorem charOfInt_spec : ∀ v < 16, digitValue (charOfInt v) = some v ∧
    isHex (charOfInt v) = true ∧ (v < 10 → isDec (charOfInt v) = true) ∧ charOfInt v ≠ '-' := by
  decide

variable {s : Text}

theorem Digits.append {radix : Nat} {t : Text} :
    Digits radix (s ++ t) ↔ Digits radix s ∧ Digits radix t := forall_mem_append

theorem digits_replicate {radix : Nat} (h : 0 < radix) (n : Nat) :
    Digits radix (replicate n '0') := by
  intro c hc
  exact ⟨0, h, eq_of_mem_replicate hc⟩

theorem foldl_textValue (radix : Nat) (s : Text) : ∀ acc,
    s.foldl (fun acc c => (digitValue c).getD 0 + radix * acc) acc =
      acc * radix ^ s.length + textValue radix s := by
  induction s with
  | nil => exact fun acc => by simp [textValue]
  | cons c s ih =>
    intro acc
    rw [textValue, foldl_cons, foldl_cons, ih, ih, length_cons]
    ring

theorem textValue_append (radix : Nat) (s t : Text) :
    textValue radix (s ++ t) = textValue radix s * radix ^ t.length + textValue radix t := by
  rw [textValue, foldl_append, foldl_textValue]
  rfl

theorem textValue_replicate (radix n : Nat) : textValue radix (replicate n '0') = 0 := by
  induction n with
  | zero => rfl
  | succ n ih =>
    rw [replicate_succ', textValue_append, ih, Nat.zero_mul]
    rfl

theorem parseInBase_ok {radix : Nat} (hr : radix ≤ 16) (h : Digits radix s) :
    parseInBase radix s = .ok (textValue radix s) := by
  suffices hfold : ∀ (t : Text) acc, Digits radix t → t.foldlM (parseDigit radix s) acc =
      .ok (t.foldl (fun acc c => (digitValue c).getD 0 + radix * acc) acc) from hfold s 0 h
  intro t
  induction t with
  | nil => exact fun acc _ => rfl
  | cons c t ih =>
    intro acc ht
    obtain ⟨v, hv, rfl⟩ := ht c mem_cons_self
    have hdigit := (charOfInt_spec v (by omega)).1
    have hstep : parseDigit radix s acc (charOfInt v) = .ok (v + radix * acc) := by
      simp only [parseDigit, hdigit, if_neg hv.not_ge]
    rw [foldlM_cons, foldl_cons, hstep, hdigit]
    exact ih _ (forall_mem_cons.mp ht).2

theorem parseDigit_lt {radix acc acc' L : Nat} {c : Char} (hacc : acc < radix ^ L)
    (h : parseDigit radix s acc c = .ok acc') : acc' < radix ^ (L + 1) := by
  rw [parseDigit] at h
  split at h
  · split at h
    · nomatch h
    · rename_i v _ hv
      cases h
      rw [pow_succ]
      nlinarith
  · nomatch h

theorem parseInBase_lt {radix : Nat} {n : Nat} (h : parseInBase radix s = .ok n) :
    n < radix ^ s.length := by
  suffices hfold : ∀ (t : Text) (acc L n : Nat), acc < radix ^ L →
      t.foldlM (parseDigit radix s) acc = .ok n → n < radix ^ (L + t.length) by
    have := hfold s 0 0 n (by simp) h
    rwa [Nat.zero_add] at this
  intro t
  induction t with
  | nil =>
    intro acc L n hacc hrun
    cases hrun
    exact hacc
  | cons c t ih =>
    intro acc L n hacc hrun
    rw [Except.foldlM_cons_ok] at hrun
    obtain ⟨acc', hstep, hrun⟩ := hrun
    have := ih acc' (L + 1) n (parseDigit_lt hacc hstep) hrun
    rwa [length_cons, Nat.add_comm t.length, ← Nat.add_assoc]

/-- What is printed in a base. -/
structure Printed (radix i : Nat) (s : Text) : Prop where
  digits : Digits radix s
  value : textValue radix s = i
  nonempty : s ≠ []
  length : ∀ L, 0 < L → i < radix ^ L → s.length ≤ L

section

variable {radix : Nat} (hr : 2 ≤ radix) (hr' : radix ≤ 16)

include hr hr'

theorem printLoop_spec {n : Nat} : ∀ (digits : Int) (i : Nat),
    i < n → Digits radix (printLoop radix n digits i) ∧
      textValue radix (printLoop radix n digits i) = i ∧
      (0 < digits → printLoop radix n digits i ≠ []) ∧
      ∀ L : Nat, digits ≤ L → i < radix ^ L → (printLoop radix n digits i).length ≤ L := by
  induction n with
  | zero => exact fun _ _ h => absurd h (Nat.not_lt_zero _)
  | succ n ih =>
    intro digits i hi
    rw [printLoop]
    by_cases h0 : i = 0
    · rw [if_pos h0, h0]
      refine ⟨digits_replicate (by omega) _, textValue_replicate _ _, fun h => ?_, fun L hL _ => ?_⟩
      · exact ne_nil_of_length_pos (by rw [length_replicate]; omega)
      · rw [length_replicate]
        omega
    · rw [if_neg h0]
      have hdiv : i / radix < n := by
        have := Nat.div_lt_self (Nat.pos_of_ne_zero h0) (by omega : 1 < radix)
        omega
      have hmod : i % radix < radix := Nat.mod_lt i (by omega)
      obtain ⟨hdigits, hvalue, -, hlength⟩ := ih (digits - 1) (i / radix) hdiv
      refine ⟨Digits.append.mpr ⟨hdigits, fun c hc => ?_⟩, ?_, fun _ => ?_, fun L hL hlt => ?_⟩
      · exact ⟨i % radix, hmod, mem_singleton.mp hc⟩
      · have hlast : textValue radix [charOfInt (i % radix)] = i % radix := by
          simp [textValue, (charOfInt_spec (i % radix) (by omega)).1]
        rw [textValue_append, hvalue, hlast, length_singleton, pow_one, Nat.div_add_mod']
      · exact append_ne_nil_of_right_ne_nil _ (cons_ne_nil _ _)
      · cases L with
        | zero =>
          rw [pow_zero] at hlt
          omega
        | succ L =>
          rw [pow_succ, Nat.mul_comm] at hlt
          have := hlength L (by omega) (Nat.div_lt_of_lt_mul hlt)
          rw [length_append, length_singleton]
          omega

theorem printLoop_printed (i : Nat) : Printed radix i (printLoop radix (i + 1) 1 i) := by
  obtain ⟨hdigits, hvalue, hne, hlength⟩ := printLoop_spec hr hr' 1 i (Nat.lt_succ_self i)
  exact ⟨hdigits, hvalue, hne (by decide), fun L hL => hlength L (by omega)⟩

theorem printInBase_ok (i : Nat) : ∃ s, printInBase radix none i = .ok s ∧ Printed radix i s :=
  ⟨_, if_neg (by omega), printLoop_printed hr hr' i⟩

end

theorem toString_printed (i : Nat) : Printed 10 i (toString i) := by
  exact printLoop_printed (by decide) (by decide) i

theorem Printed.parse {radix i : Nat} (h : Printed radix i s) (hr : radix ≤ 16) :
    parseInBase radix s = .ok i := by
  rw [parseInBase_ok hr h.digits, h.value]

/-! Integer literals. -/

inductive IntNotation where
  | dec | hex | oct | bin

def IntNotation.radix : IntNotation → Nat
  | .dec => 10
  | .hex => 16
  | .oct => 8
  | .bin => 2

def IntNotation.letter : IntNotation → Text
  | .dec => []
  | .hex => ['0', 'x']
  | .oct => ['0', 'o']
  | .bin => ['0', 'b']

variable (support : NumberSupport)

def NumberSupport.field : IntNotation → Support (Int → Text)
  | .dec =>
    match support.decIntSupport with
    | .default => .default
    | .custom f => .custom f
    | .unsupported f => .custom fun i => f (toString i)
  | .hex => support.hexIntSupport
  | .oct => support.octIntSupport
  | .bin => support.binIntSupport

/-- The notation is supported; a number can always be printed in decimal. -/
def NumberSupport.Supports (n : IntNotation) : Prop :=
  support.field n ≠ .unsupported

/-- The text shows the number in the notation: in its default form, by the formatter of the
field, or by that of long decimal numbers. -/
def NumberSupport.Shows (n : IntNotation) (i : Nat) (s : Text) : Prop :=
  (∃ digits, s = n.letter ++ digits ∧ parseInBase n.radix digits = .ok i) ∨
  (∃ f, support.field n = .custom f ∧ s = f i) ∨
  ∃ f, n = .dec ∧ support.longIntSupport = some f ∧ s = f (toString i)

section

variable {support : NumberSupport} {i : Nat}

theorem printDecInt_shows : support.Shows .dec i (printDecInt support i) := by
  have hshort : support.Shows .dec i (match support.decIntSupport with
      | .default => toString i
      | .custom f => f i
      | .unsupported f => f (toString i)) := by
    cases hd : support.decIntSupport with
    | default => exact .inl ⟨toString i, rfl, (toString_printed i).parse (by decide)⟩
    | custom f => exact .inr (.inl ⟨f, by rw [NumberSupport.field, hd], rfl⟩)
    | unsupported f =>
      exact .inr (.inl ⟨fun i => f (toString i), by rw [NumberSupport.field, hd], rfl⟩)
  rw [printDecInt]
  cases hl : support.longIntSupport with
  | none => exact hshort
  | some f =>
    dsimp only
    split
    · exact .inr (.inr ⟨f, rfl, hl, rfl⟩)
    · exact hshort

theorem supports_dec : support.Supports .dec := by
  rw [NumberSupport.Supports, NumberSupport.field]
  cases support.decIntSupport <;> simp

/-- What a printer of the chain does: its assertion fails, or it shows the number. -/
def Chained (support : NumberSupport) (i : Nat) (x : Except NumberExn Text) : Prop :=
  x = .error .assertFailure ∨ ∃ n s, x = .ok s ∧ support.Supports n ∧ support.Shows n i s

/-- The printer for `m` reads the field of `n`. -/
theorem printBase_chained {n m : IntNotation} {letter : Char} {next : Int → Except NumberExn Text}
    (hl : m.letter = ['0', letter]) (hnext : Chained support i (next i))
    (hn : support.field n = .default → support.Supports m) :
    Chained support i (printBase support (support.field n) letter m.radix next i) := by
  cases hf : support.field n with
  | unsupported => exact hnext
  | custom f =>
    have hsupp : support.Supports n := by
      rw [NumberSupport.Supports, hf]
      nofun
    exact .inr ⟨n, f i, rfl, hsupp, .inr (.inl ⟨f, hf, rfl⟩)⟩
  | default =>
    simp only [printBase]
    by_cases hlong : support.longIntSupport.isSome
    · left
      simp only [hlong]
      rfl
    · have hradix : 2 ≤ m.radix ∧ m.radix ≤ 16 := by cases m <;> decide
      obtain ⟨s, hs, hprinted⟩ := printInBase_ok hradix.1 hradix.2 i
      refine .inr ⟨m, '0' :: letter :: s, ?_, hn hf, .inl ⟨s, ?_, hprinted.parse hradix.2⟩⟩
      · simp only [hlong, hs]
        rfl
      · rw [hl]
        rfl

theorem supports_of_default {n : IntNotation} (h : support.field n = .default) :
    support.Supports n := by
  rw [NumberSupport.Supports, h]
  nofun

theorem printHexInt_chained : Chained support i (printHexInt support i) :=
  printBase_chained (n := .hex) (m := .hex) rfl
    (.inr ⟨.dec, _, rfl, supports_dec, printDecInt_shows⟩) supports_of_default

end

/-- All notations but the binary one. -/
def noBinary : NumberSupport := { fullSupport with binIntSupport := .unsupported }

end Number
end Why3
