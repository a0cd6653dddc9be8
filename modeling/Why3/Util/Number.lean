import Why3.Library.Except

/-!
Numeric literals: values, parsing, printing and the check of float literals.

Big integers are integers and texts are lists of characters. The limits of machine integers
and strings are kept where a literal can reach them: the exponent of a real literal is a
machine integer, and no string is longer than `Sys.max_string_length`.
-/
namespace Why3
namespace Number

abbrev Text := List Char

/-! Big integers. -/

def euclideanDivMod (x y : Int) : Int × Int :=
  if y = 0 then (0, 0) else (x / y, x % y)

def computerDivMod (x y : Int) : Int × Int :=
  let qr := euclideanDivMod x y
  if 0 ≤ x ∨ qr.2 = 0 then qr
  else if y < 0 then (qr.1 - 1, qr.2 + y)
  else (qr.1 + 1, qr.2 - y)

/-- The exponents are not negative where it is called. -/
def powIntPosBigint (b : Nat) (n : Int) : Int := (b : Int) ^ n.toNat

/-! Construction. -/

inductive IntLiteralKind where
  | ilitUnk | ilitDec | ilitHex | ilitOct | ilitBin
deriving DecidableEq

structure RealValue where
  rvSig : Int
  rvPow2 : Int
  rvPow5 : Int
deriving DecidableEq

inductive RealLiteralKind where
  | rlitUnk
  | rlitDec (e : Int)
  | rlitHex (e : Int)
deriving DecidableEq

structure RealConstant where
  rlKind : RealLiteralKind
  rlReal : RealValue
deriving DecidableEq

inductive NumberExn where
  | invalidConstantLiteral (n : Nat) (s : Text)
  | nonRepresentableFloat (c : RealConstant)
  | assertFailure
  | invalidArgument
  | failure
  | outOfFuel
deriving DecidableEq

def compareReal (structural : Bool) (r1 r2 : RealValue) : Ordering :=
  if structural then
    ((compare r1.rvSig r2.rvSig).then (compare r1.rvPow2 r2.rvPow2)).then
      (compare r1.rvPow5 r2.rvPow5)
  else
    let p2Min := min r1.rvPow2 r2.rvPow2
    let p5Min := min r1.rvPow5 r2.rvPow5
    let v1 := powIntPosBigint 2 (r1.rvPow2 - p2Min) * powIntPosBigint 5 (r1.rvPow5 - p5Min)
    let v2 := powIntPosBigint 2 (r2.rvPow2 - p2Min) * powIntPosBigint 5 (r2.rvPow5 - p5Min)
    compare (r1.rvSig * v1) (r2.rvSig * v2)

def negReal (c : RealConstant) : RealConstant :=
  { c with rlReal := { c.rlReal with rvSig := -c.rlReal.rvSig } }

def absReal (c : RealConstant) : RealConstant :=
  { c with rlReal := { c.rlReal with rvSig := c.rlReal.rvSig.natAbs } }

def checkIntegerLiteral (n : Nat) (f : Char → Bool) (s : Text) : Except NumberExn Unit :=
  if s = [] ∨ s.all f = false then .error (.invalidConstantLiteral n s) else .ok ()

def isDec (c : Char) : Bool := '0' ≤ c ∧ c ≤ '9'

def isHex (c : Char) : Bool := isDec c || ('A' ≤ c ∧ c ≤ 'F') || ('a' ≤ c ∧ c ≤ 'f')

/-- The recursion of `normalize`, with a bound on its depth. -/
def normalizeLoop : Nat → Int → Int → Int → Except NumberExn (Int × Int)
  | 0, _, _, _ => .error .outOfFuel
  | n + 1, v, p, e =>
    let dm := computerDivMod v p
    if dm.2 = 0 then do
      let vf ← normalizeLoop n dm.1 (p * p) (e + e)
      let dm := computerDivMod vf.1 p
      if dm.2 = 0 then .ok (dm.1, vf.2 + (e + e)) else .ok (vf.1, vf.2 + e)
    else .ok (v, 0)

def normalize (v p : Int) : Except NumberExn (Int × Int) :=
  normalizeLoop (v.natAbs + 1) v p 1

def realValue (pow2 pow5 i : Int) : Except NumberExn RealValue :=
  if i = 0 then .ok ⟨i, i, i⟩
  else do
    let ip2 ← normalize i 2
    let ip5 ← normalize ip2.1 5
    .ok ⟨ip5.1, pow2 + ip2.2, pow5 + ip5.2⟩

/-! Parsing. -/

def digitValue (c : Char) : Option Nat :=
  if '0' ≤ c ∧ c ≤ '9' then some (c.toNat - '0'.toNat)
  else if 'A' ≤ c ∧ c ≤ 'Z' then some (10 + c.toNat - 'A'.toNat)
  else if 'a' ≤ c ∧ c ≤ 'z' then some (10 + c.toNat - 'a'.toNat)
  else none

variable (radix : Nat)

/-- The next digit of the text `s` is read. -/
def parseDigit (s : Text) (acc : Nat) (c : Char) : Except NumberExn Nat :=
  match digitValue c with
  | some v =>
    if radix ≤ v then .error (.invalidConstantLiteral radix s) else .ok (v + radix * acc)
  | none => .error (.invalidConstantLiteral radix s)

def parseInBase (s : Text) : Except NumberExn Nat := s.foldlM (parseDigit radix s) 0

/-- `Sys.max_string_length` for words of 64 bits. -/
def maxStringLength : Nat := 2 ^ 57 - 9

def maxInt : Int := 2 ^ 62 - 1

def minInt : Int := -2 ^ 62

def stringMake (n : Int) : Except NumberExn Text :=
  if n < 0 ∨ (maxStringLength : Int) < n then .error .invalidArgument
  else .ok (List.replicate n.toNat '0')

def stringCat (s t : Text) : Except NumberExn Text :=
  if s.length + t.length ≤ maxStringLength then .ok (s ++ t) else .error .invalidArgument

def toInt (i : Int) : Except NumberExn Int :=
  if minInt ≤ i ∧ i ≤ maxInt then .ok i else .error .failure

/-- On the texts that `checkExp` accepts. -/
def intOfString (s : Text) : Except NumberExn Int :=
  if s.head? = some '-' then do
    let n ← parseInBase 10 s.tail
    toInt (-n)
  else do
    let n ← parseInBase 10 s
    toInt n

def checkExp (e : Text) : Except NumberExn Unit :=
  if e = [] then .error .invalidArgument
  else checkIntegerLiteral 10 isDec (if e.head? = some '-' then e.tail else e)

def readExp : Option Text → Except NumberExn Int
  | some e => do
    checkExp e
    intOfString e
  | none => .ok 0

def literalKind (e : Int) : Except NumberExn (RealLiteralKind × (Char → Bool)) :=
  if radix = 10 then .ok (.rlitDec e, isDec)
  else if radix = 16 then .ok (.rlitHex e, isHex)
  else .error .assertFailure

def checkDigits (check : Char → Bool) (s : Text) : Except NumberExn Unit :=
  if s = [] then .ok () else checkIntegerLiteral radix check s

/-- The value of the digits `s` with `len` of them after the point. -/
def literalValue (e : Int) (len : Nat) (s : Int) : Except NumberExn RealValue :=
  let f : Int := -len
  let f := if radix = 16 then 4 * f else f
  let e := e + f
  if radix = 10 then realValue e e s else realValue e 0 s

def realLiteral (neg : Bool) (int frac : Text) (exp : Option Text) :
    Except NumberExn RealConstant := do
  let e ← readExp exp
  let kc ← literalKind radix e
  checkDigits radix kc.2 int
  checkDigits radix kc.2 frac
  let t ← stringCat int frac
  let s ← parseInBase radix t
  let r ← literalValue radix e frac.length (if neg then -s else s)
  .ok ⟨kc.1, r⟩

/-! Printing. -/

def charOfInt (i : Nat) : Char :=
  if i < 10 then Char.ofNat (i + '0'.toNat) else Char.ofNat (i + 'A'.toNat - 10)

/-- The recursion of `print_in_base`, with a bound on its depth. -/
def printLoop : Nat → Int → Nat → Text
  | 0, _, _ => []
  | n + 1, digits, i =>
    if i = 0 then List.replicate digits.toNat '0'
    else printLoop n (digits - 1) (i / radix) ++ [charOfInt (i % radix)]

def printInBase (digits : Option Nat) (i : Int) : Except NumberExn Text :=
  if i < 0 then .error .assertFailure
  else .ok (printLoop radix (i.toNat + 1) (digits.getD 1) i.toNat)

def toString (i : Int) : Text :=
  let s := printLoop 10 (i.natAbs + 1) 1 i.natAbs
  if i < 0 then '-' :: s else s

inductive Support (α : Type) where
  | default
  | custom (f : α)
  | unsupported

inductive DecSupport where
  | default
  | custom (f : Int → Text)
  | unsupported (f : Text → Text)

inductive FracSupport where
  | custom (expZero : Text → Text) (expPos expNeg : Text → Text → Text)
  | unsupported (f : Text → Text)

/-- A formatter is the function to the text it prints. -/
structure NumberSupport where
  longIntSupport : Option (Text → Text)
  negativeIntSupport : Option (Text → Text)
  decIntSupport : DecSupport
  hexIntSupport : Support (Int → Text)
  octIntSupport : Support (Int → Text)
  binIntSupport : Support (Int → Text)
  negativeRealSupport : Option (Text → Text)
  decRealSupport : Support (Text → Text → Option Text → Text)
  hexRealSupport : Support (Text → Text → Option Text → Text)
  fracRealSupport : FracSupport

def simplifyMaxInt : Int := 2147483646

def removeMinus : Text → Text
  | '-' :: e => 'm' :: e
  | e => e

variable (support : NumberSupport)

def printDecInt (i : Int) : Text :=
  let short :=
    match support.decIntSupport with
    | .default => toString i
    | .custom f => f i
    | .unsupported f => f (toString i)
  match support.longIntSupport with
  | some f => if simplifyMaxInt < i then f (toString i) else short
  | none => short

/-- A printer of a base with its letter: the default form, unless `field` has another. -/
def printBase (field : Support (Int → Text)) (letter : Char)
    (radix : Nat) (tryNext : Int → Except NumberExn Text) (i : Int) : Except NumberExn Text :=
  match field with
  | .unsupported => tryNext i
  | .default => do
    if support.longIntSupport.isSome then throw .assertFailure
    let s ← printInBase radix none i
    .ok ('0' :: letter :: s)
  | .custom f => .ok (f i)

def printHexInt : Int → Except NumberExn Text :=
  printBase support support.hexIntSupport 'x' 16 fun i => .ok (printDecInt support i)

def printOctInt : Int → Except NumberExn Text :=
  printBase support support.octIntSupport 'o' 8 (printHexInt support)

/-- It reads the field of the octal notation. -/
def printBinInt : Int → Except NumberExn Text :=
  printBase support support.octIntSupport 'b' 2 (printHexInt support)

def printKind : IntLiteralKind → Int → Except NumberExn Text
  | .ilitUnk, i | .ilitDec, i => .ok (printDecInt support i)
  | .ilitBin, i => printBinInt support i
  | .ilitOct, i => printOctInt support i
  | .ilitHex, i => printHexInt support i

def printIntLiteral (k : IntLiteralKind) (i : Int) :
    Except NumberExn Text :=
  if i < 0 then do
    let s ← printKind support k i.natAbs
    .ok ((support.negativeIntSupport.getD fun s => "(- ".toList ++ s ++ [')']) s)
  else printKind support k i

def decRealText (i f : Text) (e : Option Text) : Text :=
  let f := if f = [] then ['0'] else f
  match e with
  | none => i ++ '.' :: f
  | some e => i ++ '.' :: f ++ 'e' :: e

def hexRealText (i f : Text) (e : Option Text) : Text :=
  let f := if f = [] then ['0'] else f
  "0x".toList ++ i ++ '.' :: f ++ 'p' :: e.getD ['0']

def expValue : Option Text → Except NumberExn Int
  | some e => intOfString e
  | none => .ok 0

def numerator (i f : Text) : Except NumberExn Text :=
  if i = ['0'] ∧ f ≠ [] then .ok f else stringCat i f

def tenPower (e : Int) : Except NumberExn Text := do
  let zeros ← stringMake e
  stringCat ['1'] zeros

/-- The fraction that a decimal literal is given to the callbacks as. -/
def decFrac (expZero : Text → Text) (expPos expNeg : Text → Text → Text) (i f : Text)
    (e : Option Text) : Except NumberExn Text := do
  let f := if f = ['0'] then [] else f
  let e ← expValue e
  let e := e - f.length
  let n ← numerator i f
  if e = 0 then .ok (expZero n)
  else if 0 < e then do
    let d ← tenPower e
    .ok (expPos n d)
  else do
    let d ← tenPower (-e)
    .ok (expNeg n d)

def hexFrac (expZero : Text → Text) (expPos expNeg : Text → Text → Text) (i f : Text)
    (e : Option Text) : Except NumberExn Text := do
  let f := if f = ['0'] then [] else f
  let n := toString (← parseInBase 16 (← stringCat i f))
  let e ← expValue e
  let e := e - 4 * f.length
  if e = 0 then .ok (expZero n)
  else if 0 < e then .ok (expPos n (toString (powIntPosBigint 2 e)))
  else .ok (expNeg n (toString (powIntPosBigint 2 (-e))))

def fallbackText (sep : Char) (i f : Text) (e : Option Text) : Text :=
  i ++ '_' :: f ++ '_' :: sep :: (match e with
    | none => ['0']
    | some e => removeMinus e)

def printDecReal (i f : Text) (e : Option Text) :
    Except NumberExn Text :=
  match support.decRealSupport with
  | .default => .ok (decRealText i f e)
  | .custom p => .ok (p i f e)
  | .unsupported =>
    match support.fracRealSupport with
    | .custom expZero expPos expNeg => decFrac expZero expPos expNeg i f e
    | .unsupported k => .ok (k (fallbackText 'e' i f e))

def printHexReal (i f : Text) (e : Option Text) :
    Except NumberExn Text :=
  match support.hexRealSupport with
  | .default => .ok (hexRealText i f e)
  | .custom p => .ok (p i f e)
  | .unsupported =>
    match support.fracRealSupport with
    | .custom expZero expPos expNeg => hexFrac expZero expPos expNeg i f e
    | .unsupported k => .ok (k ("0x".toList ++ fallbackText 'p' i f e))

/-- Zeros before the digits, so that one stands before the last `p`; with the new length. -/
def padDigits (s : Text) (p : Int) : Except NumberExn (Text × Int) := do
  let n : Int := s.length
  if n ≤ p then do
    let zeros ← stringMake (p + 1 - n)
    let t ← stringCat zeros s
    .ok (t, p + 1)
  else .ok (s, n)

def stringSub (s : Text) (start len : Int) : Except NumberExn Text :=
  if start < 0 ∨ len < 0 ∨ (s.length : Int) < start + len then .error .invalidArgument
  else .ok ((s.drop start.toNat).take len.toNat)

/-- The digits are cut `p` places from the end. -/
def cutDigits (s : Text) (p : Int) : Except NumberExn (Text × Text) := do
  let sn ← padDigits s p
  let i ← stringSub sn.1 0 (sn.2 - p)
  let f ← stringSub sn.1 (sn.2 - p) p
  .ok (i, if f = [] then ['0'] else f)

def expText (k : Int) : Option Text := if k = 0 then none else some (toString k)

def printDecConstant (k : Int) (r : RealValue) :
    Except NumberExn Text := do
  let e := min (min r.rvPow2 r.rvPow5) k
  let i := r.rvSig * powIntPosBigint 2 (r.rvPow2 - e) * powIntPosBigint 5 (r.rvPow5 - e)
  let p ← toInt (k - e)
  let x ← cutDigits (toString i) p
  printDecReal support x.1 x.2 (expText k)

def printHexConstant (k : Int) (r : RealValue) :
    Except NumberExn Text :=
  let e := if r.rvPow2 < k then r.rvPow2 - (r.rvPow2 - k) % 4 else k
  if r.rvPow5 < 0 then .error .assertFailure
  else do
    let i := r.rvSig * powIntPosBigint 2 (r.rvPow2 - e) * powIntPosBigint 5 r.rvPow5
    let i ← printInBase 16 none i
    let p ← toInt (k - e)
    if p.tmod 4 ≠ 0 then .error .assertFailure
    else do
      let x ← cutDigits i (p.tdiv 4)
      printHexReal support x.1 x.2 (expText k)

def printRealAbs (c : RealConstant) : Except NumberExn Text :=
  match c.rlKind with
  | .rlitDec e => printDecConstant support e c.rlReal
  | .rlitHex e => printHexConstant support e c.rlReal
  | .rlitUnk =>
    -- an exponent that is no machine integer is kept
    let e := min c.rlReal.rvPow2 c.rlReal.rvPow5
    printDecConstant support (if 0 ≤ e ∧ e ≤ 2 then 0 else e) c.rlReal

def printRealConstant (c : RealConstant) : Except NumberExn Text :=
  if c.rlReal.rvSig < 0 then do
    let s ← printRealAbs support (negReal c)
    .ok ((support.negativeRealSupport.getD fun s => "(- ".toList ++ s ++ [')']) s)
  else printRealAbs support c

/-- The default forms; the last field is not read then. -/
def fullSupport : NumberSupport where
  longIntSupport := none
  negativeIntSupport := none
  decIntSupport := .default
  hexIntSupport := .default
  octIntSupport := .default
  binIntSupport := .default
  negativeRealSupport := none
  decRealSupport := .default
  hexRealSupport := .default
  fracRealSupport := .unsupported id

/-! Float checks. -/

structure FloatFormat where
  fpExponentDigits : Int
  fpSignificandDigits : Int

def floatParser (c : RealConstant) : Except NumberExn (Int × Int) :=
  if c.rlReal.rvPow5 < 0 then .error (.nonRepresentableFloat c)
  else .ok (c.rlReal.rvSig * powIntPosBigint 5 c.rlReal.rvPow5, c.rlReal.rvPow2)

/-- The first loop: the zeros at the end of the significand are removed. -/
def removeZeros (c : RealConstant) (smax emin : Int) : Nat → Int → Int →
    Except NumberExn (Int × Int)
  | 0, _, _ => .error .outOfFuel
  | n + 1, s, e =>
    if smax < s ∨ e < emin then
      let qr := euclideanDivMod s 2
      if qr.2 ≠ 0 then .error (.nonRepresentableFloat c)
      else removeZeros c smax emin n qr.1 (e + 1)
    else .ok (s, e)

/-- The second loop: zeros are added at the end of the significand. -/
def addZeros (smin emin : Int) : Nat → Int → Int → Except NumberExn (Int × Int)
  | 0, _, _ => .error .outOfFuel
  | n + 1, s, e =>
    if s < smin ∧ emin < e then addZeros smin emin n (2 * s) (e - 1) else .ok (s, e)

/-- The end of `compute_float`, with the significand and the exponent that the loops leave. -/
def floatFields (c : RealConstant) (fp : FloatFormat) (s e : Int) :
    Except NumberExn (Int × Int) := do
  let sb := fp.fpSignificandDigits
  let smin := powIntPosBigint 2 (sb - 1)
  let emax := powIntPosBigint 2 (fp.fpExponentDigits - 1)
  if s < smin then .ok (0, s)
  else do
    let fe := e + (sb - 1)
    if emax ≤ fe then .error (.nonRepresentableFloat c)
    else do
      let fe := fe + (emax - 1)
      let fs := s - smin
      if 0 ≤ fs ∧ fs < powIntPosBigint 2 (sb - 1) ∧ 0 ≤ fe ∧
          fe < powIntPosBigint 2 fp.fpExponentDigits - 1 then .ok (fe, fs)
      else .error .assertFailure

def computeFloat (c : RealConstant) (fp : FloatFormat) : Except NumberExn (Int × Int) := do
  let sb := fp.fpSignificandDigits
  let smin := powIntPosBigint 2 (sb - 1)
  let smax := powIntPosBigint 2 sb - 1
  let emax := powIntPosBigint 2 (fp.fpExponentDigits - 1)
  let eden := 1 - emax
  let emin := 2 + eden - sb
  let se ← floatParser c
  if se.1 = 0 then .ok (0, 0)
  else do
    let se ← removeZeros c smax emin (se.1.natAbs + 1) se.1 se.2
    let se ← addZeros smin emin ((se.2 - emin).toNat + 1) se.1 se.2
    floatFields c fp se.1 se.2

end Number
end Why3
