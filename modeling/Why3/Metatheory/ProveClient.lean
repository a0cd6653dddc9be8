import Why3.Driver.ProveClient
import Why3.Library.Except
import Why3.Metatheory.ServerBuffers
import Why3.Server.Readbuf

/-!
The protocol between the client and the server of provers.

What one side sends as a sequence of lines is read back by the other, however the bytes
are cut into reads. The server moves the rest of its buffer to the front after each
read; that is only defined if the rest is not longer than what was taken.
-/
namespace Why3

open List

variable {c : Char} {field rest word : Text}

namespace ProveClient

open Server

/-! Numbers. -/

theorem isDigit_of_mem_repr {n : Nat} (hc : c ∈ (Nat.repr n).toList) : c.isDigit = true := by
  rw [Nat.toList_repr] at hc
  exact Nat.isDigit_of_mem_toDigits (by omega) (by omega) hc

theorem repr_ne_nil (n : Nat) : (Nat.repr n).toList ≠ [] := by
  rw [Nat.toList_repr]
  exact Nat.toDigits_ne_nil

theorem digitsValue_repr (n : Nat) : digitsValue (Nat.repr n).toList = n := by
  rw [Nat.toList_repr]
  exact Nat.ofDigitChars_ten_toDigits

variable {n : Int} {s : Text}

/-- The characters of numbers. -/
theorem mem_stringOfInt (hc : c ∈ stringOfInt n) : c.isDigit = true ∨ c = '-' := by
  cases n with
  | ofNat n => exact .inl (isDigit_of_mem_repr hc)
  | negSucc n =>
    cases mem_cons.mp hc with
    | inl h => exact .inr h
    | inr h => exact .inl (isDigit_of_mem_repr h)

theorem not_mem_stringOfInt (hc : c.isDigit = false) (hne : c ≠ '-') : c ∉ stringOfInt n := by
  intro hmem
  cases mem_stringOfInt hmem with
  | inl h => rw [h] at hc; cases hc
  | inr h => exact hne h

theorem plainField_stringOfInt (n : Int) : PlainField (stringOfInt n) :=
  ⟨not_mem_stringOfInt (by decide) (by decide), not_mem_stringOfInt (by decide) (by decide)⟩

theorem takeWhile_isDigit_repr (n : Nat) :
    (Nat.repr n).toList.takeWhile Char.isDigit = (Nat.repr n).toList :=
  takeWhile_eq_self_iff.mpr fun _ hc => isDigit_of_mem_repr hc

theorem not_isWhitespace_of_isDigit (h : c.isDigit = true) : c.isWhitespace = false := by
  rw [Char.isDigit, Bool.and_eq_true, decide_eq_true_iff] at h
  have hne : ∀ d : Char, d.val < 48 → c ≠ d := by
    rintro d hd rfl
    exact absurd h.1 (UInt32.not_le.mpr hd)
  simp [Char.isWhitespace, hne ' ' (by decide), hne '\t' (by decide), hne '\r' (by decide),
    hne '\n' (by decide)]

/-- A number that fits in a C integer is read back. -/
theorem atoi_stringOfInt (hlo : -2 ^ 31 ≤ n) (hhi : n < 2 ^ 31) : atoi (stringOfInt n) = n := by
  cases n with
  | ofNat n =>
    obtain ⟨c, l, hl⟩ := exists_cons_of_ne_nil (repr_ne_nil n)
    have hc : c.isDigit = true := isDigit_of_mem_repr (hl ▸ mem_cons_self)
    have hdrop : (c :: l).dropWhile Char.isWhitespace = c :: l :=
      dropWhile_cons_of_neg (by rw [not_isWhitespace_of_isDigit hc]; exact Bool.false_ne_true)
    have hminus : c ≠ '-' := by
      rintro rfl
      cases hc
    have hplus : c ≠ '+' := by
      rintro rfl
      cases hc
    have htake := takeWhile_isDigit_repr n
    have hval := digitsValue_repr n
    rw [hl] at htake hval
    simp only [atoi, stringOfInt, hl, hdrop]
    split
    next h => exact absurd (List.cons.inj h).1 hminus
    next h => exact absurd (List.cons.inj h).1 hplus
    next =>
      simp only [htake, Bool.false_eq_true, if_false]
      rw [Int.ofNat_eq_natCast] at hlo hhi ⊢
      omega
  | negSucc n =>
    have hdrop : ('-' :: (Nat.repr (n + 1)).toList).dropWhile Char.isWhitespace =
        '-' :: (Nat.repr (n + 1)).toList := rfl
    simp only [atoi, stringOfInt, hdrop, takeWhile_isDigit_repr, digitsValue_repr, if_true]
    omega

theorem digitVal_of_isDigit (h : c.isDigit = true) : digitVal c = some (c.toNat - '0'.toNat) := by
  rw [digitVal, if_pos h]

theorem toNat_sub_lt_ten (h : c.isDigit = true) : c.toNat - '0'.toNat < 10 := by
  rw [Char.isDigit, Bool.and_eq_true, decide_eq_true_iff, decide_eq_true_iff] at h
  have hle : c.toNat ≤ 57 := UInt32.le_iff_toNat_le.mp h.2
  have hzero : '0'.toNat = 48 := rfl
  omega

theorem readDigits_ten (hs : ∀ c ∈ s, c.isDigit = true) (n : Nat) :
    readDigits 10 n s = some (Nat.ofDigitChars 10 s n) := by
  induction s generalizing n with
  | nil => rfl
  | cons c s ih =>
    have hc := hs c mem_cons_self
    have hne : c ≠ '_' := by
      rintro rfl
      cases hc
    rw [readDigits, if_neg hne, digitVal_of_isDigit hc]
    simp only [if_pos (toNat_sub_lt_ten hc)]
    rw [ih (forall_mem_cons.mp hs).2]
    rfl

theorem baseOf_digits (hs : ∀ c ∈ s, c.isDigit = true) : baseOf s = (10, true, s) := by
  rw [baseOf.eq_def]
  split
  all_goals first
    | rfl
    | exact absurd (hs _ (mem_cons_of_mem _ mem_cons_self)) (by decide)

theorem signOf_digits (hs : ∀ c ∈ s, c.isDigit = true) : signOf s = (false, s) := by
  rw [signOf.eq_def]
  split
  · exact absurd (hs _ mem_cons_self) (by decide)
  · exact absurd (hs _ mem_cons_self) (by decide)
  · rfl

theorem intOfString_stringOfInt {bits : Nat} (hlo : -2 ^ (bits - 1) ≤ n)
    (hhi : n < 2 ^ (bits - 1)) : intOfString bits (stringOfInt n) = some n := by
  have hdigits : ∀ m : Nat, ∀ c ∈ (Nat.repr m).toList, c.isDigit = true :=
    fun m c hc => isDigit_of_mem_repr hc
  have hhead : ∀ m : Nat, ¬ ((Nat.repr m).toList.head? = none ∨
      (Nat.repr m).toList.head? = some '_') := by
    intro m
    obtain ⟨c, l, hl⟩ := exists_cons_of_ne_nil (repr_ne_nil m)
    have hc : c.isDigit = true := isDigit_of_mem_repr (hl ▸ mem_cons_self)
    rw [hl]
    rintro (h | h)
    · cases h
    · cases h
      cases hc
  have hread : ∀ m : Nat, readDigits 10 0 (Nat.repr m).toList = some m := by
    intro m
    rw [readDigits_ten (hdigits m)]
    exact congrArg some (digitsValue_repr m)
  cases n with
  | ofNat n =>
    rw [intOfString, stringOfInt, signOf_digits (hdigits n)]
    simp only [baseOf_digits (hdigits n), if_neg (hhead n), hread,
      if_true]
    rw [if_pos ⟨hlo, hhi⟩]
    rfl
  | negSucc n =>
    have hneg : -((n + 1 : Nat) : Int) = Int.negSucc n := rfl
    simp only [intOfString, stringOfInt, signOf, baseOf_digits (hdigits (n + 1)),
      if_neg (hhead (n + 1)), hread, if_true, hneg]
    rw [if_pos ⟨hlo, hhi⟩]

end ProveClient

namespace Server

/-! Lines in the read buffer. -/

theorem completeLines_newline (line field rest : Text) (h : '\n' ∉ field) :
    completeLines line (field ++ '\n' :: rest) =
      ((line ++ field) :: (completeLines [] rest).1, (completeLines [] rest).2) := by
  rw [completeLines_append, completeLines_of_not_mem h]
  rfl

theorem completeLines_suffix (line buf : Text) : (completeLines line buf).2 <:+ line ++ buf := by
  induction buf generalizing line with
  | nil =>
    rw [append_nil]
    exact suffix_rfl
  | cons c buf ih =>
    rw [completeLines]
    split
    · exact (ih []).trans ⟨line ++ [c], by simp⟩
    · have hsuffix := ih (line ++ [c])
      rwa [append_assoc, singleton_append] at hsuffix

/-- Either no line is complete, or one is. -/
theorem completeLines_cases (buf : Text) :
    '\n' ∉ buf ∨ ∃ field rest, '\n' ∉ field ∧ buf = field ++ '\n' :: rest := by
  by_cases h : '\n' ∈ buf
  · obtain ⟨field, rest, hfield, hbuf⟩ := eq_append_cons_of_mem h
    exact .inr ⟨field, rest, hbuf, hfield⟩
  · exact .inl h

variable (key : Nat)

/-- The calls of `parse_request` for some lines. -/
def parseLines : Int → List Text → List ParseCall
  | _, [] => []
  | parallel, line :: lines =>
    let r := parseRequest line key parallel
    r :: parseLines r.2 lines

theorem parseLines_append (parallel : Int) (lines lines' : List Text) :
    parseLines key parallel (lines ++ lines') = parseLines key parallel lines ++
        parseLines key (parallelAfter parallel (parseLines key parallel lines)) lines' := by
  induction lines generalizing parallel with
  | nil => rfl
  | cons line lines ih =>
    rw [cons_append, parseLines, ih]
    rfl

theorem nextNewline_of_not_mem {buf : Text} {cur : Nat} (hcur : cur ≤ buf.length)
    (h : '\n' ∉ buf.drop cur) : nextNewline buf cur = buf.length := by
  have htake : (buf.drop cur).takeWhile (· ≠ '\n') = buf.drop cur := by
    refine takeWhile_eq_self_iff.mpr fun c hc => ?_
    simpa using fun heq : c = '\n' => h (heq ▸ hc)
  rw [nextNewline, htake, length_drop]
  omega

theorem nextNewline_of_line {buf : Text} {cur : Nat} (hfield : '\n' ∉ field)
    (h : buf.drop cur = field ++ '\n' :: rest) : nextNewline buf cur = cur + field.length := by
  have htake : (field ++ '\n' :: rest).takeWhile (· ≠ '\n') = field := by
    rw [takeWhile_append_of_pos, takeWhile_cons_of_neg (by simp), append_nil]
    intro c hc
    simpa using fun heq : c = '\n' => hfield (heq ▸ hc)
  rw [nextNewline, h, htake]

/-- The loop calls `parse_request` for each complete line. -/
theorem handleLoop_eq (buf : Text) {fuel old : Nat} (parallel : Int)
    (hold : old ≤ buf.length) (hfuel : buf.length ≤ fuel + old) :
    handleLoop key buf fuel old parallel =
      (parseLines key parallel (completeLines [] (buf.drop old)).1,
        buf.length - (completeLines [] (buf.drop old)).2.length) := by
  induction fuel generalizing old parallel with
  | zero =>
    have heq : old = buf.length := by omega
    rw [heq, drop_length]
    rfl
  | succ fuel ih =>
    rw [handleLoop]
    rcases completeLines_cases (buf.drop old) with hno | ⟨field, rest, hfield, hdrop⟩
    · rw [if_pos (nextNewline_of_not_mem hold hno), completeLines_of_not_mem hno,
        nil_append, length_drop]
      have hsub : buf.length - (buf.length - old) = old := by omega
      rw [hsub]
      rfl
    · have hlen : buf.length - old = field.length + (rest.length + 1) := by
        rw [← length_drop, hdrop, length_append, length_cons]
      have hnext : buf.drop (old + field.length + 1) = rest := by
        have hdrop' := congrArg (List.drop (field.length + 1)) hdrop
        rw [drop_drop] at hdrop'
        rw [Nat.add_assoc, hdrop']
        simp
      have htake : (buf.drop old).take (old + field.length - old) = field := by
        rw [Nat.add_sub_cancel_left, hdrop, take_left]
      have hne : ¬ old + field.length = buf.length := by omega
      simp only [nextNewline_of_line hfield hdrop, htake]
      rw [if_neg hne, ih _ (by omega) (by omega), hnext, hdrop, completeLines_newline [] _ _ hfield]
      rfl

/-! Reads. -/

theorem Readbuf.haveRead_ok (b : Readbuf) {bytes : Text} (hbytes : bytes.length ≤ readOnce) :
    ∃ b', (b.prepareRead readOnce).haveRead bytes = .ok b' ∧ b'.data = b.data ++ bytes := by
  have hfits := b.fits
  have hdata : (b.prepareRead readOnce).data = b.data := by
    rw [Readbuf.prepareRead]
    split
    · rfl
    · rfl
  have hcap : (b.prepareRead readOnce).capacity ≥ (b.prepareRead readOnce).len + bytes.length := by
    rw [Readbuf.len, Readbuf.prepareRead]
    split
    next h =>
      simp only
      omega
    next h =>
      rw [Readbuf.len] at h
      omega
  rw [Readbuf.haveRead, dif_pos hcap]
  exact ⟨_, rfl, congrArg (· ++ bytes) hdata⟩

variable {b : Readbuf}

/-- The rest of the buffer is moved into the place of the lines before it. -/
theorem Readbuf.haveTaken_ok (hrest : rest <:+ b.data) (hle : rest.length ≤ b.len - rest.length) :
    ∃ b', b.haveTaken (b.len - rest.length) = .ok b' ∧ b'.data = rest := by
  obtain ⟨taken, hdata⟩ := hrest
  have hlen : b.len = taken.length + rest.length := by
    rw [Readbuf.len, ← hdata, length_append]
  have hover : overlaps (b.len - rest.length) (b.len - (b.len - rest.length)) = false := by
    rw [overlaps, decide_eq_false_iff_not]
    omega
  rw [Readbuf.haveTaken, if_pos (Nat.sub_le _ _), hover]
  refine ⟨_, rfl, ?_⟩
  have hsub : b.len - rest.length = taken.length := by omega
  simp only [hsub, ← hdata, drop_left]

theorem Readbuf.handleMsg_ok (parallel : Int)
    (hfits : (completeLines [] b.data).1 ≠ [] →
      (completeLines [] b.data).2.length ≤ b.len - (completeLines [] b.data).2.length) :
    ∃ b', b.handleMsg key parallel = .ok (parseLines key parallel (completeLines [] b.data).1, b') ∧
      b'.data = (completeLines [] b.data).2 := by
  have hloop := handleLoop_eq key b.data parallel (Nat.zero_le _) (Nat.le_refl b.data.length)
  rw [drop_zero] at hloop
  simp only [Readbuf.handleMsg, Readbuf.len, hloop]
  have hsuffix := completeLines_suffix [] b.data
  rcases completeLines_cases b.data with hno | ⟨field, rest, hfield, hdata⟩
  · rw [completeLines_of_not_mem hno, nil_append, Nat.sub_self]
    exact ⟨b, rfl, rfl⟩
  · have hlines : (completeLines [] b.data).1 ≠ [] := by
      rw [hdata, completeLines_newline [] _ _ hfield]
      exact cons_ne_nil _ _
    have hpos : b.data.length - (completeLines [] b.data).2.length > 0 := by
      have hlen := (completeLines_suffix [] rest).length_le
      rw [hdata, completeLines_newline [] _ _ hfield, length_append, length_cons]
      simp only [nil_append] at hlen ⊢
      omega
    obtain ⟨b', htaken, hb'⟩ := Readbuf.haveTaken_ok hsuffix (hfits hlines)
    rw [Readbuf.len] at htaken
    rw [if_pos hpos, htaken]
    exact ⟨b', rfl, hb'⟩

/-- What a read leaves in the buffer is no longer than the lines it takes. -/
def FitsAfter (rest bytes : Text) : Prop :=
  (completeLines rest bytes).1 ≠ [] →
    (completeLines rest bytes).2.length ≤
      (rest ++ bytes).length - (completeLines rest bytes).2.length

instance (rest bytes : Text) : Decidable (FitsAfter rest bytes) :=
  inferInstanceAs (Decidable (_ → _))

/-- Reading a chunk calls `parse_request` for each line that the chunk completes. -/
theorem Readbuf.readOnClient_ok (hb : '\n' ∉ b.data) (key : Nat) (parallel : Int) {bytes : Text}
    (hbytes : bytes.length ≤ readOnce) (hfits : FitsAfter b.data bytes) :
    ∃ b', b.readOnClient key parallel bytes =
        .ok (parseLines key parallel (completeLines b.data bytes).1, b') ∧
      b'.data = (completeLines b.data bytes).2 := by
  obtain ⟨b1, hread, hdata⟩ := b.haveRead_ok hbytes
  have hlines : completeLines [] b1.data = completeLines b.data bytes := by
    rw [hdata, completeLines_rest_append hb]
  obtain ⟨b2, hmsg, hdata2⟩ := Readbuf.handleMsg_ok (b := b1) key parallel (by
    rwa [hlines, Readbuf.len, hdata])
  rw [hlines] at hmsg hdata2
  refine ⟨b2, ?_, hdata2⟩
  rw [Readbuf.readOnClient, hread]
  exact hmsg

/-- At each read the bytes that stay fit into the place of the lines that are taken. -/
def Fits : Text → List Text → Prop
  | _, [] => True
  | rest, bytes :: chunks => FitsAfter rest bytes ∧ Fits (completeLines rest bytes).2 chunks

instance decidableFits : (rest : Text) → (chunks : List Text) → Decidable (Fits rest chunks)
  | _, [] => isTrue trivial
  | rest, bytes :: chunks =>
    have := decidableFits (completeLines rest bytes).2 chunks
    inferInstanceAs (Decidable (_ ∧ _))

/-- However the bytes are cut, `parse_request` is called for each line. -/
theorem Readbuf.readChunks_ok (hb : '\n' ∉ b.data) (key : Nat) (parallel : Int) {chunks : List Text}
    (hchunks : ∀ bytes ∈ chunks, bytes.length ≤ readOnce) (hfits : Fits b.data chunks) :
    ∃ b', b.readChunks key parallel chunks =
        .ok (parseLines key parallel (completeLines b.data chunks.flatten).1, b') ∧
      b'.data = (completeLines b.data chunks.flatten).2 := by
  induction chunks generalizing b parallel with
  | nil => exact ⟨b, rfl, rfl⟩
  | cons bytes chunks ih =>
    obtain ⟨b1, hread, hdata1⟩ := Readbuf.readOnClient_ok hb key parallel
      (hchunks bytes mem_cons_self) hfits.1
    have hb1 : '\n' ∉ b1.data := by
      rw [hdata1]
      exact not_mem_completeLines_rest hb bytes
    obtain ⟨b2, hrest, hdata2⟩ := ih hb1
      (parallelAfter parallel (parseLines key parallel (completeLines b.data bytes).1))
      (forall_mem_cons.mp hchunks).2 (hdata1 ▸ hfits.2)
    rw [flatten_cons, completeLines_append, parseLines_append, ← hdata1]
    refine ⟨b2, ?_, hdata2⟩
    simp only [Readbuf.readChunks, hread, bind, Except.bind, hrest]

/-! Lines of the requests. -/

theorem parseRequest_argument {arg : Text} (hword : PlainField word) (harg : PlainField arg)
    (key : Nat) (parallel : Int) : parseRequest (word ++ ';' :: arg) key parallel =
      if strncmpEq word "parallel".toList (word.length + 1) then
        (none, if 1 ≤ atoi arg then atoi arg else parallel)
      else if strncmpEq word "interrupt".toList (word.length + 1) then
        (some ⟨key, .reqInterrupt, arg, 0, 0, false, [], []⟩, parallel)
      else (none, parallel) := by
  have hcount : countSemicolons (word ++ ';' :: arg) = 1 := by
    simp only [countSemicolons, count_append, count_cons_self,
      count_eq_zero.mpr hword.1, count_eq_zero.mpr harg.1]
  have hstart : word ++ ';' :: arg = [] ++ (word ++ ';' :: arg) := rfl
  obtain ⟨hfirst, hnext⟩ := copyUpToSemicolon_field hword hstart
  have hsecond := copyUpToSemicolon_last harg hnext
  have hlen : ([] ++ word ++ [';']).length = word.length + 1 := by simp
  rw [hlen] at hfirst hsecond
  rw [length_nil] at hfirst
  simp only [parseRequest, hcount, hfirst, hsecond]
  rfl

end Server

namespace ProveClient

open Server

theorem not_mem_fields (hfield : '\n' ∉ field) (hrest : '\n' ∉ rest) :
    '\n' ∉ field ++ ';' :: rest := by
  rw [mem_append, mem_cons, not_or, not_or]
  exact ⟨hfield, by decide, hrest⟩

/-- The calls that send a request. -/
inductive ClientRequest where
  | run (id timelimit memlimit : Int) (useStdin : Option Text) (cmd : Text) (args : List Text)
  | interrupt (id : Int)
  | parallel (x : Int)
deriving DecidableEq, Repr

namespace ClientRequest

/-- The bytes that are sent, none when the call raises an exception. -/
def text : ClientRequest → Text
  | .run id timelimit memlimit useStdin cmd args =>
    sendRequest id timelimit memlimit useStdin (cmd :: args)
  | .interrupt id => sendInterrupt id
  | .parallel x => (setMaxRunningProvers x).getD []

/-- A word of a command: no separator, no newline and no zero byte. -/
def Word (s : Text) : Prop := PlainField s ∧ '\n' ∉ s

def CInt (n : Int) : Prop := -2 ^ 31 ≤ n ∧ n < 2 ^ 31

/-- The arguments are such that a request is sent and its numbers are read back. -/
def Ok : ClientRequest → Prop
  | .run _ timelimit memlimit useStdin cmd args =>
    CInt timelimit ∧ CInt memlimit ∧ Word cmd ∧ (∀ a ∈ args, Word a) ∧
      ∀ s ∈ useStdin, Word s
  | .interrupt _ => True
  | .parallel x => CInt x ∧ 1 ≤ x

/-- The memory limit is an unsigned number of the server. -/
def MemlimitOk : ClientRequest → Prop
  | .run _ _ memlimit _ _ _ => 0 ≤ memlimit
  | _ => True

instance (s : Text) : Decidable (Word s) := inferInstanceAs (Decidable ((_ ∧ _) ∧ _))

instance (n : Int) : Decidable (CInt n) := inferInstanceAs (Decidable (_ ∧ _))

instance : DecidablePred Ok
  | .run _ _ _ _ _ _ => inferInstanceAs (Decidable (_ ∧ _))
  | .interrupt _ => inferInstanceAs (Decidable True)
  | .parallel _ => inferInstanceAs (Decidable (_ ∧ _))

instance : DecidablePred MemlimitOk
  | .run _ _ _ _ _ _ => inferInstanceAs (Decidable (_ ≤ _))
  | .interrupt _ => inferInstanceAs (Decidable True)
  | .parallel _ => inferInstanceAs (Decidable True)

/-- What `parse_request` has to return for a request. -/
def call (key : Nat) (limit : Int) : ClientRequest → ParseCall
  | .run id timelimit memlimit useStdin cmd args =>
    (some ⟨key, .reqRun, stringOfInt id, timelimit, memlimit, useStdin.isSome, cmd,
      args ++ useStdin.toList⟩, limit)
  | .interrupt id => (some ⟨key, .reqInterrupt, stringOfInt id, 0, 0, false, [], []⟩, limit)
  | .parallel x => (none, x)

def calls (key : Nat) : Int → List ClientRequest → List ParseCall
  | _, [] => []
  | limit, r :: rs => r.call key limit :: calls key (r.call key limit).2 rs

/-- The word that starts a request to run a prover. -/
def runWord (stdin : Bool) : Text := (if stdin then "runstdin" else "run").toList

theorem word_runWord (stdin : Bool) : Word (runWord stdin) := by
  cases stdin with
  | true | false => exact ⟨⟨by decide, by decide⟩, by decide⟩

theorem strncmpEq_runWord (stdin : Bool) :
    strncmpEq (runWord stdin) "run".toList ((runWord stdin).length + 1) = !stdin ∧
      (!stdin || strncmpEq (runWord stdin) "runstdin".toList ((runWord stdin).length + 1)) = true := by
  cases stdin with
  | true | false => exact ⟨by decide, by decide⟩

theorem runWord_semicolon (stdin : Bool) :
    (if stdin then "runstdin;" else "run;").toList = runWord stdin ++ [';'] := by
  cases stdin with
  | true => decide
  | false => decide

theorem requestLine_newline {start : Text} (hstart : start = word ++ [';'])
    (id timeout memlimit cmd : Text) (args : List Text) (useStdin : Option Text) :
    start ++ id ++ [';'] ++ timeout ++ [';'] ++ memlimit ++ (cmd :: args).flatMap (';' :: ·) ++
        (match useStdin with
          | none => []
          | some s => ';' :: s) ++ ['\n'] =
      requestLine word id timeout memlimit cmd (args ++ useStdin.toList) ++ ['\n'] := by
  rw [hstart, requestLine]
  cases useStdin with
  | none => simp
  | some s => simp

theorem sendRequest_eq (id timelimit memlimit : Int) (useStdin : Option Text) (cmd : Text)
    (args : List Text) : sendRequest id timelimit memlimit useStdin (cmd :: args) =
      requestLine (runWord useStdin.isSome) (stringOfInt id) (stringOfInt timelimit)
        (stringOfInt memlimit) cmd (args ++ useStdin.toList) ++ ['\n'] :=
  requestLine_newline (runWord_semicolon _) _ _ _ _ _ _

theorem argumentLine_newline {start : Text} (hstart : start = word ++ [';']) (arg : Text) :
    start ++ arg ++ ['\n'] = word ++ ';' :: arg ++ ['\n'] := by
  rw [hstart, append_assoc word, singleton_append]

theorem not_mem_requestLine {id timeout memlimit cmd : Text} {args : List Text}
    (hword : '\n' ∉ word) (hid : '\n' ∉ id) (htimeout : '\n' ∉ timeout)
    (hmemlimit : '\n' ∉ memlimit) (hcmd : '\n' ∉ cmd) (hargs : ∀ a ∈ args, '\n' ∉ a) :
    '\n' ∉ requestLine word id timeout memlimit cmd args := by
  have hflat : '\n' ∉ args.flatMap (';' :: ·) := by
    intro h
    obtain ⟨a, ha, hmem⟩ := mem_flatMap.mp h
    cases mem_cons.mp hmem with
    | inl h => cases h
    | inr h => exact hargs a ha h
  refine not_mem_fields hword (not_mem_fields hid (not_mem_fields htimeout
    (not_mem_fields hmemlimit ?_)))
  rw [mem_append, not_or]
  exact ⟨hcmd, hflat⟩

/-- A request is one line, from which it is read back. -/
theorem exists_line {r : ClientRequest} (h : r.Ok) (hmem : r.MemlimitOk) :
    ∃ line, r.text = line ++ ['\n'] ∧ '\n' ∉ line ∧
      ∀ key limit, parseRequest line key limit = r.call key limit := by
  have hnum : ∀ n : Int, '\n' ∉ stringOfInt n := fun n =>
    not_mem_stringOfInt (by decide) (by decide)
  cases r with
  | run id timelimit memlimit useStdin cmd args =>
    obtain ⟨htime, hlimit, hcmd, hargs, hstdin⟩ := h
    have hall : ∀ a ∈ args ++ useStdin.toList, Word a :=
      forall_mem_append.mpr ⟨hargs, fun a ha => hstdin a (Option.mem_toList.mp ha)⟩
    refine ⟨_, sendRequest_eq id timelimit memlimit useStdin cmd args, ?_, ?_⟩
    · exact not_mem_requestLine (word_runWord _).2 (hnum _) (hnum _) (hnum _) hcmd.2
        fun a ha => (hall a ha).2
    · intro key limit
      have hrun := strncmpEq_runWord useStdin.isSome
      rw [parseRequest_requestLine (word_runWord _).1 (plainField_stringOfInt id)
          (plainField_stringOfInt timelimit) (plainField_stringOfInt memlimit) hcmd.1
          (fun a ha => (hall a ha).1) hrun.1 hrun.2, atoi_stringOfInt htime.1 htime.2,
        atoi_stringOfInt hlimit.1 hlimit.2, Bool.not_not,
        Int.emod_eq_of_lt hmem (Int.lt_trans hlimit.2 (by decide))]
      rfl
  | interrupt id =>
    refine ⟨"interrupt".toList ++ ';' :: stringOfInt id, ?_, ?_, ?_⟩
    · exact argumentLine_newline (by decide) _
    · exact not_mem_fields (by decide) (hnum _)
    · intro key limit
      rw [parseRequest_argument ⟨by decide, by decide⟩ (plainField_stringOfInt id), if_neg (by decide)]
      rfl
  | parallel x =>
    obtain ⟨hx, hpos⟩ := h
    refine ⟨"parallel".toList ++ ';' :: stringOfInt x, ?_, ?_, ?_⟩
    · rw [text, setMaxRunningProvers, if_neg (by omega)]
      exact argumentLine_newline (by decide) _
    · exact not_mem_fields (by decide) (hnum _)
    · intro key limit
      rw [parseRequest_argument ⟨by decide, by decide⟩ (plainField_stringOfInt x),
        atoi_stringOfInt hx.1 hx.2, if_pos hpos]
      rfl

/-- The lines of some requests are read back in their order. -/
theorem exists_lines {rs : List ClientRequest} (h : ∀ r ∈ rs, r.Ok)
    (hmem : ∀ r ∈ rs, r.MemlimitOk) : ∃ lines, completeLines [] (rs.flatMap text) = (lines, []) ∧
      ∀ key limit, parseLines key limit lines = calls key limit rs := by
  induction rs with
  | nil => exact ⟨[], rfl, fun _ _ => rfl⟩
  | cons r rs ih =>
    obtain ⟨line, htext, hline, hparse⟩ := exists_line (h r mem_cons_self)
      (hmem r mem_cons_self)
    obtain ⟨lines, hlines, hcalls⟩ := ih (forall_mem_cons.mp h).2
      (forall_mem_cons.mp hmem).2
    refine ⟨line :: lines, ?_, ?_⟩
    · rw [flatMap_cons, htext, append_assoc, singleton_append,
        completeLines_newline [] _ _ hline, hlines]
      rfl
    · intro key limit
      rw [parseLines, hparse, calls, hcalls]

end ClientRequest

/-! Lines of the answers. -/

theorem revSplitFrom_newline (acc : List Text) (cur s : Text) : revSplitFrom '\n' acc cur s =
      (completeLines cur s).2 :: ((completeLines cur s).1.reverse ++ acc) := by
  induction s generalizing acc cur with
  | nil => rfl
  | cons c s ih =>
    rw [revSplitFrom, completeLines]
    split
    · rw [ih]
      simp
    · exact ih acc (cur ++ [c])

/-- A call reads some chunks and returns the lines that they complete. -/
theorem readLines_ok {recvBuf : Text} (hbuf : '\n' ∉ recvBuf) (reads : List Text) :
    ∃ used rest, reads = used ++ rest ∧ (reads ≠ [] → used ≠ []) ∧
      readLines recvBuf reads = .ok ((completeLines recvBuf used.flatten).1,
        (completeLines recvBuf used.flatten).2, rest) := by
  induction reads generalizing recvBuf with
  | nil => exact ⟨[], [], rfl, fun h => absurd rfl h, rfl⟩
  | cons s reads ih =>
    rw [readLines]
    by_cases hs : s = []
    · refine ⟨[s], reads, rfl, fun _ => cons_ne_nil _ _, ?_⟩
      rw [hs]
      rfl
    rw [if_neg hs]
    by_cases hin : '\n' ∈ s
    · refine ⟨[s], reads, rfl, fun _ => cons_ne_nil _ _, ?_⟩
      obtain ⟨field, rest, hsplit, hfield⟩ := eq_append_cons_of_mem hin
      rw [if_pos hin, revSplit, revSplitFrom_newline, append_nil, completeLines_rest_append hbuf]
      have hlast := not_mem_completeLines_rest hbuf s
      have hlines : (completeLines recvBuf s).1 ≠ [] := by
        rw [hsplit, completeLines_newline _ _ _ hfield]
        exact cons_ne_nil _ _
      rw [flatten_singleton]
      generalize completeLines recvBuf s = split at hlast hlines
      obtain ⟨lines, last⟩ := split
      obtain ⟨first, more, hmore⟩ := exists_cons_of_ne_nil (mt reverse_eq_nil_iff.mp hlines)
      have hrev : lines = (first :: more).reverse := reverse_eq_iff.mp hmore
      simp only [hmore, ← hrev]
      split
      next hx => rw [hx]
      next hx => rw [if_neg fun hgl => hlast (mem_of_getLast? hgl)]
    · have hbuf' : '\n' ∉ recvBuf ++ s := by
        rw [mem_append, not_or]
        exact ⟨hbuf, hin⟩
      obtain ⟨used, rest, hreads, -, hok⟩ := ih hbuf'
      refine ⟨s :: used, rest, by rw [hreads, cons_append], fun _ => cons_ne_nil _ _, ?_⟩
      rw [if_neg hin, hok, flatten_cons, completeLines_append, completeLines_of_not_mem hin]
      rfl

/-! Fields of an answer. -/

theorem revSplitFrom_eq (c : Char) (s cur : Text) (acc : List Text) :
    revSplitFrom c acc cur s = ((s.splitOn c).modifyHead (cur ++ ·)).reverse ++ acc := by
  induction s generalizing cur acc with
  | nil => simp [revSplitFrom]
  | cons x s ih =>
    rw [revSplitFrom, splitOn, splitOnP_cons_eq_if_modifyHead]
    by_cases hx : x = c
    · rw [if_pos hx, ih, if_pos (beq_iff_eq.mpr hx), modifyHead_cons, reverse_cons, append_nil,
        append_assoc]
      exact congrArg (reverse · ++ cur :: acc) (congrFun modifyHead_id _)
    · simp [hx, ih, splitOn, Function.comp_def]

theorem revSplit_eq (c : Char) (s : Text) : revSplit c s = (s.splitOn c).reverse := by
  rw [revSplit, revSplitFrom_eq, append_nil]
  exact congrArg reverse (congrFun modifyHead_id (s.splitOn c))

theorem split_eq (c : Char) (s : Text) : split c s = s.splitOn c := by
  rw [split, revSplit_eq, reverse_reverse]

theorem split_of_not_mem (h : c ∉ field) : split c field = [field] := by
  rw [split_eq, splitOn_eq_singleton h]

theorem split_field (h : c ∉ field) (rest : Text) :
    split c (field ++ c :: rest) = field :: split c rest := by
  rw [split_eq, split_eq, splitOn_append_cons_self_of_not_mem h]

theorem split_ne_nil (c : Char) (s : Text) : split c s ≠ [] :=
  split_eq c s ▸ splitOnP_ne_nil _ s

theorem join_eq (sep : Text) (l : List Text) : join sep l = sep.intercalate l := by
  induction l using join.induct with
  | case1 => rfl
  | case2 x => simp [join]
  | case3 x rest hne ih =>
    obtain ⟨y, rest, rfl⟩ := exists_cons_of_ne_nil hne
    simp [join, ih]

/-- Joining the pieces of a text gives the text back. -/
theorem join_split (c : Char) (s : Text) : join [c] (split c s) = s := by
  rw [join_eq, split_eq, intercalate_splitOn]

theorem not_mem_cpuTime (hc : c.isDigit = false) (hne : c ≠ '.') (t : CpuTime) : c ∉ t.text := by
  have hdigits : ∀ n : Nat, c ∉ (Nat.repr n).toList := by
    intro n h
    rw [isDigit_of_mem_repr h] at hc
    cases hc
  simp only [CpuTime.text, mem_append, mem_singleton, hdigits, hne, or_self, not_false_eq_true]

/-- The messages of the server. -/
inductive ServerMessage where
  | started (id : Int)
  | finished (id : Int) (exitcode : Nat) (cpuTime : CpuTime) (timeout : Bool) (outfile : Text)

namespace ServerMessage

def text : ServerMessage → Text
  | .started id => startedText (stringOfInt id)
  | .finished id exitcode cpuTime timeout outfile =>
    finishedText (stringOfInt id) exitcode cpuTime timeout outfile

/-- The numbers are in the range of the client. -/
def Ok : ServerMessage → Prop
  | .started id => -2 ^ 62 ≤ id ∧ id < 2 ^ 62
  | .finished id exitcode _ _ _ => (-2 ^ 62 ≤ id ∧ id < 2 ^ 62) ∧ exitcode < 2 ^ 63

/-- The name of the output file is on one line. -/
def OneLine : ServerMessage → Prop
  | .started _ => True
  | .finished _ _ _ _ outfile => '\n' ∉ outfile

instance : DecidablePred Ok
  | .started _ => inferInstanceAs (Decidable (_ ∧ _))
  | .finished _ _ _ _ _ => inferInstanceAs (Decidable ((_ ∧ _) ∧ _))

instance : DecidablePred OneLine
  | .started _ => inferInstanceAs (Decidable True)
  | .finished _ _ _ _ _ => inferInstanceAs (Decidable (¬ _))

section Answers

variable {F : Type} {floatOfString : Text → Option F} {timeOf : CpuTime → F}

def answer (timeOf : CpuTime → F) : ServerMessage → Answer F
  | .started id => .started id
  | .finished id exitcode cpuTime timeout outfile =>
    .finished ⟨id, timeOf cpuTime, timeout, outfile, exitcode⟩

/-- A message is one line, from which its answer is read back. -/
theorem exists_line (hfloat : ∀ t : CpuTime, floatOfString t.text = some (timeOf t))
    {m : ServerMessage} (h : m.Ok) (hline : m.OneLine) :
    ∃ line, m.text = line ++ ['\n'] ∧ line ≠ [] ∧ '\n' ∉ line ∧
      readAnswer floatOfString line = .ok (m.answer timeOf) := by
  have hnum : ∀ n : Int, '\n' ∉ stringOfInt n := fun n =>
    not_mem_stringOfInt (by decide) (by decide)
  have hsemi : ∀ n : Int, ';' ∉ stringOfInt n := fun n =>
    not_mem_stringOfInt (by decide) (by decide)
  cases m with
  | started id =>
    refine ⟨['S', ';'] ++ stringOfInt id, rfl, cons_ne_nil _ _, ?_, ?_⟩
    · have hS : '\n' ∉ ['S'] := by decide
      exact not_mem_fields hS (hnum id)
    · have hsplit : split ';' (['S', ';'] ++ stringOfInt id) = [['S'], stringOfInt id] := by
        have hS : ';' ∉ ['S'] := by decide
        rw [← split_of_not_mem (hsemi id)]
        exact split_field hS (stringOfInt id)
      have hid : intOfString 63 (stringOfInt id) = some id := intOfString_stringOfInt h.1 h.2
      simp only [readAnswer, hsplit, hid]
      rfl
  | finished id exitcode cpuTime timeout outfile =>
    have hid : intOfString 63 (stringOfInt id) = some id := intOfString_stringOfInt h.1.1 h.1.2
    have hexit : intOfString 64 (stringOfInt exitcode) = some (exitcode : Int) :=
      intOfString_stringOfInt (by omega) (by exact_mod_cast h.2)
    have hflag : ';' ∉ [if timeout then '1' else '0'] := by
      cases timeout with
      | true => decide
      | false => decide
    have hflag' : '\n' ∉ [if timeout then '1' else '0'] := by
      cases timeout with
      | true => decide
      | false => decide
    refine ⟨['F'] ++ ';' :: (stringOfInt id ++ ';' :: (stringOfInt exitcode ++ ';' ::
      (cpuTime.text ++ ';' :: ([if timeout then '1' else '0'] ++ ';' :: outfile)))), ?_,
      cons_ne_nil _ _, ?_, ?_⟩
    · simp [text, finishedText, stringOfInt]
    · have htime := not_mem_cpuTime (c := '\n') (by decide) (by decide) cpuTime
      exact not_mem_fields (by decide) (not_mem_fields (hnum _) (not_mem_fields (hnum _)
        (not_mem_fields htime (not_mem_fields hflag' hline))))
    · rw [readAnswer, split_field (by decide), split_field (hsemi id), split_field (hsemi _),
        split_field (not_mem_cpuTime (by decide) (by decide) _), split_field hflag]
      obtain ⟨piece, pieces, hsplit⟩ := exists_cons_of_ne_nil (split_ne_nil ';' outfile)
      have hjoin := join_split ';' outfile
      rw [hsplit] at hjoin ⊢
      simp only [hexit, hfloat, hid, hjoin]
      cases timeout with
      | true => rfl
      | false => rfl

/-- The lines of some messages are read back in their order. -/
theorem exists_lines (hfloat : ∀ t : CpuTime, floatOfString t.text = some (timeOf t))
    {ms : List ServerMessage} (h : ∀ m ∈ ms, m.Ok) (hline : ∀ m ∈ ms, m.OneLine) :
    ∃ lines, completeLines [] (ms.flatMap text) = (lines, []) ∧ (∀ line ∈ lines, line ≠ []) ∧
      lines.mapM (readAnswer floatOfString) = .ok (ms.map (answer timeOf)) := by
  induction ms with
  | nil => exact ⟨[], rfl, nofun, rfl⟩
  | cons m ms ih =>
    obtain ⟨line, htext, hne, hnl, hread⟩ := exists_line hfloat (h m mem_cons_self)
      (hline m mem_cons_self)
    obtain ⟨lines, hlines, hnes, hreads⟩ := ih (forall_mem_cons.mp h).2
      (forall_mem_cons.mp hline).2
    refine ⟨line :: lines, ?_, ?_, ?_⟩
    · rw [flatMap_cons, htext, append_assoc, singleton_append,
        completeLines_newline [] _ _ hnl, hlines]
      rfl
    · exact forall_mem_cons.mpr ⟨hne, hnes⟩
    · rw [mapM_cons, hread, hreads]
      rfl

end Answers

end ServerMessage

section ReadAnswers

variable {F : Type} {floatOfString : Text → Option F}

/-- As many calls as there are reads return the answers of all lines. -/
theorem readAnswersN_ok {n : Nat} {recvBuf : Text} {reads : List Text} {answers : List (Answer F)}
    (hbuf : '\n' ∉ recvBuf) (hn : reads.length ≤ n)
    (hne : ∀ line ∈ (completeLines recvBuf reads.flatten).1, line ≠ [])
    (hread : (completeLines recvBuf reads.flatten).1.mapM (readAnswer floatOfString) =
      .ok answers) :
    readAnswersN floatOfString recvBuf reads n =
      .ok (answers, (completeLines recvBuf reads.flatten).2, []) := by
  induction n generalizing recvBuf reads answers with
  | zero =>
    have hnil := length_eq_zero_iff.mp (Nat.le_zero.mp hn)
    rw [hnil] at hread ⊢
    cases hread
    rfl
  | succ n ih =>
    obtain ⟨used, rest, hreads, hused, hok⟩ := readLines_ok hbuf reads
    rw [hreads, flatten_append, completeLines_append] at hne hread ⊢
    obtain ⟨first, later, hanswers, hfirst, hlater⟩ := Except.mapM_append_ok hread
    have hbuf' := not_mem_completeLines_rest hbuf used.flatten
    have hrest : rest.length ≤ n := by
      cases reads with
      | nil =>
        have hnil := (append_eq_nil_iff.mp hreads.symm).2
        rw [hnil]
        exact Nat.zero_le n
      | cons s reads =>
        have hpos := length_pos_iff.mpr (hused (cons_ne_nil _ _))
        rw [hreads, length_append] at hn
        omega
    have hfilter : (completeLines recvBuf used.flatten).1.filter (· ≠ []) =
        (completeLines recvBuf used.flatten).1 := by
      refine filter_eq_self.mpr fun line hl => ?_
      exact decide_eq_true (hne line (mem_append_left _ hl))
    have hih := ih hbuf' hrest (fun line hl => hne line (mem_append_right _ hl)) hlater
    simp only [readAnswersN, readAnswers, ← hreads, hok, bind, Except.bind, hfilter, hfirst, hih,
      hanswers]

end ReadAnswers

end ProveClient
end Why3
