import Why3.Server.Server

/-!
The data structures of the prover server: lines of the read buffer, the request
queue, the write buffer and the length of messages.
-/
namespace Why3

open List

namespace Server

/-! Lines. -/

theorem completeLines_append (line a b : Text) : completeLines line (a ++ b) =
      ((completeLines line a).1 ++ (completeLines (completeLines line a).2 b).1,
        (completeLines (completeLines line a).2 b).2) := by
  induction a generalizing line with
  | nil => rfl
  | cons c a ih =>
    simp only [cons_append, completeLines]
    by_cases hc : c = '\n'
    · simp only [hc, if_true, ih, cons_append]
    · simp only [hc, if_false, ih]

variable {line field : Text} {b : Writebuf}

theorem not_mem_completeLines_rest (hline : '\n' ∉ line) (buf : Text) :
    '\n' ∉ (completeLines line buf).2 := by
  induction buf generalizing line with
  | nil => exact hline
  | cons c buf ih =>
    simp only [completeLines]
    by_cases hc : c = '\n'
    · simp only [hc]
      exact ih (by simp)
    · simp only [hc]
      exact ih (by simp [hline, Ne.symm hc])

theorem completeLines_of_not_mem {buf : Text} (h : '\n' ∉ buf) :
    completeLines line buf = ([], line ++ buf) := by
  induction buf generalizing line with
  | nil => simp [completeLines]
  | cons c buf ih =>
    simp only [mem_cons, not_or] at h
    simp only [completeLines, if_neg (Ne.symm h.1)]
    rw [ih h.2, append_assoc, singleton_append]

/-- What was left of earlier bytes is completed by the bytes that follow. -/
theorem completeLines_rest_append (hline : '\n' ∉ line) (buf : Text) :
    completeLines [] (line ++ buf) = completeLines line buf := by
  rw [completeLines_append, completeLines_of_not_mem hline]
  rfl

/-! The request queue. -/

theorem toList_popAll {α : Type} (keep : α → Bool) (fuel : Nat) (q tmp : RingQueue α)
    (hfuel : q.toList.length ≤ fuel) :
    (popAll keep fuel q tmp).toList = tmp.toList ++ q.toList.filter keep := by
  induction fuel generalizing q tmp with
  | zero =>
    have hnil : q.toList = [] := length_eq_zero_iff.mp (Nat.le_zero.mp hfuel)
    simp [popAll, hnil]
  | succ fuel ih =>
    unfold popAll
    cases hpop : q.pop with
    | none => simp [RingQueue.pop_eq_none.mp hpop]
    | some x =>
      obtain ⟨r, q'⟩ := x
      have hlist := RingQueue.toList_of_pop hpop
      rw [hlist, length_cons] at hfuel
      simp only [hlist]
      rw [ih q' _ (by omega)]
      cases hr : keep r with
      | true | false => simp [hr]

theorem toList_emptied {α : Type} (fuel : Nat) (q : RingQueue α)
    (hfuel : q.toList.length ≤ fuel) : (emptied fuel q).toList = [] := by
  induction fuel generalizing q with
  | zero => exact length_eq_zero_iff.mp (Nat.le_zero.mp hfuel)
  | succ fuel ih =>
    unfold emptied
    cases hpop : q.pop with
    | none => exact RingQueue.pop_eq_none.mp hpop
    | some x =>
      obtain ⟨r, q'⟩ := x
      rw [RingQueue.toList_of_pop hpop, length_cons] at hfuel
      exact ih q' (by omega)

@[simp] theorem toList_removeFromQueue (id : Text) (queue : RingQueue Job) :
    (removeFromQueue id queue).toList = queue.toList.filter fun job => job.req.id ≠ id := by
  unfold removeFromQueue
  rw [toList_popAll _ _ _ _ (by rw [RingQueue.length_toList]),
    toList_emptied _ _ (by rw [RingQueue.length_toList]),
    toList_popAll _ _ _ _ (by rw [RingQueue.length_toList])]
  simp

/-! The write buffer. -/

/-- The bytes of a write buffer that are not yet written. -/
def Writebuf.pending (b : Writebuf) : Text :=
  (b.data.getD []).drop b.pointer ++ b.writequeue.toList.flatten

/-- Between two operations no write is open, the current message has bytes left,
and messages only wait behind a current one. -/
structure Writebuf.Ok (b : Writebuf) : Prop where
  notWriting : b.isWriting = false
  current : ∀ data, b.data = some data → b.len = data.length ∧ b.pointer < b.len
  idle : b.data = none → b.writequeue.toList = []
  waiting : ∀ data ∈ b.writequeue.toList, data ≠ []

theorem Writebuf.ok_init (capacity : Nat) (h : 0 < capacity) : (Writebuf.init capacity h).Ok :=
  ⟨rfl, nofun, fun _ => rfl, nofun⟩

theorem Writebuf.Ok.pushWriteData (h : b.Ok) {data : Text} (hdata : data ≠ []) :
    (b.pushWriteData data).Ok := by
  unfold Writebuf.pushWriteData Writebuf.hasWriteData
  cases hb : b.data with
  | none =>
    refine ⟨h.notWriting, ?_, nofun, h.waiting⟩
    intro d hd
    cases hd
    exact ⟨rfl, length_pos_iff.mpr hdata⟩
  | some current =>
    refine ⟨h.notWriting, fun d hd => h.current d (hb.trans hd), nofun, ?_⟩
    intro d hd
    simp only [Option.isSome_some, if_true, RingQueue.toList_push, mem_append, mem_singleton] at hd
    cases hd with
    | inl hd => exact h.waiting d hd
    | inr hd => exact hd ▸ hdata

theorem Writebuf.pending_pushWriteData (h : b.Ok) (data : Text) :
    (b.pushWriteData data).pending = b.pending ++ data := by
  unfold Writebuf.pushWriteData Writebuf.hasWriteData Writebuf.pending
  cases hb : b.data with
  | none => simp [h.idle hb]
  | some current => simp

@[simp] theorem Writebuf.hasWriteData_pushWriteData (b : Writebuf) (data : Text) :
    (b.pushWriteData data).hasWriteData = true := by
  unfold Writebuf.pushWriteData
  cases hb : b.hasWriteData with
  | true => exact hb
  | false => rfl

theorem Writebuf.prepareWrite_ok (h : b.Ok) {data : Text} (hb : b.data = some data) :
    b.prepareWrite = some (data.drop b.pointer, { b with isWriting := true }) := by
  simp [Writebuf.prepareWrite, hb, Writebuf.canWrite, h.notWriting]

/-- A write of some of the current bytes. -/
theorem Writebuf.write_ok (h : b.Ok) (hdata : b.hasWriteData = true) {n : Nat}
    (hn : n ≤ b.len - b.pointer) :
    ∃ buf b1 b2, b.prepareWrite = some (buf, b1) ∧ b1.haveWritten n = some b2 ∧ b2.Ok ∧
      buf.take n ++ b2.pending = b.pending := by
  obtain ⟨data, hb⟩ := Option.isSome_iff_exists.mp hdata
  obtain ⟨hlen, hlt⟩ := h.current data hb
  have hprepare := Writebuf.prepareWrite_ok h hb
  refine ⟨data.drop b.pointer, { b with isWriting := true }, ?_⟩
  by_cases hpart : b.pointer + n < b.len
  · refine ⟨{ b with isWriting := false, pointer := b.pointer + n }, hprepare, ?_,
      ⟨rfl, fun d hd => ⟨(h.current d hd).1, hpart⟩, h.idle, h.waiting⟩, ?_⟩
    · simp only [Writebuf.haveWritten]
      rw [if_pos ⟨trivial, by omega⟩, if_pos hpart]
    · simp only [Writebuf.pending, hb, Option.getD_some]
      rw [← append_assoc, ← drop_drop, take_append_drop]
  · -- the current message is written and the next one takes its place
    have hall : (data.drop b.pointer).take n = data.drop b.pointer := by
      apply take_of_length_le
      rw [length_drop]
      omega
    cases hpop : b.writequeue.pop with
    | none =>
      have hnil := RingQueue.pop_eq_none.mp hpop
      refine ⟨⟨none, 0, 0, false, b.writequeue⟩, hprepare, ?_, ⟨rfl, nofun, fun _ => hnil,
        h.waiting⟩, ?_⟩
      · simp only [Writebuf.haveWritten, hpop]
        rw [if_pos ⟨trivial, by omega⟩, if_neg hpart]
      · rw [hall]
        simp [Writebuf.pending, hb]
    | some x =>
      obtain ⟨next, queue⟩ := x
      have hlist := RingQueue.toList_of_pop hpop
      have hnext : next ≠ [] := h.waiting next (by simp [hlist])
      refine ⟨⟨some next, next.length, 0, false, queue⟩, hprepare, ?_, ⟨rfl, ?_, nofun, ?_⟩, ?_⟩
      · simp only [Writebuf.haveWritten, hpop]
        rw [if_pos ⟨trivial, by omega⟩, if_neg hpart]
      · intro d hd
        cases hd
        exact ⟨rfl, length_pos_iff.mpr hnext⟩
      · intro d hd
        exact h.waiting d (by simp [hlist, hd])
      · rw [hall]
        simp [Writebuf.pending, hb, hlist]

/-! Messages. -/

theorem startedText_ne_nil (id : Text) : startedText id ≠ [] := by simp [startedText]

theorem length_startedText (id : Text) : (startedText id).length = id.length + 3 := by
  simp only [startedText, length_append, length_cons, length_nil]
  omega

theorem length_repr_le {n e : Nat} (he : 0 < e) (h : n < 10 ^ e) :
    (Nat.repr n).toList.length ≤ e := by
  exact Nat.repr_length n e he h

theorem CpuTime.length_text_le (t : CpuTime) : t.text.length ≤ 15 := by
  have h1 := length_repr_le (n := t.centis / 100) (e := 12) (by omega) (by have := t.lt; omega)
  have h2 := length_repr_le (n := t.centis % 100 / 10) (e := 1) (by omega) (by omega)
  have h3 := length_repr_le (n := t.centis % 10) (e := 1) (by omega) (by omega)
  simp only [CpuTime.text, length_append, length_cons, length_nil]
  omega

/-- The buffer allocated for a final message is long enough. -/
theorem length_finishedText_lt (id : Text) {exitcode : Nat} (hexit : exitcode < 256)
    (cpuTime : CpuTime) (timeout : Bool) (outfile : Text) :
    (finishedText id exitcode cpuTime timeout outfile).length <
      id.length + 3 + 23 + (outfile.length + 1) := by
  have h1 := length_repr_le (n := exitcode) (e := 3) (by omega) (by omega)
  have h2 := cpuTime.length_text_le
  simp only [finishedText, length_append, length_cons, length_nil]
  omega

/-! Requests. -/

theorem forall_ne {c : Char} (h : c ∉ line) : ∀ x ∈ line, decide (x ≠ c) = true :=
  fun _ hx => decide_eq_true fun heq => h (heq ▸ hx)

theorem cstr_of_not_mem (h : nul ∉ line) : cstr line = line :=
  takeWhile_eq_self_iff.mpr (forall_ne h)

/-- Fields as they stand in a request: no separator and no zero byte. -/
def PlainField (s : Text) : Prop := ';' ∉ s ∧ nul ∉ s

section Field

variable {pre rest : Text} (h : PlainField field)
include h

/-- A field that ends at a semicolon, and the line seen from the start of the next one. -/
theorem copyUpToSemicolon_field (hline : line = pre ++ (field ++ ';' :: rest)) :
    copyUpToSemicolon line pre.length = (field, (pre ++ field ++ [';']).length) ∧
      line = pre ++ field ++ [';'] ++ rest := by
  have hfield : (field ++ ';' :: rest).takeWhile (· ≠ ';') = field := by
    rw [takeWhile_append_of_pos (forall_ne h.1), takeWhile_cons_of_neg (by simp), append_nil]
  refine ⟨?_, by simp [hline]⟩
  simp only [hline, copyUpToSemicolon, drop_left, hfield, cstr_of_not_mem h.2]
  rw [if_neg]
  · simp only [length_append, length_cons, length_nil]
  · simp only [length_append, length_cons]
    omega

theorem copyUpToSemicolon_last (hline : line = pre ++ field) :
    (copyUpToSemicolon line pre.length).1 = field := by
  have hall := takeWhile_eq_self_iff.mpr (forall_ne h.1)
  simp only [hline, copyUpToSemicolon, drop_left, hall, cstr_of_not_mem h.2]

end Field

theorem copyArgs_fields {pre first : Text} {rest : List Text} (hfirst : PlainField first)
    (hrest : ∀ a ∈ rest, PlainField a) (hline : line = pre ++ (first ++ rest.flatMap (';' :: ·))) :
    copyArgs line (rest.length + 1) pre.length = first :: rest := by
  induction rest generalizing pre first with
  | nil =>
    rw [flatMap_nil, append_nil] at hline
    simp only [length_nil, copyArgs, copyUpToSemicolon_last hfirst hline]
  | cons a rest ih =>
    rw [forall_mem_cons] at hrest
    obtain ⟨hfield, hnext⟩ := copyUpToSemicolon_field hfirst hline
    rw [length_cons, copyArgs, hfield]
    simp only
    rw [ih hrest.1 hrest.2 hnext]

/-- A line with the fields of a run request. -/
def requestLine (word id timeout memlimit cmd : Text) (args : List Text) : Text :=
  word ++ ';' :: (id ++ ';' :: (timeout ++ ';' :: (memlimit ++ ';' :: (cmd ++
    args.flatMap (';' :: ·)))))

/-- The line of a run request. -/
def runLine (id timeout memlimit cmd : Text) (args : List Text) : Text :=
  ['r', 'u', 'n'] ++ ';' :: (id ++ ';' :: (timeout ++ ';' :: (memlimit ++ ';' :: (cmd ++
    args.flatMap (';' :: ·)))))

section RequestLine

variable {word id timeout memlimit cmd : Text} {args : List Text}

section

variable (hword : PlainField word) (hid : PlainField id) (htimeout : PlainField timeout)
  (hmemlimit : PlainField memlimit) (hcmd : PlainField cmd) (hargs : ∀ a ∈ args, PlainField a)
include hword hid htimeout hmemlimit hcmd hargs

theorem countSemicolons_requestLine :
    countSemicolons (requestLine word id timeout memlimit cmd args) = args.length + 4 := by
  have hflat : (args.flatMap (';' :: ·)).count ';' = args.length := by
    induction args with
    | nil => rfl
    | cons a args ih =>
      have ha := count_eq_zero.mpr (hargs a mem_cons_self).1
      rw [flatMap_cons, count_append, count_cons_self,
        ih (forall_mem_cons.mp hargs).2, length_cons]
      omega
  simp only [countSemicolons, requestLine, count_append, count_cons_self,
    count_eq_zero.mpr hword.1, count_eq_zero.mpr hid.1,
    count_eq_zero.mpr htimeout.1, count_eq_zero.mpr hmemlimit.1,
    count_eq_zero.mpr hcmd.1]
  omega

/-- A request to run a prover is read back from its line. -/
theorem parseRequest_requestLine {isRun : Bool}
    (hrun : strncmpEq word "run".toList (word.length + 1) = isRun)
    (hword' : (isRun || strncmpEq word "runstdin".toList (word.length + 1)) = true) (key : Nat)
    (parallel : Int) : parseRequest (requestLine word id timeout memlimit cmd args) key parallel =
      (some ⟨key, .reqRun, id, atoi timeout, atoi memlimit % 2 ^ 32, !isRun, cmd, args⟩,
        parallel) := by
  have hcount := countSemicolons_requestLine hword hid htimeout hmemlimit hcmd hargs
  generalize hline : requestLine word id timeout memlimit cmd args = line at hcount ⊢
  have hstart : line = [] ++ requestLine word id timeout memlimit cmd args := hline.symm
  obtain ⟨h1, hafter1⟩ := copyUpToSemicolon_field hword hstart
  obtain ⟨h2, hafter2⟩ := copyUpToSemicolon_field hid hafter1
  obtain ⟨h3, hafter3⟩ := copyUpToSemicolon_field htimeout hafter2
  obtain ⟨h4, hafter4⟩ := copyUpToSemicolon_field hmemlimit hafter3
  have h5 := copyArgs_fields hcmd hargs hafter4
  have hlen : word.length + 1 = ([] ++ word ++ [';']).length := by simp
  rw [hlen] at hrun hword'
  rw [length_nil] at h1
  simp only [copyArgs, List.cons.injEq] at h5
  simp only [parseRequest, hcount, h1, h2, h3, h4, hrun, hword', if_true, Nat.add_sub_cancel, h5.1,
    h5.2]
  rw [if_neg (by omega), if_neg (by omega), if_neg (by omega)]

end

theorem parseRequest_runLine (hid : PlainField id) (htimeout : PlainField timeout)
    (hmemlimit : PlainField memlimit) (hcmd : PlainField cmd) (hargs : ∀ a ∈ args, PlainField a)
    (key : Nat) (parallel : Int) :
    parseRequest (runLine id timeout memlimit cmd args) key parallel =
      (some ⟨key, .reqRun, id, atoi timeout, atoi memlimit % 2 ^ 32, false, cmd, args⟩,
        parallel) := by
  have hword : PlainField ['r', 'u', 'n'] := ⟨by decide, by decide⟩
  have hrun : strncmpEq ['r', 'u', 'n'] "run".toList 4 = true := by decide
  exact parseRequest_requestLine hword hid htimeout hmemlimit hcmd hargs hrun rfl key parallel

end RequestLine

end Server
end Why3
