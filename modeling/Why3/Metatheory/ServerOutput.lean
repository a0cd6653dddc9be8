import Why3.Metatheory.ServerBuffers
import Why3.Server.Output

/-!
Writing to a client.

After a failed write the buffer stays open for writing: bytes can still be pushed, but
the next attempt violates an assertion. Without a further attempt the transmitted bytes
are a prefix of the pushed ones.
-/
namespace Why3
namespace Server

/-- Messages are pushed and writes attempted, each when the poll entry asks for it and for
no more bytes than requested. The last index says whether an attempt has failed; no
attempt follows a failed one. -/
inductive Output.Run (capacity : Nat) (h : 0 < capacity) : Output → Text → Text → Bool → Prop
  | init : Output.Run capacity h (.init capacity h) [] [] false
  | push {o pushed sent failed} (msg : Text) : Output.Run capacity h o pushed sent failed →
      msg ≠ [] → Output.Run capacity h (o.queueWrite msg) (pushed ++ msg) sent failed
  | attempt {o o' pushed sent bytes} (res : Option Nat) :
      Output.Run capacity h o pushed sent false → o.pollout = true →
      (∀ n, res = some n → n ≤ o.request) → o.writeToClient res = some (o', bytes) →
      Output.Run capacity h o' pushed (sent ++ bytes) res.isNone

/-- The server writes to a client as its output does. -/
theorem writeToClient_eq (client : Client) (res : Option Nat) (s : State) :
    writeToClient client res s = match Output.writeToClient ⟨client.writebuf, true⟩ res with
      | none => .error .assertion
      | some (o, bytes) =>
        .ok { s with
          clients := modifyClient client.fd (fun c => { c with writebuf := o.writebuf }) s.clients
          pollList := if o.pollout then s.pollList
            else pollListModify client.fd (fun e => { e with pollout := false }) s.pollList
          history := { s.history with
            written := s.history.written ++ [(client.conn, bytes)] } } := by
  rw [writeToClient, Output.writeToClient]
  cases client.writebuf.prepareWrite with
  | none => rfl
  | some x =>
    cases res with
    | none => simp only [Option.map_some, Bool.and_true]
    | some n =>
      cases hw : x.2.haveWritten n with
      | none => simp only [hw, Option.map_none]
      | some b => simp only [hw, Option.map_some, Bool.and_true]

/-- The buffer without the mark of an open write. -/
def Writebuf.settled (b : Writebuf) : Writebuf := { b with isWriting := false }

/-- What holds between two operations. -/
structure Output.Ok (o : Output) (pushed sent : Text) (failed : Bool) : Prop where
  buffer : o.writebuf.settled.Ok
  writing : o.writebuf.isWriting = failed
  pending : sent ++ o.writebuf.pending = pushed
  pollout : o.pollout = o.writebuf.hasWriteData

theorem Writebuf.settled_pushWriteData (b : Writebuf) (data : Text) :
    (b.pushWriteData data).settled = b.settled.pushWriteData data := by
  have hsettled : b.settled.hasWriteData = b.hasWriteData := rfl
  rw [Writebuf.pushWriteData, Writebuf.pushWriteData, hsettled]
  split
  · rfl
  · rfl

theorem Writebuf.isWriting_pushWriteData (b : Writebuf) (data : Text) :
    (b.pushWriteData data).isWriting = b.isWriting := by
  rw [Writebuf.pushWriteData]
  split
  · rfl
  · rfl

variable {o : Output} {pushed sent : Text}

theorem Output.Ok.queueWrite {msg : Text} {failed : Bool} (h : o.Ok pushed sent failed)
    (hmsg : msg ≠ []) : (o.queueWrite msg).Ok (pushed ++ msg) sent failed where
  buffer := by
    rw [Output.queueWrite, Writebuf.settled_pushWriteData]
    exact h.buffer.pushWriteData hmsg
  writing := (Writebuf.isWriting_pushWriteData _ _).trans h.writing
  pending := by
    have hpending := Writebuf.pending_pushWriteData h.buffer msg
    rw [← Writebuf.settled_pushWriteData] at hpending
    rw [← h.pending, List.append_assoc]
    exact congrArg (sent ++ ·) hpending
  pollout := (Writebuf.hasWriteData_pushWriteData _ _).symm

/-- An attempt violates no assertion. -/
theorem Output.Ok.exists_write (h : o.Ok pushed sent false) (hpoll : o.pollout = true)
    {res : Option Nat} (hres : ∀ n, res = some n → n ≤ o.request) :
    ∃ o' bytes, o.writeToClient res = some (o', bytes) ∧
      o'.Ok pushed (sent ++ bytes) res.isNone := by
  have hsettled : o.writebuf.settled = o.writebuf := by
    rw [Writebuf.settled, ← h.writing]
  have hok := hsettled ▸ h.buffer
  have hdata := h.pollout.symm.trans hpoll
  cases res with
  | none =>
    obtain ⟨data, hb⟩ := Option.isSome_iff_exists.mp hdata
    refine ⟨⟨{ o.writebuf with isWriting := true }, o.writebuf.hasWriteData && o.pollout⟩, [],
      ?_, ?_⟩
    · rw [Output.writeToClient, Writebuf.prepareWrite_ok hok hb]
      rfl
    · refine ⟨h.buffer, rfl, ?_, ?_⟩
      · rw [List.append_nil]
        exact h.pending
      · rw [hpoll, Bool.and_true]
        rfl
  | some n =>
    obtain ⟨buf, b1, b2, hprepare, hwritten, hok2, hpending⟩ :=
      Writebuf.write_ok hok hdata (hres n rfl)
    refine ⟨⟨b2, b2.hasWriteData && o.pollout⟩, buf.take n, by
      rw [Output.writeToClient, hprepare]
      simp only [hwritten, Option.map_some], ?_⟩
    refine ⟨?_, hok2.notWriting, ?_, by rw [hpoll, Bool.and_true]⟩
    · rw [Writebuf.settled, ← hok2.notWriting]
      exact hok2
    · rw [List.append_assoc, hpending]
      exact h.pending

theorem Output.Run.ok {capacity : Nat} {hcap : 0 < capacity} {failed : Bool}
    (h : Output.Run capacity hcap o pushed sent failed) : o.Ok pushed sent failed := by
  induction h with
  | init => exact ⟨Writebuf.ok_init capacity hcap, rfl, rfl, rfl⟩
  | push msg _ hmsg ih => exact ih.queueWrite hmsg
  | attempt res _ hpoll hres hwrite ih =>
    obtain ⟨o1, bytes1, hwrite1, hok⟩ := ih.exists_write hpoll hres
    cases hwrite1.symm.trans hwrite
    exact hok

/-- Bytes remain exactly while there is a current message. -/
theorem Writebuf.Ok.pending_ne_nil {b : Writebuf} (h : b.Ok) :
    b.pending ≠ [] ↔ b.hasWriteData = true := by
  rw [Writebuf.hasWriteData, Writebuf.pending]
  cases hb : b.data with
  | none => simp [h.idle hb]
  | some data =>
    obtain ⟨hlen, hlt⟩ := h.current data hb
    have hdrop : data.drop b.pointer ≠ [] := by
      rw [ne_eq, List.drop_eq_nil_iff]
      omega
    simp [hdrop]

/-- The bytes transmitted are a prefix of those pushed, writes are asked for exactly while
bytes remain, and no assertion fails in an attempt that follows no failed one. -/
theorem output_prefix {capacity : Nat} {hcap : 0 < capacity} {o : Output} {pushed sent : Text}
    {failed : Bool} (h : Output.Run capacity hcap o pushed sent failed) :
    sent <+: pushed ∧ (o.pollout = true ↔ sent ≠ pushed) ∧
      (failed = false → o.pollout = true → ∀ res : Option Nat, (∀ n, res = some n → n ≤ o.request) →
        (o.writeToClient res).isSome = true) := by
  have hok := h.ok
  have hpending : o.writebuf.settled.pending = o.writebuf.pending := rfl
  refine ⟨⟨_, hok.pending⟩, ?_, ?_⟩
  · rw [hok.pollout, ← hok.pending, ne_eq, List.self_eq_append_right]
    exact hok.buffer.pending_ne_nil.symm
  · rintro rfl hpoll res hres
    obtain ⟨o', bytes, hwrite, -⟩ := hok.exists_write hpoll hres
    rw [hwrite]
    rfl

theorem output_prefix_partial_write :
    let o : Output := (Output.init 1 Nat.one_pos).queueWrite ['a', 'b']
    ∃ o', o.writeToClient (some 1) = some (o', ['a']) ∧ ['a'] <+: ['a', 'b'] ∧ o'.pollout = true := by
  intro o
  have hpush : Output.Run 1 Nat.one_pos o ['a', 'b'] [] false := .push ['a', 'b'] .init (by decide)
  have hwrite : o.writeToClient (some 1) = some (_, ['a']) := rfl
  have hrun := Output.Run.attempt (some 1) hpush rfl (by rintro n ⟨⟩; decide) hwrite
  obtain ⟨hpre, hpoll, -⟩ := output_prefix hrun
  exact ⟨_, hwrite, hpre, hpoll.mpr (by decide)⟩

/-- After a failed write the entry still asks for a write, and the next attempt violates an
assertion. -/
theorem write_after_failure : let o : Output := (Output.init 1 Nat.one_pos).queueWrite ['a']
    ∃ o', o.writeToClient none = some (o', []) ∧ o'.pollout = true ∧
      o'.writeToClient (some 1) = none :=
  ⟨_, rfl, rfl, rfl⟩

end Server
end Why3
