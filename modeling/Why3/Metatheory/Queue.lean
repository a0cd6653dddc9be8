import Why3.Server.Queue

/-!
The queue of the server is a FIFO queue while its capacity is at most `2 ^ 31`: no sum of a
pointer and a length wraps around then, and the queue is a ring buffer. A full queue of that
capacity cannot be enlarged.
-/
namespace Why3
namespace Queue

open Except (bind_eq_ok)
open List
open Server (Request Text)

section Ring

variable {α : Type} {q tmp : Pqueue α} {x : α} {l l' : List α} {c c' : Nat}

/-- The queue is a ring buffer with the elements `l`. -/
def Stores (l : List α) (c : Nat) (q : Pqueue α) : Prop :=
  c ≤ 2 ^ 31 ∧ ∃ r : RingQueue α, q = ⟨r.data, r.pointer, r.len, r.capacity⟩ ∧ r.toList = l ∧
    r.capacity = c

theorem Stores.fields (h : Stores l c q) :
    q.len = l.length ∧ q.capacity = c ∧ l.length ≤ c ∧ 0 < c := by
  obtain ⟨-, r, rfl, rfl, rfl⟩ := h
  rw [r.length_toList]
  exact ⟨rfl, rfl, r.len_le, Nat.zero_lt_of_lt r.pointer_lt⟩

theorem initQueue_stores (hpos : 0 < c) (hcap : c ≤ 2 ^ 31) :
    ∃ q : Pqueue α, initQueue c = .ok q ∧ Stores [] c q :=
  ⟨_, if_pos hpos, hcap, .init c hpos, rfl, rfl, rfl⟩

theorem queuePop_stores (h : Stores (x :: l) c q) :
    ∃ q', queuePop q = .ok (x, q') ∧ Stores l c q' := by
  have hpos : 0 < q.len := h.fields.1 ▸ Nat.succ_pos _
  obtain ⟨hcap, r, rfl, hlist, rfl⟩ := h
  have hp := r.pointer_lt
  rw [r.toList_pos hpos, List.cons.injEq] at hlist
  have hcell : r.data r.pointer = some x := by rw [← hlist.1, Option.some_get]
  have hptr : unsigned (r.pointer + 1) = r.pointer + 1 := by
    rw [unsigned]
    omega
  refine ⟨_, ?_, hcap, r.rest hpos, rfl, hlist.2, rfl⟩
  simp only [queuePop, if_neg (Nat.ne_of_gt hpos), hcell, hptr]
  rfl

theorem simplePush_stores (x : α) (h : Stores l c q) (hroom : l.length < c) :
    Stores (l ++ [x]) c (simplePush q x) := by
  obtain ⟨hcap, r, rfl, rfl, rfl⟩ := h
  have hp := r.pointer_lt
  rw [r.length_toList] at hroom
  have hptr : unsigned (r.pointer + r.len) = r.pointer + r.len := by
    rw [unsigned]
    omega
  have hlen : unsigned (r.len + 1) = r.len + 1 := by
    rw [unsigned]
    omega
  refine ⟨hcap, r.simplePush x hroom, ?_, r.toList_simplePush x hroom, rfl⟩
  simp only [simplePush, hptr, hlen]
  rfl

theorem resizeQueue_stores (h : Stores l c q) (hcap : 2 * c ≤ 2 ^ 31) :
    ∃ q', resizeQueue q = .ok q' ∧ Stores l (2 * c) q' := by
  obtain ⟨-, r, rfl, rfl, rfl⟩ := h
  have hp := r.pointer_lt
  have hnew : unsigned (2 * r.capacity) = 2 * r.capacity := by
    rw [unsigned]
    omega
  have hptr : unsigned ((2 * r.capacity : Nat) - r.capacity + r.pointer) =
      2 * r.capacity - r.capacity + r.pointer := by
    rw [unsigned]
    omega
  refine ⟨_, ?_, hcap, r.resize, rfl, r.toList_resize, rfl⟩
  simp only [resizeQueue, hnew, hptr]
  rw [if_neg (by omega)]
  rfl

/-- The capacity after one more element. -/
def grown (c len : Nat) : Nat := if len = c then 2 * c else c

theorem queuePush_stores (x : α) (h : Stores l c q) (hcap : grown c l.length ≤ 2 ^ 31) :
    ∃ q', queuePush q x = .ok q' ∧ Stores (l ++ [x]) (grown c l.length) q' := by
  obtain ⟨hlen, hc, hle, hpos⟩ := h.fields
  rw [queuePush, hlen, hc]
  rw [grown] at hcap ⊢
  by_cases hfull : l.length = c
  · rw [if_pos hfull] at hcap
    obtain ⟨q1, hresize, hq1⟩ := resizeQueue_stores h hcap
    rw [if_pos hfull, if_pos hfull, hresize]
    exact ⟨_, rfl, simplePush_stores x hq1 (by omega)⟩
  · rw [if_neg hfull, if_neg hfull]
    exact ⟨_, rfl, simplePush_stores x h (by omega)⟩

/-- The second queue has room for all that is kept. -/
theorem popAll_stores (keep : α → Bool) (hq : Stores l c q) (htmp : Stores l' c' tmp)
    (hroom : l'.length + l.length ≤ c') : ∃ q' tmp',
      popAll keep l.length (q, tmp) = .ok (q', tmp') ∧ Stores [] c q' ∧
      Stores (l' ++ l.filter keep) c' tmp' := by
  induction l generalizing q tmp l' with
  | nil => exact ⟨q, tmp, rfl, hq, (append_nil l').symm ▸ htmp⟩
  | cons x l ih =>
    rw [length_cons] at hroom
    obtain ⟨q1, hpop, hq1⟩ := queuePop_stores hq
    obtain ⟨tmp1, hkeep, htmp1⟩ : ∃ tmp1, pushIf keep tmp x = .ok tmp1 ∧
        Stores (l' ++ [x].filter keep) c' tmp1 := by
      rw [pushIf]
      cases hx : keep x with
      | true =>
        have hgrown : grown c' l'.length = c' := if_neg (by omega)
        have hpush := queuePush_stores x htmp (hgrown.symm ▸ htmp.1)
        simpa [hx, hgrown] using hpush
      | false => exact ⟨tmp, rfl, by simpa [hx] using htmp⟩
    have hlen : ([x].filter keep).length ≤ 1 := length_filter_le ..
    obtain ⟨q', tmp', hrun, hempty, hlist⟩ := ih hq1 htmp1 (by rw [length_append]; omega)
    refine ⟨q', tmp', ?_, hempty, ?_⟩
    · exact bind_eq_ok.mpr ⟨_, hpop, bind_eq_ok.mpr ⟨_, hkeep, hrun⟩⟩
    · rwa [append_assoc, ← filter_append, singleton_append] at hlist

theorem removeFromQueue_stores {q : Pqueue Request} {l : List Request} (h : Stores l c q)
    (id : Text) : ∃ q', removeFromQueue id q = .ok q' ∧
      Stores (l.filter fun r => r.id ≠ id) c q' := by
  obtain ⟨hlen, hc, hle, hpos⟩ := h.fields
  obtain ⟨tmp, hinit, htmp⟩ := initQueue_stores hpos h.1
  obtain ⟨q1, tmp1, hrun1, hempty, hkept⟩ := popAll_stores (fun r => r.id ≠ id) h htmp
    (by rwa [length_nil, Nat.zero_add])
  rw [nil_append] at hkept
  obtain ⟨tmp2, q2, hrun2, hempty2, hall⟩ := popAll_stores (fun _ => true) hkept hempty
    (by rw [length_nil, Nat.zero_add]; exact hkept.fields.2.2.1)
  rw [nil_append, filter_true] at hall
  refine ⟨q2, ?_, hall⟩
  rw [← hkept.fields.1] at hrun2
  rw [removeFromQueue, hc, hlen]
  refine bind_eq_ok.mpr ⟨_, hinit, bind_eq_ok.mpr ⟨_, hrun1, ?_⟩⟩
  exact bind_eq_ok.mpr ⟨_, hrun2, if_pos hempty2.fields.1⟩

end Ring

/-- The operations on a list and the capacity kept for it, which is at most `2 ^ 31`. -/
def fifo : List Request × List Request × Nat → Op → Option (List Request × List Request × Nat)
  | (out, l, c), .push r =>
    if grown c l.length ≤ 2 ^ 31 then some (out, l ++ [r], grown c l.length) else none
  | (out, r :: l, c), .pop => some (out ++ [r], l, c)
  | (_, [], _), .pop => none
  | (out, l, c), .remove id => some (out, l.filter fun r => r.id ≠ id, c)

variable {out : List Request} {q : Pqueue Request} {l : List Request} {c : Nat}

theorem exec_fifo {op : Op} {st : List Request × List Request × Nat} (h : Stores l c q)
    (hop : fifo (out, l, c) op = some st) :
    ∃ q', exec (out, q) op = .ok (st.1, q') ∧ Stores st.2.1 st.2.2 q' := by
  cases op with
  | push r =>
    rw [fifo, Option.ite_none_right_eq_some] at hop
    obtain ⟨hcap, hop⟩ := hop
    cases hop
    obtain ⟨q', hpush, hq'⟩ := queuePush_stores r h hcap
    exact ⟨q', bind_eq_ok.mpr ⟨_, hpush, rfl⟩, hq'⟩
  | pop =>
    cases l with
    | nil => cases hop
    | cons r l =>
      cases hop
      obtain ⟨q', hpop, hq'⟩ := queuePop_stores h
      exact ⟨q', bind_eq_ok.mpr ⟨_, hpop, rfl⟩, hq'⟩
  | remove id =>
    cases hop
    obtain ⟨q', hrun, hq'⟩ := removeFromQueue_stores h id
    exact ⟨q', bind_eq_ok.mpr ⟨_, hrun, rfl⟩, hq'⟩

theorem run_fifo {ops : List Op} {out' l' : List Request} {c' : Nat} (h : Stores l c q)
    (hops : ops.foldlM fifo (out, l, c) = some (out', l', c')) :
    ∃ q', ops.foldlM exec (out, q) = .ok (out', q') ∧ Stores l' c' q' := by
  induction ops generalizing q out l c with
  | nil =>
    cases hops
    exact ⟨q, rfl, h⟩
  | cons op ops ih =>
    rw [foldlM_cons] at hops
    obtain ⟨⟨out1, l1, c1⟩, hop, hops⟩ := Option.bind_eq_some_iff.mp hops
    obtain ⟨q1, hexec, h1⟩ := exec_fifo h hop
    obtain ⟨q', hrun, hq'⟩ := ih h1 hops
    exact ⟨q', Except.foldlM_cons_ok.mpr ⟨_, hexec, hrun⟩, hq'⟩

def Pqueue.contents {α : Type} (q : Pqueue α) : List α :=
  (range q.len).filterMap fun i => q.data ((q.pointer + i) % q.capacity)

/-- The queue is a list with elements added at the end and taken from the front, if its
capacity is `2 ^ 31` at most, at first and whenever it is doubled. -/
theorem queue_fifo (capacity : Nat) (hpos : 0 < capacity) (hcap : capacity ≤ 2 ^ 31)
    (ops : List Op) (out l : List Request) (c : Nat)
    (h : ops.foldlM fifo ([], [], capacity) = some (out, l, c)) :
    ∃ q, run capacity ops = .ok (out, q) ∧ q.contents = l := by
  obtain ⟨q, hinit, hq⟩ := initQueue_stores hpos hcap
  obtain ⟨q', hrun, -, r, rfl, hlist, -⟩ := run_fifo hq h
  exact ⟨_, bind_eq_ok.mpr ⟨_, hinit, hrun⟩, hlist⟩

/-- A request with nothing but its identifier. -/
def requestOf (id : Text) : Request := ⟨0, .reqRun, id, 0, 0, false, [], []⟩

theorem queue_fifo_doubled : ∃ q, run 1 [.push (requestOf ['a']), .push (requestOf ['b']), .pop,
      .push (requestOf ['a']), .push (requestOf ['c']), .remove ['a']] =
        .ok ([requestOf ['a']], q) ∧ q.contents = [requestOf ['b'], requestOf ['c']] :=
  queue_fifo 1 (by decide) (by decide) _ _ _ 4 (by decide)

theorem foldlM_fifo_push (r : Request) {n : Nat} (hcap : c ≤ 2 ^ 31) (hroom : l.length + n ≤ c) :
    (replicate n (.push r)).foldlM fifo ([], l, c) = some ([], l ++ replicate n r, c) := by
  induction n generalizing l with
  | zero => rw [replicate_zero, replicate_zero, append_nil, foldlM_nil]; rfl
  | succ n ih =>
    have hgrown : grown c l.length = c := if_neg (by omega)
    rw [replicate_succ, foldlM_cons, fifo, hgrown, if_pos hcap]
    refine (ih ?_).trans (by rw [append_assoc, replicate_succ, singleton_append])
    rw [length_append, length_singleton]
    omega

/-- The capacity `2 ^ 31` is doubled to zero. -/
theorem queue_capacity_wraps :
    run (2 ^ 31) (replicate (2 ^ 31 + 1) (.push (requestOf []))) = .error .undefined := by
  obtain ⟨q, hinit, hq⟩ := initQueue_stores (α := Request) (Nat.two_pow_pos 31) (Nat.le_refl _)
  obtain ⟨q', hrun, hq'⟩ := run_fifo hq (foldlM_fifo_push (requestOf []) (Nat.le_refl _)
    (Nat.le_of_eq (Nat.zero_add _)))
  obtain ⟨hlen, hc, -⟩ := hq'.fields
  rw [nil_append, length_replicate] at hlen
  have hresize : resizeQueue q' = .error .undefined := by
    rw [resizeQueue, hc]
    exact if_pos (.inl (by decide))
  rw [run, hinit, Except.ok_bind, replicate_succ', foldlM_append, hrun, Except.ok_bind,
    foldlM_cons, exec, queuePush, if_pos (hlen.trans hc.symm), hresize]
  rfl

end Queue
end Why3
