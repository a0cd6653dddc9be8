import Why3.Transform.EliminateDefinition

/-!
What a bisection ends with, for all answers: a removal set that was proposed and accepted,
beside which each declaration was refused alone. The invariant is about the declarations
removed so far and is carried by every continuation of `bisectAux`.
-/
namespace Why3
namespace Bisect

open List

def removal (ds : List DeclNode) : Rem := ds.foldl addRem emptyRem

theorem removal_append (ds es : List DeclNode) :
    removal (ds ++ es) = es.foldl addRem (removal ds) :=
  foldl_append

theorem removal_concat (ds : List DeclNode) (d : DeclNode) :
    removal (ds ++ [d]) = addRem (removal ds) d :=
  removal_append ds [d]

variable {a : List DeclNode} {log : Log} {ds : List DeclNode}

def Settled (log : Log) (ds : List DeclNode) (d : DeclNode) : Prop :=
  d ∈ ds ∨ ∃ es, es ⊆ ds ∧ (removal (es ++ [d]), false) ∈ log

/-- The search has come to the position `j` of `a` and removes `ds`. -/
structure Reached (a : List DeclNode) (log : Log) (j : Nat) (ds : List DeclNode) : Prop where
  sub : ds ⊆ a
  accepted : ds = [] ∨ (removal ds, true) ∈ log
  settled : ∀ d ∈ a.take j, Settled log ds d

theorem Settled.mono {es : List DeclNode} {log' : Log} {d : DeclNode} (h : Settled log ds d)
    (hds : ds ⊆ es) (hlog : log ⊆ log') : Settled log' es d := by
  rcases h with h | ⟨fs, hfs, h⟩
  · exact .inl (hds h)
  · exact .inr ⟨fs, Subset.trans hfs hds, hlog h⟩

theorem Reached.cons {j : Nat} (h : Reached a log j ds) (x : Rem × Bool) :
    Reached a (x :: log) j ds where
  sub := h.sub
  accepted := h.accepted.imp_right (mem_cons_of_mem x)
  settled d hd := (h.settled d hd).mono (Subset.refl ds) (subset_cons_self x log)

theorem Reached.accept {i m : Nat} (h : Reached a log i ds) (him : i ≤ m) :
    Reached a ((removal (ds ++ (a.take m).drop i), true) :: log) m (ds ++ (a.take m).drop i) where
  sub := append_subset.mpr
    ⟨h.sub, ((drop_sublist i _).trans (take_sublist m a)).subset⟩
  accepted := .inr mem_cons_self
  settled d hd := by
    rw [← take_append_drop i (a.take m), take_take, Nat.min_eq_left him] at hd
    rcases mem_append.mp hd with hd | hd
    · exact (h.settled d hd).mono (subset_append_left _ _) (subset_cons_self _ _)
    · exact .inl (mem_append_right ds hd)

theorem Reached.refuse {i : Nat} {d : DeclNode} (h : Reached a log i ds) (hd : a[i]? = some d) :
    Reached a ((removal (ds ++ [d]), false) :: log) (i + 1) ds where
  sub := h.sub
  accepted := (h.cons _).accepted
  settled e he := by
    rw [take_add_one, hd] at he
    rcases mem_append.mp he with he | he
    · exact (h.cons _).settled e he
    · cases mem_singleton.mp he
      exact .inr ⟨ds, Subset.refl ds, mem_cons_self⟩

def Ends (ans : Log → Rem → Bool) (a : List DeclNode) (log : Log) (s : BisectStep) : Prop :=
  ∃ log' ds, follow ans log s = .ok (log', removal ds) ∧ Reached a log' a.length ds

/-- A question is answered in one of two ways, and the search ends after both. -/
theorem Ends.call {ans : Log → Rem → Bool} {rem : Rem} {valid invalid : Unit → BisectStep}
    (hv : Ends ans a ((rem, true) :: log) (valid ()))
    (hi : Ends ans a ((rem, false) :: log) (invalid ())) :
    Ends ans a log (call rem valid invalid) := by
  rw [Ends, Bisect.call, follow]
  cases ans log rem with
  | true => exact hv
  | false => exact hi

theorem foldSub_removal (ds : List DeclNode) (i m : Nat) :
    foldSub addRem (removal ds) a i m = removal (ds ++ (a.take m).drop i) :=
  (removal_append ds _).symm

theorem bisectAux_ends {ans : Log → Rem → Bool} {cont : Rem → BisectStep} {i1 i2 : Nat}
    (hlt : i1 < i2) (hle : i2 ≤ a.length) (h : Reached a log i1 ds)
    (hcont : ∀ log' es, Reached a log' i2 es → Ends ans a log' (cont (removal es))) :
    Ends ans a log (bisectAux a i1 i2 (removal ds) cont) := by
  induction hn : i2 - i1 using Nat.strong_induction_on generalizing i1 i2 log ds cont with
  | h n ih =>
    rw [bisectAux]
    by_cases hone : i2 - i1 < 2
    · obtain rfl : i2 = i1 + 1 := by omega
      have hd : a[i1]? = some a[i1] := List.getElem?_eq_getElem hle
      have hdrop : (a.take (i1 + 1)).drop i1 = [a[i1]] := by
        rw [drop_take, Nat.add_sub_cancel_left, drop_eq_getElem_cons hle]
        rfl
      have hacc := h.accept (Nat.le_add_right i1 1)
      rw [hdrop] at hacc
      simp only [hd, Nat.add_sub_cancel_left, Nat.one_lt_two, if_true, ← removal_concat]
      exact .call (hcont _ _ hacc) (hcont _ _ (h.refuse hd))
    · simp only [hone, if_false, foldSub_removal]
      have hm : i1 < (i1 + i2) / 2 ∧ (i1 + i2) / 2 < i2 := by omega
      generalize (i1 + i2) / 2 = m at hm
      refine .call (ih (i2 - m) (by omega) hm.2 hle (h.accept (by omega)) hcont rfl) ?_
      refine ih (m - i1) (by omega) hm.1 (by omega) (h.cons _) (fun log' es hes => ?_) rfl
      -- the first half is settled with `es`; the second half is tried as a whole
      rw [foldSub_removal]
      exact .call (hcont _ _ (hes.accept (by omega)))
        (ih (i2 - m) (by omega) hm.2 hle (hes.cons _) hcont rfl)

theorem follow_answers (oracle : Rem → Bool) {s : BisectStep} {log' : Log} {rem : Rem}
    (hlog : ∀ x ∈ log, x.2 = oracle x.1)
    (h : follow (fun _ => oracle) log s = .ok (log', rem)) : ∀ x ∈ log', x.2 = oracle x.1 := by
  induction s generalizing log with
  | bsDone r =>
    cases h
    exact hlog
  | bsStep r kont ih => exact ih _ (forall_mem_cons.mpr ⟨rfl, hlog⟩) h
  | raised e => cases h

theorem bisectStep_ends (ans : Log → Rem → Bool) (pr : PrSymbol) (f : Term) {task : Task}
    (hne : removable task ≠ []) :
    Ends ans (removable task) [] (bisectStep (.decl (.dprop .pgoal pr f) :: task)) := by
  have hstart : Reached (removable task) [] 0 [] :=
    ⟨nil_subset _, .inl rfl, fun d hd => by simp at hd⟩
  exact bisectAux_ends (length_pos_iff.mpr hne) (Nat.le_refl _) hstart
    fun log' es hes => ⟨log', es, rfl, hes⟩

/-- Removing fewer of the declarations keeps the task proved. -/
def Monotone (oracle : Rem → Bool) (a : List DeclNode) : Prop :=
  ∀ ds es, ds ⊆ es → es ⊆ a → oracle (removal es) = true → oracle (removal ds) = true

def oneLemma : Task := [.decl (.dprop PropKind.plemma ⟨⟨"H", 0⟩⟩ (.ttrue ∅))]

end Bisect
end Why3
