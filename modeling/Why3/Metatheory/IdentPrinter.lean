import Why3.Core.IdentPrinter

/-!
The names a printer has recorded never clash. Every name in use is a key of the table of
indices, and a new name is none of them.
-/
namespace Why3
namespace IdentPrinter

open List
open KeyMap (add lookup_add mem)

theorem specname_injective (name : String) {i j : Nat} (hi : i ≠ 0) (hj : j ≠ 0)
    (h : specname name i = specname name j) : i = j := by
  have hs := congrArg String.toList h
  simp only [specname, hi, hj, if_false, String.toList_append, append_cancel_left_eq] at hs
  cases hw : snWord name with
  | true =>
    simpa [hw, Nat.toString_eq_ofList_toDigits] using
      congrArg (fun ds => Nat.ofDigitChars 10 ds 0) hs
  | false => simpa [hw] using congrArg length hs

theorem advance_spec {test : Nat → Bool} {n ind : Nat} (h : ∃ i < n, test (ind + i) = false) :
    ∃ i, advance test n ind = some i ∧ test i = false := by
  induction n generalizing ind with
  | zero =>
    obtain ⟨i, hi, -⟩ := h
    cases hi
  | succ n ih =>
    rw [advance]
    cases ht : test ind with
    | false => exact ⟨ind, rfl, ht⟩
    | true =>
      obtain ⟨i, hi, hfree⟩ := h
      obtain _ | i := i
      · rw [Nat.add_zero, ht] at hfree
        cases hfree
      · exact ih ⟨i, Nat.lt_of_succ_lt_succ hi, by rwa [Nat.add_assoc, Nat.add_comm 1]⟩

theorem retreat_spec {test : Nat → Bool} {ind : Nat} (hpos : 0 < ind) (h : test ind = false) :
    test (retreat test ind) = false := by
  fun_induction retreat test ind with
  | case1 => cases hpos
  | case2 => exact h
  | case3 ind ht => exact h
  | case4 ind ht ih => exact ih (Nat.succ_pos _) (Bool.eq_false_iff.mpr ht)

/-- Among the indices after `ind` one is free: the names for them are distinct and there are
more of them than keys. -/
theorem exists_free (indices : Indices) (name : String) (ind : Nat) :
    ∃ i < indices.length + 1, testname indices name (ind + 1 + i) = false := by
  by_contra hno
  have hsub : (range (indices.length + 1)).map (fun i => specname name (ind + 1 + i)) ⊆
      indices.map Prod.fst := by
    refine forall_mem_map.mpr fun i hi => ?_
    have hfull := fun hf => hno ⟨i, mem_range.mp hi, hf⟩
    exact KeyMap.mem_iff.mp (Bool.of_not_eq_false hfull)
  have hnodup : ((range (indices.length + 1)).map
      fun i => specname name (ind + 1 + i)).Nodup := by
    refine Nodup.map_on (fun i _ j _ he => ?_) nodup_range
    have := specname_injective name (by omega) (by omega) he
    omega
  have hle := (hnodup.subperm hsub).length_le
  simp only [length_map, length_range] at hle
  omega

/-- A name is always found and is new, and no name in use is lost. -/
theorem findUnique_spec (indices : Indices) (name : String) : ∃ t n,
    findUnique indices name = some (t, n) ∧ mem indices n = false ∧
      mem t name = true ∧
      ∀ k, mem t k = true ↔ k = n ∨ mem indices k = true := by
  have hadd (k : String) (x : Nat) (m : Indices) (k' : String) :
      mem (add k x m) k' = true ↔ k' = k ∨ mem m k' = true := by
    rw [mem, mem, lookup_add]
    split_ifs with h <;> simp [h]
  rw [findUnique]
  cases hl : indices.lookup name with
  | none =>
    exact ⟨_, _, rfl, by rw [mem, hl]; rfl, (hadd ..).mpr (.inl rfl), hadd name 0 indices⟩
  | some i =>
    have hname : mem indices name = true := by rw [mem, hl]; rfl
    have hfetch : ∃ j, fetch (testname indices name) (indices.length + 1) (i + 1) = some j ∧
        testname indices name j = false := by
      rw [fetch]
      split_ifs with ht
      · exact advance_spec (exists_free indices name (i + 1))
      · exact ⟨_, rfl, retreat_spec (Nat.succ_pos i) (Bool.eq_false_iff.mpr ht)⟩
    obtain ⟨j, hj, hfree⟩ := hfetch
    have hkeys (k : String) :
        mem (add (specname name j) 0 (add name j indices)) k = true ↔
          k = specname name j ∨ mem indices k = true := by
      rw [hadd, hadd]
      exact or_congr_right ⟨fun h => h.elim (fun h => h ▸ hname) id, .inr⟩
    simp only [hj]
    exact ⟨_, _, rfl, hfree, (hkeys name).mpr (.inr hname), hkeys⟩

/-! What the printers keep true: every name in use is a key of the table. -/

structure Valid (p : Printer) (strs : List String) : Prop where
  distinct : ∀ id id' n, p.values.lookup id = some n → p.values.lookup id' = some n → id = id'
  recorded : ∀ id n, p.values.lookup id = some n → mem p.indices n = true
  reserved : ∀ w ∈ strs ++ p.blacklist,
    mem p.indices w = true ∧ ∀ id, p.values.lookup id ≠ some w

theorem createIdentPrinter_valid (sanitizer : String → String) (sl : List String) :
    ∃ p, createIdentPrinter sanitizer sl = some p ∧ p.blacklist = sl ∧ Valid p [] := by
  have hfold : ∀ (l : List String) (t : Indices), ∃ t', l.foldlM reserve t = some t' ∧
      (∀ n ∈ l, mem t' n = true) ∧
      ∀ n, mem t n = true → mem t' n = true := by
    intro l
    induction l with
    | nil => exact fun t => ⟨t, rfl, forall_mem_nil _, fun _ h => h⟩
    | cons w l ih =>
      intro t
      obtain ⟨t1, n, h1, -, hw, hkeys⟩ := findUnique_spec t w
      obtain ⟨t2, h2, hl, hkeep⟩ := ih t1
      refine ⟨t2, ?_, forall_mem_cons.mpr ⟨hkeep w hw, hl⟩, fun k hk =>
        hkeep k ((hkeys k).mpr (.inr hk))⟩
      rw [foldlM_cons, reserve, h1]
      exact h2
  obtain ⟨t, ht, hsl, -⟩ := hfold sl []
  refine ⟨⟨t, [], sanitizer, sl⟩, by rw [createIdentPrinter, ht]; rfl, rfl, nofun, nofun, ?_⟩
  exact fun w hw => ⟨hsl w hw, nofun⟩

variable {p : Printer} {strs : List String}

theorem Valid.record (h : Valid p strs) (id : Ident) (name : String) :
    ∃ p' n, p.record id name = some (p', n) ∧ p'.values.lookup id = some n ∧
      p'.blacklist = p.blacklist ∧ Valid p' strs ∧
      ∀ id' n, p.values.lookup id' = some n → p'.values.lookup id' = some n := by
  rw [Printer.record]
  cases hl : p.values.lookup id with
  | some n => exact ⟨p, n, rfl, hl, rfl, h, fun _ _ h => h⟩
  | none =>
    obtain ⟨t, n, ht, hnew, -, hkeys⟩ := findUnique_spec p.indices name
    obtain ⟨hdist, hrec, hres⟩ := h
    simp only [ht]
    refine ⟨_, n, rfl, ?_, rfl, ⟨?_, ?_, ?_⟩, ?_⟩ <;> grind [lookup_add]

theorem Valid.forgetId (h : Valid p strs) (id : Ident) :
    (p.forgetId id).blacklist = p.blacklist ∧ Valid (p.forgetId id) strs ∧
      ∀ id' n, id ≠ id' → p.values.lookup id' = some n →
        (p.forgetId id).values.lookup id' = some n := by
  rw [Printer.forgetId]
  cases hl : p.values.lookup id with
  | none => exact ⟨rfl, h, fun _ _ _ h => h⟩
  | some name =>
    obtain ⟨hdist, hrec, hres⟩ := h
    refine ⟨rfl, ⟨?_, ?_, ?_⟩, ?_⟩ <;> grind [mem, KeyMap.lookup_remove]

theorem Valid.stringUnique (h : Valid p strs) (s : String) :
    ∃ t n, p.stringUnique s = some ({ p with indices := t }, n) ∧
      Valid { p with indices := t } (n :: strs) := by
  obtain ⟨t, n, ht, hnew, -, hkeys⟩ := findUnique_spec p.indices (p.sanitizer s)
  refine ⟨t, n, by rw [Printer.stringUnique, ht]; rfl, h.distinct,
    fun id k hk => (hkeys k).mpr (.inr (h.recorded id k hk)),
    forall_mem_cons.mpr ⟨⟨(hkeys n).mpr (.inl rfl), fun id hn => ?_⟩, fun w hw => ?_⟩⟩
  · rw [h.recorded id n hn] at hnew
    cases hnew
  · exact ⟨(hkeys w).mpr (.inr (h.reserved w hw).1), (h.reserved w hw).2⟩

def Call.forgets (c : Call) (id : Ident) : Prop :=
  match c with
  | .forgetId id' => id' = id
  | .forgetAll => True
  | _ => False

/-- A call returns, keeps the printer valid and the names of all identifiers it does not
forget. -/
theorem exec_valid (h : Valid p strs) (c : Call) :
    ∃ p' strs', exec (p, strs) c = some (p', strs') ∧ p'.blacklist = p.blacklist ∧
      Valid p' strs' ∧ ∀ id n, ¬c.forgets id → p.values.lookup id = some n →
        p'.values.lookup id = some n := by
  cases c with
  | idUnique sanitizer id | idUniqueAttr sanitizer id attrs =>
    obtain ⟨p', name, hp, -, hb, hv, hkeep⟩ := h.record id _
    refine ⟨p', strs, ?_, hb, hv, fun id n _ => hkeep id n⟩
    exact congrArg (Option.map fun r => (r.1, strs)) hp
  | stringUnique s =>
    obtain ⟨t, n, ht, hv⟩ := h.stringUnique s
    exact ⟨{ p with indices := t }, n :: strs, by rw [exec, ht]; rfl, rfl, hv, fun _ _ _ h => h⟩
  | forgetId id =>
    obtain ⟨hb, hv, hkeep⟩ := h.forgetId id
    exact ⟨_, strs, rfl, hb, hv, hkeep⟩
  | forgetAll =>
    obtain ⟨p', hp, hb, hv⟩ := createIdentPrinter_valid p.sanitizer p.blacklist
    exact ⟨p', [], congrArg (Option.map (·, [])) hp, hb, hv, fun _ _ hno => absurd trivial hno⟩

theorem foldlM_exec_valid (h : Valid p strs) (calls : List Call) :
    ∃ p' strs', calls.foldlM exec (p, strs) = some (p', strs') ∧ p'.blacklist = p.blacklist ∧
      Valid p' strs' := by
  induction calls generalizing p strs with
  | nil => exact ⟨p, strs, rfl, rfl, h⟩
  | cons c calls ih =>
    obtain ⟨p1, strs1, h1, hb, hv, -⟩ := exec_valid h c
    obtain ⟨p2, strs2, h2, hb2, hv2⟩ := ih hv
    refine ⟨p2, strs2, ?_, hb2.trans hb, hv2⟩
    rw [foldlM_cons, h1]
    exact h2

end IdentPrinter
end Why3
