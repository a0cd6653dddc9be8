import Why3.Metatheory.TyInst

/-!
Unfoldings of types.

A signature gives the constructor argument types of each algebraic symbol and
the arguments that are negative whatever they hold. `Occ` follows a path into an
unfolding of a type and records whether it crosses a negative argument; `NegIn`
says the same for a type variable by recursion on the type and the parameters
of the symbols. The two agree on variables.
-/
namespace Why3

open List

structure UnfoldSig where
  fields : TySymbol → List Ty
  negArg : TySymbol → Nat → Bool

/-- The argument types of constructors are built from the parameters. -/
structure UnfoldSig.WellFormed (S : UnfoldSig) : Prop where
  params : ∀ {ts a}, a ∈ S.fields ts → ∀ v ∈ tyFreevars a, v ∈ ts.tsArgs
  arity : ∀ {ts a}, a ∈ S.fields ts → tyWf a = true

/-- `Occ k ty n ty'`: after `k` steps into the arguments of symbols or into the
constructors of an algebraic symbol, `ty` shows `ty'`; `n` when a step went into
a negative argument. -/
inductive Occ (S : UnfoldSig) : Nat → Ty → Bool → Ty → Prop
  | here (ty : Ty) : Occ S 0 ty false ty
  | arg {k ts tl a n ty'} {i : Nat} (hi : tl[i]? = some a) (ha : Occ S k a n ty') :
      Occ S (k + 1) (.tyapp ts tl) (S.negArg ts i || n) ty'
  | unfold {k ts tl a n ty'} (ha : a ∈ S.fields ts)
      (hk : Occ S k (tyInst (tsMatchArgs ts tl) a) n ty') :
      Occ S (k + 1) (.tyapp ts tl) n ty'

/-- A negative occurrence of a variable in some unfolding, found by going through
the parameters of the symbols. With `acyclic`, no symbol of `sts` is entered and
none is entered inside itself. -/
inductive NegIn (S : UnfoldSig) (acyclic : Bool) : List TySymbol → TvSymbol → Ty → Prop
  | fixed {sts ts tl a v} {i : Nat} (hi : tl[i]? = some a) (hn : S.negArg ts i = true)
      (hts : acyclic = true → ts ∉ sts) (hv : v ∈ tyFreevars a) :
      NegIn S acyclic sts v (.tyapp ts tl)
  | param {sts ts tl a v w b} {i : Nat} (hi : tl[i]? = some a) (hw : ts.tsArgs[i]? = some w)
      (hts : acyclic = true → ts ∉ sts) (hb : b ∈ S.fields ts)
      (hn : NegIn S acyclic (ts :: sts) w b) (hv : v ∈ tyFreevars a) :
      NegIn S acyclic sts v (.tyapp ts tl)
  | arg {sts ts tl a v} {i : Nat} (hi : tl[i]? = some a) (hn : NegIn S acyclic sts v a) :
      NegIn S acyclic sts v (.tyapp ts tl)

variable {sts : List TySymbol} {ty a : Ty} {v : TvSymbol} {K : Ident → Prop} {S' : UnfoldSig}
  {tl : List Ty} {ts : TySymbol} {S : UnfoldSig}

/-- Without the restriction the set of symbols does not matter. -/
theorem NegIn.anySts (h : NegIn S false sts v ty) (sts' : List TySymbol)
    : NegIn S false sts' v ty := by
  induction h generalizing sts' with
  | fixed hi hn _ hv => exact .fixed hi hn nofun hv
  | param hi hw _ hb _ hv ih => exact .param hi hw nofun hb (ih _) hv
  | arg hi _ ih => exact .arg hi (ih _)

theorem NegIn.mem_tyFreevars {acyclic : Bool} (h : NegIn S acyclic sts v ty)
    : v ∈ tyFreevars ty := by
  induction h with
  | fixed hi _ _ hv | param hi _ _ _ _ hv _ => simpa [tyFreevars] using ⟨_, mem_of_getElem? hi, hv⟩
  | arg hi _ ih => simpa [tyFreevars] using ⟨_, mem_of_getElem? hi, ih⟩

/-! Two signatures that agree on a closed set of symbols have the same unfoldings
there. -/

structure UnfoldSig.AgreeOn (S S' : UnfoldSig) (K : Ident → Prop) : Prop where
  fields : ∀ {ts}, K ts.tsName → S'.fields ts = S.fields ts
  negArg : ∀ {ts}, K ts.tsName → S'.negArg ts = S.negArg ts
  closed : ∀ {ts a}, K ts.tsName → a ∈ S.fields ts → ∀ id ∈ symsTy a, K id

theorem UnfoldSig.AgreeOn.symm (h : S.AgreeOn S' K) : S'.AgreeOn S K where
  fields hts := (h.fields hts).symm
  negArg hts := (h.negArg hts).symm
  closed hts ha := h.closed hts (h.fields hts ▸ ha)

theorem mem_symsTy_tyInst {s : TySubst} {id : Ident} (ty : Ty) (h : id ∈ symsTy (tyInst s ty)) :
    id ∈ symsTy ty ∨ ∃ v ∈ tyFreevars ty, id ∈ symsTy (tyInst s (.tyvar v)) := by
  induction ty using Ty.induct with
  | tyvar v => exact .inr ⟨v, by simp [tyFreevars], h⟩
  | tyapp ts tl ih =>
    simp only [tyInst_tyapp, symsTy, mem_cons, mem_symsTyList, mem_map] at h ⊢
    obtain rfl | ⟨_, ⟨t, ht, rfl⟩, hid⟩ := h
    · exact .inl (.inl rfl)
    · obtain hid | ⟨v, hv, hid⟩ := ih t ht hid
      · exact .inl (.inr ⟨t, ht, hid⟩)
      · exact .inr ⟨v, by simpa [tyFreevars] using ⟨t, ht, hv⟩, hid⟩

private theorem symsTy_arg {i : Nat} (h : ∀ id ∈ symsTy (.tyapp ts tl), K id)
    (hi : tl[i]? = some a) : ∀ id ∈ symsTy a, K id := by
  intro id hid
  apply h id
  simpa [symsTy] using .inr ⟨a, mem_of_getElem? hi, hid⟩

private theorem symsTy_head (h : ∀ id ∈ symsTy (.tyapp ts tl), K id) : K ts.tsName :=
  h ts.tsName (by simp [symsTy])

theorem NegIn.agree (hK : S.AgreeOn S' K) {acyclic : Bool} (h : NegIn S acyclic sts v ty)
    (hty : ∀ id ∈ symsTy ty, K id) : NegIn S' acyclic sts v ty := by
  induction h with
  | @fixed sts ts tl a v i hi hn hts hv =>
    exact .fixed hi (by rw [hK.negArg (symsTy_head hty), hn]) hts hv
  | @param sts ts tl a v w b i hi hw hts hb _ hv ih =>
    have hhead := symsTy_head hty
    exact .param hi hw hts (by rw [hK.fields hhead]; exact hb) (ih (hK.closed hhead hb)) hv
  | arg hi _ ih => exact .arg hi (ih (symsTy_arg hty hi))

section Paths

variable {S : UnfoldSig} (hS : S.WellFormed)

include hS

theorem UnfoldSig.WellFormed.unfold_wf (hty : tyWf (.tyapp ts tl) = true) (ha : a ∈ S.fields ts) :
    tyWf (tyInst (tsMatchArgs ts tl) a) = true := by
  obtain ⟨hlen, htl⟩ := tyWf_tyapp.mp hty
  apply tyWf_tyInst a (hS.arity ha)
  intro v hv
  obtain ⟨i, b, -, hb, heq⟩ := tyInst_tsMatchArgs hlen (hS.params ha v hv)
  rw [heq]
  exact htl b (mem_of_getElem? hb)

variable {k : Nat} {n : Bool} {ty' : Ty}

/-- A path into an instance stays in the generic part or leaves it through a
variable. -/
theorem Occ.of_tyInst {s : TySubst} (h : Occ S k (tyInst s a) n ty') (ha : tyWf a = true) :
    (∃ us ul, Occ S k a n (.tyapp us ul) ∧ ty' = tyInst s (.tyapp us ul)) ∨
    (∃ k1 k2 n1 n2 w, k = k1 + k2 ∧ n = (n1 || n2) ∧
      Occ S k1 a n1 (.tyvar w) ∧ Occ S k2 (tyInst s (.tyvar w)) n2 ty') := by
  generalize hty : tyInst s a = ty at h
  induction h generalizing a with
  | here ty =>
    cases a with
    | tyvar w => exact .inr ⟨0, 0, false, false, w, rfl, rfl, .here _, hty ▸ .here _⟩
    | tyapp us ul => exact .inl ⟨us, ul, .here _, hty.symm⟩
  | @arg k ts tl c n ty' i hi hc ih =>
    cases a with
    | tyvar w => exact .inr ⟨0, k + 1, false, _, w, by omega, rfl, .here _, hty ▸ .arg hi hc⟩
    | tyapp us ul =>
      rw [tyInst_tyapp] at hty
      cases hty
      rw [List.getElem?_map] at hi
      obtain ⟨c', hc', rfl⟩ := Option.map_eq_some_iff.mp hi
      have hwf : tyWf c' = true := (tyWf_tyapp.mp ha).2 c' (mem_of_getElem? hc')
      obtain ⟨vs, vl, ho, rfl⟩ | ⟨k1, k2, n1, n2, w, rfl, rfl, h1, h2⟩ :=
        ih hwf rfl
      · exact .inl ⟨vs, vl, .arg hc' ho, rfl⟩
      · exact .inr ⟨k1 + 1, k2, _, n2, w, by omega, by rw [Bool.or_assoc], .arg hc' h1, h2⟩
  | @unfold k ts tl c n ty' hc hk ih =>
    cases a with
    | tyvar w => exact .inr ⟨0, k + 1, false, _, w, by omega, rfl, .here _, hty ▸ .unfold hc hk⟩
    | tyapp us ul =>
      have hlen := (tyWf_tyapp.mp ha).1
      rw [tyInst_tyapp] at hty
      cases hty
      rw [tyInst_tsMatchArgs_map s hlen (hS.params hc)] at ih
      obtain ⟨vs, vl, ho, rfl⟩ | ⟨k1, k2, n1, n2, w, rfl, rfl, h1, h2⟩ :=
        ih (hS.unfold_wf ha hc) rfl
      · exact .inl ⟨vs, vl, .unfold hc ho, rfl⟩
      · exact .inr ⟨k1 + 1, k2, n1, n2, w, by omega, rfl, .unfold hc h1, h2⟩

/-- An unfolding shows no other variables than those of the type. -/
theorem Occ.mem_tyFreevars (h : Occ S k ty n ty') (hty : tyWf ty = true) (hv : v ∈ tyFreevars ty') :
    v ∈ tyFreevars ty := by
  induction h with
  | here ty => exact hv
  | @arg k ts tl a n ty' i hi _ ih =>
    have ha := mem_of_getElem? hi
    have hva := ih ((tyWf_tyapp.mp hty).2 a ha) hv
    simpa [tyFreevars] using ⟨a, ha, hva⟩
  | @unfold k ts tl a n ty' ha _ ih =>
    have hva := ih (hS.unfold_wf hty ha) hv
    obtain ⟨w, hw, hvw⟩ := (mem_tyFreevars_tyInst a).mp hva
    obtain ⟨i, b, -, hb, heq⟩ :=
      tyInst_tsMatchArgs (tyWf_tyapp.mp hty).1 (hS.params ha w hw)
    rw [heq] at hvw
    simpa [tyFreevars] using ⟨b, mem_of_getElem? hb, hvw⟩

theorem Occ.agree (hK : S.AgreeOn S' K) (h : Occ S k ty n ty') (hty : tyWf ty = true)
    (hsyms : ∀ id ∈ symsTy ty, K id) : Occ S' k ty n ty' := by
  induction h with
  | here ty => exact .here ty
  | @arg k ts tl a n ty' i hi _ ih =>
    rw [← hK.negArg (symsTy_head hsyms)]
    exact .arg hi (ih ((tyWf_tyapp.mp hty).2 a (mem_of_getElem? hi)) (symsTy_arg hsyms hi))
  | @unfold k ts tl a n ty' ha _ ih =>
    have hhead := symsTy_head hsyms
    refine .unfold (a := a) (by rw [hK.fields hhead]; exact ha) (ih (hS.unfold_wf hty ha) ?_)
    intro id hid
    obtain hid | ⟨v, hv, hid⟩ := mem_symsTy_tyInst a hid
    · exact hK.closed hhead ha id hid
    · obtain ⟨i, b, -, hb, heq⟩ :=
        tyInst_tsMatchArgs (tyWf_tyapp.mp hty).1 (hS.params ha v hv)
      rw [heq] at hid
      exact symsTy_arg hsyms hb id hid

/-- A negative path to a variable is found by going through the parameters. -/
theorem Occ.negIn (h : Occ S k ty true (.tyvar v))
    (hty : tyWf ty = true) : NegIn S false [] v ty := by
  induction k using Nat.strongRecOn generalizing ty v with
  | ind k ih =>
  generalize hn : true = n, hv : Ty.tyvar v = ty' at h
  cases h with
  | here ty => cases hn
  | @arg k ts tl a n _ i hi ha =>
    subst hv
    have hwf := (tyWf_tyapp.mp hty).2 a (mem_of_getElem? hi)
    obtain hneg | rfl := Bool.or_eq_true_iff.mp hn.symm
    · exact .fixed hi hneg nofun (ha.mem_tyFreevars hS hwf (by simp [tyFreevars]))
    · exact .arg hi (ih k (by omega) ha hwf)
  | @unfold k ts tl a _ _ ha hk =>
    subst hv hn
    -- The path leaves the constructor's type through one of the parameters.
    obtain ⟨us, ul, -, heq⟩ | ⟨k1, k2, n1, n2, w, rfl, hn, h1, h2⟩ :=
          hk.of_tyInst hS (hS.arity ha)
    · rw [tyInst_tyapp] at heq
      cases heq
    · have hw : w ∈ tyFreevars a :=
        h1.mem_tyFreevars hS (hS.arity ha) (by simp [tyFreevars])
      obtain ⟨i, b, hi, hb, heq⟩ :=
        tyInst_tsMatchArgs (tyWf_tyapp.mp hty).1 (hS.params ha w hw)
      rw [heq] at h2
      have hwf := (tyWf_tyapp.mp hty).2 b (mem_of_getElem? hb)
      obtain rfl | rfl := Bool.or_eq_true_iff.mp hn.symm
      · have hneg := ih k1 (by omega) h1 (hS.arity ha)
        exact .param hb hi nofun ha (hneg.anySts _)
          (h2.mem_tyFreevars hS hwf (by simp [tyFreevars]))
      · exact .arg hb (ih k2 (by omega) h2 hwf)

end Paths

end Why3
