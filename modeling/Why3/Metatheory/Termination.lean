import Why3.Metatheory.CallPaths
import Why3.Library.LexDescent

/-!
Soundness of the termination check.

The positions found by `findVariant` come in rounds: in each round no remaining
vector goes up and those that go down are removed. A loop therefore goes down in
the lexicographic order of the positions, and the calls of a group that passes
the check are well-founded.
-/
namespace Why3

open List

open Relation LexDescent

/-! The rounds of `check`. -/

/-- The entries of a vector speak of their own position. -/
def IsLocal (v : List Descent) : Prop :=
  ∀ k, v.getD k .unknown = .less k ∨ v.getD k .unknown = .equal k ∨ v.getD k .unknown = .unknown

theorem localVector_getD (v : List Descent) (k : Nat) : (localVector v).getD k .unknown =
      match v.getD k .unknown with
      | .less j => if k = j then .less j else .unknown
      | .equal j => if k = j then .equal j else .unknown
      | .unknown => .unknown := by
  rw [localVector, getD_eq_getElem?_getD, getElem?_mapIdx, getD_eq_getElem?_getD]
  cases v[k]? with
  | none => rfl
  | some d => cases d <;> rfl

theorem localVector_isLocal (v : List Descent) : IsLocal (localVector v) := by
  intro k
  rw [localVector_getD]
  split
  next j _ =>
    split
    next h => exact .inl (h ▸ rfl)
    next => exact .inr (.inr rfl)
  next j _ =>
    split
    next h => exact .inr (.inl (h ▸ rfl))
    next => exact .inr (.inr rfl)
  next => exact .inr (.inr rfl)

variable {d : Descent} {k i fuel : Nat}

theorem getD_of_localVector {v : List Descent} (hd : d ≠ .unknown)
    (h : (localVector v).getD k .unknown = d) : v.getD k .unknown = d := by
  rw [localVector_getD] at h
  split at h
  next j hj =>
    split at h
    next => exact hj.trans h
    next => exact absurd h.symm hd
  next j hj =>
    split at h
    next => exact hj.trans h
    next => exact absurd h.symm hd
  next => exact absurd h.symm hd

theorem mem_lessPositions {p : List Descent} : i ∈ lessPositions p ↔ .less i ∈ p := by
  have hfold : ∀ (p : List Descent) (l : List Nat),
      i ∈ p.foldl findLess l ↔ .less i ∈ p ∨ i ∈ l := by
    intro p
    induction p with
    | nil => simp
    | cons d p ih =>
      intro l
      rw [foldl_cons, ih]
      cases d <;> simp [findLess, or_assoc, or_left_comm]
  simpa [lessPositions] using hfold p []

theorem minEntry_ne_unknown {d1 d2 : Descent} (h : minEntry d1 d2 ≠ .unknown) :
    d1 ≠ .unknown ∧ d2 ≠ .unknown := by
  cases d1 <;> cases d2 <;> simp_all [minEntry]

theorem minEntry_eq_less {d1 d2 : Descent} (h : minEntry d1 d2 = .less i) :
    d1 = .less i ∨ d2 = .less i := by
  cases d1 <;> cases d2 <;> simp_all [minEntry]

theorem minVector_getD (v1 v2 : List Descent) (k : Nat) : (minVector v1 v2).getD k .unknown =
      minEntry (v1.getD k .unknown) (v2.getD k .unknown) := by
  rw [minVector, getD_eq_getElem?_getD, getElem?_mapIdx, getD_eq_getElem?_getD (l := v1)]
  cases v1[k]? with
  | none => rfl
  | some d => rfl

/-- A known entry of the minimum is known in every vector, and a descent in it is
one of some vector. -/
theorem foldl_minVector {a : List Descent} {r : List (List Descent)} :
    ((r.foldl minVector a).getD k .unknown ≠ .unknown →
      ∀ v ∈ a :: r, v.getD k .unknown ≠ .unknown) ∧
    ∀ i, (r.foldl minVector a).getD k .unknown = .less i →
      ∃ v ∈ a :: r, v.getD k .unknown = .less i := by
  induction r generalizing a with
  | nil => simp
  | cons b r ih =>
    obtain ⟨hknown, hless⟩ := ih (a := minVector a b)
    refine ⟨?_, ?_⟩
    · intro h
      have hall := hknown h
      have hab := hall _ mem_cons_self
      rw [minVector_getD] at hab
      obtain ⟨ha, hb⟩ := minEntry_ne_unknown hab
      exact forall_mem_cons.mpr ⟨ha, forall_mem_cons.mpr ⟨hb, (forall_mem_cons.mp hall).2⟩⟩
    · intro i h
      obtain ⟨v, hv, hvi⟩ := hless i h
      cases mem_cons.mp hv with
      | inl heq =>
        rw [heq, minVector_getD] at hvi
        obtain ha | hb := minEntry_eq_less hvi
        · exact ⟨a, mem_cons_self, ha⟩
        · exact ⟨b, mem_cons_of_mem _ mem_cons_self, hb⟩
      | inr hv => exact ⟨v, mem_cons_of_mem _ (mem_cons_of_mem _ hv), hvi⟩

/-- The positions of one round: no vector goes up there and one goes down. -/
theorem mem_round {a : List Descent} {r : List (List Descent)} (hlocal : ∀ v ∈ a :: r, IsLocal v)
    (h : i ∈ lessPositions (r.foldl minVector a)) :
    (∀ v ∈ a :: r, v.getD i .unknown = .less i ∨ v.getD i .unknown = .equal i) ∧
      ∃ v ∈ a :: r, v.getD i .unknown = .less i := by
  obtain ⟨k, hk⟩ := getElem?_of_mem (mem_lessPositions.mp h)
  have hget : (r.foldl minVector a).getD k .unknown = .less i := by
    rw [getD_eq_getElem?_getD, hk]
    rfl
  obtain ⟨hknown, hless⟩ := foldl_minVector (a := a) (r := r) (k := k)
  obtain ⟨v, hv, hvi⟩ := hless i hget
  -- The vectors are local, so the descent found at `k` is one of position `k`.
  have hki : k = i := by
    obtain h | h | h := hlocal v hv k
    · rw [h] at hvi
      exact Descent.less.inj hvi
    · rw [h] at hvi
      cases hvi
    · rw [h] at hvi
      cases hvi
  subst hki
  refine ⟨?_, v, hv, hvi⟩
  intro u hu
  have hne := hknown (by rw [hget]; simp) u hu
  obtain h | h | h := hlocal u hu k
  · exact .inl h
  · exact .inr h
  · exact absurd h hne

/-- The vector goes down at one of the positions and not up before it. -/
def GoesDown (is : List Nat) (v : List Descent) : Prop :=
  ∃ front i back, is = front ++ i :: back ∧
    (∀ j ∈ front, v.getD j .unknown = .less j ∨ v.getD j .unknown = .equal j) ∧
    v.getD i .unknown = .less i

theorem checkVariant_goesDown {acc l : List Nat} {mx : List (List Descent)}
    (hlocal : ∀ v ∈ mx, IsLocal v) (h : checkVariant fuel acc mx = some l) :
    ∃ is, l = acc.reverse ++ is ∧ ∀ v ∈ mx, GoesDown is v := by
  induction fuel generalizing acc mx with
  | zero =>
    cases mx with
    | nil =>
      cases h
      exact ⟨[], by simp, by simp⟩
    | cons a r => cases h
  | succ fuel ih =>
    cases mx with
    | nil =>
      cases h
      exact ⟨[], by simp, by simp⟩
    | cons a r =>
      simp only [checkVariant] at h
      split at h
      next => cases h
      next =>
        obtain ⟨is, hl, his⟩ := ih
          (fun v hv => hlocal v (mem_of_mem_filter hv)) h
        refine ⟨lessPositions (r.foldl minVector a) ++ is, by simpa using hl, ?_⟩
        intro v hv
        have hround : ∀ i ∈ lessPositions (r.foldl minVector a),
            v.getD i .unknown = .less i ∨ v.getD i .unknown = .equal i :=
          fun i hi => (mem_round hlocal hi).1 v hv
        by_cases hkept : ∀ i ∈ lessPositions (r.foldl minVector a), v.getD i .unknown ≠ .less i
        · obtain ⟨front, i, back, rfl, hfront, hi⟩ :=
            his v (mem_filter.mpr ⟨hv, by simpa using hkept⟩)
          exact ⟨lessPositions (r.foldl minVector a) ++ front, i, back, by simp,
            forall_mem_append.mpr ⟨hround, hfront⟩, hi⟩
        · obtain ⟨i, hi⟩ := not_forall.mp hkept
          obtain ⟨hmem, hless⟩ := Classical.not_imp.mp hi
          obtain ⟨front, back, hsplit⟩ := append_of_mem hmem
          refine ⟨front, i, back ++ is, by simp [hsplit], ?_, not_not.mp hless⟩
          intro j hj
          exact hround j (by rw [hsplit]; exact mem_append_left _ hj)

/-- The rounds do not run out of fuel: each one removes a vector. -/
theorem checkVariant_succ {acc : List Nat} {mx : List (List Descent)} (hlocal : ∀ v ∈ mx, IsLocal v)
    (hfuel : mx.length ≤ fuel) : checkVariant (fuel + 1) acc mx = checkVariant fuel acc mx := by
  induction fuel generalizing acc mx with
  | zero =>
    cases length_eq_zero_iff.mp (Nat.le_zero.mp hfuel)
    rfl
  | succ fuel ih =>
    cases mx with
    | nil => rfl
    | cons a r =>
      rw [checkVariant, checkVariant]
      by_cases hres : lessPositions (r.foldl minVector a) = []
      · simp only [hres, if_true]
      · simp only [hres]
        apply ih (fun v hv => hlocal v (mem_of_mem_filter hv))
        obtain ⟨i, hi⟩ := exists_mem_of_ne_nil _ hres
        obtain ⟨-, v, hv, hvi⟩ := mem_round hlocal hi
        apply Nat.le_of_lt_succ
        refine Nat.lt_of_lt_of_le ?_ hfuel
        apply length_filter_lt_length_iff_exists.mpr
        refine ⟨v, hv, ?_⟩
        simpa using ⟨i, hi, hvi⟩

/-! Loops go down. -/

section Loops

variable {A : Type} {E : Evaluation A} {ldl : List LogicDecl}

variable {u v : List (Tree A)} {c : List Descent} {is : List Nat} {ld : LogicDecl}

theorem VecDesc.multiply {z : List (Tree A)} {c1 c2 : List Descent} (h1 : VecDesc z u c1)
    (h2 : VecDesc v z c2) : VecDesc v u (multiply c1 c2) := by
  refine ⟨by rw [multiply_length, h1.1], ?_⟩
  intro k x hx
  rw [multiply_getD]
  have hdesc := h1.2 k x hx
  cases hd : c1.getD k .unknown with
  | unknown => trivial
  | equal i =>
    rw [hd] at hdesc
    obtain ⟨y, hy, hxy⟩ := hdesc
    exact (h2.2 i y hy).of_subEq hxy
  | less i =>
    rw [hd] at hdesc
    obtain ⟨y, hy, hxy⟩ := hdesc
    exact (h2.2 i y hy).toLess hxy

theorem eq_of_subsumesEntry_less (h : subsumesEntry d (.less k) = true) : d = .less k := by
  cases d <;> simp_all [subsumesEntry]

theorem eq_of_subsumesEntry_equal
    (h : subsumesEntry d (.equal k) = true) : d = .less k ∨ d = .equal k := by
  cases d <;> simp_all [subsumesEntry]

theorem at_of_desc_less {x : Tree A} (hx : u[k]? = some x)
    (h : Desc v x (.less k)) : At Tree.Sub k u v := by
  obtain ⟨y, hy, hxy⟩ := h
  exact ⟨x, y, hx, hy, hxy⟩

theorem at_of_desc_equal {x : Tree A} (hx : u[k]? = some x)
    (h : Desc v x (.equal k)) : At (ReflGen Tree.Sub) k u v := by
  obtain ⟨y, hy, hxy⟩ := h
  refine ⟨x, y, hx, hy, ?_⟩
  cases reflTransGen_iff_eq_or_transGen.mp hxy with
  | inl heq => exact heq ▸ .refl
  | inr hxy => exact .single hxy

theorem At.reflGen (h : At Tree.Sub k u v) : At (ReflGen Tree.Sub) k u v := by
  obtain ⟨x, y, hx, hy, hxy⟩ := h
  exact ⟨x, y, hx, hy, .single hxy⟩

/-- A vector that is bounded by one that goes down takes the arguments down. -/
theorem VecDesc.lex {c' : List Descent} (h : VecDesc v u c) (hbelow : Below c' c)
    (hlen : c'.length = c.length) (hdown : GoesDown is (localVector c')) : Lex Tree.Sub is u v := by
  obtain ⟨front, i, back, rfl, hfront, hi⟩ := hdown
  -- A known entry is the position of an argument of the callee.
  have hget : ∀ {k d}, d ≠ .unknown → c'.getD k .unknown = d → ∃ x, u[k]? = some x := by
    intro k d hd hk
    by_cases hlt : k < u.length
    · exact ⟨u[k], List.getElem?_eq_getElem hlt⟩
    · rw [getD_eq_getElem?_getD, getElem?_eq_none (by rw [hlen, h.1]; omega)] at hk
      exact absurd hk.symm hd
  have hless : ∀ k, (localVector c').getD k .unknown = .less k → At Tree.Sub k u v := by
    intro k hk
    have hk' := getD_of_localVector (by simp) hk
    obtain ⟨x, hx⟩ := hget (by simp) hk'
    have hd := eq_of_subsumesEntry_less (hk' ▸ hbelow k)
    exact at_of_desc_less hx (hd ▸ h.2 k x hx)
  have hequal : ∀ k, (localVector c').getD k .unknown = .equal k →
      At (ReflGen Tree.Sub) k u v := by
    intro k hk
    have hk' := getD_of_localVector (by simp) hk
    obtain ⟨x, hx⟩ := hget (by simp) hk'
    cases eq_of_subsumesEntry_equal (hk' ▸ hbelow k) with
    | inl hd => exact At.reflGen (at_of_desc_less hx (hd ▸ h.2 k x hx))
    | inr hd => exact at_of_desc_equal hx (hd ▸ h.2 k x hx)
  apply lex_of_prefix
  · intro j hj
    cases hfront j hj with
    | inl hj => exact At.reflGen (hless j hj)
    | inr hj => exact hequal j hj
  · exact hless i hi

/-! The recorded positions of one symbol. -/

/-- The definitions have distinct names and bodies that the smart constructors of
terms can build. -/
structure GroupWf (ldl : List LogicDecl) : Prop where
  names : (ldl.map (·.1.lsName)).Nodup
  bodies : ∀ ld ∈ ldl, termWf ld.2.body = true

theorem GroupWf.findAll_length (hwf : GroupWf ldl) (hld : ld ∈ ldl) {s : Ident}
    (h : (s, c) ∈ (callGraph ldl).findAll ld.1.lsName) : c.length = ld.1.lsArgs.length := by
  obtain ⟨call, hcall, heq⟩ := mem_map.mp h
  cases heq
  obtain ⟨hmem, hcallee⟩ := mem_filter.mp hcall
  obtain ⟨ld', hld', hmem⟩ := mem_flatMap.mp hmem
  obtain ⟨ls, hls, hname, hlen⟩ := termCalls_callOf _ _ (hwf.bodies ld' hld') hmem
  obtain ⟨ld'', hld'', rfl⟩ := mem_map.mp hls
  have hsame : ld''.1.lsName = ld.1.lsName := hname.symm.trans (of_decide_eq_true hcallee)
  rw [hlen, inj_on_of_nodup_map hwf.names hld'' hld hsame]

theorem GroupWf.pathVec_length (hwf : GroupWf ldl) (hld : ld ∈ ldl) {s : Ident}
    (h : PathVec (callGraph ldl) ld.1.lsName s c) : c.length = ld.1.lsArgs.length := by
  induction h with
  | base h => exact hwf.findAll_length hld h
  | step _ _ _ ih => rw [multiply_length, ih]

theorem findVariant_ok {cgr : CallSet} {ls : LSymbol} (h : findVariant cgr ls = .ok is) :
    ∃ cl, buildCallList cgr ls.lsName = some cl ∧ checkVariant cl.length [] cl = some is := by
  rw [findVariant] at h
  cases hcl : buildCallList cgr ls.lsName with
  | none =>
    rw [hcl] at h
    cases h
  | some cl =>
    simp only [hcl] at h
    cases hcheck : checkVariant cl.length [] cl with
    | none =>
      rw [hcheck] at h
      cases h
    | some l =>
      rw [hcheck] at h
      cases h
      exact ⟨cl, rfl, hcheck⟩

theorem addCall_isLocal {cgr : CallSet} {id : Ident} {htb work : List PathCall}
    {lc cl : List (List Descent)} (h : addCall cgr id fuel htb lc work = some cl)
    (hlc : ∀ v ∈ lc, IsLocal v) : ∀ v ∈ cl, IsLocal v := by
  induction fuel generalizing htb lc work with
  | zero => cases h
  | succ fuel ih =>
    cases work with
    | nil =>
      cases h
      exact hlc
    | cons call work =>
      rw [addCall] at h
      split at h
      next =>
        apply ih h
        exact forall_mem_cons.mpr ⟨localVector_isLocal call.2, hlc⟩
      next =>
        split at h
        next => exact ih h hlc
        next => exact ih h hlc

section

variable (hwf : GroupWf ldl) (hld : ld ∈ ldl) (hvariant : findVariant (callGraph ldl) ld.1 = .ok is)
include hwf hld hvariant

theorem GroupWf.loop_lex (hc : PathVec (callGraph ldl) ld.1.lsName ld.1.lsName c)
    (h : VecDesc v u c) : Lex Tree.Sub is u v := by
  obtain ⟨cl, hcl, hcheck⟩ := findVariant_ok hvariant
  have hlocal : ∀ v ∈ cl, IsLocal v := addCall_isLocal hcl (by simp)
  obtain ⟨is', his, hdown⟩ := checkVariant_goesDown hlocal hcheck
  obtain ⟨c', hbelow, hmem, hlen⟩ :=
    buildCallList_covers hcl (fun s c hc => hwf.findAll_length hld hc) hc
  cases his
  exact h.lex hbelow (hlen.trans (hwf.pathVec_length hld hc).symm) (hdown _ hmem)

/-- A path of calls down to `(ls, w)` passes last through `ls` at some `u`, below
which the positions have only gone down. -/
theorem GroupWf.path {w : List (Tree A)} {b : LSymbol × List (Tree A)}
    (h : TransGen (CallStep ldl E) (ld.1, w) b) :
    ∃ u c, (u = w ∨ Lex Tree.Sub is w u) ∧ PathVec (callGraph ldl) ld.1.lsName b.1.lsName c ∧
      VecDesc b.2 u c := by
  have hfind : ∀ {callee caller}, CallStep ldl E callee caller → ∃ c,
      (caller.1.lsName, c) ∈ (callGraph ldl).findAll callee.1.lsName ∧
        VecDesc caller.2 callee.2 c := by
    intro callee caller hstep
    obtain ⟨call, hmem, hcallee, hcaller, hdesc⟩ := hstep.edge hwf.bodies
    refine ⟨call.args, mem_map.mpr ⟨call, ?_, by rw [hcaller]⟩, hdesc⟩
    exact mem_filter.mpr ⟨hmem, decide_eq_true hcallee⟩
  induction h with
  | single hstep =>
    obtain ⟨c, hmem, hdesc⟩ := hfind hstep
    exact ⟨w, c, .inl rfl, .base hmem, hdesc⟩
  | @tail x b _ hstep ih =>
    obtain ⟨u, c, hu, hpath, hdesc⟩ := ih
    obtain ⟨c2, hmem, hdesc2⟩ := hfind hstep
    by_cases hx : x.1.lsName = ld.1.lsName
    · -- The path passes through the symbol here.
      rw [hx] at hpath hmem
      have hlex : Lex Tree.Sub is u x.2 := hwf.loop_lex hld hvariant hpath hdesc
      refine ⟨x.2, c2, .inr ?_, .base hmem, hdesc2⟩
      cases hu with
      | inl heq => exact heq ▸ hlex
      | inr hu => exact hu.trans hlex
    · exact ⟨u, multiply c c2, hu, .step hpath hx hmem, hdesc.multiply hdesc2⟩

/-- Along every path of calls from a symbol back to itself the recorded arguments
go down. -/
theorem GroupWf.decreases {w : List (Tree A)} (h : TransGen (CallStep ldl E) (ld.1, w) (ld.1, v))
    : Lex Tree.Sub is w v := by
  obtain ⟨u, c, hu, hpath, hdesc⟩ := hwf.path hld hvariant h
  have hlex : Lex Tree.Sub is u v := hwf.loop_lex hld hvariant hpath hdesc
  cases hu with
  | inl heq => exact heq ▸ hlex
  | inr hu => exact hu.trans hlex

end

theorem GroupWf.wellFounded (hwf : GroupWf ldl)
    (hvariant : ∀ ld ∈ ldl, ∃ is, findVariant (callGraph ldl) ld.1 = .ok is) :
    WellFounded (CallStep ldl E) := by
  apply wellFounded_of_colour Prod.fst (ldl.map (·.1)).toFinset
  · intro callee caller hstep
    obtain ⟨ld, hld, hls, -⟩ := hstep
    exact mem_toFinset.mpr (mem_map.mpr ⟨ld, hld, hls⟩)
  · intro ls hls
    obtain ⟨ld, hld, rfl⟩ := mem_map.mp (mem_toFinset.mp hls)
    obtain ⟨is, his⟩ := hvariant ld hld
    refine Subrelation.wf ?_ (InvImage.wf Prod.snd (lex_wellFounded Tree.sub_wellFounded is))
    intro a b h
    obtain ⟨hpath, ha, hb⟩ := h
    obtain ⟨sa, w⟩ := a
    obtain ⟨sb, v⟩ := b
    cases ha
    cases hb
    exact hwf.decreases hld his hpath

end Loops

/-! The check of a group. -/

theorem checkTermination_ok {ldl ldl' : List LogicDecl} (h : checkTermination ldl = .ok ldl') :
    (∀ ld' ∈ ldl', ∃ ld ∈ ldl, ld'.1 = ld.1 ∧
      findVariant (callGraph ldl) ld.1 = .ok ld'.2.decrease) ∧
    ∀ ld ∈ ldl, ∃ is, findVariant (callGraph ldl) ld.1 = .ok is := by
  obtain ⟨hleft, hright⟩ := Except.mapM_ok h
  refine ⟨?_, ?_⟩
  · intro ld' hld'
    obtain ⟨ld, hld, hf⟩ := hleft ld' hld'
    obtain ⟨is, his, heq⟩ := Except.bind_eq_ok.mp hf
    cases heq
    exact ⟨ld, hld, rfl, his⟩
  · intro ld hld
    obtain ⟨ld', -, hf⟩ := hright ld hld
    obtain ⟨is, his, -⟩ := Except.bind_eq_ok.mp hf
    exact ⟨is, his⟩

/-- The check returns or raises `NoTerminationProof`. -/
theorem checkTermination_error {ldl : List LogicDecl} {e : DeclError}
    (h : checkTermination ldl = .error e) : ∃ ld ∈ ldl, e = .noTerminationProof ld.1 := by
  obtain ⟨ld, hld, hf⟩ := Except.mapM_eq_error h
  refine ⟨ld, hld, ?_⟩
  obtain hvariant | ⟨is, -, hf⟩ := Except.bind_eq_error.mp hf
  · obtain ⟨cl, hcl⟩ := Option.isSome_iff_exists.mp (buildCallList_isSome (callGraph ldl) ld.1.lsName)
    simp only [findVariant, hcl] at hvariant
    split at hvariant
    next => cases hvariant
    next =>
      cases hvariant
      rfl
  · cases hf

section Ackermann

def tyPeano : Ty := .tyapp ⟨⟨"nat", 20⟩, [], .noDef⟩ []

def fsZero : LSymbol := ⟨⟨"O", 21⟩, [], some tyPeano, 2⟩

def fsSucc : LSymbol := ⟨⟨"S", 22⟩, [tyPeano], some tyPeano, 2⟩

def lsAck : LSymbol := ⟨⟨"ack", 23⟩, [tyPeano, tyPeano], some tyPeano, 0⟩

/-- `match m with O -> S n | S m' -> match n with O -> ack m' (S O)
| S n' -> ack m' (ack m n') end end`, over the indices of `m` and `n`. -/
def ackBody : Term :=
  let var (i : Nat) : Term := .bvar ∅ i tyPeano
  let app (ls : LSymbol) (tl : List Term) : Term := .tapp ∅ ls tl (some tyPeano)
  let succPat (v : Ident) : Pattern := .papp fsSucc [.pvar ⟨v, tyPeano⟩] tyPeano
  .tcase ∅ (var 0)
    [(.papp fsZero [] tyPeano, app fsSucc [var 1]), (succPat ⟨"m'", 26⟩, .tcase ∅ (var 2)
       [(.papp fsZero [] tyPeano, app lsAck [var 0, app fsSucc [app fsZero []]]),
        (succPat ⟨"n'", 27⟩, app lsAck [var 1, app lsAck [var 2, var 0]])])]

def ackDefn : LsDefn :=
  ⟨lsAck, [⟨⟨"m", 24⟩, tyPeano⟩, ⟨⟨"n", 25⟩, tyPeano⟩], ackBody, []⟩

theorem checkTermination_ack :
    checkTermination [(lsAck, ackDefn)] = .ok [(lsAck, { ackDefn with decrease := [0, 1] })] := by
  rfl

end Ackermann

end Why3
