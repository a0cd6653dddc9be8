import Why3.Metatheory.CallGraph

/-!
The closure of the call graph along paths that end in one symbol.

`buildCallList` does not follow a path whose vector is at least as good as one
already followed. Every path vector is still bounded by a vector that it keeps,
because composition respects the order on vectors. The exploration ends: the
vectors it follows are distinct and over the entries of the call graph.
-/
namespace Why3

open List

/-! The order on vectors. -/

theorem subsumesEntry_refl (d : Descent) : subsumesEntry d d = true := by
  cases d <;> simp [subsumesEntry]

theorem subsumesEntry_trans {d1 d2 d3 : Descent} (h : subsumesEntry d1 d2 = true)
    (h' : subsumesEntry d2 d3 = true) : subsumesEntry d1 d3 = true := by
  cases d1 <;> cases d2 <;> cases d3 <;> simp_all [subsumesEntry]

theorem subsumesEntry_toLess_self (d : Descent) : subsumesEntry (toLess d) d = true := by
  cases d <;> simp [subsumesEntry, toLess]

/-- The vector `c` says everywhere at least as much as `c'`. -/
def Below (c' c : List Descent) : Prop :=
  ∀ k, subsumesEntry (c.getD k .unknown) (c'.getD k .unknown) = true

theorem Below.refl (c : List Descent) : Below c c := fun _ => subsumesEntry_refl _

theorem Below.trans {c1 c2 c3 : List Descent} (h : Below c1 c2) (h' : Below c2 c3) : Below c1 c3 :=
  fun k => subsumesEntry_trans (h' k) (h k)

variable {c : List Descent}

theorem below_of_subsumes {c' : List Descent} (hlen : c.length = c'.length)
    (h : subsumes c c' = true) : Below c' c := by
  induction c generalizing c' with
  | nil =>
    cases c' with
    | nil => exact Below.refl []
    | cons d' c' => cases hlen
  | cons d c ih =>
    cases c' with
    | nil => cases hlen
    | cons d' c' =>
      simp only [subsumes, zipWith_cons_cons, all_cons, Bool.and_eq_true] at h
      have hrest := ih (by simpa using hlen) h.2
      intro k
      cases k with
      | zero => exact h.1
      | succ k => exact hrest k

theorem subsumes_refl (c : List Descent) : subsumes c c = true := by
  induction c with
  | nil => rfl
  | cons d c ih =>
    simp only [subsumes, zipWith_cons_cons, all_cons, Bool.and_eq_true]
    exact ⟨subsumesEntry_refl d, ih⟩

/-- One entry of a composed vector. -/
def multiplyEntry (v : List Descent) : Descent → Descent
  | .unknown => .unknown
  | .equal i => v.getD i .unknown
  | .less i => toLess (v.getD i .unknown)

theorem multiply_getD (u v : List Descent) (k : Nat) :
    (multiply u v).getD k .unknown = multiplyEntry v (u.getD k .unknown) := by
  rw [multiply, getD_eq_getElem?_getD, getElem?_map, getD_eq_getElem?_getD]
  cases u[k]? with
  | none => rfl
  | some d => cases d <;> rfl

theorem multiply_length (c v : List Descent) : (multiply c v).length = c.length := by
  rw [multiply, length_map]

theorem subsumesEntry_multiplyEntry {d d' : Descent} (v : List Descent)
    (h : subsumesEntry d d' = true) :
    subsumesEntry (multiplyEntry v d) (multiplyEntry v d') = true := by
  cases d' with
  | unknown => simp [multiplyEntry, subsumesEntry]
  | equal j =>
    cases d with
    | unknown => cases h
    | equal i =>
      have hij : i = j := by simpa [subsumesEntry] using h
      rw [hij]
      exact subsumesEntry_refl _
    | less i =>
      have hij : i = j := by simpa [subsumesEntry] using h
      rw [hij]
      exact subsumesEntry_toLess_self _
  | less j =>
    cases d with
    | unknown | equal _ => cases h
    | less i =>
      have hij : i = j := by simpa [subsumesEntry] using h
      rw [hij]
      exact subsumesEntry_refl _

theorem Below.multiply {c' : List Descent} (h : Below c' c) (v : List Descent) :
    Below (multiply c' v) (multiply c v) := by
  intro k
  rw [multiply_getD, multiply_getD]
  exact subsumesEntry_multiplyEntry v (h k)

/-! Paths. -/

/-- The vector of a path from a caller to `id` that does not pass through `id`. -/
inductive PathVec (cgr : CallSet) (id : Ident) : Ident → List Descent → Prop
  | base {s c} (h : (s, c) ∈ cgr.findAll id) : PathVec cgr id s c
  | step {s s' c v} (hc : PathVec cgr id s c) (hs : s ≠ id) (h : (s', v) ∈ cgr.findAll s) :
      PathVec cgr id s' (multiply c v)

variable {htb work : List PathCall} {s : Ident} {lc : List (List Descent)}

section AddCall

variable (cgr : CallSet) (id : Ident) (n : Nat)

/-- Some vector below `c` is kept, followed or still to be treated. -/
def Covered (htb : List PathCall) (lc : List (List Descent)) (work : List PathCall)
    (s : Ident) (c : List Descent) : Prop :=
  ∃ c', Below c' c ∧ ((s = id ∧ localVector c' ∈ lc ∧ c'.length = n) ∨
    (s ≠ id ∧ (s, c') ∈ htb) ∨ (s, c') ∈ work)

structure AddCallInv (htb : List PathCall) (lc : List (List Descent)) (work : List PathCall) :
    Prop where
  start : ∀ s c, (s, c) ∈ cgr.findAll id → Covered id n htb lc work s c
  next : ∀ s c, (s, c) ∈ htb → ∀ s' v, (s', v) ∈ cgr.findAll s →
    Covered id n htb lc work s' (multiply c v)
  lenHtb : ∀ s c, (s, c) ∈ htb → c.length = n
  lenWork : ∀ s c, (s, c) ∈ work → c.length = n

variable {cgr id n}

/-- What is kept, followed or to be treated stays so, but for the first call. -/
theorem Covered.next {htb' work' : List PathCall} {lc' : List (List Descent)} {s₀ : Ident}
    {c₀ : List Descent} (hlc : lc ⊆ lc') (hhtb : htb ⊆ htb') (hwork : work ⊆ work')
    (hfirst : Covered id n htb' lc' work' s₀ c₀) (h : Covered id n htb lc ((s₀, c₀) :: work) s c) :
    Covered id n htb' lc' work' s c := by
  obtain ⟨c', hbelow, ⟨hs, hmem, hlen⟩ | ⟨hs, hmem⟩ | hmem⟩ := h
  · exact ⟨c', hbelow, .inl ⟨hs, hlc hmem, hlen⟩⟩
  · exact ⟨c', hbelow, .inr (.inl ⟨hs, hhtb hmem⟩)⟩
  · cases mem_cons.mp hmem with
    | inl heq =>
      cases heq
      obtain ⟨c'', hbelow', hc''⟩ := hfirst
      exact ⟨c'', hbelow'.trans hbelow, hc''⟩
    | inr hmem => exact ⟨c', hbelow, .inr (.inr (hwork hmem))⟩

theorem AddCallInv.keep (h : AddCallInv cgr id n htb lc ((id, c) :: work)) :
    AddCallInv cgr id n htb (localVector c :: lc) work := by
  have hfirst : Covered id n htb (localVector c :: lc) work id c :=
    ⟨c, Below.refl c, .inl ⟨rfl, mem_cons_self, h.lenWork id c mem_cons_self⟩⟩
  have hmono {s x} := hfirst.next (s := s) (c := x) (subset_cons_self _ lc) (.refl _) (.refl _)
  exact ⟨fun s x hx => hmono (h.start s x hx), fun s x hx s' v hv => hmono (h.next s x hx s' v hv),
    h.lenHtb, fun s x hx => h.lenWork s x (mem_cons_of_mem _ hx)⟩

section

variable {lc : List (List Descent)} {c : List Descent}
  (h : AddCallInv cgr id n htb lc ((s, c) :: work)) (hs : id ≠ s)
include h hs

theorem AddCallInv.skip (hsub : subsumed htb s c = true) : AddCallInv cgr id n htb lc work := by
  rw [subsumed, any_eq_true] at hsub
  obtain ⟨⟨s0, c0⟩, hmem0, hc0⟩ := hsub
  simp only [Bool.and_eq_true, decide_eq_true_eq] at hc0
  obtain ⟨rfl, hc0⟩ := hc0
  have hlen : c.length = c0.length := by
    rw [h.lenWork s0 c mem_cons_self, h.lenHtb s0 c0 hmem0]
  have hfirst : Covered id n htb lc work s0 c :=
    ⟨c0, below_of_subsumes hlen hc0, .inr (.inl ⟨hs.symm, hmem0⟩)⟩
  have hmono {s x} := hfirst.next (s := s) (c := x) (.refl _) (.refl _) (.refl _)
  exact ⟨fun s x hx => hmono (h.start s x hx), fun s x hx s' v hv => hmono (h.next s x hx s' v hv),
    h.lenHtb, fun s x hx => h.lenWork s x (mem_cons_of_mem _ hx)⟩

theorem AddCallInv.follow : AddCallInv cgr id n ((s, c) :: htb) lc (resolve cgr s c ++ work) := by
  have hlen := h.lenWork s c mem_cons_self
  have hfirst : Covered id n ((s, c) :: htb) lc (resolve cgr s c ++ work) s c :=
    ⟨c, Below.refl c, .inr (.inl ⟨hs.symm, mem_cons_self⟩)⟩
  have hmono {s' x} := hfirst.next (s := s') (c := x) (.refl _) (subset_cons_self _ htb)
    (subset_append_right _ work)
  refine ⟨fun s' x hx => hmono (h.start s' x hx), ?_, ?_, ?_⟩
  · intro s' x hx s'' v hv
    cases mem_cons.mp hx with
    | inl heq =>
      cases heq
      exact ⟨_, Below.refl _, .inr (.inr (mem_append_left _ (mem_map_of_mem hv)))⟩
    | inr hx => exact hmono (h.next s' x hx s'' v hv)
  · intro s' x hx
    cases mem_cons.mp hx with
    | inl heq =>
      cases heq
      exact hlen
    | inr hx => exact h.lenHtb s' x hx
  · intro s' x hx
    cases mem_append.mp hx with
    | inl hx =>
      obtain ⟨call, -, heq⟩ := mem_map.mp hx
      cases heq
      rw [multiply_length, hlen]
    | inr hx => exact h.lenWork s' x (mem_cons_of_mem _ hx)

end

variable {res : List (List Descent)}

theorem addCall_inv {fuel : Nat} (h : addCall cgr id fuel htb lc work = some res)
    (hinv : AddCallInv cgr id n htb lc work) : ∃ htb', AddCallInv cgr id n htb' res [] := by
  induction fuel generalizing htb lc work with
  | zero => cases h
  | succ fuel ih =>
    cases work with
    | nil =>
      cases h
      exact ⟨htb, hinv⟩
    | cons call work =>
      obtain ⟨s, c⟩ := call
      rw [addCall] at h
      by_cases hs : id = s
      · subst hs
        rw [if_pos rfl] at h
        exact ih h hinv.keep
      · rw [if_neg hs] at h
        cases hsub : subsumed htb s c with
        | true =>
          rw [hsub] at h
          exact ih h (hinv.skip hs hsub)
        | false =>
          rw [hsub] at h
          exact ih h (hinv.follow hs)

theorem AddCallInv.covers (hinv : AddCallInv cgr id n htb res []) (h : PathVec cgr id s c)
    : Covered id n htb res [] s c := by
  induction h with
  | base h => exact hinv.start _ _ h
  | @step s s' c v _ hs h ih =>
    obtain ⟨c', hbelow, ⟨hs', -⟩ | ⟨-, hmem⟩ | hmem⟩ := ih
    · exact absurd hs' hs
    · obtain ⟨c'', hbelow', hc''⟩ := hinv.next s c' hmem s' v h
      exact ⟨c'', hbelow'.trans (hbelow.multiply v), hc''⟩
    · cases hmem

/-- Every loop is bounded by a vector of the result. -/
theorem buildCallList_covers (h : buildCallList cgr id = some res)
    (hlen : ∀ s c, (s, c) ∈ cgr.findAll id → c.length = n) (hc : PathVec cgr id id c)
    : ∃ c', Below c' c ∧ localVector c' ∈ res ∧ c'.length = n := by
  have hinv : AddCallInv cgr id n [] [] (cgr.findAll id) :=
    ⟨fun s c hc => ⟨c, Below.refl c, .inr (.inr hc)⟩, by simp, by simp, hlen⟩
  obtain ⟨htb, hfinal⟩ := addCall_inv h hinv
  obtain ⟨c', hbelow, ⟨-, hmem⟩ | ⟨hne, -⟩ | hmem⟩ := hfinal.covers hc
  · exact ⟨c', hbelow, hmem⟩
  · exact absurd rfl hne
  · cases hmem

end AddCall

/-! The exploration ends. -/

section Fuel

variable (cgr : CallSet)

/-- What an entry of a composed vector can be. -/
def CallSet.entrySet : Finset Descent :=
  insert .unknown ((cgr.flatMap (·.args)).toFinset ∪
    ((cgr.flatMap (·.args)).map toLess).toFinset)

def CallSet.maxArity : Nat := (cgr.map (·.args.length)).foldl max 0

/-- A caller with a vector over the entries of the call graph. -/
structure CallSet.InRange (call : PathCall) : Prop where
  caller : call.1 ∈ (cgr.map (·.caller)).toFinset
  arity : call.2.length ≤ cgr.maxArity
  entries : ∀ d ∈ call.2, d ∈ cgr.entrySet

theorem CallSet.card_entrySet : cgr.entrySet.card ≤ 2 * (cgr.flatMap (·.args)).length + 1 := by
  have hleft := (cgr.flatMap (·.args)).toFinset_card_le
  have hright := ((cgr.flatMap (·.args)).map toLess).toFinset_card_le
  rw [length_map] at hright
  have hunion := Finset.card_union_le (cgr.flatMap (·.args)).toFinset
    ((cgr.flatMap (·.args)).map toLess).toFinset
  have hinsert := Finset.card_insert_le Descent.unknown ((cgr.flatMap (·.args)).toFinset ∪
    ((cgr.flatMap (·.args)).map toLess).toFinset)
  rw [entrySet]
  omega

/-- A vector as a function on a bounded set of positions. -/
private def vecCode (call : PathCall) : Ident × (Fin cgr.maxArity → Option Descent) :=
  (call.1, fun i => call.2[i.1]?)

variable {call : PathCall}

private theorem vecCode_injOn {call' : PathCall} (h : cgr.InRange call) (h' : cgr.InRange call')
    (heq : vecCode cgr call = vecCode cgr call') : call = call' := by
  obtain ⟨s, c⟩ := call
  obtain ⟨s', c'⟩ := call'
  have hs : s = s' := congrArg Prod.fst heq
  have hc : c = c' := by
    apply ext_getElem?
    intro i
    by_cases hi : i < cgr.maxArity
    · exact congrFun (congrArg Prod.snd heq) ⟨i, hi⟩
    · have hlen : c.length ≤ i := h.arity.trans (by omega)
      have hlen' : c'.length ≤ i := h'.arity.trans (by omega)
      rw [getElem?_eq_none hlen, getElem?_eq_none hlen']
  rw [hs, hc]

theorem CallSet.length_le_vectorBound (hnodup : htb.Nodup)
    (h : ∀ call ∈ htb, cgr.InRange call) : htb.length ≤ cgr.vectorBound := by
  -- Count the vectors as functions from positions to entries.
  let codes : Finset (Ident × (Fin cgr.maxArity → Option Descent)) :=
    (cgr.map (·.caller)).toFinset ×ˢ Fintype.piFinset fun _ => Finset.insertNone cgr.entrySet
  have hmaps : ∀ call ∈ htb.toFinset, vecCode cgr call ∈ codes := by
    intro call hcall
    have hrange := h call (mem_toFinset.mp hcall)
    refine Finset.mem_product.mpr ⟨hrange.caller, Fintype.mem_piFinset.mpr ?_⟩
    intro i
    rw [Finset.mem_insertNone]
    intro d hd
    exact hrange.entries d (mem_of_getElem? hd)
  have hinj : Set.InjOn (vecCode cgr) (htb.toFinset : Set PathCall) := by
    intro call hcall call' hcall' heq
    exact vecCode_injOn cgr (h call (by simpa using hcall)) (h call' (by simpa using hcall')) heq
  have hcard := Finset.card_le_card_of_injOn (vecCode cgr) hmaps hinj
  rw [toFinset_card_of_nodup hnodup, Finset.card_product, Fintype.card_piFinset_const,
    Finset.card_insertNone] at hcard
  have hcallers := (cgr.map (·.caller)).toFinset_card_le
  rw [length_map] at hcallers
  have hentries : cgr.entrySet.card + 1 ≤ 2 * (cgr.flatMap (·.args)).length + 2 := by
    have := cgr.card_entrySet
    omega
  exact hcard.trans (Nat.mul_le_mul hcallers (Nat.pow_le_pow_left hentries _))

theorem CallSet.args_length_le {c : Call} (hc : c ∈ cgr) : c.args.length ≤ cgr.maxArity := by
  rw [CallSet.maxArity, foldl_eq_foldr]
  exact le_max_of_le (mem_map_of_mem hc) le_rfl

theorem CallSet.findAll_inRange {id : Ident} (h : call ∈ cgr.findAll id) : cgr.InRange call := by
  obtain ⟨c, hc, rfl⟩ := mem_map.mp h
  have hmem : c ∈ cgr := mem_of_mem_filter hc
  refine ⟨by simpa using ⟨c, hmem, rfl⟩, cgr.args_length_le hmem, ?_⟩
  intro d hd
  have hentry : d ∈ cgr.flatMap (·.args) := mem_flatMap.mpr ⟨c, hmem, hd⟩
  simp [entrySet, hentry]

theorem CallSet.toLess_mem_entrySet {d : Descent} (h : d ∈ cgr.entrySet) :
    toLess d ∈ cgr.entrySet := by
  simp only [entrySet, Finset.mem_insert, Finset.mem_union, mem_toFinset, mem_map] at h ⊢
  obtain rfl | h | ⟨d', hd', rfl⟩ := h
  · exact .inl rfl
  · exact .inr (.inr ⟨d, h, rfl⟩)
  · refine .inr (.inr ⟨d', hd', ?_⟩)
    cases d' <;> rfl

theorem CallSet.multiply_mem_entrySet {v : List Descent} (hv : ∀ d ∈ v, d ∈ cgr.entrySet)
    {d : Descent} (hd : d ∈ multiply c v) : d ∈ cgr.entrySet := by
  have hget : ∀ i, v.getD i .unknown ∈ cgr.entrySet := by
    intro i
    rw [getD_eq_getElem?_getD]
    cases h : v[i]? with
    | none => simp [entrySet]
    | some d => exact hv d (mem_of_getElem? h)
  obtain ⟨d', -, rfl⟩ := mem_map.mp hd
  cases d' with
  | unknown => simp [entrySet]
  | equal i => exact hget i
  | less i => exact cgr.toLess_mem_entrySet (hget i)

theorem CallSet.resolve_inRange (hc : c.length ≤ cgr.maxArity) (h : call ∈ resolve cgr s c)
    : cgr.InRange call := by
  obtain ⟨call', hcall', rfl⟩ := mem_map.mp h
  have hrange := cgr.findAll_inRange hcall'
  refine ⟨hrange.caller, by rw [multiply_length]; exact hc, ?_⟩
  intro d hd
  exact cgr.multiply_mem_entrySet hrange.entries hd

theorem CallSet.findAll_length_le (id : Ident) : (cgr.findAll id).length ≤ cgr.length := by
  rw [findAll, length_map]
  exact length_filter_le _ _

theorem not_mem_of_not_subsumed (h : subsumed htb s c = false) : (s, c) ∉ htb := by
  intro hmem
  rw [subsumed, any_eq_false] at h
  exact h (s, c) hmem (by simp [subsumes_refl])

theorem addCall_isSome {id : Ident} {fuel : Nat} (hnodup : htb.Nodup)
    (hhtb : ∀ call ∈ htb, cgr.InRange call) (hwork : ∀ call ∈ work, cgr.InRange call)
    (hfuel : work.length + (cgr.length + 1) * (cgr.vectorBound - htb.length) < fuel) :
    (addCall cgr id fuel htb lc work).isSome := by
  induction fuel generalizing htb lc work with
  | zero => omega
  | succ fuel ih =>
    cases work with
    | nil => rfl
    | cons call work =>
      obtain ⟨s, c⟩ := call
      have hwork' : ∀ call ∈ work, cgr.InRange call :=
        (forall_mem_cons.mp hwork).2
      rw [length_cons] at hfuel
      rw [addCall]
      by_cases hs : id = s
      · rw [if_pos hs]
        exact ih hnodup hhtb hwork' (by omega)
      · rw [if_neg hs]
        cases hsub : subsumed htb s c with
        | true =>
          exact ih hnodup hhtb hwork' (by omega)
        | false =>
          have hrange := hwork (s, c) mem_cons_self
          have hnodup' : ((s, c) :: htb).Nodup :=
            nodup_cons.mpr ⟨not_mem_of_not_subsumed hsub, hnodup⟩
          have hhtb' : ∀ call ∈ (s, c) :: htb, cgr.InRange call :=
            forall_mem_cons.mpr ⟨hrange, hhtb⟩
          have hwork'' : ∀ call ∈ resolve cgr s c ++ work, cgr.InRange call :=
            forall_mem_append.mpr ⟨fun _ => cgr.resolve_inRange hrange.arity, hwork'⟩
          apply ih hnodup' hhtb' hwork''
          -- One vector fewer is left, and at most `cgr.length` calls are new.
          have hbound := cgr.length_le_vectorBound hnodup' hhtb'
          have hnew : (resolve cgr s c).length ≤ cgr.length := by
            rw [resolve, length_map]
            exact cgr.findAll_length_le s
          rw [length_cons] at hbound ⊢
          have hsplit : cgr.vectorBound - htb.length =
              cgr.vectorBound - (htb.length + 1) + 1 := by omega
          rw [hsplit, Nat.mul_add] at hfuel
          rw [length_append]
          omega

theorem buildCallList_isSome (id : Ident) : (buildCallList cgr id).isSome := by
  apply addCall_isSome cgr nodup_nil (by simp) (fun call hcall => cgr.findAll_inRange hcall)
  have := cgr.findAll_length_le id
  rw [CallSet.fuel, length_nil, Nat.sub_zero]
  omega

end Fuel

end Why3
