import Why3.Core.Decl
import Why3.Metatheory.TyInst

/-!
What acceptance of a declaration gives: the checks of `createDataDecl`, and the
known maps that successive calls of `knownAddDecl` can reach.
-/
namespace Why3

open Except (bind_eq_error bind_eq_ok ok)
open List

/-! Algebraic declarations. -/

theorem newsId_ok {s s' : List Ident} {id : Ident} (h : newsId s id = .ok s') :
    id ∉ s ∧ s' = id :: s := by
  rw [newsId] at h
  split at h
  next => cases h
  next hid =>
    cases h
    exact ⟨hid, rfl⟩

variable {tss sts : List TySymbol} {tys ts : TySymbol} {ty : Ty} {c : Constructor}
  {news news' : List Ident} {d : Decl} {kn kn' : KnownMap}

theorem checkOccurList_forall {vs : Finset TvSymbol} {fs : LSymbol} {seen : Bool} {tl : List Ty}
    (h : checkOccurList tss vs tys fs seen tl = .ok ()) :
    ∀ t ∈ tl, checkOccur tss vs tys fs seen t = .ok () := by
  induction tl with
  | nil => simp
  | cons t tl ih =>
    rw [checkOccurList, bind_eq_ok] at h
    obtain ⟨⟨⟩, ht, h⟩ := h
    simpa using ⟨ht, ih h⟩

theorem checkOccur_freevars {vs : Finset TvSymbol} {fs : LSymbol} {seen : Bool}
    (h : checkOccur tss vs tys fs seen ty = .ok ()) : tyFreevars ty ⊆ vs := by
  induction ty using Ty.induct generalizing seen with
  | tyvar v =>
    rw [checkOccur] at h
    split at h
    next hv => simpa [tyFreevars] using hv
    next => cases h
  | tyapp ts tl ih =>
    rw [checkOccur] at h
    split at h
    next => cases h
    next =>
      intro v hv
      obtain ⟨t, ht, hv⟩ := mem_tyFreevarsList.mp hv
      exact ih t ht (checkOccurList_forall h t ht) hv

theorem checkConstr_ok {cll : Nat} {pjs : List LSymbol}
    (h : checkConstr tss tys ty cll pjs news c = .ok news') :
    (∀ a ∈ c.1.lsArgs, tyFreevars a ⊆ tyFreevars ty) ∧
      c.1.lsName ∉ news ∧ news' = c.1.lsName :: news := by
  simp only [checkConstr, bind_eq_ok] at h
  obtain ⟨value, -, ⟨⟩, -, fsPjs, -, ⟨⟩, -, h⟩ := h
  split at h
  next => cases h
  next =>
    obtain ⟨⟨⟩, hoccur, h⟩ := bind_eq_ok.mp h
    refine ⟨?_, newsId_ok h⟩
    intro a ha
    exact checkOccur_freevars (checkOccurList_forall hoccur a ha)

/-- The type variables of a declared type are its parameters. -/
theorem mem_tyFreevars_params {v : TvSymbol} :
    v ∈ tyFreevars (.tyapp ts (ts.tsArgs.map .tyvar)) ↔ v ∈ ts.tsArgs := by
  simp [tyFreevars]

/-- The argument types of the constructors use the parameters of their type only. -/
def DataScoped (td : DataDecl) : Prop :=
  ∀ c ∈ td.2, ∀ a ∈ c.1.lsArgs, ∀ v ∈ tyFreevars a, v ∈ td.1.tsArgs

theorem checkDataDecl_ok {td : DataDecl} (h : checkDataDecl tss news td = .ok news') :
    td.2 ≠ [] ∧ DataScoped td ∧ td.1.tsName ∉ news ∧ td.1.tsName ∈ news' ∧ news ⊆ news' := by
  obtain ⟨ts, cl⟩ := td
  rw [checkDataDecl] at h
  split at h
  next => cases h
  next hcl =>
  split at h
  next => cases h
  next =>
    obtain ⟨news1, h1, h⟩ := bind_eq_ok.mp h
    obtain ⟨news2, h2, h3⟩ := bind_eq_ok.mp h
    obtain ⟨hfresh, rfl⟩ := newsId_ok h1
    -- Both folds only add identifiers.
    have hsub2 : ts.tsName :: news ⊆ news2 := by
      apply Except.foldlM_invariant (ts.tsName :: news ⊆ ·) h2 (Subset.refl _)
      intro s pj s' _ hs hpj
      obtain ⟨-, rfl⟩ := newsId_ok hpj
      exact Subset.trans hs (subset_cons_self _ _)
    have hsub : ts.tsName :: news ⊆ news' := by
      apply Except.foldlM_invariant (ts.tsName :: news ⊆ ·) h3 hsub2
      intro s c s' _ hs hc
      obtain ⟨-, -, rfl⟩ := checkConstr_ok hc
      exact Subset.trans hs (subset_cons_self _ _)
    refine ⟨by simpa using hcl, ?_, hfresh, hsub mem_cons_self, ?_⟩
    · intro c hc a ha v hv
      obtain ⟨s, s', hs⟩ := Except.foldlM_run_mem h3 hc
      exact mem_tyFreevars_params.mp ((checkConstr_ok hs).1 a ha hv)
    · exact Subset.trans (subset_cons_self _ _) hsub

structure DataDeclChecked (tdl : List DataDecl) (news : List Ident) : Prop where
  constrs : ∀ td ∈ tdl, td.2 ≠ []
  params : ∀ td ∈ tdl, DataScoped td
  names : ∀ td ∈ tdl, td.1.tsName ∈ news
  distinct : (tdl.map (·.1.tsName)).Nodup

private theorem foldlM_checkDataDecl {tdl : List DataDecl}
    (h : tdl.foldlM (checkDataDecl tss) news = .ok news') :
    DataDeclChecked tdl news' ∧ news ⊆ news' ∧ ∀ td ∈ tdl, td.1.tsName ∉ news := by
  induction tdl generalizing news with
  | nil =>
    cases h
    exact ⟨⟨by simp, by simp, by simp, by simp⟩, Subset.refl _, by simp⟩
  | cons td tdl ih =>
    obtain ⟨news1, h1, h⟩ := Except.foldlM_cons_ok.mp h
    obtain ⟨hcl, hparams, hfresh, hname, hsub⟩ := checkDataDecl_ok h1
    obtain ⟨hrest, hsub1, hfresh1⟩ := ih h
    refine ⟨⟨?_, ?_, ?_, ?_⟩, Subset.trans hsub hsub1, ?_⟩
    · simpa using ⟨hcl, fun a b => hrest.constrs (a, b)⟩
    · simpa using ⟨hparams, fun a b => hrest.params (a, b)⟩
    · simpa using ⟨hsub1 hname, fun a b => hrest.names (a, b)⟩
    · rw [map_cons, nodup_cons]
      refine ⟨?_, hrest.distinct⟩
      intro hmem
      obtain ⟨td', htd', heq⟩ := mem_map.mp hmem
      exact hfresh1 td' htd' (heq ▸ hname)
    · exact forall_mem_cons.mpr ⟨hfresh, fun td' htd' hmem => hfresh1 td' htd' (hsub hmem)⟩

theorem createDataDecl_ok {tag : Nat} {tdl : List DataDecl} (h : createDataDecl tag tdl = .ok d) :
    d.dNode = .ddata tdl ∧ DataDeclChecked tdl d.dNews := by
  rw [createDataDecl] at h
  split at h
  next => cases h
  next =>
    obtain ⟨news, hnews, h⟩ := bind_eq_ok.mp h
    cases h
    exact ⟨rfl, (foldlM_checkDataDecl hnews).1⟩

/-! Addition to a known map. -/

theorem KnownMap.find_addNews (kn : KnownMap) (d : Decl) (id : Ident) :
    (kn.addNews d).find id = if id ∈ d.dNews then some d else kn.find id := by
  rw [KnownMap.find, KnownMap.addNews, List.lookup_append, AssocList.lookup_map_const]
  by_cases hid : id ∈ d.dNews
  · simp [hid]
  · simp [hid, KnownMap.find]

theorem knownUnion_ok (h : knownUnion kn d = .ok kn') :
    kn' = kn.addNews d ∧ (∀ id ∈ d.dNews, kn.find id = none) ∧
      ∀ id ∈ getDeclSyms d, (kn'.find id).isSome := by
  rw [knownUnion] at h
  split at h
  next id hid =>
    split at h
    · split at h <;> cases h
    · cases h
  next hnone =>
    split at h
    next hsyms =>
      cases h
      refine ⟨rfl, ?_, ?_⟩
      · intro id hid
        simpa using List.find?_eq_none.mp hnone id hid
      · intro id hid
        simpa [Option.isSome_iff_ne_none] using List.find?_eq_none.mp hsyms id hid
    next => cases h

theorem knownAddDecl_ok {checkCompile : CheckCompile}
    (h : knownAddDecl checkCompile kn d = .ok kn') :
    knownUnion kn d = .ok kn' ∧ checkPositivity kn' d = .ok () := by
  simp only [knownAddDecl, bind_eq_ok] at h
  obtain ⟨kn1, hunion, ⟨⟩, hpos, ⟨⟩, -, ⟨⟩, -, h⟩ := h
  cases h
  exact ⟨hunion, hpos⟩

/-- A declaration made by its smart constructor. An algebraic one has passed
`createDataDecl` on types that `ty_app` can build; nothing is asked of the
others. -/
def Created (d : Decl) : Prop :=
  match d.dNode with
  | .ddata tdl =>
    createDataDecl d.dTag tdl = .ok d ∧
      ∀ td ∈ tdl, ∀ c ∈ td.2, ∀ a ∈ c.1.lsArgs, tyWf a = true
  | _ => True

/-- The known maps reached from the empty one by additions that satisfy `ok`. -/
inductive Reachable (checkCompile : CheckCompile) (ok : KnownMap → Decl → Prop) : KnownMap → Prop
  | empty : Reachable checkCompile ok []
  | add {kn kn' : KnownMap} {d : Decl} (hkn : Reachable checkCompile ok kn) (hd : Created d)
      (hok : ok kn d) (h : knownAddDecl checkCompile kn d = .ok kn') :
      Reachable checkCompile ok kn'

/-- An algebraic declaration of the map passed its checks and is found under the
names of its types; the symbols of every declaration are known. -/
structure KnownOk (kn : KnownMap) : Prop where
  data : ∀ {id d tdl}, kn.find id = some d → d.dNode = .ddata tdl → DataDeclChecked tdl d.dNews
  wf : ∀ {id d tdl}, kn.find id = some d → d.dNode = .ddata tdl →
    ∀ td ∈ tdl, ∀ c ∈ td.2, ∀ a ∈ c.1.lsArgs, tyWf a = true
  closed : ∀ {id d}, kn.find id = some d → ∀ s ∈ getDeclSyms d, (kn.find s).isSome
  names : ∀ {id d}, kn.find id = some d → ∀ s ∈ d.dNews, kn.find s = some d

theorem KnownOk.empty : KnownOk [] where
  data h := by cases h
  wf h := by cases h
  closed h := by cases h
  names h := by cases h

/-- An addition keeps the bindings there are. -/
theorem find_addNews_of_isSome {id : Ident} (hfresh : ∀ id ∈ d.dNews, kn.find id = none)
    (h : (kn.find id).isSome) : (kn.addNews d).find id = kn.find id := by
  rw [KnownMap.find_addNews, if_neg]
  intro hid
  rw [hfresh id hid] at h
  cases h

theorem KnownOk.add (hkn : KnownOk kn) (hd : Created d)
    (h : knownUnion kn d = .ok kn') : KnownOk kn' := by
  obtain ⟨rfl, hfresh, hsyms⟩ := knownUnion_ok h
  -- A binding of the new map is the new declaration or an old one.
  have hfind : ∀ {id d'}, (kn.addNews d).find id = some d' → d' = d ∨ kn.find id = some d' := by
    intro id d' hid
    rw [KnownMap.find_addNews] at hid
    split at hid
    · exact .inl (Option.some.inj hid).symm
    · exact .inr hid
  refine ⟨?_, ?_, ?_, ?_⟩
  · intro id d' tdl hid hnode
    obtain rfl | hid := hfind hid
    · rw [Created, hnode] at hd
      exact (createDataDecl_ok hd.1).2
    · exact hkn.data hid hnode
  · intro id d' tdl hid hnode
    obtain rfl | hid := hfind hid
    · rw [Created, hnode] at hd
      exact hd.2
    · exact hkn.wf hid hnode
  · intro id d' hid s hs
    obtain rfl | hid := hfind hid
    · exact hsyms s hs
    · have hsome := hkn.closed hid s hs
      rw [find_addNews_of_isSome hfresh hsome]
      exact hsome
  · intro id d' hid s hs
    obtain rfl | hid := hfind hid
    · rw [KnownMap.find_addNews, if_pos hs]
    · have hs' := hkn.names hid s hs
      rw [find_addNews_of_isSome hfresh (by rw [hs']; rfl), hs']

theorem Reachable.knownOk {checkCompile : CheckCompile} {ok : KnownMap → Decl → Prop}
    (h : Reachable checkCompile ok kn) : KnownOk kn := by
  induction h with
  | empty => exact KnownOk.empty
  | add _ hd _ h ih => exact ih.add hd (knownAddDecl_ok h).1

/-! The explorations of types do not run out of fuel: the symbols being explored
are distinct types of the map. -/

structure Explored (kn : KnownMap) (sts : List TySymbol) : Prop where
  distinct : (sts.map (·.tsName)).Nodup
  known : ∀ ts ∈ sts, ∃ c cl, findConstructors kn ts = .ok (c :: cl)

theorem Explored.nil (kn : KnownMap) : Explored kn [] :=
  ⟨nodup_nil, by simp⟩

theorem findConstructors_cons {cl : List Constructor} (h : findConstructors kn ts = .ok (c :: cl)) :
    ∃ d tdl, kn.find ts.tsName = some d ∧ d.dNode = .ddata tdl ∧ (ts, c :: cl) ∈ tdl := by
  rw [findConstructors] at h
  cases hfind : kn.find ts.tsName with
  | none =>
    rw [hfind] at h
    cases h
  | some d =>
    obtain ⟨node, news, tag⟩ := d
    rw [hfind] at h
    cases node with
    | ddata tdl =>
      cases hcl : tdl.lookup ts with
      | none => simp [hcl] at h
      | some cl' =>
        simp only [hcl, ok.injEq] at h
        subst h
        exact ⟨_, tdl, rfl, rfl, AssocList.mem_of_lookup hcl⟩
    | dtype _ _ | dparam _ | dlogic _ | dind _ _ | dprop _ _ _ => simp at h

theorem Explored.cons (hkn : KnownOk kn) {cl : List Constructor} (h : Explored kn sts)
    (hts : ts ∉ sts) (hcl : findConstructors kn ts = .ok (c :: cl)) : Explored kn (ts :: sts) := by
  refine ⟨?_, ?_⟩
  · rw [map_cons, nodup_cons]
    refine ⟨?_, h.distinct⟩
    intro hmem
    obtain ⟨us, hus, hname⟩ := mem_map.mp hmem
    obtain ⟨c', cl', hcl'⟩ := h.known us hus
    obtain ⟨d, tdl, hd, hnode, hts'⟩ := findConstructors_cons hcl
    obtain ⟨d', tdl', hd', hnode', hus'⟩ := findConstructors_cons hcl'
    -- One declaration has the name, and it declares one type of that name.
    rw [hname, hd] at hd'
    cases hd'
    cases hnode.symm.trans hnode'
    have heq := inj_on_of_nodup_map (hkn.data hd hnode).distinct hts' hus' hname.symm
    cases heq
    exact hts hus
  · exact forall_mem_cons.mpr ⟨⟨c, cl, hcl⟩, h.known⟩

theorem Explored.length_le (h : Explored kn sts) : sts.length ≤ kn.length := by
  have hsub : sts.map (·.tsName) ⊆ kn.map (·.1) := by
    refine forall_mem_map.mpr fun ts hts => ?_
    obtain ⟨c, cl, hcl⟩ := h.known ts hts
    obtain ⟨d, tdl, hd, -, -⟩ := findConstructors_cons hcl
    exact mem_map.mpr ⟨_, AssocList.mem_of_lookup hd, rfl⟩
  simpa using (subperm_of_subset h.distinct hsub).length_le

theorem findConstructors_ne_outOfFuel (kn : KnownMap) (ts : TySymbol) :
    findConstructors kn ts ≠ .error .outOfFuel := by
  rw [findConstructors]
  cases kn.find ts.tsName with
  | none => simp
  | some d =>
    obtain ⟨node, news, tag⟩ := d
    cases node with
    | ddata tdl => cases hcl : tdl.lookup ts <;> simp [hcl]
    | dtype _ _ | dparam _ | dlogic _ | dind _ _ | dprop _ _ _ => simp

/-- An error of the traversal of a type is one of its symbols' or a wrong arity. -/
theorem getTy_eq_error {pos : TySymbol → Except DeclError (List Bool)} {stv : Finset TvSymbol}
    {e : DeclError} (h : getTy pos stv ty = .error e) :
    e = .invalidArgument ∨ ∃ ts, pos ts = .error e := by
  induction ty using Ty.induct generalizing stv with
  | tyvar v => cases h
  | tyapp ts tl ih =>
    rw [getTy, bind_eq_error] at h
    obtain h | ⟨ps, -, h⟩ := h
    · exact .inr ⟨ts, h⟩
    · induction tl generalizing ps stv with
      | nil =>
        cases ps with
        | nil => cases h
        | cons p ps =>
          cases p <;>
          · cases h
            exact .inl rfl
      | cons t tl iht =>
        have ih' : ∀ t ∈ tl, ∀ {stv}, getTy pos stv t = .error e →
            e = .invalidArgument ∨ ∃ ts, pos ts = .error e :=
          (forall_mem_cons.mp ih).2
        cases ps with
        | nil =>
          cases h
          exact .inl rfl
        | cons p ps =>
          cases p with
          | true =>
            rw [getTyArgs, bind_eq_error] at h
            obtain h | ⟨stv', -, h⟩ := h
            · exact ih t mem_cons_self h
            · exact iht ih' ps h
          | false => exact iht ih' ps h

theorem tsExtractPosFuel_ne_outOfFuel (hkn : KnownOk kn) {fuel : Nat} (hsts : Explored kn sts)
    (hfuel : kn.length < fuel + sts.length) :
    tsExtractPosFuel kn fuel sts ts ≠ .error .outOfFuel := by
  induction fuel generalizing sts ts with
  | zero =>
    have := hsts.length_le
    omega
  | succ fuel ih =>
    intro h
    rw [tsExtractPosFuel] at h
    split at h
    next => cases h
    split at h
    next => cases h
    next hmem =>
      obtain h | ⟨csl, hcsl, h⟩ := bind_eq_error.mp h
      · exact findConstructors_ne_outOfFuel kn ts h
      · cases csl with
        | nil => cases h
        | cons c csl =>
          obtain h | ⟨negs, -, h⟩ := bind_eq_error.mp h
          · obtain ⟨acc, cs, -, h⟩ := Except.foldlM_eq_error h
            obtain ⟨acc', ty, -, h⟩ := Except.foldlM_eq_error h
            obtain h | ⟨us, h⟩ := getTy_eq_error h
            · cases h
            · refine ih (hsts.cons hkn hmem hcsl) ?_ h
              rw [length_cons]
              omega
          · cases h

/-- The signs of a symbol are computed or an error of the source is raised. -/
theorem tsExtractPos_ne_outOfFuel (hkn : KnownOk kn) (ts : TySymbol) :
    tsExtractPos kn [] ts ≠ .error .outOfFuel := by
  apply tsExtractPosFuel_ne_outOfFuel hkn (Explored.nil kn)
  simp

theorem checkType_eq_error {checkTs : Finset TvSymbol → TySymbol → Except DeclError Bool}
    {tvs : Finset TvSymbol} {e : DeclError} (h : checkType checkTs tvs ty = .error e) :
    e = .invalidArgument ∨ ∃ tvs ts, checkTs tvs ts = .error e := by
  induction ty using Ty.induct generalizing tvs with
  | tyvar v => cases h
  | tyapp ts tl ih =>
    rw [checkType, bind_eq_error] at h
    obtain h | ⟨tvs', -, h⟩ := h
    · generalize (∅ : Finset TvSymbol) = acc, ts.tsArgs = vl at h
      induction tl generalizing vl acc with
      | nil =>
        cases vl with
        | nil => cases h
        | cons v vl =>
          cases h
          exact .inl rfl
      | cons t tl iht =>
        cases vl with
        | nil =>
          cases h
          exact .inl rfl
        | cons v vl =>
          rw [checkTypeArgs, bind_eq_error] at h
          obtain h | ⟨b, -, h⟩ := h
          · exact ih t mem_cons_self h
          · exact iht (forall_mem_cons.mp ih).2 _ _ h
    · exact .inr ⟨tvs', ts, h⟩

theorem checkTsFuel_ne_outOfFuel (hkn : KnownOk kn) {fuel : Nat} {tvs : Finset TvSymbol}
    (htss : Explored kn tss) (hfuel : kn.length < fuel + tss.length) :
    checkTsFuel kn fuel tss tvs ts ≠ .error .outOfFuel := by
  induction fuel generalizing tss tvs ts with
  | zero =>
    have := htss.length_le
    omega
  | succ fuel ih =>
    intro h
    rw [checkTsFuel] at h
    split at h
    next => cases h
    next hmem =>
      obtain h | ⟨cl, hcl, h⟩ := bind_eq_error.mp h
      · exact findConstructors_ne_outOfFuel kn ts h
      · cases cl with
        | nil => cases h
        | cons c cl =>
          obtain ⟨cs, -, h⟩ := Except.exists_of_anyM h nofun
          obtain ⟨ty, -, h⟩ := Except.exists_of_allM h nofun
          obtain h | ⟨tvs', us, h⟩ := checkType_eq_error h
          · cases h
          · refine ih (htss.cons hkn hmem hcl) ?_ h
            rw [length_cons]
            omega

end Why3
