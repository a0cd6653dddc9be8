import Why3.Metatheory.StrictPositivity

/-!
Inhabited types.

A type has a finite tree of constructors when the type is assumed inhabited, when
it is an abstract type of inhabited arguments, or when the arguments of one of its
constructors have such trees. `checkFoundness` explores the constructors with the
set of the parameters that may be empty; where it answers yes, the type has a tree
for all arguments that do have one at the other parameters.
-/
namespace Why3

open List

/-- The type has a finite tree of constructors over the types of `base`. -/
inductive Inhabited (kn : KnownMap) (base : Ty → Prop) : Ty → Prop
  | base {ty : Ty} (h : base ty) : Inhabited kn base ty
  | abstract {ts : TySymbol} {tl : List Ty} (hts : findConstructors kn ts = .ok [])
      (htl : ∀ t ∈ tl, Inhabited kn base t) : Inhabited kn base (.tyapp ts tl)
  | constr {ts : TySymbol} {tl : List Ty} {cl : List Constructor} {c : Constructor}
      (hts : findConstructors kn ts = .ok cl) (hc : c ∈ cl)
      (hargs : ∀ a ∈ c.1.lsArgs, Inhabited kn base (tyInst (tsMatchArgs ts tl) a)) :
      Inhabited kn base (.tyapp ts tl)

/-- Every application of the symbol to inhabited types is inhabited. -/
def Founded (kn : KnownMap) (ts : TySymbol) : Prop :=
  ∀ base tl, tl.length = ts.tsArgs.length → (∀ t ∈ tl, Inhabited kn base t) →
    Inhabited kn base (.tyapp ts tl)

variable {kn : KnownMap}

theorem Inhabited.trans {kn' : KnownMap} {base base' : Ty → Prop} {ty : Ty}
    (hkn : ∀ ts cl, findConstructors kn ts = .ok cl → findConstructors kn' ts = .ok cl)
    (hbase : ∀ t, base t → Inhabited kn' base' t) (h : Inhabited kn base ty) :
    Inhabited kn' base' ty := by
  induction h with
  | base h => exact hbase _ h
  | abstract hts _ ih => exact .abstract (hkn _ _ hts) ih
  | constr hts hc _ ih => exact .constr (hkn _ _ hts) hc ih

/-! Soundness of the exploration. -/

variable {cl : List Constructor} {ts : TySymbol} {d : Decl}

section Check

variable {kn : KnownMap} {base : Ty → Prop}

/-- The application is inhabited as soon as its arguments outside `tvs` are. -/
def FoundedOutside (kn : KnownMap) (base : Ty → Prop) (tvs : Finset TvSymbol) (ts : TySymbol) :
    Prop :=
  ∀ tl : List Ty, tl.length = ts.tsArgs.length →
    (∀ (i : Nat) v t, ts.tsArgs[i]? = some v → tl[i]? = some t → v ∉ tvs → Inhabited kn base t) →
      Inhabited kn base (.tyapp ts tl)

variable {checkTs : Finset TvSymbol → TySymbol → Except DeclError Bool}

variable {tvs : Finset TvSymbol}

theorem checkTypeArgs_ok {acc tvs' : Finset TvSymbol} {vl : List TvSymbol} {tl : List Ty}
    (h : checkTypeArgs checkTs tvs acc vl tl = .ok tvs') : tl.length = vl.length ∧ acc ⊆ tvs' ∧
      ∀ (i : Nat) v t, vl[i]? = some v → tl[i]? = some t → v ∉ tvs' →
        checkType checkTs tvs t = .ok true := by
  induction vl generalizing acc tl with
  | nil =>
    cases tl with
    | nil =>
      cases h
      exact ⟨rfl, Finset.Subset.refl _, by simp⟩
    | cons t tl => nomatch h
  | cons v vl ih =>
    cases tl with
    | nil => nomatch h
    | cons t tl =>
      rw [checkTypeArgs, Except.bind_eq_ok] at h
      obtain ⟨b, hb, h⟩ := h
      obtain ⟨hlen, hacc, hargs⟩ := ih h
      refine ⟨by rw [length_cons, length_cons, hlen], ?_, ?_⟩
      · cases b with
        | true => exact hacc
        | false => exact (Finset.subset_insert _ _).trans hacc
      · intro i w u hw hu hwv
        cases i with
        | zero =>
          cases hw
          cases hu
          cases b with
          | true => exact hb
          | false => exact absurd (hacc (Finset.mem_insert_self _ _)) hwv
        | succ i => exact hargs i w u hw hu hwv

theorem checkType_inhabited {s : TySubst} {ty : Ty}
    (hTs : ∀ tvs ts, checkTs tvs ts = .ok true → FoundedOutside kn base tvs ts)
    (hs : ∀ v ∈ tyFreevars ty, v ∉ tvs → Inhabited kn base (tyInst s (.tyvar v)))
    (h : checkType checkTs tvs ty = .ok true) : Inhabited kn base (tyInst s ty) := by
  induction ty using Ty.induct with
  | tyvar v =>
    simp only [checkType, Except.ok.injEq, decide_eq_true_eq] at h
    exact hs v (Finset.mem_singleton_self v) h
  | tyapp ts tl ih =>
    rw [checkType, Except.bind_eq_ok] at h
    obtain ⟨tvs', htvs', h⟩ := h
    obtain ⟨hlen, -, hargs⟩ := checkTypeArgs_ok htvs'
    rw [tyInst_tyapp]
    refine hTs tvs' ts h _ (by rw [length_map, hlen]) fun i v u hv hu hvs => ?_
    rw [List.getElem?_map, Option.map_eq_some_iff] at hu
    obtain ⟨t, hi, rfl⟩ := hu
    have ht : t ∈ tl := mem_of_getElem? hi
    refine ih t ht (fun w hw => hs w ?_) (hargs i v t hv hi hvs)
    exact mem_tyFreevarsList.mpr ⟨t, ht, hw⟩

theorem KnownOk.scoped (hkn : KnownOk kn)
    (h : findConstructors kn ts = .ok cl) : DataScoped (ts, cl) := by
  intro c hc
  cases cl with
  | nil => nomatch hc
  | cons c' cl =>
    obtain ⟨d, tdl, hd, hnode, hmem⟩ := findConstructors_cons h
    exact (hkn.data hd hnode).params _ hmem c hc

theorem checkTsFuel_founded (hkn : KnownOk kn) {fuel : Nat} {tss : List TySymbol}
    (h : checkTsFuel kn fuel tss tvs ts = .ok true) : FoundedOutside kn base tvs ts := by
  induction fuel generalizing tss tvs ts with
  | zero => cases h
  | succ fuel ih =>
    intro tl hlen htl
    rw [checkTsFuel] at h
    split at h
    next => cases h
    next =>
      obtain ⟨cl, hcl, h⟩ := Except.bind_eq_ok.mp h
      split at h
      next hnil =>
        simp only [Except.ok.injEq, decide_eq_true_eq] at h
        cases List.isEmpty_iff.mp hnil
        refine .abstract hcl fun t ht => ?_
        obtain ⟨i, hi, rfl⟩ := mem_iff_getElem.mp ht
        have hi' : i < ts.tsArgs.length := hlen ▸ hi
        exact htl i ts.tsArgs[i] tl[i] (List.getElem?_eq_getElem hi')
          (List.getElem?_eq_getElem hi) (h ▸ Finset.notMem_empty _)
      next =>
        obtain ⟨c, hc, hargs⟩ := Except.exists_of_anyM h (by simp)
        refine .constr hcl hc fun a ha => ?_
        refine checkType_inhabited (fun _ _ => ih) (fun v hv hvs => ?_)
          (Except.allM_eq_true hargs a ha)
        obtain ⟨i, t, hi, ht, heq⟩ :=
          tyInst_tsMatchArgs hlen (hkn.scoped hcl c hc a ha v hv)
        rw [heq]
        exact htl i v t hi ht hvs

theorem checkFoundness_founded (hkn : KnownOk kn) {tdl : List DataDecl}
    (hnode : d.dNode = .ddata tdl) (h : checkFoundness kn d = .ok ()) :
    ∀ td ∈ tdl, Founded kn td.1 := by
  intro td htd base tl hlen htl
  simp only [checkFoundness, hnode] at h
  obtain ⟨b, hb, h⟩ := Except.bind_eq_ok.mp (Except.forM_ok.mp h td htd)
  cases b with
  | false => nomatch h
  | true =>
    refine checkTsFuel_founded hkn hb tl hlen fun i v t _ ht _ => ?_
    exact htl t (mem_of_getElem? ht)

end Check

theorem checkFoundness_ne_outOfFuel (hkn : KnownOk kn) (d : Decl) :
    checkFoundness kn d ≠ .error .outOfFuel := by
  intro h
  rw [checkFoundness] at h
  split at h
  next tdl =>
    obtain ⟨td, -, h⟩ := Except.forM_eq_error h
    obtain h | ⟨b, -, h⟩ := Except.bind_eq_error.mp h
    · exact checkTsFuel_ne_outOfFuel hkn (Explored.nil kn) (by simp) h
    · split at h <;> cases h
  next => cases h

/-! Runs of additions. -/

theorem findConstructors_addNews (hfresh : ∀ id ∈ d.dNews, kn.find id = none)
    (h : findConstructors kn ts = .ok cl) : findConstructors (kn.addNews d) ts = .ok cl := by
  have hsome : (kn.find ts.tsName).isSome := by
    rw [findConstructors] at h
    cases hfind : kn.find ts.tsName with
    | none =>
      rw [hfind] at h
      cases h
    | some d => rfl
  rw [findConstructors_congr (find_addNews_of_isSome hfresh hsome), h]

/-- A symbol founded in a map stays so: its trees over arbitrary arguments are kept. -/
theorem Founded.addNews (hfresh : ∀ id ∈ d.dNews, kn.find id = none) (h : Founded kn ts) :
    Founded (kn.addNews d) ts := by
  intro base tl hlen htl
  have hassumed : Inhabited kn (· ∈ tl) (.tyapp ts tl) := h (· ∈ tl) tl hlen fun t ht => .base ht
  exact hassumed.trans (fun _ _ => findConstructors_addNews hfresh) htl

theorem founded_addNews {checkCompile : CheckCompile} {kn' : KnownMap} (hkn' : KnownOk kn')
    (ih : ∀ ts cl, findConstructors kn ts = .ok cl → Founded kn ts)
    (h : knownAddDecl checkCompile kn d = .ok kn') (hts : findConstructors kn' ts = .ok cl)
    : Founded kn' ts := by
  simp only [knownAddDecl, Except.bind_eq_ok] at h
  obtain ⟨kn1, hunion, ⟨⟩, -, ⟨⟩, hfound, ⟨⟩, -, h⟩ := h
  cases h
  obtain ⟨rfl, hfresh, -⟩ := knownUnion_ok hunion
  cases cl with
  | nil => exact fun base tl _ htl => .abstract hts htl
  | cons c cl =>
    obtain ⟨d', tdl, hd', hnode, hmem⟩ := findConstructors_cons hts
    rw [KnownMap.find_addNews] at hd'
    split at hd'
    next hnew =>
      cases hd'
      exact checkFoundness_founded hkn' hnode hfound _ hmem
    next hold =>
      refine Founded.addNews hfresh (ih ts (c :: cl) ?_)
      rw [← hts]
      exact findConstructors_congr (by rw [KnownMap.find_addNews, if_neg hold])

theorem reachable_founded {checkCompile : CheckCompile} {ok : KnownMap → Decl → Prop}
    (h : Reachable checkCompile ok kn) (hts : findConstructors kn ts = .ok cl) : Founded kn ts := by
  induction h generalizing ts cl with
  | empty => nomatch hts
  | add hkn hd hok h ih =>
    exact founded_addNews (hkn.add hd hok h).knownOk (fun _ _ => ih) h hts

/-- In every known map of a run `checkFoundness` returns, every type that it accepts
has a finite tree of constructors over arbitrary inhabited arguments, and so has
every type that the map declares. -/
theorem reachable_inhabited {checkCompile : CheckCompile} {ok : KnownMap → Decl → Prop}
    {kn : KnownMap} (hkn : Reachable checkCompile ok kn) :
    (∀ d, checkFoundness kn d ≠ .error .outOfFuel) ∧
    (∀ d tdl, d.dNode = .ddata tdl → checkFoundness kn d = .ok () → ∀ td ∈ tdl, Founded kn td.1) ∧
    ∀ ts cl, findConstructors kn ts = .ok cl → Founded kn ts :=
  ⟨checkFoundness_ne_outOfFuel hkn.knownOk,
    fun _ _ hnode h => checkFoundness_founded hkn.knownOk hnode h,
    fun _ _ hts => reachable_founded hkn hts⟩

/-- The recursive type `u = K (t int u)` with `t 'a 'b = C (t 'b 'a) | D ('a -> int)`. -/
theorem reachable_inhabited_knot : Inhabited knotKnown (fun _ => False) tyKnot :=
  (reachable_inhabited knot_reachable).2.2 tsKnot knotConstrs rfl _ [] rfl fun _ h => nomatch h

end Why3
