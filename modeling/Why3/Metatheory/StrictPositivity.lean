import Why3.Metatheory.KnownMap
import Why3.Metatheory.Positivity

/-!
Strict positivity over runs of `knownAddDecl`.

The first part gives the unfoldings of a reachable known map and shows that an
addition does not change those of the types already there. The second part is
the run: while every new type has its negative parameters visible without
entering a symbol inside itself, every algebraic declaration of the map stays
strictly positive. Without that condition it fails, already for one type that
permutes its parameters.
-/
namespace Why3

open List

variable {ts : TySymbol} {a : Ty} {d : Decl} {kn : KnownMap}

theorem findConstructors_congr {kn' : KnownMap} (h : kn'.find ts.tsName = kn.find ts.tsName) :
    findConstructors kn' ts = findConstructors kn ts := by
  rw [findConstructors, findConstructors, h]

theorem mem_knSig_fields :
    a ∈ (knSig kn).fields ts ↔ ts ≠ tsFunc ∧ ∃ d tdl cl c, kn.find ts.tsName = some d ∧
      d.dNode = .ddata tdl ∧ tdl.lookup ts = some cl ∧ c ∈ cl ∧ a ∈ c.1.lsArgs := by
  by_cases hf : ts = tsFunc
  · simp [knSig, hf]
  simp only [knSig, findConstructors]
  cases hfind : kn.find ts.tsName with
  | none => simp
  | some d =>
    obtain ⟨node, news, tag⟩ := d
    cases node with
    | ddata tdl =>
      cases hcl : tdl.lookup ts with
      | none | some cl => simp [hcl]
    | dtype _ _ | dparam _ | dlogic _ | dind _ _ | dprop _ _ _ => simp

section KnSig

variable {kn : KnownMap} (hkn : KnownOk kn)

include hkn

theorem KnownOk.wellFormed : (knSig kn).WellFormed where
  params := by
    intro ts a ha v hv
    obtain ⟨-, d, tdl, cl, c, hd, hnode, hcl, hc, ha⟩ := mem_knSig_fields.mp ha
    exact (hkn.data hd hnode).params _ (AssocList.mem_of_lookup hcl) c hc a ha v hv
  arity := by
    intro ts a ha
    obtain ⟨-, d, tdl, cl, c, hd, hnode, hcl, hc, ha⟩ := mem_knSig_fields.mp ha
    exact hkn.wf hd hnode _ (AssocList.mem_of_lookup hcl) c hc a ha

theorem KnownOk.fields_closed (ha : a ∈ (knSig kn).fields ts) :
    ∀ id ∈ symsTy a, (kn.find id).isSome := by
  obtain ⟨-, d, tdl, cl, c, hd, hnode, hcl, hc, ha⟩ := mem_knSig_fields.mp ha
  intro id hid
  apply hkn.closed hd
  rw [getDeclSyms, hnode]
  refine mem_flatMap.mpr ⟨_, AssocList.mem_of_lookup hcl, mem_flatMap.mpr ⟨c, hc, ?_⟩⟩
  exact mem_symsTyList.mpr ⟨a, ha, hid⟩

/-- An addition does not change the unfoldings of known types. -/
theorem KnownOk.agreeOn (hfresh : ∀ id ∈ d.dNews, kn.find id = none) :
    (knSig kn).AgreeOn (knSig (kn.addNews d)) (fun id => (kn.find id).isSome) where
  fields := by
    intro ts hts
    simp only [knSig, findConstructors_congr (find_addNews_of_isSome hfresh hts)]
  negArg := by
    intro ts hts
    simp only [knSig, findConstructors_congr (find_addNews_of_isSome hfresh hts)]
  closed := by
    intro ts a _ ha
    exact hkn.fields_closed ha

end KnSig

/-! The condition of the run. -/

/-- A parameter that is negative in some unfolding of the constructors is so in
one that enters no symbol inside itself. -/
def NegAcyclic (S : UnfoldSig) (ts : TySymbol) : Prop :=
  ∀ v ∈ ts.tsArgs, (∃ a ∈ S.fields ts, NegIn S false [] v a) →
    ∃ a ∈ S.fields ts, NegIn S true [ts] v a

/-- The new algebraic types have that property, in the map with their declaration. -/
def NewNegAcyclic (kn : KnownMap) (d : Decl) : Prop :=
  ∀ tdl, d.dNode = .ddata tdl → ∀ td ∈ tdl, NegAcyclic (knSig (kn.addNews d)) td.1

theorem NegAcyclic.of_fields_eq_nil {S : UnfoldSig} (h : S.fields ts = []) : NegAcyclic S ts := by
  intro v _ hneg
  obtain ⟨a, ha, -⟩ := hneg
  rw [h] at ha
  cases ha

theorem NegAcyclic.agree {S S' : UnfoldSig} {K : Ident → Prop} (hK : S.AgreeOn S' K)
    (hts : K ts.tsName) (h : NegAcyclic S ts) : NegAcyclic S' ts := by
  intro v hv hneg
  obtain ⟨a, ha, hneg⟩ := hneg
  rw [hK.fields hts] at ha
  obtain ⟨b, hb, hacyclic⟩ :=
    h v hv ⟨a, ha, hneg.agree hK.symm (hK.closed hts ha)⟩
  exact ⟨b, by rw [hK.fields hts]; exact hb, hacyclic.agree hK (hK.closed hts hb)⟩

/-- A symbol of the new names unfolds only if the declaration defines it. -/
theorem addNews_fields_eq_nil (hts : ts.tsName ∈ d.dNews)
    (hd : ∀ tdl, d.dNode = .ddata tdl → ts ∉ tdl.map (·.1)) :
    (knSig (kn.addNews d)).fields ts = [] := by
  apply eq_nil_iff_forall_not_mem.mpr
  intro a ha
  obtain ⟨-, d', tdl, cl, c, hfind, hnode, hcl, -, -⟩ := mem_knSig_fields.mp ha
  rw [KnownMap.find_addNews, if_pos hts] at hfind
  cases hfind
  exact hd tdl hnode (mem_map.mpr ⟨_, AssocList.mem_of_lookup hcl, rfl⟩)

theorem negAcyclic_addNews (hkn : KnownOk kn) (hfresh : ∀ id ∈ d.dNews, kn.find id = none)
    (hnew : NewNegAcyclic kn d) (h : ∀ ts, NegAcyclic (knSig kn) ts) (ts : TySymbol) :
    NegAcyclic (knSig (kn.addNews d)) ts := by
  by_cases hts : ts.tsName ∈ d.dNews
  · by_cases hd : ∃ tdl, d.dNode = .ddata tdl ∧ ts ∈ tdl.map (·.1)
    · obtain ⟨tdl, hnode, hmem⟩ := hd
      obtain ⟨td, htd, rfl⟩ := mem_map.mp hmem
      exact hnew tdl hnode td htd
    · exact .of_fields_eq_nil (addNews_fields_eq_nil hts fun tdl hnode hmem =>
        hd ⟨tdl, hnode, hmem⟩)
  · cases hfind : kn.find ts.tsName with
    | none =>
      apply NegAcyclic.of_fields_eq_nil
      apply eq_nil_iff_forall_not_mem.mpr
      intro a ha
      obtain ⟨-, d', tdl, cl, c, hfind', -, -, -, -⟩ := mem_knSig_fields.mp ha
      rw [KnownMap.find_addNews, if_neg hts, hfind] at hfind'
      cases hfind'
    | some d' => exact (h ts).agree (hkn.agreeOn hfresh) (by rw [hfind]; rfl)

/-! The declared group. -/

/-- No symbol of the group occurs in a position that is not strictly positive in
an unfolding of the argument types of its constructors. -/
def StrictlyPositive (S : UnfoldSig) (tdl : List DataDecl) : Prop :=
  ∀ td ∈ tdl, ∀ c ∈ td.2, ∀ a ∈ c.1.lsArgs, ∀ k u ul,
    Occ S k a true (.tyapp u ul) → u ∉ tdl.map (·.1)

theorem tySAny_eq_true {pr : TySymbol → Bool} (ty : Ty) (h : tySAny pr ty = true) :
    ∃ us, pr us = true ∧ us.tsName ∈ symsTy ty := by
  induction ty using Ty.induct with
  | tyvar v => cases h
  | tyapp ts tl ih =>
    rw [tySAny, Bool.or_eq_true, tySAnyList_eq_any, any_eq_true] at h
    obtain h | ⟨t, ht, h⟩ := h
    · exact ⟨ts, h, by simp [symsTy]⟩
    · obtain ⟨us, hus, hmem⟩ := ih t ht h
      exact ⟨us, hus, by simpa [symsTy] using .inr ⟨t, ht, hmem⟩⟩

theorem checkPositivity_checked {tdl : List DataDecl} (hnode : d.dNode = .ddata tdl)
    (h : checkPositivity kn d = .ok ()) {td : DataDecl} (htd : td ∈ tdl) {c : Constructor}
    (hc : c ∈ td.2) (ha : a ∈ c.1.lsArgs) : Checked (tsExtractPos kn []) (tdl.map (·.1)) a := by
  rw [checkPositivity, hnode] at h
  have htd := Except.forM_ok.mp h td htd
  have hc := Except.forM_ok.mp htd c hc
  exact ⟨td.1, c.1, Except.forM_ok.mp hc a ha⟩

theorem groupChecked_addNews {tdl : List DataDecl} (hkn : KnownOk kn) (hnode : d.dNode = .ddata tdl)
    (hfresh : ∀ id ∈ d.dNews, kn.find id = none) (hnames : ∀ td ∈ tdl, td.1.tsName ∈ d.dNews)
    (hacyclic : ∀ ts, NegAcyclic (knSig (kn.addNews d)) ts)
    (hcheck : checkPositivity (kn.addNews d) d = .ok ()) :
    GroupChecked (knSig (kn.addNews d)) (tsExtractPos (kn.addNews d) []) (tdl.map (·.1)) where
  outside := by
    intro ts a hts ha
    by_cases hnew : ts.tsName ∈ d.dNews
    · rw [addNews_fields_eq_nil hnew] at ha
      · cases ha
      · intro tdl' hnode' hmem
        cases hnode.symm.trans hnode'
        exact hts hmem
    · -- An older type is built from older symbols.
      by_contra hany
      obtain ⟨us, hus, hsyms⟩ := tySAny_eq_true a (by simpa using hany)
      have hold : (kn.find ts.tsName).isSome := by
        obtain ⟨-, d', tdl', cl, c, hfind, -⟩ := mem_knSig_fields.mp ha
        rw [KnownMap.find_addNews, if_neg hnew] at hfind
        rw [hfind]
        rfl
      rw [(hkn.agreeOn hfresh).fields hold] at ha
      have hknown := hkn.fields_closed ha us.tsName hsyms
      obtain ⟨td, htd, rfl⟩ := mem_map.mp (contains_iff_mem.mp hus)
      rw [hfresh _ (hnames td htd)] at hknown
      cases hknown
  inside := by
    intro ts a hts ha
    obtain ⟨td, htd, rfl⟩ := mem_map.mp hts
    obtain ⟨-, d', tdl', cl, c, hfind, hnode', hcl, hc, ha⟩ := mem_knSig_fields.mp ha
    rw [KnownMap.find_addNews, if_pos (hnames td htd)] at hfind
    cases hfind
    cases hnode.symm.trans hnode'
    exact checkPositivity_checked hnode hcheck (AssocList.mem_of_lookup hcl) hc ha
  negArg := by
    intro ts ps i hps hneg
    exact tsExtractPosFuel_negPos hps ⟨not_mem_nil, .inl hneg⟩
  negParam := by
    intro ts ps w b i hps hw hb hneg
    obtain ⟨b', hb', hneg'⟩ := hacyclic ts w (mem_of_getElem? hw) ⟨b, hb, hneg⟩
    exact tsExtractPosFuel_negPos hps ⟨not_mem_nil, .inr ⟨w, b', hw, hb', hneg'⟩⟩

/-- One addition: the new group is strictly positive and the older ones stay so. -/
theorem strictlyPositive_addNews (hkn : KnownOk kn) (hd : Created d)
    (hunion : knownUnion kn d = .ok (kn.addNews d))
    (hcheck : checkPositivity (kn.addNews d) d = .ok ())
    (hacyclic : ∀ ts, NegAcyclic (knSig (kn.addNews d)) ts)
    (h : ∀ id d tdl, kn.find id = some d → d.dNode = .ddata tdl → StrictlyPositive (knSig kn) tdl)
    (id : Ident) (d' : Decl) (tdl : List DataDecl) (hid : (kn.addNews d).find id = some d')
    (hnode : d'.dNode = .ddata tdl) : StrictlyPositive (knSig (kn.addNews d)) tdl := by
  have hkn' : KnownOk (kn.addNews d) := hkn.add hd hunion
  obtain ⟨-, hfresh, -⟩ := knownUnion_ok hunion
  intro td htd c hc a ha k u ul hocc
  have hwf : tyWf a = true := hkn'.wf hid hnode td htd c hc a ha
  by_cases hnew : id ∈ d.dNews
  · rw [KnownMap.find_addNews, if_pos hnew] at hid
    cases hid
    have hdata : DataDeclChecked tdl d.dNews := by
      rw [Created, hnode] at hd
      exact (createDataDecl_ok hd.1).2
    have hgroup := groupChecked_addNews hkn hnode hfresh hdata.names hacyclic hcheck
    exact hgroup.positive hkn'.wellFormed (checkPositivity_checked hnode hcheck htd hc ha) hwf hocc
  · rw [KnownMap.find_addNews, if_neg hnew] at hid
    have hsyms : ∀ s ∈ symsTy a, (kn.find s).isSome := by
      intro s hs
      apply hkn.closed hid
      rw [getDeclSyms, hnode]
      exact mem_flatMap.mpr ⟨td, htd, mem_flatMap.mpr ⟨c, hc, mem_symsTyList.mpr ⟨a, ha, hs⟩⟩⟩
    have hocc' := hocc.agree hkn'.wellFormed (hkn.agreeOn hfresh).symm hwf hsyms
    exact h id d' tdl hid hnode td htd c hc a ha k u ul hocc'

theorem reachable_invariant {checkCompile : CheckCompile}
    (h : Reachable checkCompile NewNegAcyclic kn) : (∀ ts, NegAcyclic (knSig kn) ts) ∧
      ∀ id d tdl, kn.find id = some d → d.dNode = .ddata tdl →
        StrictlyPositive (knSig kn) tdl := by
  induction h with
  | empty =>
    refine ⟨?_, ?_⟩
    · intro ts
      apply NegAcyclic.of_fields_eq_nil
      by_cases hf : ts = tsFunc <;> simp [knSig, findConstructors, KnownMap.find]
    · intro id d tdl hid
      cases hid
  | @add kn kn' d hkn hd hok h ih =>
    obtain ⟨hunion, hcheck⟩ := knownAddDecl_ok h
    obtain ⟨rfl, hfresh, -⟩ := knownUnion_ok hunion
    have hacyclic := negAcyclic_addNews hkn.knownOk hfresh hok ih.1
    exact ⟨hacyclic, strictlyPositive_addNews hkn.knownOk hd hunion hcheck hacyclic ih.2⟩

/-- In every run whose new types have their negative parameters visible in an
acyclic unfolding, every algebraic declaration of every known map reached is
strictly positive. -/
theorem reachable_strictlyPositive (checkCompile : CheckCompile) (kn : KnownMap)
    (h : Reachable checkCompile NewNegAcyclic kn) (id : Ident) (d : Decl) (tdl : List DataDecl)
    (hid : kn.find id = some d) (hnode : d.dNode = .ddata tdl) : StrictlyPositive (knSig kn) tdl :=
  (reachable_invariant h).2 id d tdl hid hnode

/-! A declaration that meets the condition, and one that does not. -/

def dFunc : Decl := ⟨.dtype tsFunc none, [tsFunc.tsName], 0⟩

def dInt : Decl := ⟨.dtype tsInt none, [tsInt.tsName], 1⟩

/-- `type nat = O | S nat` -/
def tsNat : TySymbol := ⟨⟨"nat", 20⟩, [], .noDef⟩

def natConstrs : List Constructor :=
  [(⟨⟨"O", 21⟩, [], some (.tyapp tsNat []), 2⟩, []),
   (⟨⟨"S", 22⟩, [.tyapp tsNat []], some (.tyapp tsNat []), 2⟩, [none])]

def dNat : Decl := ⟨.ddata [(tsNat, natConstrs)], [⟨"S", 22⟩, ⟨"O", 21⟩, tsNat.tsName], 2⟩

theorem strictlyPositive_nat :
    Reachable (fun _ _ _ => .ok ()) NewNegAcyclic (KnownMap.addNews [] dNat) ∧
      StrictlyPositive (knSig (KnownMap.addNews [] dNat)) [(tsNat, natConstrs)] := by
  have hcreated : Created dNat := ⟨rfl, by decide⟩
  have hacyclic : NewNegAcyclic [] dNat := by
    intro tdl hnode td htd v hv
    cases hnode
    cases mem_singleton.mp htd
    cases hv
  have hrun : Reachable (fun _ _ _ => .ok ()) NewNegAcyclic (KnownMap.addNews [] dNat) :=
    .add .empty hcreated hacyclic rfl
  exact ⟨hrun, reachable_strictlyPositive _ _ hrun tsNat.tsName dNat _ rfl rfl⟩

theorem tsExtractPos_nat : tsExtractPos (KnownMap.addNews [] dNat) [] tsNat ≠ .error .outOfFuel := by
  have hcreated : Created dNat := ⟨rfl, by decide⟩
  exact tsExtractPos_ne_outOfFuel (KnownOk.empty.add hcreated rfl) tsNat

/-- `type t 'a 'b = C (t 'b 'a) | D ('a -> int)` -/
def tsSwap : TySymbol := ⟨⟨"t", 32⟩, [⟨⟨"a", 30⟩⟩, ⟨⟨"b", 31⟩⟩], .noDef⟩

def tySwap (a b : Ty) : Ty := .tyapp tsSwap [a, b]

def swapConstrs : List Constructor :=
  let a := Ty.tyvar ⟨⟨"a", 30⟩⟩
  let b := Ty.tyvar ⟨⟨"b", 31⟩⟩
  [(⟨⟨"C", 33⟩, [tySwap b a], some (tySwap a b), 2⟩, [none]),
   (⟨⟨"D", 34⟩, [tyFunc a tyInt], some (tySwap a b), 2⟩, [none])]

def dSwap : Decl := ⟨.ddata [(tsSwap, swapConstrs)], [⟨"D", 34⟩, ⟨"C", 33⟩, tsSwap.tsName], 2⟩

/-- `type u = K (t int u)` -/
def tsKnot : TySymbol := ⟨⟨"u", 40⟩, [], .noDef⟩

def tyKnot : Ty := .tyapp tsKnot []

def knotConstrs : List Constructor :=
  [(⟨⟨"K", 41⟩, [tySwap tyInt tyKnot], some tyKnot, 1⟩, [none])]

def dKnot : Decl := ⟨.ddata [(tsKnot, knotConstrs)], [⟨"K", 41⟩, tsKnot.tsName], 3⟩

def knotKnown : KnownMap :=
  (((KnownMap.addNews [] dFunc).addNews dInt).addNews dSwap).addNews dKnot

theorem knot_reachable : Reachable (fun _ _ _ => .ok ()) (fun _ _ => True) knotKnown := by
  have h1 : Reachable (fun _ _ _ => .ok ()) (fun _ _ => True) (KnownMap.addNews [] dFunc) :=
    .add (d := dFunc) .empty trivial trivial rfl
  have h2 : Reachable (fun _ _ _ => .ok ()) (fun _ _ => True)
      ((KnownMap.addNews [] dFunc).addNews dInt) :=
    .add (d := dInt) h1 trivial trivial rfl
  have h3 : Reachable (fun _ _ _ => .ok ()) (fun _ _ => True)
      (((KnownMap.addNews [] dFunc).addNews dInt).addNews dSwap) :=
    .add (d := dSwap) h2 ⟨rfl, by decide⟩ trivial rfl
  exact .add (d := dKnot) h3 ⟨rfl, by decide⟩ trivial rfl

/-- `t int u` unfolds to `t u int`, and that to `u -> int`. -/
theorem knot_occ : Occ (knSig knotKnown) 3 (tySwap tyInt tyKnot) true tyKnot := by
  have hC : tySwap (.tyvar ⟨⟨"b", 31⟩⟩) (.tyvar ⟨⟨"a", 30⟩⟩) ∈ (knSig knotKnown).fields tsSwap := by
    decide
  have hD : tyFunc (.tyvar ⟨⟨"a", 30⟩⟩) tyInt ∈ (knSig knotKnown).fields tsSwap := by
    decide
  refine .unfold hC (.unfold hD ?_)
  exact .arg (i := 0) (n := false) rfl (.here tyKnot)

/-- Positivity fails in a run that accepts a type with permuted parameters. -/
theorem reachable_not_strictlyPositive :
    ∃ kn id d tdl, Reachable (fun _ _ _ => .ok ()) (fun _ _ => True) kn ∧
      kn.find id = some d ∧ d.dNode = .ddata tdl ∧ ¬ StrictlyPositive (knSig kn) tdl := by
  refine ⟨knotKnown, tsKnot.tsName, dKnot, _, knot_reachable, rfl, rfl, ?_⟩
  intro h
  have hout := h (tsKnot, knotConstrs) mem_cons_self _ mem_cons_self _
    mem_cons_self 3 tsKnot [] knot_occ
  exact hout mem_cons_self

end Why3
