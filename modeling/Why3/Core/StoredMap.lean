import Why3.Core.Stored

/-!
Maps over stored terms: over their immediate subterms, over types and symbols, and folds over
their free symbols.

Physical equality is a parameter that may only identify equal terms. Fresh symbols take their
tags from a counter.
-/
namespace Why3
namespace Stored

/-! Maps over immediate subterms. Bindings are opened, and closed again when the body has
changed. -/

section Map

variable {A : Type} (phys : STerm → STerm → Bool) (fn : A → STerm → A × STerm)

def mapFoldList : A → List STerm → A × List STerm
  | acc, [] => (acc, [])
  | acc, t :: tl =>
    let s := fn acc t
    let sl := mapFoldList s.1 tl
    (sl.1, s.2 :: sl.2)

def mapFoldTrigger : A → List (List STerm) → A × List (List STerm)
  | acc, [] => (acc, [])
  | acc, l :: tr =>
    let sl := mapFoldList fn acc l
    let sr := mapFoldTrigger sl.1 tr
    (sr.1, sl.2 :: sr.2)

/-- Also whether all branches have stayed the same. -/
def mapFoldBranches : Nat → A → List TermBranch → A × Bool × List TermBranch
  | _, acc, [] => (acc, true, [])
  | k, acc, b :: bl =>
    let o := tOpenBranch k b
    let s := fn acc o.2
    let r := mapFoldBranches (k + (patVars b.1).length) s.1 bl
    if phys s.2 o.2 then (r.1, r.2.1, b :: r.2.2)
    else (r.1, false, tCloseBranch o.1 s.2 :: r.2.2)

/-- The tags of the fresh symbols start at `k`. -/
def tMapFold (k : Nat) (acc : A) (t : STerm) : A × STerm :=
  match t with
  | .tlet _ t1 v b e =>
    let s1 := fn acc t1
    let o := tOpenBound k (v, b, e)
    let s2 := fn s1.1 o.2
    if phys s2.2 o.2 then
      if phys s1.2 t1 then (s2.1, t) else (s2.1, tAttrCopy t (tLet s1.2 (v, b, e)))
    else (s2.1, tAttrCopy t (tLetClose o.1 s1.2 s2.2))
  | .tcase _ t1 bl =>
    let s1 := fn acc t1
    let r := mapFoldBranches phys fn k s1.1 bl
    if phys s1.2 t1 && r.2.1 then (r.1, t) else (r.1, tAttrCopy t (tCase s1.2 r.2.2))
  | .teps _ v b f =>
    let o := tOpenBound k (v, b, f)
    let s1 := fn acc o.2
    if phys s1.2 o.2 then (s1.1, t) else (s1.1, tAttrCopy t (tEpsClose o.1 s1.2))
  | .tquant _ q vl b tr f =>
    let o := tOpenQuant k (vl, b, tr, f)
    let sl := mapFoldTrigger fn acc o.2.1
    let g1 := fn sl.1 o.2.2
    if phys g1.2 o.2.2 && (sl.2.zip o.2.1).all fun x => (x.1.zip x.2).all fun y => phys y.1 y.2
    then (g1.1, t) else (g1.1, tAttrCopy t (tQuantClose q o.1 sl.2 g1.2))
  | .tapp a ls tl ty =>
    let sl := mapFoldList fn acc tl
    (sl.1, .tapp a ls sl.2 ty)
  | .tif a f t1 t2 =>
    let g := fn acc f
    let s1 := fn g.1 t1
    let s2 := fn s1.1 t2
    (s2.1, .tif a g.2 s1.2 s2.2)
  | .tbinop a op f1 f2 =>
    let g1 := fn acc f1
    let g2 := fn g1.1 f2
    (g2.1, .tbinop a op g1.2 g2.2)
  | .tnot a f1 =>
    let g1 := fn acc f1
    (g1.1, .tnot a g1.2)
  | .tvar _ _ | .tconst _ _ _ | .ttrue _ | .tfalse _ => (acc, t)

end Map

def tMap (phys : STerm → STerm → Bool) (fn : STerm → STerm) (k : Nat) (t : STerm) : STerm :=
  (tMapFold phys (fun (_ : Unit) t => ((), fn t)) k () t).2

/-! Maps over types and symbols. -/

section GenMap

variable (fnT : Ty → Ty) (fnL : LSymbol → LSymbol)

def genVlMap : Mvs VSymbol → List VSymbol → List VSymbol → Mvs VSymbol
  | h, v :: vl, u :: ul => genVlMap (KeyMap.add v u h) vl ul
  | h, _, _ => h

mutual
def patGenMap (m : Mvs VSymbol) : Pattern → Pattern
  | .pwild ty => .pwild (fnT ty)
  | .pvar v => .pvar ((m.lookup v).getD v)
  | .papp cs pl ty => .papp (fnL cs) (patGenMapList m pl) (fnT ty)
  | .por p q => .por (patGenMap m p) (patGenMap m q)
  | .pas p v => .pas (patGenMap m p) ((m.lookup v).getD v)
def patGenMapList (m : Mvs VSymbol) : List Pattern → List Pattern
  | [] => []
  | p :: pl => patGenMap m p :: patGenMapList m pl
end

/-- The symbols of a binding are visited in the order of their tags. -/
def genBndVars (h : Mvs VSymbol) (vars : Mvs Int63) : Except TermError (Mvs Int63) :=
  (vars.insertionSort fun x y => x.1.vsName.idTag ≤ y.1.vsName.idTag).foldlM (fun m x =>
    match h.lookup x.1 with
    | some u => .ok (KeyMap.add u x.2 m)
    | none => .error .notFound) []

mutual
/-- The bindings and the bodies below them are mapped with the renaming of their own
symbols; the deferred terms with that outside. -/
def genMap : Mvs VSymbol → STerm → Nat → Except TermError (STerm × Nat)
  | m, .tvar a v, k =>
    let u := (m.lookup v).getD v
    if fnT v.vsTy = u.vsTy then .ok (.tvar a u, k)
    else .error (.typeMismatch (fnT v.vsTy) u.vsTy)
  | _, .tconst a c ty, k => .ok (.tconst a c ty, k)
  | m, .tapp a ls tl ty, k => do
    let (tl, k) ← genMapList m tl k
    .ok (.tapp a (fnL ls) tl (ty.map fnT), k)
  | m, .tif a f t e, k => do
    let (f, k) ← genMap m f k
    let (t, k) ← genMap m t k
    let (e, k) ← genMap m e k
    .ok (.tif a f t e, k)
  | m, .tlet a t v b e, k => do
    let (m', b, k) ← genBnd m b k
    let u := genFreshVsymbol fnT k v
    let (t, k) ← genMap m t u.2
    let (e, k) ← genMap (KeyMap.add v u.1 m') e k
    .ok (.tlet a t u.1 b e, k)
  | m, .tcase a t bl, k => do
    let (t, k) ← genMap m t k
    let (bl, k) ← genMapBranches m bl k
    .ok (.tcase a t bl, k)
  | m, .teps a v b f, k => do
    let (m', b, k) ← genBnd m b k
    let u := genFreshVsymbol fnT k v
    let (f, k) ← genMap (KeyMap.add v u.1 m') f u.2
    .ok (.teps a u.1 b f, k)
  | m, .tquant a q vl b tr f, k => do
    let (m', b, k) ← genBnd m b k
    let ul := genVlRename fnT k vl
    let m' := genVlMap m' vl ul.1
    let (tr, k) ← genMapTrigger m' tr ul.2
    let (f, k) ← genMap m' f k
    .ok (.tquant a q ul.1 b tr f, k)
  | m, .tbinop a op f g, k => do
    let (f, k) ← genMap m f k
    let (g, k) ← genMap m g k
    .ok (.tbinop a op f g, k)
  | m, .tnot a f, k => do
    let (f, k) ← genMap m f k
    .ok (.tnot a f, k)
  | _, .ttrue a, k => .ok (.ttrue a, k)
  | _, .tfalse a, k => .ok (.tfalse a, k)
termination_by structural _ t => t
def genMapList : Mvs VSymbol → List STerm → Nat → Except TermError (List STerm × Nat)
  | _, [], k => .ok ([], k)
  | m, t :: tl, k => do
    let (t, k) ← genMap m t k
    let (tl, k) ← genMapList m tl k
    .ok (t :: tl, k)
termination_by structural _ tl => tl
def genMapBranches : Mvs VSymbol → List (Pattern × BindInfo STerm × STerm) → Nat →
    Except TermError (List (Pattern × BindInfo STerm × STerm) × Nat)
  | _, [], k => .ok ([], k)
  | m, (p, b, e) :: bl, k => do
    let (m', b, k) ← genBnd m b k
    let ul := genVlRename fnT k (patVars p)
    let mp := (patVars p).zip ul.1
    let p' := patGenMap fnT fnL mp p
    let (e, k) ← genMap (KeyMap.setUnion mp m') e ul.2
    let (bl, k) ← genMapBranches m bl k
    .ok ((p', b, e) :: bl, k)
termination_by structural _ bl => bl
def genMapTrigger : Mvs VSymbol → List (List STerm) → Nat →
    Except TermError (List (List STerm) × Nat)
  | _, [], k => .ok ([], k)
  | m, l :: tr, k => do
    let (l, k) ← genMapList m l k
    let (tr, k) ← genMapTrigger m tr k
    .ok (l :: tr, k)
termination_by structural _ tr => tr
/-- The renaming with the symbols of the deferred substitution, and the new binding. -/
def genBnd : Mvs VSymbol → BindInfo STerm → Nat →
    Except TermError (Mvs VSymbol × BindInfo STerm × Nat)
  | m, ⟨vars, s⟩, k => do
    let vars ← genBndVars m vars
    let (m', s, k) ← genEntries m m s k
    .ok (m', ⟨vars, s⟩, k)
termination_by structural _ b => b
def genEntries : Mvs VSymbol → Mvs VSymbol → List (VSymbol × STerm) → Nat →
    Except TermError (Mvs VSymbol × List (VSymbol × STerm) × Nat)
  | _, h, [], k => .ok (h, [], k)
  | m, h, (v, t) :: s, k => do
    let u := genFreshVsymbol fnT k v
    let (t, k) ← genMap m t u.2
    let (h, s, k) ← genEntries m (KeyMap.add v u.1 h) s k
    .ok (h, KeyMap.add u.1 t s, k)
termination_by structural _ _ s => s
end

/-- The renaming of the free symbols whose types change. -/
def genMapV : Nat → List VSymbol → Mvs VSymbol × Nat
  | k, [] => ([], k)
  | k, v :: vl =>
    let u := genFreshVsymbol fnT k v
    let m := genMapV u.2 vl
    ((v, u.1) :: m.1, m.2)

def tSMap (t : STerm) (k : Nat) : Except TermError (STerm × Nat) :=
  let m := genMapV fnT k ((tVars t).map Prod.fst)
  genMap fnT fnL m.1 t m.2

end GenMap

/-- The terms for the renamed symbols. -/
def renameSubst (mapV : Mvs STerm) : Mvs VSymbol → Except TermError (Mvs STerm)
  | [] => .ok []
  | (v, u) :: m =>
    match mapV.lookup v with
    | some t => do
      vsCheck u t
      let s ← renameSubst mapV m
      .ok (KeyMap.add u t s)
    | none => renameSubst mapV m

def tSubstTypes (mapT : TySubst) (mapV : Mvs STerm) (t : STerm) (k : Nat) :
    Except TermError (Mvs STerm × STerm × Nat) := do
  let m := genMapV (tyInst mapT) k ((tVars t).map Prod.fst)
  let (t, k) ← genMap (tyInst mapT) id m.1 t m.2
  let s ← renameSubst mapV m.1
  .ok (s, t, k)

def tTySubst (mapT : TySubst) (mapV : Mvs STerm) (t : STerm) (k : Nat) :
    Except TermError (STerm × Nat) := do
  let (s, t, k) ← tSubstTypes mapT mapV t k
  .ok (tSubstUnsafe s t, k)

/-! Folds over the free symbols. -/

section Fold

variable {A : Type}

mutual
def tVFold (fn : A → VSymbol → A) : A → STerm → A
  | acc, .tvar _ v => fn acc v
  | acc, .tlet _ t _ b _ => b.bvVars.foldl (fun acc x => fn acc x.1) (tVFold fn acc t)
  | acc, .tcase _ t bl =>
    bl.foldl (fun acc y => y.2.1.bvVars.foldl (fun acc x => fn acc x.1) acc) (tVFold fn acc t)
  | acc, .teps _ _ b _ => b.bvVars.foldl (fun acc x => fn acc x.1) acc
  | acc, .tquant _ _ _ b _ _ => b.bvVars.foldl (fun acc x => fn acc x.1) acc
  | acc, .tapp _ _ tl _ => tVFoldList fn acc tl
  | acc, .tif _ f t e => tVFold fn (tVFold fn (tVFold fn acc f) t) e
  | acc, .tbinop _ _ f g => tVFold fn (tVFold fn acc f) g
  | acc, .tnot _ f => tVFold fn acc f
  | acc, .tconst _ _ _ | acc, .ttrue _ | acc, .tfalse _ => acc
def tVFoldList (fn : A → VSymbol → A) : A → List STerm → A
  | acc, [] => acc
  | acc, t :: tl => tVFoldList fn (tVFold fn acc t) tl
end

mutual
def tVCount (fn : A → VSymbol → Int63 → A) : A → STerm → A
  | acc, .tvar _ v => fn acc v 1
  | acc, .tlet _ t _ b _ => b.bvVars.foldl (fun acc x => fn acc x.1 x.2) (tVCount fn acc t)
  | acc, .tcase _ t bl =>
    bl.foldl (fun acc y => y.2.1.bvVars.foldl (fun acc x => fn acc x.1 x.2) acc)
      (tVCount fn acc t)
  | acc, .teps _ _ b _ => b.bvVars.foldl (fun acc x => fn acc x.1 x.2) acc
  | acc, .tquant _ _ _ b _ _ => b.bvVars.foldl (fun acc x => fn acc x.1 x.2) acc
  | acc, .tapp _ _ tl _ => tVCountList fn acc tl
  | acc, .tif _ f t e => tVCount fn (tVCount fn (tVCount fn acc f) t) e
  | acc, .tbinop _ _ f g => tVCount fn (tVCount fn acc f) g
  | acc, .tnot _ f => tVCount fn acc f
  | acc, .tconst _ _ _ | acc, .ttrue _ | acc, .tfalse _ => acc
def tVCountList (fn : A → VSymbol → Int63 → A) : A → List STerm → A
  | acc, [] => acc
  | acc, t :: tl => tVCountList fn (tVCount fn acc t) tl
end

end Fold

def tClosed (t : STerm) : Bool := tVFold (fun _ _ => false) true t

def tVOccurs (v : VSymbol) (t : STerm) : Int63 :=
  tVCount (fun c u n => if u = v then c + n else c) 0 t

def tFreevars (s : Mvs Int63) (t : STerm) : Mvs Int63 := addTVars s t

end Stored
end Why3
