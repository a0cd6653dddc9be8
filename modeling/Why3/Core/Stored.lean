import Why3.Core.GenMap
import Why3.Library.KeyMap

/-!
Terms as they are stored.

A binding keeps the symbols it was made with, its body with these symbols free, the number
of free occurrences of every other symbol and a deferred substitution. Substitution stops at
a binding and is only recorded there; opening the binding applies it. `force` pushes all
deferred substitutions into the bodies and gives the locally nameless term.

Numbers of occurrences are machine integers. The types that the constructors check are not
modelled, nor are locations. The order in which a map is visited matters in one place, the
renaming of the free symbols of a binding; elsewhere the bindings are visited as they stand.
-/
namespace Why3

abbrev Mvs (α : Type) := List (VSymbol × α)

/-- The integers of the source. -/
abbrev Int63 := BitVec 63

structure BindInfo (T : Type) where
  bvVars : Mvs Int63
  bvSubst : List (VSymbol × T)

inductive STerm where
  | tvar (a : Attrs) (v : VSymbol)
  | tconst (a : Attrs) (c : Constant) (ty : Ty)
  | tapp (a : Attrs) (ls : LSymbol) (tl : List STerm) (ty : Option Ty)
  | tif (a : Attrs) (f t e : STerm)
  | tlet (a : Attrs) (t : STerm) (v : VSymbol) (b : BindInfo STerm) (e : STerm)
  | tcase (a : Attrs) (t : STerm) (bl : List (Pattern × BindInfo STerm × STerm))
  | teps (a : Attrs) (v : VSymbol) (b : BindInfo STerm) (f : STerm)
  | tquant (a : Attrs) (q : Quant) (vl : List VSymbol) (b : BindInfo STerm)
      (tr : List (List STerm)) (f : STerm)
  | tbinop (a : Attrs) (op : Binop) (f g : STerm)
  | tnot (a : Attrs) (f : STerm)
  | ttrue (a : Attrs)
  | tfalse (a : Attrs)

@[elab_as_elim]
theorem STerm.induct {P : STerm → Prop}
    (tvar : ∀ a v, P (.tvar a v)) (tconst : ∀ a c ty, P (.tconst a c ty))
    (tapp : ∀ a ls tl ty, (∀ t ∈ tl, P t) → P (.tapp a ls tl ty))
    (tif : ∀ a f t e, P f → P t → P e → P (.tif a f t e))
    (tlet : ∀ a t v b e, P t → (∀ x ∈ b.bvSubst, P x.2) → P e → P (.tlet a t v b e))
    (tcase : ∀ a t bl, P t → (∀ x ∈ bl, ∀ y ∈ x.2.1.bvSubst, P y.2) → (∀ x ∈ bl, P x.2.2) →
      P (.tcase a t bl))
    (teps : ∀ a v b f, (∀ x ∈ b.bvSubst, P x.2) → P f → P (.teps a v b f))
    (tquant : ∀ a q vl b tr f, (∀ x ∈ b.bvSubst, P x.2) → (∀ l ∈ tr, ∀ t ∈ l, P t) → P f →
      P (.tquant a q vl b tr f))
    (tbinop : ∀ a op f g, P f → P g → P (.tbinop a op f g)) (tnot : ∀ a f, P f → P (.tnot a f))
    (ttrue : ∀ a, P (.ttrue a)) (tfalse : ∀ a, P (.tfalse a)) (t : STerm) : P t := by
  exact @STerm.rec P (fun tl => ∀ t ∈ tl, P t) (fun b => ∀ x ∈ b.bvSubst, P x.2)
    (fun bl => (∀ x ∈ bl, ∀ y ∈ x.2.1.bvSubst, P y.2) ∧ ∀ x ∈ bl, P x.2.2)
    (fun tr => ∀ l ∈ tr, ∀ t ∈ l, P t) (fun s => ∀ x ∈ s, P x.2)
    (fun x => (∀ y ∈ x.2.1.bvSubst, P y.2) ∧ P x.2.2) (fun x => P x.2)
    (fun x => (∀ y ∈ x.1.bvSubst, P y.2) ∧ P x.2)
    tvar tconst (fun a ls tl ty h => tapp a ls tl ty h) tif
    (fun a t v b e ht hb he => tlet a t v b e ht hb he)
    (fun a t bl ht hbl => tcase a t bl ht hbl.1 hbl.2)
    (fun a v b f hb hf => teps a v b f hb hf)
    (fun a q vl b tr f hb htr hf => tquant a q vl b tr f hb htr hf) tbinop tnot ttrue tfalse
    nofun (fun t tl ht htl => List.forall_mem_cons.mpr ⟨ht, htl⟩) (fun vars s hs => hs)
    ⟨nofun, nofun⟩
    (fun x bl hx hbl => ⟨List.forall_mem_cons.mpr ⟨hx.1, hbl.1⟩,
      List.forall_mem_cons.mpr ⟨hx.2, hbl.2⟩⟩)
    nofun (fun l tr hl htr => List.forall_mem_cons.mpr ⟨hl, htr⟩)
    nofun (fun x s hx hs => List.forall_mem_cons.mpr ⟨hx, hs⟩) (fun p x hx => hx)
    (fun v t ht => ht) (fun b t hb ht => ⟨hb, ht⟩) t

namespace Stored

def attrs : STerm → Attrs
  | .tvar a _ | .tconst a _ _ | .tapp a _ _ _ | .tif a _ _ _ | .tlet a _ _ _ _ | .tcase a _ _
  | .teps a _ _ _ | .tquant a _ _ _ _ _ | .tbinop a _ _ _ | .tnot a _ | .ttrue a
  | .tfalse a => a

def setAttrs (a : Attrs) : STerm → STerm
  | .tvar _ v => .tvar a v
  | .tconst _ c ty => .tconst a c ty
  | .tapp _ ls tl ty => .tapp a ls tl ty
  | .tif _ f t e => .tif a f t e
  | .tlet _ t v b e => .tlet a t v b e
  | .tcase _ t bl => .tcase a t bl
  | .teps _ v b f => .teps a v b f
  | .tquant _ q vl b tr f => .tquant a q vl b tr f
  | .tbinop _ op f g => .tbinop a op f g
  | .tnot _ f => .tnot a f
  | .ttrue _ => .ttrue a
  | .tfalse _ => .tfalse a

def tTy : STerm → Option Ty
  | .tvar _ v => some v.vsTy
  | .tconst _ _ ty => some ty
  | .tapp _ _ _ ty => ty
  | .tif _ _ t _ => tTy t
  | .tlet _ _ _ _ e => tTy e
  | .tcase _ _ [] => none
  | .tcase _ _ ((_, _, e) :: _) => tTy e
  | .teps _ v _ _ => some v.vsTy
  | .tquant _ _ _ _ _ _ | .tbinop _ _ _ _ | .tnot _ _ | .ttrue _ | .tfalse _ => none

/-- The source returns `s` itself when the nodes agree and `t` has no attribute; that is the
same term. -/
def tAttrCopy (s t : STerm) : STerm := setAttrs (attrs s ∪ attrs t) t

inductive TermError where
  | termExpected (t : STerm)
  | typeMismatch (ty1 ty2 : Ty)
  | notFound

def vsCheck (v : VSymbol) (t : STerm) : Except TermError Unit :=
  match tTy t with
  | none => .error (.termExpected t)
  | some ty => if v.vsTy = ty then .ok () else .error (.typeMismatch v.vsTy ty)

/-! Free symbols. -/

def varsUnion (s1 s2 : Mvs Int63) : Mvs Int63 := KeyMap.unionWith (· + ·) s1 s2

mutual
def tVars : STerm → Mvs Int63
  | .tvar _ v => [(v, 1)]
  | .tconst _ _ _ | .ttrue _ | .tfalse _ => []
  | .tapp _ _ tl _ => addListVars [] tl
  | .tif _ f t e => varsUnion (varsUnion (tVars f) (tVars t)) (tVars e)
  | .tlet _ t _ b _ => varsUnion (tVars t) b.bvVars
  | .tcase _ t bl => bl.foldl (fun s x => varsUnion s x.2.1.bvVars) (tVars t)
  | .teps _ _ b _ => b.bvVars
  | .tquant _ _ _ b _ _ => b.bvVars
  | .tbinop _ _ f g => varsUnion (tVars f) (tVars g)
  | .tnot _ f => tVars f
def addListVars (s : Mvs Int63) : List STerm → Mvs Int63
  | [] => s
  | t :: tl => addListVars (varsUnion s (tVars t)) tl
end

def addTVars (s : Mvs Int63) (t : STerm) : Mvs Int63 := varsUnion s (tVars t)

def addNtVars (n : Int63) (t : STerm) (s : Mvs Int63) : Mvs Int63 :=
  varsUnion s (if n = 1 then tVars t else KeyMap.mapVals (n * ·) (tVars t))

/-! Substitution, which is recorded at bindings. -/

/-- The symbols of a binding after the substitution of `m` for some of them. -/
def substVars (m : Mvs STerm) (vars : Mvs Int63) : Mvs Int63 :=
  m.foldl (fun s x => match vars.lookup x.1 with
    | some n => addNtVars n x.2 s
    | none => s) (KeyMap.setDiff vars m)

mutual
def substRec : Mvs STerm → STerm → STerm
  | m, .tvar a u => tAttrCopy (.tvar a u) ((m.lookup u).getD (.tvar a u))
  | _, .tconst a c ty => .tconst a c ty
  | m, .tapp a ls tl ty => .tapp a ls (substList m tl) ty
  | m, .tif a f t e => .tif a (substRec m f) (substRec m t) (substRec m e)
  | m, .tlet a t v b e => .tlet a (substRec m t) v (bSubst m b) e
  | m, .tcase a t bl => .tcase a (substRec m t) (substBranches m bl)
  | m, .teps a v b f => .teps a v (bSubst m b) f
  | m, .tquant a q vl b tr f => .tquant a q vl (bSubst m b) tr f
  | m, .tbinop a op f g => .tbinop a op (substRec m f) (substRec m g)
  | m, .tnot a f => .tnot a (substRec m f)
  | _, .ttrue a => .ttrue a
  | _, .tfalse a => .tfalse a
termination_by structural _ t => t
def substList : Mvs STerm → List STerm → List STerm
  | _, [] => []
  | m, t :: tl => substRec m t :: substList m tl
termination_by structural _ tl => tl
def substBranches : Mvs STerm → List (Pattern × BindInfo STerm × STerm) →
    List (Pattern × BindInfo STerm × STerm)
  | _, [] => []
  | m, (p, b, e) :: bl => (p, bSubst m b, e) :: substBranches m bl
termination_by structural _ bl => bl
/-- A binding without symbols of `m` stays; otherwise `m` is restricted to the symbols of
the binding, applied to the deferred terms and joined to them. -/
def bSubst : Mvs STerm → BindInfo STerm → BindInfo STerm
  | m, ⟨vars, s⟩ =>
    if KeyMap.setDisjoint m vars then ⟨vars, s⟩
    else ⟨substVars (KeyMap.setInter m vars) vars,
      KeyMap.setUnion (substEntries (KeyMap.setInter m vars) s) (KeyMap.setInter m vars)⟩
termination_by structural _ b => b
def substEntries : Mvs STerm → List (VSymbol × STerm) → List (VSymbol × STerm)
  | _, [] => []
  | m, (v, t) :: s => (v, substRec m t) :: substEntries m s
termination_by structural _ s => s
end

def tSubstUnsafe (m : Mvs STerm) (t : STerm) : STerm := if m.isEmpty then t else substRec m t

def tSubst (m : Mvs STerm) (t : STerm) : Except TermError STerm := do
  m.forM fun x => vsCheck x.1 x.2
  .ok (tSubstUnsafe m t)

/-! Closing bindings. -/

abbrev TermBound := VSymbol × BindInfo STerm × STerm

abbrev TermBranch := Pattern × BindInfo STerm × STerm

abbrev TermQuant := List VSymbol × BindInfo STerm × List (List STerm) × STerm

def bndNew (s : Mvs Int63) : BindInfo STerm := ⟨s, []⟩

def tCloseBound (v : VSymbol) (t : STerm) : TermBound := (v, bndNew (KeyMap.remove v (tVars t)), t)

def tCloseBranch (p : Pattern) (t : STerm) : TermBranch :=
  (p, bndNew ((tVars t).filter fun x => x.1 ∉ patVars p), t)

def tCloseQuant (vl : List VSymbol) (tl : List (List STerm)) (f : STerm) : TermQuant :=
  let s := tl.foldl (fun s l => l.foldl addTVars s) (tVars f)
  (vl, bndNew (vl.foldl (fun s v => KeyMap.remove v s) s), tl, f)

def tVar (v : VSymbol) : STerm := .tvar ∅ v

def tLet (t : STerm) (b : TermBound) : STerm := .tlet ∅ t b.1 b.2.1 b.2.2

def tCase (t : STerm) (bl : List TermBranch) : STerm := .tcase ∅ t bl

def tEps (b : TermBound) : STerm := .teps ∅ b.1 b.2.1 b.2.2

def tQuant (q : Quant) (b : TermQuant) : STerm :=
  if b.1.isEmpty then b.2.2.2 else .tquant ∅ q b.1 b.2.1 b.2.2.1 b.2.2.2

def tQuantClose (q : Quant) (vl : List VSymbol) (tl : List (List STerm)) (f : STerm) : STerm :=
  if vl.isEmpty then f else tQuant q (tCloseQuant vl tl f)

def tLetClose (v : VSymbol) (t1 t2 : STerm) : STerm := tLet t1 (tCloseBound v t2)

def tCaseClose (t : STerm) (l : List (Pattern × STerm)) : STerm :=
  tCase t (l.map fun x => tCloseBranch x.1 x.2)

def tEpsClose (v : VSymbol) (f : STerm) : STerm := tEps (tCloseBound v f)

/-! Opening bindings. -/

/-- The symbols `vl` are renamed to `ul`, whatever they were bound to before. -/
def vlRename (h : Mvs STerm) : List VSymbol → List VSymbol → Mvs STerm
  | v :: vl, u :: ul => vlRename (KeyMap.add v (tVar u) h) vl ul
  | _, _ => h

/-- The fresh symbol has the tag `k`. -/
def tOpenBound (k : Nat) (b : TermBound) : VSymbol × STerm :=
  let u : VSymbol := ⟨⟨b.1.vsName.idString, k⟩, b.1.vsTy⟩
  (u, tSubstUnsafe (KeyMap.add b.1 (tVar u) b.2.1.bvSubst) b.2.2)

def tOpenBoundWith (e : STerm) (b : TermBound) : Except TermError STerm := do
  vsCheck b.1 e
  .ok (tSubstUnsafe (KeyMap.add b.1 e b.2.1.bvSubst) b.2.2)

def tOpenBranch (k : Nat) (b : TermBranch) : Pattern × STerm :=
  let ul := renameVars k (patVars b.1)
  let m := vlRename b.2.1.bvSubst (patVars b.1) ul
  (patRenameAll ((patVars b.1).zip ul) b.1, tSubstUnsafe m b.2.2)

def tOpenQuant (k : Nat) (b : TermQuant) : List VSymbol × List (List STerm) × STerm :=
  let ul := renameVars k b.1
  let m := vlRename b.2.1.bvSubst b.1 ul
  (ul, b.2.2.1.map fun l => l.map (tSubstUnsafe m), tSubstUnsafe m b.2.2.2)

/-! Pushing the deferred substitutions. -/

/-- The last position of a symbol: a symbol that is bound twice is that of the inner
binding. -/
def lastIdx? (v : VSymbol) : List VSymbol → Option Nat
  | [] => none
  | u :: vl => match lastIdx? v vl with
      | some j => some (j + 1)
      | none => if u = v then some 0 else none

/-- The symbols of a binding become its indices. -/
def closeBody (vl : List VSymbol) (t : Term) : Term :=
  Term.mapVars (fun k a v => match lastIdx? v vl with
      | some j => .bvar a (k + j) v.vsTy
      | none => .tvar a v)
    (fun k a i ty => if i < k then .bvar a i ty else .bvar a (i + vl.length) ty) 0 t

/-- The body of a binding of `vl` with the deferred substitution `s`. -/
def forceBody (vl : List VSymbol) (s : Mvs Term) (f : Term) : Term :=
  Why3.tSubst (fun u => s.lookup u) (closeBody vl f)

mutual
def force : STerm → Term
  | .tvar a v => .tvar a v
  | .tconst a c ty => .tconst a c ty
  | .tapp a ls tl ty => .tapp a ls (forceList tl) ty
  | .tif a f t e => .tif a (force f) (force t) (force e)
  | .tlet a t v b e => .tlet a (force t) v (forceBody [v] (forceSubst b) (force e))
  | .tcase a t bl => .tcase a (force t) (forceBranches bl)
  | .teps a v b f => .teps a v (forceBody [v] (forceSubst b) (force f))
  | .tquant a q vl b tr f =>
    .tquant a q vl ((forceTrigger tr).map fun l => l.map (forceBody vl (forceSubst b)))
      (forceBody vl (forceSubst b) (force f))
  | .tbinop a op f g => .tbinop a op (force f) (force g)
  | .tnot a f => .tnot a (force f)
  | .ttrue a => .ttrue a
  | .tfalse a => .tfalse a
def forceList : List STerm → List Term
  | [] => []
  | t :: tl => force t :: forceList tl
def forceSubst : BindInfo STerm → Mvs Term
  | ⟨_, s⟩ => forceEntries s
def forceEntries : List (VSymbol × STerm) → Mvs Term
  | [] => []
  | (v, t) :: s => (v, force t) :: forceEntries s
def forceBranches : List (Pattern × BindInfo STerm × STerm) → List (Pattern × Term)
  | [] => []
  | (p, b, e) :: bl => (p, forceBody (patVars p) (forceSubst b) (force e)) :: forceBranches bl
def forceTrigger : List (List STerm) → List (List Term)
  | [] => []
  | l :: tr => forceList l :: forceTrigger tr
end

end Stored
end Why3
