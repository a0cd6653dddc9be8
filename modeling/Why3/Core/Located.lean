import Why3.Core.Decl
import Why3.Core.TermCompare

/-!
Stored terms with the locations of their nodes, and their strict comparison.

A substitution puts a term in the place of a symbol and joins the attributes and the
location of both; at a binding it is only recorded. The comparison of hash-consed
declarations counts the attributes and locations. It takes those of the occurrence of a
symbol, then follows the symbol through the deferred substitutions to the node.

Maps are keyed by symbols. Tags of types and attributes are parameters, and so is physical
equality.
-/
namespace Why3

/-- File, line, and the first and last character. -/
structure Position where
  file : String
  line : Int
  bchar : Int
  echar : Int
deriving DecidableEq, Repr

/-- What a node carries besides its type. -/
structure Ann where
  attrs : Attrs
  loc : Option Position
deriving DecidableEq

namespace Ann

def plain : Ann := ⟨∅, none⟩

/-- The annotation of a term put in the place of one that has `s`. -/
def copy (s t : Ann) : Ann := ⟨s.attrs ∪ t.attrs, t.loc.or s.loc⟩

end Ann

inductive LTerm where
  | tvar (a : Ann) (v : VSymbol)
  | tconst (a : Ann) (c : Constant) (ty : Ty)
  | tapp (a : Ann) (ls : LSymbol) (tl : List LTerm) (ty : Option Ty)
  | tif (a : Ann) (f t e : LTerm)
  | tlet (a : Ann) (t : LTerm) (v : VSymbol) (b : BindInfo LTerm) (e : LTerm)
  | tcase (a : Ann) (t : LTerm) (bl : List (Pattern × BindInfo LTerm × LTerm))
  | teps (a : Ann) (v : VSymbol) (b : BindInfo LTerm) (f : LTerm)
  | tquant (a : Ann) (q : Quant) (vl : List VSymbol) (b : BindInfo LTerm)
      (tr : List (List LTerm)) (f : LTerm)
  | tbinop (a : Ann) (op : Binop) (f g : LTerm)
  | tnot (a : Ann) (f : LTerm)
  | ttrue (a : Ann)
  | tfalse (a : Ann)

@[elab_as_elim]
theorem LTerm.induct {P : LTerm → Prop}
    (tvar : ∀ a v, P (.tvar a v)) (tconst : ∀ a c ty, P (.tconst a c ty))
    (tapp : ∀ a ls tl ty, (∀ t ∈ tl, P t) → P (.tapp a ls tl ty))
    (tif : ∀ a f t e, P f → P t → P e → P (.tif a f t e))
    (tlet : ∀ a t v b e, P t → (∀ x ∈ b.bvSubst, P x.2) → P e → P (.tlet a t v b e))
    (tcase : ∀ a t bl, P t → (∀ x ∈ bl, ∀ y ∈ x.2.1.bvSubst, P y.2) → (∀ x ∈ bl, P x.2.2) →
      P (.tcase a t bl))
    (teps : ∀ a v b f, (∀ x ∈ b.bvSubst, P x.2) → P f → P (.teps a v b f))
    (tquant : ∀ a q vl b tr f, (∀ x ∈ b.bvSubst, P x.2) → (∀ l ∈ tr, ∀ t ∈ l, P t) → P f →
      P (.tquant a q vl b tr f))
    (tbinop : ∀ a op f g, P f → P g → P (.tbinop a op f g)) (tnot : ∀ a f, P f → P (.tnot a f))
    (ttrue : ∀ a, P (.ttrue a)) (tfalse : ∀ a, P (.tfalse a)) (t : LTerm) : P t := by
  exact @LTerm.rec P (fun tl => ∀ t ∈ tl, P t) (fun b => ∀ x ∈ b.bvSubst, P x.2)
    (fun bl => (∀ x ∈ bl, ∀ y ∈ x.2.1.bvSubst, P y.2) ∧ ∀ x ∈ bl, P x.2.2)
    (fun tr => ∀ l ∈ tr, ∀ t ∈ l, P t) (fun s => ∀ x ∈ s, P x.2)
    (fun x => (∀ y ∈ x.2.1.bvSubst, P y.2) ∧ P x.2.2) (fun x => P x.2)
    (fun x => (∀ y ∈ x.1.bvSubst, P y.2) ∧ P x.2)
    tvar tconst (fun a ls tl ty h => tapp a ls tl ty h) tif
    (fun a t v b e ht hb he => tlet a t v b e ht hb he)
    (fun a t bl ht hbl => tcase a t bl ht hbl.1 hbl.2)
    (fun a v b f hb hf => teps a v b f hb hf)
    (fun a q vl b tr f hb htr hf => tquant a q vl b tr f hb htr hf) tbinop tnot ttrue tfalse
    nofun (fun t tl ht htl => List.forall_mem_cons.mpr ⟨ht, htl⟩) (fun vars s hs => hs)
    ⟨nofun, nofun⟩
    (fun x bl hx hbl => ⟨List.forall_mem_cons.mpr ⟨hx.1, hbl.1⟩,
      List.forall_mem_cons.mpr ⟨hx.2, hbl.2⟩⟩)
    nofun (fun l tr hl htr => List.forall_mem_cons.mpr ⟨hl, htr⟩)
    nofun (fun x s hx hs => List.forall_mem_cons.mpr ⟨hx, hs⟩) (fun p x hx => hx)
    (fun v t ht => ht) (fun b t hb ht => ⟨hb, ht⟩) t

namespace Located

open Stored (CompExn compRaise patCompare addVars PatState vsCompare lsCompare otyCompare
  compareConst quantRank binopRank varsUnion lastIdx?)

def ann : LTerm → Ann
  | .tvar a _ | .tconst a _ _ | .tapp a _ _ _ | .tif a _ _ _ | .tlet a _ _ _ _ | .tcase a _ _
  | .teps a _ _ _ | .tquant a _ _ _ _ _ | .tbinop a _ _ _ | .tnot a _ | .ttrue a
  | .tfalse a => a

def setAnn (a : Ann) : LTerm → LTerm
  | .tvar _ v => .tvar a v
  | .tconst _ c ty => .tconst a c ty
  | .tapp _ ls tl ty => .tapp a ls tl ty
  | .tif _ f t e => .tif a f t e
  | .tlet _ t v b e => .tlet a t v b e
  | .tcase _ t bl => .tcase a t bl
  | .teps _ v b f => .teps a v b f
  | .tquant _ q vl b tr f => .tquant a q vl b tr f
  | .tbinop _ op f g => .tbinop a op f g
  | .tnot _ f => .tnot a f
  | .ttrue _ => .ttrue a
  | .tfalse _ => .tfalse a

def tTy : LTerm → Option Ty
  | .tvar _ v => some v.vsTy
  | .tconst _ _ ty => some ty
  | .tapp _ _ _ ty => ty
  | .tif _ _ t _ => tTy t
  | .tlet _ _ _ _ e => tTy e
  | .tcase _ _ [] => none
  | .tcase _ _ ((_, _, e) :: _) => tTy e
  | .teps _ v _ _ => some v.vsTy
  | .tquant _ _ _ _ _ _ | .tbinop _ _ _ _ | .tnot _ _ | .ttrue _ | .tfalse _ => none

/-- The source returns `s` itself when the nodes agree and `t` has neither an attribute nor a
location; that is the same term. -/
def tAttrCopy (s t : LTerm) : LTerm := setAnn ((ann s).copy (ann t)) t

/-! Free symbols. -/

mutual
def tVars : LTerm → Mvs Int63
  | .tvar _ v => [(v, 1)]
  | .tconst _ _ _ | .ttrue _ | .tfalse _ => []
  | .tapp _ _ tl _ => addListVars [] tl
  | .tif _ f t e => varsUnion (varsUnion (tVars f) (tVars t)) (tVars e)
  | .tlet _ t _ b _ => varsUnion (tVars t) b.bvVars
  | .tcase _ t bl => bl.foldl (fun s x => varsUnion s x.2.1.bvVars) (tVars t)
  | .teps _ _ b _ => b.bvVars
  | .tquant _ _ _ b _ _ => b.bvVars
  | .tbinop _ _ f g => varsUnion (tVars f) (tVars g)
  | .tnot _ f => tVars f
def addListVars (s : Mvs Int63) : List LTerm → Mvs Int63
  | [] => s
  | t :: tl => addListVars (varsUnion s (tVars t)) tl
end

def addTVars (s : Mvs Int63) (t : LTerm) : Mvs Int63 := varsUnion s (tVars t)

def addNtVars (n : Int63) (t : LTerm) (s : Mvs Int63) : Mvs Int63 :=
  varsUnion s (if n = 1 then tVars t else KeyMap.mapVals (n * ·) (tVars t))

/-! Substitution, which is recorded at bindings. -/

def substVars (m : Mvs LTerm) (vars : Mvs Int63) : Mvs Int63 :=
  m.foldl (fun s x => match vars.lookup x.1 with
    | some n => addNtVars n x.2 s
    | none => s) (KeyMap.setDiff vars m)

mutual
def substRec : Mvs LTerm → LTerm → LTerm
  | m, .tvar a u => tAttrCopy (.tvar a u) ((m.lookup u).getD (.tvar a u))
  | _, .tconst a c ty => .tconst a c ty
  | m, .tapp a ls tl ty => .tapp a ls (substList m tl) ty
  | m, .tif a f t e => .tif a (substRec m f) (substRec m t) (substRec m e)
  | m, .tlet a t v b e => .tlet a (substRec m t) v (bSubst m b) e
  | m, .tcase a t bl => .tcase a (substRec m t) (substBranches m bl)
  | m, .teps a v b f => .teps a v (bSubst m b) f
  | m, .tquant a q vl b tr f => .tquant a q vl (bSubst m b) tr f
  | m, .tbinop a op f g => .tbinop a op (substRec m f) (substRec m g)
  | m, .tnot a f => .tnot a (substRec m f)
  | _, .ttrue a => .ttrue a
  | _, .tfalse a => .tfalse a
termination_by structural _ t => t
def substList : Mvs LTerm → List LTerm → List LTerm
  | _, [] => []
  | m, t :: tl => substRec m t :: substList m tl
termination_by structural _ tl => tl
def substBranches : Mvs LTerm → List (Pattern × BindInfo LTerm × LTerm) →
    List (Pattern × BindInfo LTerm × LTerm)
  | _, [] => []
  | m, (p, b, e) :: bl => (p, bSubst m b, e) :: substBranches m bl
termination_by structural _ bl => bl
/-- As in the terms without locations. -/
def bSubst : Mvs LTerm → BindInfo LTerm → BindInfo LTerm
  | m, ⟨vars, s⟩ =>
    if KeyMap.setDisjoint m vars then ⟨vars, s⟩
    else ⟨substVars (KeyMap.setInter m vars) vars,
      KeyMap.setUnion (substEntries (KeyMap.setInter m vars) s) (KeyMap.setInter m vars)⟩
termination_by structural _ b => b
def substEntries : Mvs LTerm → List (VSymbol × LTerm) → List (VSymbol × LTerm)
  | _, [] => []
  | m, (v, t) :: s => (v, substRec m t) :: substEntries m s
termination_by structural _ s => s
end

def tSubstUnsafe (m : Mvs LTerm) (t : LTerm) : LTerm := if m.isEmpty then t else substRec m t

/-! Closing and opening bindings. -/

abbrev TermBound := VSymbol × BindInfo LTerm × LTerm

abbrev TermBranch := Pattern × BindInfo LTerm × LTerm

abbrev TermQuant := List VSymbol × BindInfo LTerm × List (List LTerm) × LTerm

def bndNew (s : Mvs Int63) : BindInfo LTerm := ⟨s, []⟩

def tCloseBound (v : VSymbol) (t : LTerm) : TermBound := (v, bndNew (KeyMap.remove v (tVars t)), t)

def tCloseBranch (p : Pattern) (t : LTerm) : TermBranch :=
  (p, bndNew ((tVars t).filter fun x => x.1 ∉ patVars p), t)

def tCloseQuant (vl : List VSymbol) (tl : List (List LTerm)) (f : LTerm) : TermQuant :=
  let s := tl.foldl (fun s l => l.foldl addTVars s) (tVars f)
  (vl, bndNew (vl.foldl (fun s v => KeyMap.remove v s) s), tl, f)

def tVar (v : VSymbol) : LTerm := .tvar .plain v

/-- The symbols `vl` are renamed to `ul`, whatever they were bound to before. -/
def vlRename (h : Mvs LTerm) : List VSymbol → List VSymbol → Mvs LTerm
  | v :: vl, u :: ul => vlRename (KeyMap.add v (tVar u) h) vl ul
  | _, _ => h

/-- The fresh symbol has the tag `k`. -/
def tOpenBound (k : Nat) (b : TermBound) : VSymbol × LTerm :=
  let u : VSymbol := ⟨⟨b.1.vsName.idString, k⟩, b.1.vsTy⟩
  (u, tSubstUnsafe (KeyMap.add b.1 (tVar u) b.2.1.bvSubst) b.2.2)

def tOpenBranch (k : Nat) (b : TermBranch) : Pattern × LTerm :=
  let ul := renameVars k (patVars b.1)
  let m := vlRename b.2.1.bvSubst (patVars b.1) ul
  (patRenameAll ((patVars b.1).zip ul) b.1, tSubstUnsafe m b.2.2)

def tOpenQuant (k : Nat) (b : TermQuant) : List VSymbol × List (List LTerm) × LTerm :=
  let ul := renameVars k b.1
  let m := vlRename b.2.1.bvSubst b.1 ul
  (ul, b.2.2.1.map fun l => l.map (tSubstUnsafe m), tSubstUnsafe m b.2.2.2)

/-! Comparison. -/

abbrev Frame := Mvs Nat × Mvs LTerm

inductive TermOrBound where
  | trm (t : LTerm) (vml : List Frame)
  | bnd (i : Nat)

def descend : List Frame → LTerm → TermOrBound
  | (bv, vm) :: vml, .tvar a v =>
    match bv.lookup v with
    | some i => .bnd i
    | none => match vm.lookup v with
        | some t => descend vml t
        | none => descend vml (.tvar a v)
  | vml, t => .trm t vml

/-- The elements of two sets in their order. -/
def tagsCompare : List Nat → List Nat → Ordering
  | [], [] => .eq
  | [], _ :: _ => .lt
  | _ :: _, [] => .gt
  | m :: l1, n :: l2 => (compare m n).then (tagsCompare l1 l2)

def attrsCompare (attrTag : String → Nat) (a1 a2 : Attrs) : Ordering :=
  tagsCompare (a1.image attrTag).sort (a2.image attrTag).sort

def locCompare : Option Position → Option Position → Ordering
  | none, none => .eq
  | none, some _ => .lt
  | some _, none => .gt
  | some p1, some p2 =>
    (tagsCompare (p1.file.toList.map Char.toNat) (p2.file.toList.map Char.toNat)).then
      ((compare p1.line p2.line).then
        ((compare p1.bchar p2.bchar).then (compare p1.echar p2.echar)))

def termRank : LTerm → Nat
  | .tvar _ _ => 0
  | .tconst _ _ _ => 1
  | .tapp _ _ _ _ => 2
  | .tif _ _ _ _ => 3
  | .tlet _ _ _ _ _ => 4
  | .tcase _ _ _ => 5
  | .teps _ _ _ _ => 6
  | .tquant _ _ _ _ _ _ => 7
  | .tbinop _ _ _ _ => 8
  | .tnot _ _ => 9
  | .ttrue _ => 10
  | .tfalse _ => 11

/-- What is compared besides the nodes; constants are always compared with their form. -/
structure Flags where
  trigger : Bool
  attr : Bool
  loc : Bool

section Compare

variable (fl : Flags)
  (cmp : Nat → List Frame → List Frame → LTerm → LTerm → Except CompExn Unit)

def compareList (bnd : Nat) (vml1 vml2 : List Frame) :
    List LTerm → List LTerm → Except CompExn Unit
  | [], [] => .ok ()
  | t1 :: l1, t2 :: l2 => do
    cmp bnd vml1 vml2 t1 t2
    compareList bnd vml1 vml2 l1 l2
  | _, _ => .error .invalidArgument

/-- One list of terms of a trigger. -/
def comparePats (bnd : Nat) (vml1 vml2 : List Frame) :
    List LTerm → List LTerm → Except CompExn Unit
  | [], [] => .ok ()
  | [], _ :: _ => .error .compLT
  | _ :: _, [] => .error .compGT
  | t1 :: l1, t2 :: l2 => do
    cmp bnd vml1 vml2 t1 t2
    comparePats bnd vml1 vml2 l1 l2

def compareTrigger (bnd : Nat) (vml1 vml2 : List Frame) :
    List (List LTerm) → List (List LTerm) → Except CompExn Unit
  | [], [] => .ok ()
  | [], _ :: _ => .error .compLT
  | _ :: _, [] => .error .compGT
  | l1 :: tr1, l2 :: tr2 => do
    comparePats cmp bnd vml1 vml2 l1 l2
    compareTrigger bnd vml1 vml2 tr1 tr2

def compareBranches (bnd : Nat) (vml1 vml2 : List Frame) :
    List TermBranch → List TermBranch → Except CompExn Unit
  | [], [] => .ok ()
  | [], _ :: _ => .error .compLT
  | _ :: _, [] => .error .compGT
  | (p1, b1, t1) :: bl1, (p2, b2, t2) :: bl2 => do
    let st ← patCompare (bnd, [], []) p1 p2
    cmp st.1 ((st.2.1, b1.bvSubst) :: vml1) ((st.2.2, b2.bvSubst) :: vml2) t1 t2
    compareBranches bnd vml1 vml2 bl1 bl2

/-- Two terms that are no bound or replaced symbols, with the comparison of their parts. -/
def compareNode (bnd : Nat) (vml1 vml2 : List Frame) : LTerm → LTerm → Except CompExn Unit
  | .tvar _ v1, .tvar _ v2 => compRaise (vsCompare v1 v2)
  | .tconst _ c1 _, .tconst _ c2 _ => compRaise (compareConst c1 c2)
  | .tapp _ s1 l1 _, .tapp _ s2 l2 _ => do
    compRaise (lsCompare s1 s2)
    compareList cmp bnd vml1 vml2 l1 l2
  | .tif _ f1 t1 e1, .tif _ f2 t2 e2 => do
    cmp bnd vml1 vml2 f1 f2
    cmp bnd vml1 vml2 t1 t2
    cmp bnd vml1 vml2 e1 e2
  | .tlet _ t1 v1 b1 e1, .tlet _ t2 v2 b2 e2 => do
    cmp bnd vml1 vml2 t1 t2
    cmp (bnd + 1) (([(v1, bnd)], b1.bvSubst) :: vml1) (([(v2, bnd)], b2.bvSubst) :: vml2) e1 e2
  | .tcase _ t1 bl1, .tcase _ t2 bl2 => do
    cmp bnd vml1 vml2 t1 t2
    compareBranches cmp bnd vml1 vml2 bl1 bl2
  | .teps _ v1 b1 e1, .teps _ v2 b2 e2 =>
    cmp (bnd + 1) (([(v1, bnd)], b1.bvSubst) :: vml1) (([(v2, bnd)], b2.bvSubst) :: vml2) e1 e2
  | .tquant _ q1 vl1 b1 tr1 f1, .tquant _ q2 vl2 b2 tr2 f2 => do
    compRaise (compare (quantRank q1) (quantRank q2))
    let st ← addVars (bnd, [], []) vl1 vl2
    let vml1 := (st.2.1, b1.bvSubst) :: vml1
    let vml2 := (st.2.2, b2.bvSubst) :: vml2
    if fl.trigger then compareTrigger cmp st.1 vml1 vml2 tr1 tr2
    cmp st.1 vml1 vml2 f1 f2
  | .tbinop _ op1 f1 g1, .tbinop _ op2 f2 g2 => do
    compRaise (compare (binopRank op1) (binopRank op2))
    cmp bnd vml1 vml2 g1 g2
    cmp bnd vml1 vml2 f1 f2
  | .tnot _ f1, .tnot _ f2 => cmp bnd vml1 vml2 f1 f2
  | .ttrue _, .ttrue _ => .ok ()
  | .tfalse _, .tfalse _ => .ok ()
  | t1, t2 => compRaise (compare (termRank t1) (termRank t2))

end Compare

section

variable (fl : Flags) (phys : LTerm → LTerm → Bool) (tyTag : Ty → Nat) (attrTag : String → Nat)

/-- Attributes and locations are those of the terms before the symbols are followed. The fuel
is a bound on the depth of the term when all substitutions are made. -/
def tCompareRec : Nat → Nat → List Frame → List Frame → LTerm → LTerm → Except CompExn Unit
  | 0, _, _, _, _, _ => .error .outOfFuel
  | n + 1, bnd, vml1, vml2, t1, t2 =>
    if phys t1 t2 && vml1.isEmpty && vml2.isEmpty then .ok () else do
      compRaise (otyCompare tyTag (tTy t1) (tTy t2))
      if fl.attr then compRaise (attrsCompare attrTag (ann t1).attrs (ann t2).attrs)
      if fl.loc then compRaise (locCompare (ann t1).loc (ann t2).loc)
      match descend vml1 t1, descend vml2 t2 with
      | .bnd i1, .bnd i2 => compRaise (compare i1 i2)
      | .bnd _, .trm _ _ => .error .compLT
      | .trm _ _, .bnd _ => .error .compGT
      | .trm t1 vml1, .trm t2 vml2 => compareNode fl (tCompareRec n) bnd vml1 vml2 t1 t2

end

/-! The number of nodes of a term with its deferred terms in place. `ν` gives that of the free
symbols. -/

mutual
def size : (VSymbol → Nat) → LTerm → Nat
  | ν, .tvar _ v => ν v
  | _, .tconst _ _ _ | _, .ttrue _ | _, .tfalse _ => 1
  | ν, .tapp _ _ tl _ => sizeList ν tl + 1
  | ν, .tif _ f t e => size ν f + size ν t + size ν e + 1
  | ν, .tlet _ t v b e => size ν t + size (sizeSubst ν [v] b) e + 1
  | ν, .tcase _ t bl => size ν t + sizeBranches ν bl + 1
  | ν, .teps _ v b f => size (sizeSubst ν [v] b) f + 1
  | ν, .tquant _ _ vl b tr f =>
    sizeTrigger (sizeSubst ν vl b) tr + size (sizeSubst ν vl b) f + 1
  | ν, .tbinop _ _ f g => size ν f + size ν g + 1
  | ν, .tnot _ f => size ν f + 1
termination_by structural _ t => t
def sizeList : (VSymbol → Nat) → List LTerm → Nat
  | _, [] => 0
  | ν, t :: tl => size ν t + sizeList ν tl
termination_by structural _ tl => tl
def sizeBranches : (VSymbol → Nat) → List (Pattern × BindInfo LTerm × LTerm) → Nat
  | _, [] => 0
  | ν, (p, b, e) :: bl => size (sizeSubst ν (patVars p) b) e + sizeBranches ν bl
termination_by structural _ bl => bl
def sizeTrigger : (VSymbol → Nat) → List (List LTerm) → Nat
  | _, [] => 0
  | ν, l :: tr => sizeList ν l + sizeTrigger ν tr
termination_by structural _ tr => tr
/-- A bound symbol is one node, another one those of the term it stands for. -/
def sizeSubst : (VSymbol → Nat) → List VSymbol → BindInfo LTerm → VSymbol → Nat
  | ν, vl, ⟨_, s⟩, v => if v ∈ vl then 1 else sizeEntries ν s v
termination_by structural _ _ b => b
def sizeEntries : (VSymbol → Nat) → List (VSymbol × LTerm) → VSymbol → Nat
  | ν, [], v => ν v
  | ν, (w, t) :: s, v => if v = w then size ν t else sizeEntries ν s v
termination_by structural _ s => s
end

/-- The result is less, equal or greater, or another exception. -/
def tCompare (fl : Flags) (phys : LTerm → LTerm → Bool) (tyTag : Ty → Nat)
    (attrTag : String → Nat) (t1 t2 : LTerm) : Except CompExn Ordering :=
  match tCompareRec fl phys tyTag attrTag (size (fun _ => 1) t1) 0 [] [] t1 t2 with
  | .ok () => .ok .eq
  | .error .compLT => .ok .lt
  | .error .compGT => .ok .gt
  | .error e => .error e

def tEqualStrict (phys : LTerm → LTerm → Bool) (tyTag : Ty → Nat) (attrTag : String → Nat)
    (t1 t2 : LTerm) : Except CompExn Bool :=
  (tCompare ⟨true, true, true⟩ phys tyTag attrTag t1 t2).map (· = .eq)

/-! Declarations, as far as hash-consing compares them. -/

inductive DeclNode where
  | dtype (ts : TySymbol)
  | ddata (tdl : List DataDecl)
  | dparam (ls : LSymbol)
  | dlogic (ldl : List (LSymbol × LTerm))
  | dind (s : IndSign) (idl : List (LSymbol × List (PrSymbol × LTerm)))
  | dprop (k : PropKind) (pr : PrSymbol) (f : LTerm)

/-- The formulas of a declaration. -/
def DeclNode.formulas : DeclNode → List LTerm
  | .dlogic ldl => ldl.map Prod.snd
  | .dind _ idl => idl.flatMap fun d => d.2.map Prod.snd
  | .dprop _ _ f => [f]
  | _ => []

section

variable (phys : LTerm → LTerm → Bool) (tyTag : Ty → Nat) (attrTag : String → Nat)

/-- Lists are equal when their elements are, one after the other. -/
def listsEqual {α : Type} (eq : α → α → Except CompExn Bool) :
    List α → List α → Except CompExn Bool
  | [], [] => .ok true
  | x :: l1, y :: l2 => do
    if ← eq x y then listsEqual eq l1 l2 else .ok false
  | _, _ => .ok false

/-- A definition, an axiom of an inductive predicate. -/
def eqNamed {σ : Type} [DecidableEq σ] (d1 d2 : σ × LTerm) : Except CompExn Bool :=
  if d1.1 = d2.1 then tEqualStrict phys tyTag attrTag d1.2 d2.2 else .ok false

def eqInd (d1 d2 : LSymbol × List (PrSymbol × LTerm)) : Except CompExn Bool :=
  if d1.1 = d2.1 then listsEqual (eqNamed phys tyTag attrTag) d1.2 d2.2 else .ok false

def hsdeclEqual : DeclNode → DeclNode → Except CompExn Bool
  | .dtype s1, .dtype s2 => .ok (s1 = s2)
  | .ddata l1, .ddata l2 => .ok (l1 = l2)
  | .dparam s1, .dparam s2 => .ok (s1 = s2)
  | .dlogic l1, .dlogic l2 => listsEqual (eqNamed phys tyTag attrTag) l1 l2
  | .dind s1 l1, .dind s2 l2 =>
    if s1 = s2 then listsEqual (eqInd phys tyTag attrTag) l1 l2 else .ok false
  | .dprop k1 pr1 f1, .dprop k2 pr2 f2 =>
    if k1 = k2 ∧ pr1 = pr2 then tEqualStrict phys tyTag attrTag f1 f2 else .ok false
  | _, _ => .ok false

end

end Located
end Why3
