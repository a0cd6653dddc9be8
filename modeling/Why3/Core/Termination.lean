import Why3.Core.Decl

/-!
The termination check of mutually recursive logic definitions.

A body is traversed with a list of alternative maps from its variables to what
is known of them with respect to the parameters. The source opens every binding
with fresh symbols; here a map is indexed like the body, with one entry for each
enclosing binding, and a symbol that is absent from the map of the source has
the entry `none`. The order of the alternatives and of the calls has no
influence on the result and is not that of the source.
-/
namespace Why3

inductive Descent where
  | less (i : Nat)
  | equal (i : Nat)
  | unknown
deriving DecidableEq, Repr

structure Call where
  callee : Ident
  caller : Ident
  args : List Descent
deriving DecidableEq, Repr

abbrev CallSet := List Call

/-- One alternative: the entry of each bound index. -/
abbrev VsMap := List (Option Descent)

def createVsGraph (vl : List VSymbol) : List VsMap :=
  [(List.range vl.length).map fun i => some (.equal i)]

/-- The entry of a term that is a variable of the map. -/
def varLink (vm : VsMap) : Term → Option Descent
  | .bvar _ i _ => (vm[i]?).join
  | _ => none

def describe (vm : VsMap) (t : Term) : Descent := (varLink vm t).getD .unknown

def registerCall (caller : Ident) (vsg : List VsMap) (callee : Ident) (tl : List Term) : CallSet :=
  vsg.map fun vm => ⟨callee, caller, tl.map (describe vm)⟩

/-- The bound variable gets the entry of a variable it is defined as. -/
def vsGraphLet (vsg : List VsMap) (t : Term) : List VsMap :=
  vsg.map fun vm => varLink vm t :: vm

/-- New bindings without an entry. -/
def vsGraphFresh (n : Nat) (vsg : List VsMap) : List VsMap :=
  vsg.map fun vm => List.replicate n none ++ vm

/-! Patterns. A map of pattern variables is added in front of the map. -/

abbrev PatMap := VSymbol → Option Descent

namespace PatMap

def empty : PatMap := fun _ => none

def add (u : VSymbol) (link : Descent) (m : PatMap) : PatMap :=
  fun v => if v = u then some link else m v

def remove (u : VSymbol) (m : PatMap) : PatMap :=
  fun v => if v = u then none else m v

def addAll (ul : List VSymbol) (link : Descent) (m : PatMap) : PatMap :=
  fun v => if v ∈ ul then some link else m v

def setDiff (m : PatMap) (ul : List VSymbol) : PatMap :=
  fun v => if v ∈ ul then none else m v

end PatMap

def toLess : Descent → Descent
  | .unknown => .unknown
  | .equal i => .less i
  | .less i => .less i

def vsGraphDrop (acc : List PatMap) (u : VSymbol) : List PatMap := acc.map (PatMap.remove u)

def matchVar (link : Descent) (acc : List PatMap) : Pattern → List PatMap
  | .pwild _ => acc
  | .pvar u => acc.map (PatMap.add u link)
  | .pas p u => (matchVar link acc p).map (PatMap.add u link)
  | .por p1 p2 => matchVar link acc p1 ++ matchVar link acc p2
  | .papp _ pl _ => acc.map (PatMap.addAll (patVarsList pl) (toLess link))

mutual
def matchTerm (vm : VsMap) (t : Term) (acc : List PatMap) : Pattern → List PatMap
  | .pwild _ => acc
  | .pvar u =>
    match varLink vm t, t with
    | some link, _ => matchVar link acc (.pvar u)
    | none, .tapp _ _ _ _ => vsGraphDrop acc u
    | none, _ => acc.map (PatMap.setDiff · [u])
  | .pas p u =>
    match varLink vm t, t with
    | some link, _ => matchVar link acc (.pas p u)
    | none, .tapp _ _ _ _ => matchTerm vm t (vsGraphDrop acc u) p
    | none, _ => acc.map (PatMap.setDiff · (patVars (.pas p u)))
  | .por p1 p2 =>
    match varLink vm t, t with
    | some link, _ => matchVar link acc (.por p1 p2)
    | none, .tapp _ _ _ _ => matchTerm vm t acc p1 ++ matchTerm vm t acc p2
    | none, _ => acc.map (PatMap.setDiff · (patVars (.por p1 p2)))
  | .papp c2 pl ty =>
    match varLink vm t, t with
    | some link, _ => matchVar link acc (.papp c2 pl ty)
    | none, .tapp _ c1 tl _ =>
      if c1 = c2 then matchTermList vm tl acc pl
      else acc.map (PatMap.setDiff · (patVarsList pl))
    | none, _ => acc.map (PatMap.setDiff · (patVarsList pl))
/-- A constructor has as many arguments in the term as in the pattern. -/
def matchTermList (vm : VsMap) : List Term → List PatMap → List Pattern → List PatMap
  | t :: tl, acc, p :: pl => matchTermList vm tl (matchTerm vm t acc p) pl
  | _, acc, _ => acc
end

def vsGraphPat (vsg : List VsMap) (t : Term) (p : Pattern) : List VsMap :=
  vsg.flatMap fun vm =>
    (matchTerm vm t [PatMap.empty] p).map fun m => (patVars p).map m ++ vm

/-! The calls of a body. -/

section BuildCallGraph

variable (syms : List LSymbol) (caller : Ident)

mutual
def termCalls : List VsMap → Term → CallSet
  | _, .tvar _ _ | _, .bvar _ _ _ | _, .tconst _ _ _ | _, .ttrue _ | _, .tfalse _ => []
  | vsg, .tapp _ s tl _ =>
    termCallsList vsg tl ++
      if s ∈ syms then registerCall caller vsg s.lsName tl else []
  | vsg, .tif _ f t e => termCalls vsg f ++ termCalls vsg t ++ termCalls vsg e
  | vsg, .tlet _ t _ e => termCalls vsg t ++ termCalls (vsGraphLet vsg t) e
  | vsg, .tcase _ t bl => termCalls vsg t ++ termCallsBranches vsg t bl
  | vsg, .teps _ _ f => termCalls (vsGraphFresh 1 vsg) f
  | vsg, .tquant _ _ vl _ f => termCalls (vsGraphFresh vl.length vsg) f
  | vsg, .tbinop _ _ f g => termCalls vsg f ++ termCalls vsg g
  | vsg, .tnot _ f => termCalls vsg f
def termCallsList : List VsMap → List Term → CallSet
  | _, [] => []
  | vsg, t :: tl => termCalls vsg t ++ termCallsList vsg tl
def termCallsBranches : List VsMap → Term → List (Pattern × Term) → CallSet
  | _, _, [] => []
  | vsg, t, (p, e) :: bl =>
    termCalls (vsGraphPat vsg t p) e ++ termCallsBranches vsg t bl
end

end BuildCallGraph

def buildCallGraph (syms : List LSymbol) (ls : LSymbol) (ld : LsDefn) : CallSet :=
  termCalls syms ls.lsName (createVsGraph ld.vl) ld.body

/-! Call vectors from a symbol back to itself. -/

/-- The entries that speak of their own position. -/
def localVector (v : List Descent) : List Descent :=
  v.mapIdx fun i d =>
    match d with
    | .less j => if i = j then d else .unknown
    | .equal j => if i = j then d else .unknown
    | .unknown => .unknown

def subsumesEntry : Descent → Descent → Bool
  | _, .unknown => true
  | .equal u1, .equal u2 => u1 = u2
  | .less u1, .equal u2 => u1 = u2
  | .less u1, .less u2 => u1 = u2
  | _, _ => false

def subsumes (v1 v2 : List Descent) : Bool := (List.zipWith subsumesEntry v1 v2).all id

/-- The positions of `v1` are arguments of the symbol that `v2` calls. -/
def multiply (v1 v2 : List Descent) : List Descent :=
  v1.map fun d =>
    match d with
    | .unknown => .unknown
    | .equal i => v2.getD i .unknown
    | .less i => toLess (v2.getD i .unknown)

abbrev PathCall := Ident × List Descent

variable (cgr : CallSet)

def CallSet.findAll (id : Ident) : List PathCall :=
  (cgr.filter (·.callee = id)).map fun c => (c.caller, c.args)

def resolve (s : Ident) (c : List Descent) : List PathCall :=
  (cgr.findAll s).map fun call => (call.1, multiply c call.2)

def subsumed (htb : List PathCall) (s : Ident) (c : List Descent) : Bool :=
  htb.any fun h => h.1 = s && subsumes c h.2

def addCall (id : Ident) :
    Nat → List PathCall → List (List Descent) → List PathCall → Option (List (List Descent))
  | 0, _, _, _ => none
  | _ + 1, _, lc, [] => some lc
  | fuel + 1, htb, lc, (s, c) :: r =>
    if id = s then addCall id fuel htb (localVector c :: lc) r
    else if subsumed htb s c then addCall id fuel htb lc r
    else addCall id fuel ((s, c) :: htb) lc (resolve cgr s c ++ r)

/-- A bound on the vectors over the entries of the call set, for each caller. -/
def CallSet.vectorBound : Nat :=
  let entries := (cgr.flatMap (·.args)).length
  let arity := (cgr.map (·.args.length)).foldl max 0
  cgr.length * (2 * entries + 2) ^ arity

def CallSet.fuel : Nat :=
  cgr.length + (cgr.length + 1) * cgr.vectorBound + 1

def buildCallList (id : Ident) : Option (List (List Descent)) :=
  addCall cgr id cgr.fuel [] [] (cgr.findAll id)

/-! The decreasing positions. -/

def minEntry (d1 d2 : Descent) : Descent :=
  match d1, d2 with
  | .unknown, _ => d1
  | _, .unknown => d2
  | .less _, _ => d1
  | _, .less _ => d2
  | _, _ => d1

def minVector (v1 v2 : List Descent) : List Descent :=
  v1.mapIdx fun i d1 => minEntry d1 (v2.getD i .unknown)

def findLess (l : List Nat) : Descent → List Nat
  | .less i => i :: l
  | _ => l

def lessPositions (p : List Descent) : List Nat := p.foldl findLess []

/-- Rounds of `check`; each one eliminates at least one vector. -/
def checkVariant : Nat → List Nat → List (List Descent) → Option (List Nat)
  | _, acc, [] => some acc.reverse
  | 0, _, _ :: _ => none
  | fuel + 1, acc, a :: r =>
    let res := lessPositions (r.foldl minVector a)
    if res = [] then none
    else checkVariant fuel (res.reverse ++ acc)
      ((a :: r).filter fun v => res.all fun i => v.getD i .unknown ≠ .less i)

def findVariant (ls : LSymbol) : Except DeclError (List Nat) :=
  match buildCallList cgr ls.lsName with
  | none => .error .outOfFuel
  | some cl =>
    match checkVariant cl.length [] cl with
    | some l => .ok l
    | none => .error (.noTerminationProof ls)

def callGraph (ldl : List LogicDecl) : CallSet :=
  ldl.flatMap fun ld => buildCallGraph (ldl.map (·.1)) ld.1 ld.2

/-- The symbols of the group are distinct. -/
def checkTermination (ldl : List LogicDecl) : Except DeclError (List LogicDecl) :=
  ldl.mapM fun ld => do
    let l ← findVariant (callGraph ldl) ld.1
    .ok (ld.1, { ld.2 with decrease := l })

def checkLogicDecl (news : List Ident) (ld : LogicDecl) : Except DeclError (List Ident) :=
  if ld.2.ls ≠ ld.1 then .error (.badLogicDecl ld.1 ld.2.ls) else newsId news ld.1.lsName

def createLogicDecl (tag : Nat) (ldl : List LogicDecl) : Except DeclError Decl := do
  if ldl.isEmpty then .error .emptyDecl else
  let news ← ldl.foldlM checkLogicDecl []
  let ldl ← checkTermination ldl
  .ok ⟨.dlogic ldl, news, tag⟩

end Why3
