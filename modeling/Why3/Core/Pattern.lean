import Why3.Core.Term

/-!
Compilation of pattern matrices.

`compile` is generic in the actions, as in the source: `mkCase` builds a match
on constructors and `mkLet` binds a pattern variable to the matched term.
`getConstructors` gives `none` where the source raises `Bare`. Fresh symbols are
drawn from the tag `k` on; the source has one counter for all of them, here the
branches of one match may share tags.
-/
namespace Why3

inductive CompileError where
  | constructorExpected (fs : LSymbol) (ty : Ty)
  | nonExhaustive (pl : List Pattern)
  | termExpected (t : Term)
  | failure (msg : String)
  | notFound
  | assertFalse
  | outOfFuel

def tType (t : Term) : Except CompileError Ty :=
  match t.tTy with
  | some ty => .ok ty
  | none => .error (.termExpected t)

/-- The symbols named `s` of the given types, with tags from `k` on. -/
def freshVars (k : Nat) (s : String) : List Ty → List VSymbol
  | [] => []
  | ty :: tyl => ⟨⟨s, k⟩, ty⟩ :: freshVars (k + 1) s tyl

/-! Sets of logic symbols, in the order of their tags. -/

def slsAdd (cs : LSymbol) : List LSymbol → List LSymbol
  | [] => [cs]
  | c :: s =>
    if cs = c then c :: s
    else if cs.lsName.idTag < c.lsName.idTag then cs :: c :: s
    else c :: slsAdd cs s

def slsOfList (l : List LSymbol) : List LSymbol := l.foldl (fun s cs => slsAdd cs s) []

theorem mem_slsAdd {c cs : LSymbol} {s : List LSymbol} : c ∈ slsAdd cs s ↔ c = cs ∨ c ∈ s := by
  induction s with
  | nil => simp [slsAdd]
  | cons d s ih =>
    rw [slsAdd]
    split
    · rename_i h
      simp [h]
    · split
      · simp
      · rw [List.mem_cons, ih, List.mem_cons]
        exact or_left_comm

theorem mem_slsOfList {c : LSymbol} {l : List LSymbol} : c ∈ slsOfList l ↔ c ∈ l := by
  have h : ∀ s, c ∈ l.foldl (fun s cs => slsAdd cs s) s ↔ c ∈ l ∨ c ∈ s := by
    induction l with
    | nil => simp
    | cons d l ih =>
      intro s
      rw [List.foldl_cons, ih, mem_slsAdd, List.mem_cons, or_assoc, or_left_comm]
  simpa [slsOfList] using h []

abbrev Row (α : Type) := List Pattern × α

section Compile

variable {α : Type}

/-- The constructors at the head of the patterns, the last one first, with the
arguments of their first occurrence. -/
def populate (isConstr : LSymbol → Bool) (ty : Ty) :
    List (LSymbol × List Pattern) → Pattern → Except CompileError (List (LSymbol × List Pattern))
  | csl, .pwild _ | csl, .pvar _ => .ok csl
  | csl, .pas p _ => populate isConstr ty csl p
  | csl, .por p q => do
    let csl ← populate isConstr ty csl p
    populate isConstr ty csl q
  | csl, .papp fs pl _ =>
    if isConstr fs then
      if (csl.lookup fs).isSome then .ok csl else .ok ((fs, pl) :: csl)
    else .error (.constructorExpected fs ty)

def populateRow (isConstr : LSymbol → Bool) (ty : Ty) (csl : List (LSymbol × List Pattern)) :
    Row α → Except CompileError (List (LSymbol × List Pattern))
  | ([], _) => .error (.failure "hd")
  | (p :: _, _) => populate isConstr ty csl p

abbrev Cases (α : Type) := List (LSymbol × List (Row α))

/-- A row before those of a constructor. -/
def addCase (fs : LSymbol) (r : Row α) : Cases α → Cases α
  | [] => [(fs, [r])]
  | (gs, rl) :: cases => if gs = fs then (gs, r :: rl) :: cases else (gs, rl) :: addCase fs r cases

/-- A row that every constructor matches, with wildcards for the arguments. -/
def unionCases (types : List (LSymbol × List Pattern)) (pl : List Pattern) (a : α)
    (cases : Cases α) : Cases α :=
  types.foldr (fun c cases =>
    addCase c.1 ((c.2.map fun q => .pwild (patTy q)).reverse ++ pl, a) cases) cases

/-- The rows of each constructor and those without one. -/
def dispatch (mkLet : VSymbol → Term → α → α) (types : List (LSymbol × List Pattern)) (t : Term)
    (pl : List Pattern) : Pattern → α → Cases α × List (Row α) → Cases α × List (Row α)
  | .papp fs pl' _, a, (cases, wilds) => (addCase fs (pl'.reverse ++ pl, a) cases, wilds)
  | .por p q, a, cw => dispatch mkLet types t pl p a (dispatch mkLet types t pl q a cw)
  | .pas p x, a, cw => dispatch mkLet types t pl p (mkLet x t a) cw
  | .pvar x, a, (cases, wilds) =>
    (unionCases types pl (mkLet x t a) cases, (pl, mkLet x t a) :: wilds)
  | .pwild _, a, (cases, wilds) => (unionCases types pl a cases, (pl, a) :: wilds)

/-- A row without a pattern has made `populateRow` fail. -/
def dispatchRow (mkLet : VSymbol → Term → α → α) (types : List (LSymbol × List Pattern))
    (t : Term) : Row α → Cases α × List (Row α) → Cases α × List (Row α)
  | ([], _), cw => cw
  | (p :: pl, a), cw => dispatch mkLet types t pl p a cw

/-- The patterns of the arguments of a constructor are put together again. -/
def consPats (cs : LSymbol) (ty : Ty) :
    List Pattern → List Ty → List Pattern → Except CompileError (List Pattern)
  | acc, _ :: vl, p :: pl => consPats cs ty (p :: acc) vl pl
  | acc, [], pl => .ok (.papp cs acc ty :: pl)
  | _, _ :: _, [] => .error .assertFalse

variable (rec : List Term → List (Row α) → Except CompileError α)

/-- How to proceed on a value that the constructor `cs` builds from `al`. -/
def compCases (ty : Ty)
    (cases : Cases α) (tl : List Term) (cs : LSymbol) (al : List Term) : Except CompileError α :=
  match cases.lookup cs with
  | none => .error .notFound
  | some rl =>
    match rec (al.reverse ++ tl) rl with
    | .error (.nonExhaustive pl) => do
      let pl ← consPats cs ty [] cs.lsArgs pl
      .error (.nonExhaustive pl)
    | r => r

/-- How to proceed on a value that no constructor of the column builds. -/
def compWilds (ty : Ty)
    (css : List LSymbol) (types : List (LSymbol × List Pattern)) (tl : List Term)
    (wilds : List (Row α)) : Except CompileError α :=
  match rec tl wilds with
  | .error (.nonExhaustive pl) =>
    match css.find? fun cs => (types.lookup cs).isNone with
    | some cs =>
      match cs.lsValue.bind fun v => tyMatch [] v ty with
      | some tm =>
        .error (.nonExhaustive
          (.papp cs (cs.lsArgs.map fun ty => .pwild (tyInst tm ty)) ty :: pl))
      | none => .error .assertFalse
    | none => .error (.nonExhaustive (.pwild ty :: pl))
  | r => r

/-- Whether the constructors of the column are all those of the type. Without a
known map the constructor of least tag says how many there are. -/
def noWilds (bare : Bool) (css : List LSymbol) (types : List (LSymbol × List Pattern)) : Bool :=
  if bare then
    match types with
    | [] => false
    | c :: cl =>
      let cs := cl.foldl (fun m c => if c.1.lsName.idTag < m.lsName.idTag then c.1 else m) c.1
      types.length == cs.lsConstr
  else css.all fun cs => (types.lookup cs).isSome

variable (getConstructors : TySymbol → Except CompileError (Option (List LSymbol)))
  (mkCase : Term → List (Pattern × α) → α) (mkLet : VSymbol → Term → α → α)

/-- Whether only the constructor count is known, and the constructors otherwise. -/
def constrSet : Ty → Except CompileError (Bool × List LSymbol)
  | .tyvar _ => .ok (false, [])
  | .tyapp ts _ => do
    match ← getConstructors ts with
    | some css => .ok (false, slsOfList css)
    | none => .ok (true, [])

def isConstr (bare : Bool) (css : List LSymbol) (fs : LSymbol) : Bool :=
  decide (0 < fs.lsConstr) && (bare || css.contains fs)

/-- The arguments of the matched term when a constructor is known to build it. -/
def knownConstr (isConstr : LSymbol → Bool) : Term → Option (LSymbol × List Term)
  | .tapp _ cs al _ => if isConstr cs then some (cs, al) else none
  | _ => none

def compileFuel : Nat → Nat → List Term → List (Row α) → Except CompileError α
  | 0, _, _, _ => .error .outOfFuel
  | _ + 1, _, tl, [] => do
    let tyl ← tl.mapM tType
    .error (.nonExhaustive (tyl.map .pwild))
  | _ + 1, _, [], (_, a) :: _ => .ok a
  | n + 1, k, t :: tl, r :: rl => do
    let ty ← tType t
    let (bare, css) ← constrSet getConstructors ty
    let types ← (r :: rl).foldlM (populateRow (isConstr bare css) ty) []
    let (cases, wilds) := (r :: rl).foldr (dispatchRow mkLet types t) ([], [])
    let wild := compWilds (compileFuel n k) ty css types tl wilds
    if types.isEmpty then wild
    else match knownConstr (isConstr bare css) t with
      | some (cs, al) =>
        if (types.lookup cs).isSome then compCases (compileFuel n k) ty cases tl cs al
        else wild
      | none => do
        let base ← if noWilds bare css types then .ok [] else do
          let a ← wild
          .ok [(Pattern.pwild ty, a)]
        let bl ← types.foldlM (fun acc c => do
          let vl := freshVars k "x" (c.2.map patTy)
          let a ← compCases (compileFuel n (k + vl.length)) ty cases tl c.1 (vl.map tVar)
          .ok ((Pattern.papp c.1 (vl.map .pvar) ty, a) :: acc)) base
        .ok (mkCase t bl)

end Compile

/-! Every call takes a column away or replaces a constructor by its arguments. The
rows are counted with all choices of their alternatives. -/

mutual
def patAlts : Pattern → Nat
  | .pwild _ | .pvar _ => 1
  | .papp _ pl _ => patAltsList pl
  | .por p q => patAlts p + patAlts q
  | .pas p _ => patAlts p
def patAltsList : List Pattern → Nat
  | [] => 1
  | p :: pl => patAlts p * patAltsList pl
end

mutual
def patWeight : Pattern → Nat
  | .pwild _ | .pvar _ => 0
  | .papp _ pl _ => patAltsList pl * (pl.length + 1) + patWeightList pl
  | .por p q => patWeight p + patWeight q
  | .pas p _ => patWeight p
def patWeightList : List Pattern → Nat
  | [] => 0
  | p :: pl => patWeight p * patAltsList pl + patAlts p * patWeightList pl
end

def rowsWeight {α : Type} (rl : List (Row α)) : Nat := (rl.map fun r => patWeightList r.1).sum

def compile {α : Type} (getConstructors : TySymbol → Except CompileError (Option (List LSymbol)))
    (mkCase : Term → List (Pattern × α) → α) (mkLet : VSymbol → Term → α → α) (k : Nat)
    (tl : List Term) (rl : List (Row α)) : Except CompileError α :=
  compileFuel getConstructors mkCase mkLet (tl.length + rowsWeight rl + 1) k tl rl

def compileBare {α : Type} (mkCase : Term → List (Pattern × α) → α)
    (mkLet : VSymbol → Term → α → α) (k : Nat) (tl : List Term) (rl : List (Row α)) :
    Except CompileError α :=
  match compile (fun _ => .ok none) mkCase mkLet k tl rl with
  | .error (.nonExhaustive _) => .error (.nonExhaustive [])
  | r => r

/-- The matched terms, or variables of the types of the patterns if none are given. -/
def matchedTerms (k : Nat) (tl : List Term) (pl : List Pattern) : List Term :=
  if tl.isEmpty then (freshVars k "_" (pl.map patTy)).map tVar else tl

def checkCompile (getConstructors : TySymbol → Except CompileError (Option (List LSymbol)))
    (k : Nat) (tl : List Term) : List (List Pattern) → Except CompileError Unit
  | [] => do
    let tyl ← tl.mapM tType
    .error (.nonExhaustive (tyl.map .pwild))
  | pl :: ppl =>
    compile getConstructors (fun _ _ => ()) (fun _ _ _ => ()) (k + pl.length)
      (matchedTerms k tl pl) ((pl :: ppl).map fun pl => (pl, ()))

def isExhaustive (k : Nat) (tl : List Term) : List (List Pattern) → Except CompileError Bool
  | [] => .ok false
  | pl :: ppl =>
    match compile (fun _ => .ok none) (fun _ _ => true) (fun _ _ _ => true) (k + pl.length)
        (matchedTerms k tl pl) ((pl :: ppl).map fun pl => (pl, true)) with
    | .error (.nonExhaustive _) => .ok false
    | r => r

end Why3
