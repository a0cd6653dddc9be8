import Why3.Core.Decl

/-!
The bisection of a task by `bisect_step`.

A task is the list of its declarations with the last one, the goal, in front. `bisectStep`
asks for one removal set after another; the answer, whether the task without it is proved,
leads to the next step. A step is a tree whose branches are the answers, an exception of
the source is a leaf of it. The naming tables of a removal set are left out.
-/
namespace Why3
namespace Bisect

/-- What is logged in a task beside its declarations is not read. -/
inductive Tdecl where
  | decl (d : DeclNode) | use | clone | metaDecl

abbrev Task := List Tdecl

structure Rem where
  remPr : Finset PrSymbol
  remLs : Finset LSymbol
  remTs : Finset TySymbol
deriving DecidableEq

inductive BisectExn where
  | goalNotFound | invalidArgument | assertFalse
deriving DecidableEq, Repr

inductive BisectStep where
  | bsDone (rem : Rem)
  | bsStep (rem : Rem) (kont : Bool → BisectStep)
  | raised (e : BisectExn)

def removeLs (rem : Rem) (ls : LSymbol) : Rem := { rem with remLs := insert ls rem.remLs }

def removePr (rem : Rem) (pr : PrSymbol) : Rem := { rem with remPr := insert pr rem.remPr }

def addRem (rem : Rem) : DeclNode → Rem
  | .dtype _ _ | .dparam _ | .ddata _ => rem
  | .dlogic l => l.foldl (fun rem d => removeLs rem d.1) rem
  | .dind _ l => l.foldl (fun rem d => removeLs rem d.1) rem
  | .dprop _ pr _ => removePr rem pr

def foldSub (f : Rem → DeclNode → Rem) (acc : Rem) (a : List DeclNode) (i1 i2 : Nat) : Rem :=
  ((a.take i2).drop i1).foldl f acc

def call (rem : Rem) (valid invalid : Unit → BisectStep) : BisectStep :=
  .bsStep rem fun b => if b then valid () else invalid ()

def bisectAux (a : List DeclNode) (i1 i2 : Nat) (rem : Rem) (cont : Rem → BisectStep) :
    BisectStep :=
  if i2 - i1 < 2 then
    match a[i1]? with
    | none => .raised .invalidArgument
    | some d =>
      let rem1 := addRem rem d
      call rem1 (fun _ => if i2 - i1 = 1 then cont rem1 else .raised .assertFalse)
        (fun _ => cont rem)
  else
    let m := (i1 + i2) / 2
    let rem1 := foldSub addRem rem a i1 m
    call rem1 (fun _ => bisectAux a m i2 rem1 cont)
      (fun _ => bisectAux a i1 m rem fun rem1 =>
        let rem2 := foldSub addRem rem1 a m i2
        call rem2 (fun _ => cont rem2) (fun _ => bisectAux a m i2 rem1 cont))
termination_by i2 - i1

def emptyRem : Rem := ⟨∅, ∅, ∅⟩

/-- The declarations of a task that `length` counts and `init` stores, oldest first. -/
def removable (task : Task) : List DeclNode :=
  (task.filterMap fun
    | .decl (.dlogic l) => some (.dlogic l)
    | .decl (.dind s l) => some (.dind s l)
    | .decl (.dprop k pr f) => some (.dprop k pr f)
    | _ => none).reverse

def bisectStep : Task → BisectStep
  | .decl (.dprop .pgoal _ _) :: task =>
    bisectAux (removable task) 0 (removable task).length emptyRem .bsDone
  | _ => .raised .goalNotFound

/-- The sets proposed so far with their answers, the last one first. -/
abbrev Log := List (Rem × Bool)

/-- The answers to all questions until `bsDone`; an answer may depend on all that was
asked before. -/
def follow (ans : Log → Rem → Bool) : Log → BisectStep → Except BisectExn (Log × Rem)
  | log, .bsDone rem => .ok (log, rem)
  | log, .bsStep rem kont => follow ans ((rem, ans log rem) :: log) (kont (ans log rem))
  | _, .raised e => .error e

end Bisect
end Why3
