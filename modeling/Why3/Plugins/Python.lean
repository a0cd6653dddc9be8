import Mathlib

/-!
The mini-Python front-end (`plugins/python/py_main.ml`): the translation of
blocks to program expressions, where `break` and `return` become exceptions
and a handler is generated for a loop or a function that a scan of its body
finds one in. Source positions are left out; the translation of Python
expressions, which contain no statement, is a parameter.
-/
namespace Why3.Python

structure Env where
  vars : List String
  forIndex : Nat

def emptyEnv : Env := ⟨[], 0⟩

def Env.addVar (env : Env) (id : String) : Env := { env with vars := id :: env.vars }

def forVars (env : Env) : String × String × Env :=
  let i := toString (env.forIndex + 1)
  ("for index " ++ i, "for list " ++ i, { env with forIndex := env.forIndex + 1 })

/-- Python expressions `E` and their translations `W`: `expr` fails on unbound
variables, `range` gives the bounds of a call of `range`. -/
class Exprs (E W : Type) where
  expr : Env → E → Except String W
  range : E → Option (E × E)
  exprHasCall : String → E → Bool

/-- Logical annotations, with the let around the invariants of a loop over a list. -/
inductive Term where
  | term (t : String)
  | tget (l i : String)
  | tlet (id : String) (t₁ t₂ : Term)

mutual

inductive Stmt (E : Type) where
  | sif (e : E) (s₁ s₂ : List (Decl E))
  | sreturn (e : E)
  | sassign (id : String) (e : E)
  | swhile (e : E) (inv var : List Term) (s : List (Decl E))
  | sfor (id : String) (e : E) (inv : List Term) (s : List (Decl E))
  | seval (e : E)
  | sset (e₁ e₂ e₃ : E)
  | sassert (t : Term)
  | sbreak
  | slabel (id : String)

inductive Decl (E : Type) where
  | dimport
  | ddef (id : String) (idl : List String) (sp : List Term) (bl : List (Decl E))
  | dstmt (s : Stmt E)
  | dlogic

end

inductive Exn where
  | break
  | return

/-- Program expressions that raise nothing. -/
inductive Pure (W : Type) where
  | expr (w : W)
  | etuple
  | econst (n : Nat)
  | eident (id : String)
  | eidapp (f : String) (el : List (Pure W))

/-- Program expressions (`Ptree.expr`). A let marked `ref` binds a reference. -/
inductive Expr (W : Type) where
  | pure (e : Pure W)
  | elet (id : String) (ref : Bool) (e₁ : Pure W) (e₂ : Expr W)
  | esequence (e₁ e₂ : Expr W)
  | eif (e₁ : W) (e₂ e₃ : Expr W)
  | ewhile (e : W) (inv var : List Term) (s : Expr W)
  | efor (id : String) (e₁ e₂ : Pure W) (inv : List Term) (s : Expr W)
  | eraise (x : Exn) (e : Option W)
  | ematch (e : Expr W) (x : Exn) (pat : Option String) (h : Pure W)
  | eassert (t : Term)
  | elabel (id : String) (e : Expr W)
  | efun (recursive : Bool) (id : String) (idl : List String) (sp : List Term) (e₁ e₂ : Expr W)

section Scans

variable {E : Type} (whiles fors : Bool) (p : Stmt E → Bool)

mutual

/-- Looks for a statement that is not in a function, and is in loops of the given kinds only. -/
def scanStmt : Stmt E → Bool
  | .sif e bl₁ bl₂ => p (.sif e bl₁ bl₂) || scan bl₁ || scan bl₂
  | .swhile e inv var bl => p (.swhile e inv var bl) || whiles && scan bl
  | .sfor id e inv bl => p (.sfor id e inv bl) || fors && scan bl
  | s => p s

def scan : List (Decl E) → Bool
  | [] => false
  | .dstmt s :: bl => scanStmt s || scan bl
  | _ :: bl => scan bl

end

/-- The scan does not look into while loops. -/
def hasStmtl (bl : List (Decl E)) : Bool := scan false true p bl

def isBreak : Stmt E → Bool
  | .sbreak => true
  | _ => false

def isReturn : Stmt E → Bool
  | .sreturn _ => true
  | _ => false

def hasBreakl (bl : List (Decl E)) : Bool := hasStmtl isBreak bl

def hasReturnl (bl : List (Decl E)) : Bool := hasStmtl isReturn bl

/-- The first assignment to a variable, which binds it. -/
def firstAssign (env : Env) : Stmt E → Option (String × E)
  | .sassign id e => if id ∈ env.vars then none else some (id, e)
  | _ => none

def label : Stmt E → Option String
  | .slabel id => some id
  | _ => none

end Scans

section Translation

variable {E : Type} (W : Type) [Exprs E W]

open Exprs

/-- Whether the statement itself, its blocks apart, calls `id`. -/
def stmtHasCall (id : String) : Stmt E → Bool
  | .sbreak | .slabel _ | .sassert _ => false
  | .sreturn e | .sassign _ e | .seval e | .sif e _ _ | .sfor _ e _ _ | .swhile e _ _ _ =>
      exprHasCall W id e
  | .sset e₁ e₂ e₃ => exprHasCall W id e₁ || exprHasCall W id e₂ || exprHasCall W id e₃

/-- `stmt_has_call` descends into all the blocks of a statement. -/
def blockHasCall (id : String) (bl : List (Decl E)) : Bool := scan true true (stmtHasCall W id) bl

variable {W}

def mkRef (e : Pure W) : Pure W := .eidapp "ref" [e]

mutual

def stmt (env : Env) : Stmt E → Except String (Expr W)
  | .seval e => do .ok (.pure (.expr (← expr env e)))
  | .sif e s₁ s₂ => do .ok (.eif (← expr env e) (← block env s₁) (← block env s₂))
  | .sreturn e => do .ok (.eraise .return (some (← expr env e)))
  | .sassign id e => do
      let e ← expr env e
      if id ∈ env.vars then .ok (.pure (.eidapp "infix :=" [.eident id, .expr e]))
      else .ok (.elet id true (mkRef (.expr e)) (.pure .etuple))
  | .sset e₁ e₂ e₃ => do
      .ok (.pure (.eidapp "mixfix []<-" [.expr (← expr env e₁), .expr (← expr env e₂),
        .expr (← expr env e₃)]))
  | .sassert t => .ok (.eassert t)
  | .swhile e inv var s => do
      let loop := .ewhile (← expr env e) inv var (← block env s)
      if hasBreakl s then .ok (.ematch loop .break none .etuple) else .ok loop
  | .sbreak => .ok (.eraise .break none)
  | .slabel _ => .ok (.pure .etuple)
  | .sfor id e inv body =>
      match range W e with
      | some (e₁, e₂) => do
          let ub := .eidapp "infix -" [.expr (← expr env e₂), .econst 1]
          .ok (.efor id (.expr (← expr env e₁)) ub inv
            (.elet id true (mkRef (.eident id)) (← block (env.addVar id) body)))
      | none => do
          let (i, l, env) := forVars env
          let e ← expr env e
          let ub := .eidapp "infix -" [.eidapp "len" [.eident l], .econst 1]
          let li := .eidapp "mixfix []" [.eident l, .eident i]
          .ok (.elet l false (.expr e) (.efor i (.econst 0) ub (inv.map (.tlet id (.tget l i)))
            (.elet id true (mkRef li) (← block (env.addVar id) body))))

def block (env : Env) : List (Decl E) → Except String (Expr W)
  | [] => .ok (.pure .etuple)
  | .dstmt s :: sl =>
      match label s, firstAssign env s with
      | some id, _ => do .ok (.elabel id (← block env sl))
      | none, some (id, e) => do
          .ok (.elet id true (mkRef (.expr (← expr env e))) (← block (env.addVar id) sl))
      | none, none => do
          let s ← stmt env s
          if sl.isEmpty then .ok s else .ok (.esequence s (← block env sl))
  | .ddef id idl sp bl :: sl => do
      let body ← block (idl.foldl Env.addVar emptyEnv) bl
      let body := if hasReturnl bl then .ematch body .return (some "x") (.eident "x") else body
      let body := idl.foldl (fun bl id => .elet id true (mkRef (.eident id)) bl) body
      .ok (.efun (blockHasCall W id bl) id idl sp body (← block env sl))
  | .dimport :: sl | .dlogic :: sl => block env sl

end

end Translation

end Why3.Python
