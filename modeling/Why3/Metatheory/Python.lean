import Why3.Plugins.Python
import Why3.Library.Except

/-!
Where the exceptions of a translated program are caught. Each raise stands in a
context, the constructs around it from the inside out; the breaks and returns
of the source stand in their loops and functions.
-/
namespace Why3.Python

open List (Forall₂ rel_append replicate)
open Except (bind_eq_ok)

variable {E W : Type}

inductive Frame (W : Type) where
  | loop
  | handler (x : Exn) (pat : Option String) (h : Pure W)
  | func
  | other

structure Raise (W : Type) where
  exn : Exn
  arg : Option W
  context : List (Frame W)

def raises (c : List (Frame W)) : Expr W → List (Raise W)
  | .pure _ | .eassert _ => []
  | .elet _ _ _ e | .elabel _ e => raises (.other :: c) e
  | .esequence e₁ e₂ | .eif _ e₁ e₂ => raises (.other :: c) e₁ ++ raises (.other :: c) e₂
  | .ewhile _ _ _ s | .efor _ _ _ _ s => raises (.loop :: c) s
  | .eraise x e => [⟨x, e, c⟩]
  | .ematch e x p h => raises (.handler x p h :: c) e
  | .efun _ _ _ _ e₁ e₂ => raises (.func :: c) e₁ ++ raises (.other :: c) e₂

/-- The handler around the innermost loop catches a `Break`. -/
def LeavesLoop : List (Frame W) → Prop
  | .other :: c => LeavesLoop c
  | .loop :: .handler x p h :: _ => x = .break ∧ p = none ∧ h = .etuple
  | _ => False

/-- Only the references of the parameters stand in between. -/
def InFunction : List (Frame W) → Prop
  | .other :: c => InFunction c
  | .func :: _ => True
  | _ => False

/-- The handler of the enclosing function catches a `Return` and gives its argument. -/
def LeavesFunction : List (Frame W) → Prop
  | .other :: c | .loop :: c | .handler .break _ _ :: c => LeavesFunction c
  | .handler .return p h :: c => p = some "x" ∧ h = .eident "x" ∧ InFunction c
  | _ => False

inductive Scope where
  | loop
  | func

/-- The loops and functions of a context. -/
def scopes : List (Frame W) → List Scope
  | [] => []
  | .loop :: c => .loop :: scopes c
  | .func :: c => .func :: scopes c
  | .handler _ _ _ :: c | .other :: c => scopes c

structure Exit (E : Type) where
  exn : Exn
  arg : Option E
  scopes : List Scope

mutual

/-- The breaks and returns of a statement, inside the loops and functions `S`. -/
def stmtExits (S : List Scope) : Stmt E → List (Exit E)
  | .sbreak => [⟨.break, none, S⟩]
  | .sreturn e => [⟨.return, some e, S⟩]
  | .sif _ s₁ s₂ => exits S s₁ ++ exits S s₂
  | .swhile _ _ _ s | .sfor _ _ _ s => exits (.loop :: S) s
  | _ => []

def exits (S : List Scope) : List (Decl E) → List (Exit E)
  | [] => []
  | .dstmt s :: sl => stmtExits S s ++ exits S sl
  | .ddef _ _ _ bl :: sl => exits (.func :: S) bl ++ exits S sl
  | _ :: sl => exits S sl

end

/-- A raise of the program stands for an exit of the source, in its loops and
functions, and is caught where the exit leads. -/
structure Matches [Exprs E W] (s : Exit E) (t : Raise W) : Prop where
  exn : s.exn = t.exn
  arg : Option.Rel (fun e w => ∃ env, Exprs.expr env e = .ok w) s.arg t.arg
  scopes : s.scopes = scopes t.context
  caught : match t.exn with
    | .break => LeavesLoop t.context
    | .return => LeavesFunction t.context

/-- A break outside of the loops of the block. -/
abbrev breaksOut (bl : List (Decl E)) : Bool := scan false false isBreak bl

/-- A return outside of the functions of the block. -/
abbrev returnsOut (bl : List (Decl E)) : Bool := scan true true isReturn bl

mutual

/-- No break has a for loop as its innermost loop, and a function that contains
a return has one outside of while loops. -/
def stmtHandled : Stmt E → Bool
  | .sif _ s₁ s₂ => handled s₁ && handled s₂
  | .swhile _ _ _ s => handled s
  | .sfor _ _ _ s => !breaksOut s && handled s
  | _ => true

def handled : List (Decl E) → Bool
  | [] => true
  | .dstmt s :: sl => stmtHandled s && handled sl
  | .ddef _ _ _ bl :: sl =>
      !breaksOut bl && (!returnsOut bl || hasReturnl bl) && handled bl && handled sl
  | _ :: sl => handled sl

end

mutual

theorem scanStmt_fors (p : Stmt E → Bool) :
    ∀ {s : Stmt E}, scanStmt false false p s = true → scanStmt false true p s = true
  | .sif _ _ _, h => by
      simp only [scanStmt, Bool.or_eq_true] at h ⊢
      exact h.imp (Or.imp_right (scan_fors p)) (scan_fors p)
  | .sfor _ _ _ _, h => by
      simp only [scanStmt, Bool.or_eq_true] at h ⊢
      exact h.imp_right nofun
  | .swhile _ _ _ _, h | .sreturn _, h | .sassign _ _, h | .seval _, h | .sset _ _ _, h
  | .sassert _, h | .sbreak, h | .slabel _, h => h

theorem scan_fors (p : Stmt E → Bool) :
    ∀ {bl : List (Decl E)}, scan false false p bl = true → scan false true p bl = true
  | .dstmt _ :: _, h => by
      simp only [scan, Bool.or_eq_true] at h ⊢
      exact h.imp (scanStmt_fors p) (scan_fors p)
  | .ddef _ _ _ _ :: bl, h | .dimport :: bl, h | .dlogic :: bl, h => @scan_fors p bl h

end

/-- What a part with a break or a return outside of its loops needs of its context. -/
def Fits (c : List (Frame W)) (brk ret : Bool) : Prop :=
  (brk = true → LeavesLoop c) ∧ (ret = true → LeavesFunction c)

theorem Fits.or {c : List (Frame W)} {b₁ b₂ r₁ r₂ : Bool} (h : Fits c (b₁ || b₂) (r₁ || r₂)) :
    Fits c b₁ r₁ ∧ Fits c b₂ r₂ :=
  ⟨⟨fun hb => h.1 (by simp [hb]), fun hr => h.2 (by simp [hr])⟩,
    ⟨fun hb => h.1 (by simp [hb]), fun hr => h.2 (by simp [hr])⟩⟩

theorem raises_params (idl : List String) (body : Expr W) (c : List (Frame W)) :
    raises c (idl.foldl (fun bl id => .elet id true (mkRef (.eident id)) bl) body) =
      raises (replicate idl.length .other ++ c) body := by
  induction idl generalizing body with
  | nil => rfl
  | cons id idl ih =>
      rw [List.foldl_cons, ih]
      rfl

theorem inFunction_params (n : Nat) (c : List (Frame W)) :
    InFunction (replicate n .other ++ .func :: c) ∧
      scopes (replicate n .other ++ .func :: c) = .func :: scopes c := by
  induction n with
  | zero => exact ⟨trivial, rfl⟩
  | succ n ih => exact ih

variable [Exprs E W]

mutual

theorem stmt_matches : ∀ {s : Stmt E} {env : Env} {w : Expr W} (c : List (Frame W)),
    stmt env s = .ok w → stmtHandled s = true →
    Fits c (scanStmt false false isBreak s) (scanStmt true true isReturn s) →
    Forall₂ Matches (stmtExits (scopes c) s) (raises c w)
  | .seval e, env, w, c, h, _, _ => by
      obtain ⟨v, -, h⟩ := bind_eq_ok.mp h
      cases h
      exact .nil
  | .sbreak, env, w, c, h, _, hfit => by
      cases h
      exact .cons ⟨rfl, .none, rfl, hfit.1 rfl⟩ .nil
  | .sreturn e, env, w, c, h, _, hfit => by
      obtain ⟨v, hv, h⟩ := bind_eq_ok.mp h
      cases h
      exact .cons ⟨rfl, .some ⟨env, hv⟩, rfl, hfit.2 rfl⟩ .nil
  | .sif e s₁ s₂, env, w, c, h, hh, hfit => by
      obtain ⟨v, -, h⟩ := bind_eq_ok.mp h
      obtain ⟨w₁, h₁, h⟩ := bind_eq_ok.mp h
      obtain ⟨w₂, h₂, h⟩ := bind_eq_ok.mp h
      cases h
      obtain ⟨hh₁, hh₂⟩ := Bool.and_eq_true_iff.mp hh
      obtain ⟨f₁, f₂⟩ := Fits.or hfit
      exact rel_append (block_matches (.other :: c) h₁ hh₁ f₁)
        (block_matches (.other :: c) h₂ hh₂ f₂)
  | .sassign id e, env, w, c, h, _, _ => by
      obtain ⟨v, -, h⟩ := bind_eq_ok.mp h
      split at h <;> cases h <;> exact .nil
  | .sset e₁ e₂ e₃, env, w, c, h, _, _ => by
      obtain ⟨v₁, -, h⟩ := bind_eq_ok.mp h
      obtain ⟨v₂, -, h⟩ := bind_eq_ok.mp h
      obtain ⟨v₃, -, h⟩ := bind_eq_ok.mp h
      cases h
      exact .nil
  | .sassert _, env, w, c, h, _, _ | .slabel _, env, w, c, h, _, _ => by
      cases h
      exact .nil
  | .swhile e inv var s, env, w, c, h, hh, hfit => by
      obtain ⟨v, -, h⟩ := bind_eq_ok.mp h
      obtain ⟨w', hw, h⟩ := bind_eq_ok.mp h
      split at h
      · cases h
        exact block_matches (.loop :: .handler .break none .etuple :: c) hw hh
          ⟨fun _ => ⟨rfl, rfl, rfl⟩, hfit.2⟩
      · next hno =>
        cases h
        exact block_matches (.loop :: c) hw hh ⟨fun hb => absurd (scan_fors isBreak hb) hno, hfit.2⟩
  | .sfor id e inv body, env, w, c, h, hh, hfit => by
      obtain ⟨hno, hh⟩ := Bool.and_eq_true_iff.mp hh
      have hfor : breaksOut body ≠ true := by simpa using hno
      unfold stmt at h
      split at h
      · obtain ⟨v₂, -, h⟩ := bind_eq_ok.mp h
        obtain ⟨v₁, -, h⟩ := bind_eq_ok.mp h
        obtain ⟨w', hw, h⟩ := bind_eq_ok.mp h
        cases h
        exact block_matches (.other :: .loop :: c) hw hh ⟨fun h => absurd h hfor, hfit.2⟩
      · obtain ⟨v, -, h⟩ := bind_eq_ok.mp h
        obtain ⟨w', hw, h⟩ := bind_eq_ok.mp h
        cases h
        exact block_matches (.other :: .loop :: .other :: c) hw hh
          ⟨fun h => absurd h hfor, hfit.2⟩

theorem block_matches : ∀ {bl : List (Decl E)} {env : Env} {w : Expr W} (c : List (Frame W)),
    block env bl = .ok w → handled bl = true → Fits c (breaksOut bl) (returnsOut bl) →
    Forall₂ Matches (exits (scopes c) bl) (raises c w)
  | [], env, w, c, h, _, _ => by
      cases h
      exact .nil
  | .dimport :: bl, env, w, c, h, hh, hfit | .dlogic :: bl, env, w, c, h, hh, hfit =>
      @block_matches bl env w c h hh hfit
  | .dstmt s :: bl, env, w, c, h, hh, hfit => by
      obtain ⟨hs, hbl⟩ := Bool.and_eq_true_iff.mp hh
      obtain ⟨fs, fbl⟩ := Fits.or hfit
      unfold block at h
      split at h
      · next hlabel =>
        obtain ⟨w', hw, h⟩ := bind_eq_ok.mp h
        cases h
        have hexits : stmtExits (scopes c) s = [] := by
          cases s <;> cases hlabel
          rfl
        rw [exits, hexits]
        exact block_matches (.other :: c) hw hbl fbl
      · next hfirst =>
        obtain ⟨v, -, h⟩ := bind_eq_ok.mp h
        obtain ⟨w', hw, h⟩ := bind_eq_ok.mp h
        cases h
        have hexits : stmtExits (scopes c) s = [] := by
          cases s <;> first | rfl | cases hfirst
        rw [exits, hexits]
        exact block_matches (.other :: c) hw hbl fbl
      · obtain ⟨w₁, h₁, h⟩ := bind_eq_ok.mp h
        split at h
        · next hnil =>
          cases h
          obtain rfl := List.isEmpty_iff.mp hnil
          rw [exits, exits, List.append_nil]
          exact stmt_matches c h₁ hs fs
        · obtain ⟨w₂, h₂, h⟩ := bind_eq_ok.mp h
          cases h
          exact rel_append (stmt_matches (.other :: c) h₁ hs fs)
            (block_matches (.other :: c) h₂ hbl fbl)
  | .ddef id idl sp bl :: sl, env, w, c, h, hh, hfit => by
      obtain ⟨body, hb, h⟩ := bind_eq_ok.mp h
      obtain ⟨w₂, h₂, h⟩ := bind_eq_ok.mp h
      cases h
      simp only [handled, Bool.and_eq_true, Bool.not_eq_true'] at hh
      obtain ⟨⟨⟨hbrk, hret⟩, hbl⟩, hsl⟩ := hh
      have hno : breaksOut bl ≠ true := by simp [hbrk]
      refine rel_append ?_ (block_matches (.other :: c) h₂ hsl hfit)
      obtain ⟨hin, hscopes⟩ := inFunction_params idl.length c
      rw [raises_params, ← hscopes]
      split
      · exact block_matches (.handler .return (some "x") (.eident "x") :: _) hb hbl
          ⟨fun h => absurd h hno, fun _ => ⟨rfl, rfl, hin⟩⟩
      · next hnone =>
        exact block_matches _ hb hbl ⟨fun h => absurd h hno, fun h => by simp [h, hnone] at hret⟩

end

section Programs

/-- Expressions do not matter for where exceptions are caught. -/
instance unitExprs : Exprs Unit Unit where
  expr _ _ := .ok ()
  range _ := none
  exprHasCall _ _ := false

def funName : String := "f"

/-- A function that leaves a while loop and then returns. -/
def leavingWhile : List (Decl Unit) :=
  [.ddef funName [] [] [.dstmt (.swhile () [] [] [.dstmt .sbreak]), .dstmt (.sreturn ())]]

/-- A break in a for loop inside a while loop. -/
def breakInFor : List (Decl Unit) :=
  [.dstmt (.swhile () [] [] [.dstmt (.sfor "i" () [] [.dstmt .sbreak])])]

/-- A return in a while loop. -/
def returnInWhile : List (Decl Unit) :=
  [.ddef funName [] [] [.dstmt (.swhile () [] [] [.dstmt (.sreturn ())])]]

end Programs

end Why3.Python
