import Why3.Core.Termination

/-!
Calls between logic definitions on finite constructor trees.

An evaluation fixes the value of variables and of constructor applications and
leaves everything else open, so that it covers every interpretation of the other
symbols, of the quantifiers and of epsilon. `Requires` is the set of calls met
when a body is evaluated; triggers are not evaluated.
-/
namespace Why3

open Relation

inductive Tree (A : Type) where
  | atom (a : A)
  | node (cs : LSymbol) (tl : List (Tree A))

namespace Tree

variable {A : Type}

@[elab_as_elim]
theorem induct {P : Tree A → Prop} (atom : ∀ a, P (.atom a))
    (node : ∀ cs tl, (∀ t ∈ tl, P t) → P (.node cs tl)) (t : Tree A) : P t := by
  refine @Tree.rec A P (fun tl => ∀ t ∈ tl, P t) atom (fun cs tl h => node cs tl h) ?_ ?_ t
  · simp
  · intro t tl ht htl
    simpa using ⟨ht, htl⟩

inductive Child : Tree A → Tree A → Prop
  | mk {cs : LSymbol} {tl : List (Tree A)} {t : Tree A} (ht : t ∈ tl) : Child t (.node cs tl)

theorem child_wellFounded : WellFounded (Child (A := A)) := by
  refine ⟨fun t => ?_⟩
  induction t using Tree.induct with
  | atom a => exact ⟨_, fun _ h => by cases h⟩
  | node cs tl ih =>
    refine ⟨_, fun t h => ?_⟩
    cases h with
    | mk ht => exact ih t ht

/-- The structural order: a strict sub-tree. -/
def Sub : Tree A → Tree A → Prop := TransGen Child

theorem sub_wellFounded : WellFounded (Sub (A := A)) := child_wellFounded.transGen

instance : IsTrans (Tree A) Sub := ⟨fun _ _ _ => TransGen.trans⟩

end Tree

structure Evaluation (A : Type) where
  val : List (Tree A) → Term → Tree A
  val_bvar : ∀ {β a i ty x}, β[i]? = some x → val β (.bvar a i ty) = x
  val_constr : ∀ {β a cs tl ty}, 0 < cs.lsConstr →
    val β (.tapp a cs tl ty) = .node cs (tl.map (val β))

section Symbols

variable {A : Type} (fn : LSymbol → List (Tree A) → Tree A) (x : A)

mutual
def valOf (β : List (Tree A)) : Term → Tree A
  | .bvar _ i _ => (β[i]?).getD (.atom x)
  | .tapp _ ls tl _ =>
    if 0 < ls.lsConstr then .node ls (valOfList β tl) else fn ls (valOfList β tl)
  | _ => .atom x
def valOfList (β : List (Tree A)) : List Term → List (Tree A)
  | [] => []
  | t :: tl => valOf β t :: valOfList β tl
end

theorem valOfList_eq_map (β : List (Tree A)) (tl : List Term) :
    valOfList fn x β tl = tl.map (valOf fn x β) :=
  ListRec.eq_map rfl (fun _ _ => rfl) tl

/-- Any interpretation of the other symbols extends to an evaluation. -/
def Evaluation.ofSymbols : Evaluation A where
  val := valOf fn x
  val_bvar h := by rw [valOf, h, Option.getD_some]
  val_constr h := by rw [valOf, if_pos h, valOfList_eq_map]

end Symbols

section Matching

variable {A : Type} (θ : VSymbol → Tree A)

mutual
/-- The tree matches the pattern with these values of the pattern variables. -/
def Matches : Pattern → Tree A → Prop
  | .pwild _, _ => True
  | .pvar u, x => θ u = x
  | .papp cs pl _, x => 0 < cs.lsConstr ∧ ∃ xs, x = .node cs xs ∧ MatchesList pl xs
  | .por p q, x => Matches p x ∨ Matches q x
  | .pas p u, x => Matches p x ∧ θ u = x
def MatchesList : List Pattern → List (Tree A) → Prop
  | [], [] => True
  | p :: pl, x :: xs => Matches p x ∧ MatchesList pl xs
  | _, _ => False
end

end Matching

/-- A call of `s` on `w` met in the evaluation of a term with the values `β` of
its indices: in both branches of a conditional, in every branch whose pattern
matches, and for all values of quantified variables. -/
inductive Requires {A : Type} (E : Evaluation A) (syms : List LSymbol) :
    List (Tree A) → Term → LSymbol → List (Tree A) → Prop
  | call {β a s tl ty} (hs : s ∈ syms) :
      Requires E syms β (.tapp a s tl ty) s (tl.map (E.val β))
  | arg {β a ls tl ty t s w} (ht : t ∈ tl) (h : Requires E syms β t s w) :
      Requires E syms β (.tapp a ls tl ty) s w
  | ifCond {β a f t e s w} (h : Requires E syms β f s w) : Requires E syms β (.tif a f t e) s w
  | ifThen {β a f t e s w} (h : Requires E syms β t s w) : Requires E syms β (.tif a f t e) s w
  | ifElse {β a f t e s w} (h : Requires E syms β e s w) : Requires E syms β (.tif a f t e) s w
  | letDef {β a t v e s w} (h : Requires E syms β t s w) : Requires E syms β (.tlet a t v e) s w
  | letBody {β a t v e s w} (h : Requires E syms (E.val β t :: β) e s w) :
      Requires E syms β (.tlet a t v e) s w
  | scrutinee {β a t bl s w} (h : Requires E syms β t s w) : Requires E syms β (.tcase a t bl) s w
  | branch {β a t bl p e θ s w} (hb : (p, e) ∈ bl) (hp : Matches θ p (E.val β t))
      (h : Requires E syms ((patVars p).map θ ++ β) e s w) : Requires E syms β (.tcase a t bl) s w
  | eps {β a v f x s w} (h : Requires E syms (x :: β) f s w) : Requires E syms β (.teps a v f) s w
  | quant {β a q vl tr f xs s w} (hxs : xs.length = vl.length)
      (h : Requires E syms (xs ++ β) f s w) : Requires E syms β (.tquant a q vl tr f) s w
  | binopLeft {β a op f g s w} (h : Requires E syms β f s w) :
      Requires E syms β (.tbinop a op f g) s w
  | binopRight {β a op f g s w} (h : Requires E syms β g s w) :
      Requires E syms β (.tbinop a op f g) s w
  | not {β a f s w} (h : Requires E syms β f s w) : Requires E syms β (.tnot a f) s w

/-- Evaluating the second call requires the first one. -/
def CallStep {A : Type} (ldl : List LogicDecl) (E : Evaluation A)
    (callee caller : LSymbol × List (Tree A)) : Prop :=
  ∃ ld ∈ ldl, ld.1 = caller.1 ∧ caller.2.length = ld.2.vl.length ∧
    Requires E (ldl.map (·.1)) caller.2 ld.2.body callee.1 callee.2

/-! What an entry of the analysis says of a value. -/

section Describes

variable {A : Type}

/-- The value is a strict sub-tree of an argument, or that argument or one of its
sub-trees. -/
def Desc (v : List (Tree A)) (x : Tree A) : Descent → Prop
  | .less i => ∃ y, v[i]? = some y ∧ Tree.Sub x y
  | .equal i => ∃ y, v[i]? = some y ∧ ReflTransGen Tree.Child x y
  | .unknown => True

theorem Desc.toLess {v : List (Tree A)} {x y : Tree A} {d : Descent} (h : Desc v y d)
    (hxy : Tree.Sub x y) : Desc v x (toLess d) := by
  cases d with
  | less i =>
    obtain ⟨z, hz, hyz⟩ := h
    exact ⟨z, hz, hxy.trans hyz⟩
  | equal i =>
    obtain ⟨z, hz, hyz⟩ := h
    exact ⟨z, hz, TransGen.trans_left hxy hyz⟩
  | unknown => trivial

theorem Desc.of_subEq {v : List (Tree A)} {x y : Tree A} {d : Descent} (h : Desc v y d)
    (hxy : ReflTransGen Tree.Child x y) : Desc v x d := by
  cases d with
  | less i =>
    obtain ⟨z, hz, hyz⟩ := h
    exact ⟨z, hz, TransGen.trans_right hxy hyz⟩
  | equal i =>
    obtain ⟨z, hz, hyz⟩ := h
    exact ⟨z, hz, hxy.trans hyz⟩
  | unknown => trivial

/-- A vector describes the arguments of a call by those of the caller. -/
def VecDesc (v w : List (Tree A)) (c : List Descent) : Prop :=
  c.length = w.length ∧
    ∀ (k : Nat) (x : Tree A), w[k]? = some x → Desc v x (c.getD k .unknown)

end Describes

end Why3
