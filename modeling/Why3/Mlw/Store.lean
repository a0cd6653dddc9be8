import Why3.Mlw.Effect

/-!
Values, stores and parallel assignment.

A value of a region is a location; a value of another type is a record of the
values of the fields that its symbol declares. A map from regions to locations
gives the types of values and of the records in the store. Types are made of
symbols whose flags say which components the fields expose.
-/
namespace Why3
namespace Mlw

inductive Value where
  | loc (l : Nat)
  | atom (n : Nat)
  | record (fields : PvSymbol → Value)

abbrev Store := Nat → PvSymbol → Value

variable (T : ItsTable)

def itsFields (s : ItySymbol) : List PvSymbol :=
  (T s).itsMfields ++ (T s).itsOfields

/-! Flags of type symbols. -/

/-- What a component of a symbol stands for: a type variable or a region. -/
inductive Leaf where
  | var (v : TvSymbol)
  | reg (r : Region)
deriving DecidableEq

mutual
/-- The type variables and the top regions of a type. -/
def ityLeaves : Ity → List Leaf
  | .ityvar v => [.var v]
  | .ityreg name s tl rl => [.reg ⟨name, s, tl, rl⟩]
  | .ityapp _ tl rl => ityLeavesList tl ++ ityLeavesList rl
def ityLeavesList : List Ity → List Leaf
  | [] => []
  | t :: tl => ityLeaves t ++ ityLeavesList tl
end

mutual
/-- Those that are exposed. -/
def ityExpLeaves (T : ItsTable) : Ity → List Leaf
  | .ityvar v => [.var v]
  | .ityreg name s tl rl => [.reg ⟨name, s, tl, rl⟩]
  | .ityapp s tl rl =>
    ityExpLeavesList T (T s).itsArgFlg tl ++ ityExpLeavesList T (T s).itsRegFlg rl
def ityExpLeavesList (T : ItsTable) : List ItsFlag → List Ity → List Leaf
  | x :: fl, t :: tl => (if x.itsExposed then ityExpLeaves T t else []) ++ ityExpLeavesList T fl tl
  | _, _ => []
end

def keysOf (s : ItySymbol) : List Leaf :=
  s.itsTs.tsArgs.map .var ++ (T s).itsRegions.map .reg

def flagsOf (s : ItySymbol) : List ItsFlag :=
  (T s).itsArgFlg ++ (T s).itsRegFlg

/-- The component has the flag. -/
def HasFlag (s : ItySymbol) (flag : ItsFlag → Bool) (leaf : Leaf) : Prop :=
  ∃ x, ((keysOf T s).zip (flagsOf T s)).lookup leaf = some x ∧ flag x = true

/-- The flags of a symbol describe what its fields expose. -/
structure WellFlagged (T : ItsTable) (s : ItySymbol) : Prop where
  nodup : (keysOf T s).Nodup
  args : (T s).itsArgFlg.length = s.itsTs.tsArgs.length
  regs : (T s).itsRegFlg.length = (T s).itsRegions.length
  leaves : ∀ f ∈ itsFields T s, ∀ leaf ∈ ityLeaves f.pvIty, leaf ∈ keysOf T s
  closed : ∀ f ∈ itsFields T s, ityPure f.pvIty = true → ityFreevars f.pvIty = ∅ →
    ityExpLeaves T f.pvIty = []
  exposed : ∀ leaf, HasFlag T s (·.itsExposed) leaf ↔
    HasFlag T s (·.itsFixed) leaf ∨ ∃ f ∈ (T s).itsMfields, leaf ∈ ityExpLeaves T f.pvIty
  fixed : ∀ f ∈ (T s).itsOfields, ∀ leaf ∈ ityExpLeaves T f.pvIty, HasFlag T s (·.itsFixed) leaf

/-! Typed stores. -/

/-- The types of the fields of a symbol applied to types and regions. -/
structure FieldInst (T : ItsTable) (s : ItySymbol) (tl rl : List Ity) (t : PvSymbol → Ity) :
    Prop where
  flags : WellFlagged T s
  inst : ∃ sbs, itsMatchRegs T s tl rl = .ok sbs ∧
    ∀ f ∈ itsFields T s, ityFullInst sbs f.pvIty = .ok (t f)

inductive HasType (T : ItsTable) (ρ : Region → Nat) : Value → Ity → Prop
  | reg (r : Region) : HasType T ρ (.loc (ρ r)) (ityReg r)
  | app {s : ItySymbol} {tl rl : List Ity} {fields : PvSymbol → Value} {t : PvSymbol → Ity} :
      FieldInst T s tl rl t → (∀ f ∈ itsFields T s, HasType T ρ (fields f) (t f)) →
      HasType T ρ (.record fields) (.ityapp s tl rl)
  | var (n : Nat) (v : TvSymbol) : HasType T ρ (.atom n) (.ityvar v)

/-- The record at the location of a region has the field types of the region. -/
def TypedRegion (ρ : Region → Nat) (S : Store) (r : Region) : Prop :=
  ∃ t, FieldInst T r.regIts r.regArgs r.regRegs t ∧
    ∀ f ∈ itsFields T r.regIts, HasType T ρ (S (ρ r) f) (t f)

/-- Regions are reached from the types of variables. -/
def ScopeRegion (scope : Set PvSymbol) (r : Region) : Prop :=
  ∃ x ∈ scope, r ∈ ityRchRegs T x.pvIty

structure TypedState (T : ItsTable) (scope : Set PvSymbol) (ρ : Region → Nat)
    (env : PvSymbol → Value) (S : Store) : Prop where
  vars : ∀ x ∈ scope, HasType T ρ (env x) x.pvIty
  regions : ∀ r, ScopeRegion T scope r → TypedRegion T ρ S r

/-- One field of one record is updated; all values are those of variables. -/
def assignStep (env : PvSymbol → Value) (S : Store) (a : Assign) : Store :=
  match env a.record with
  | .loc l => fun l' f => if l' = l ∧ f = a.field then env a.value else S l' f
  | _ => S

def assignAll (env : PvSymbol → Value) (asl : List Assign) (S : Store) : Store :=
  asl.foldl (assignStep env) S

end Mlw
end Why3
