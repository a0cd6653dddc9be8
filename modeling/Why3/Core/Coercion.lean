import Why3.Core.Term
import Why3.Library.Except
import Why3.Library.TagMap

/-!
Implicit coercions.

A coercion map has, for a source and a target type symbol, at most one coercion:
a function of the theory or the composition of two coercions. `add` extends the
map by a function and closes it under composition; the two folds of the source
run over a map that they extend, in the order of the tags of the type symbols.
-/
namespace Why3

abbrev Mts (β : Type) := TagMap (fun ts : TySymbol => ts.tsName.idTag) β

inductive CoercionKind where
  | crcLeaf (ls : LSymbol)
  | crcComp (k₁ k₂ : CoercionKind)
deriving DecidableEq, Repr

structure Coercion where
  crcKind : CoercionKind
  crcSrcTs : TySymbol
  crcSrcTl : List Ty
  crcTarTs : TySymbol
  crcTarTl : List Ty
deriving DecidableEq, Repr

namespace Coercion

abbrev Map := Mts (Mts Coercion)

inductive Error where
  | notACoercion (ls : LSymbol)
  | coercionCycle (crc : Coercion)
  | coercionAlreadyDefined (crc : Coercion)
deriving DecidableEq

def createCrc (ls : LSymbol) : Except Error Coercion :=
  match ls.lsArgs, ls.lsValue with
  | [.tyapp ts₁ tl₁], some (.tyapp ts₂ tl₂) =>
    if ts₁ = ts₂ then .error (.notACoercion ls)
    else .ok ⟨.crcLeaf ls, ts₁, tl₁, ts₂, tl₂⟩
  | _, _ => .error (.notACoercion ls)

variable (crcmap : Map)

def findCrc (ts₁ ts₂ : TySymbol) : Option Coercion :=
  match crcmap.find? ts₁ with
  | some m => m.find? ts₂
  | none => none

def mem (ts₁ ts₂ : TySymbol) : Bool :=
  match crcmap.find? ts₁ with
  | some m => m.mem ts₂
  | none => false

/-! Lookup by types: the arguments of the type symbols must not clash. -/

inductive FindError where
  | notFound
  | invalidArgument
deriving DecidableEq

mutual
def mayMatch : Ty → Ty → Except FindError Unit
  | .tyapp ts₁ tl₁, .tyapp ts₂ tl₂ =>
    if ts₁ = ts₂ then mayMatchList tl₁ tl₂ else .error .notFound
  | _, _ => .ok ()
def mayMatchList : List Ty → List Ty → Except FindError Unit
  | [], [] => .ok ()
  | t₁ :: l₁, t₂ :: l₂ => do
    mayMatch t₁ t₂
    mayMatchList l₁ l₂
  | _, _ => .error .invalidArgument
end

def lsListOf (acc : List LSymbol) : CoercionKind → List LSymbol
  | .crcLeaf ls => ls :: acc
  | .crcComp k₁ k₂ => lsListOf (lsListOf acc k₂) k₁

def find : Ty → Ty → Except FindError (List LSymbol)
  | .tyapp ts₁ tl₁, .tyapp ts₂ tl₂ =>
    match findCrc crcmap ts₁ ts₂ with
    | none => .error .notFound
    | some crc => do
      mayMatchList tl₁ crc.crcSrcTl
      mayMatchList tl₂ crc.crcTarTl
      .ok (lsListOf [] crc.crcKind)
  | _, _ => .error .notFound

/-! Extension of the map. -/

def ckEq : CoercionKind → CoercionKind → Bool
  | .crcLeaf lsOld, .crcLeaf lsNew => lsOld = lsNew
  | .crcComp o₁ o₂, .crcComp n₁ n₂ => ckEq o₁ n₁ && ckEq o₂ n₂
  | _, _ => false

def replace (crcOld crcNew : Coercion) (m : Map) : Except Error Map :=
  if ckEq crcOld.crcKind crcNew.crcKind then .ok m
  else .error (.coercionAlreadyDefined crcOld)

def insert (crc : Coercion) (m : Map) : Except Error Map :=
  match findCrc m crc.crcTarTs crc.crcSrcTs with
  | some back => .error (.coercionCycle back)
  | none =>
    let m₁ := (m.find? crc.crcSrcTs).getD .empty
    match m₁.find? crc.crcTarTs with
    | some old => replace old crc m
    | none => .ok (m.add crc.crcSrcTs (m₁.add crc.crcTarTs crc))

def compose (crc₁ crc₂ : Coercion) : Coercion where
  crcKind := .crcComp crc₁.crcKind crc₂.crcKind
  crcSrcTs := crc₁.crcSrcTs
  crcSrcTl := crc₁.crcSrcTl
  crcTarTs := crc₂.crcTarTs
  crcTarTl := crc₂.crcTarTl

def closeRight (c₁ : Coercion) (macc : Map) (x : TySymbol × Coercion) : Except Error Map :=
  insert (compose c₁ x.2) macc

def closeLeftRight (crc : Coercion) (macc : Map) (x : TySymbol × Mts Coercion) :
    Except Error Map :=
  match x.2.find? crc.crcSrcTs with
  | some c₁ =>
    let m₂ := (macc.find? crc.crcTarTs).getD .empty
    (m₂.add crc.crcTarTs crc).bindings.foldlM (closeRight c₁) macc
  | none => .ok macc

def addCrc (crc : Coercion) : Except Error Map := do
  let uc₁ ← insert crc crcmap
  let m₁ := (uc₁.find? crc.crcTarTs).getD .empty
  let uc₂ ← m₁.bindings.foldlM (closeRight crc) uc₁
  uc₂.bindings.foldlM (closeLeftRight crc) uc₂

def add (ls : LSymbol) : Except Error Map := do
  let crc ← createCrc ls
  addCrc crcmap crc

/-- The union adds the functions of the second map again and skips its compositions. -/
def unionLeaf (x : TySymbol × Coercion) : Except Error Map :=
  match x.2.crcKind with
  | .crcLeaf _ => addCrc crcmap x.2
  | .crcComp _ _ => .ok crcmap

def union (crcmap₁ crcmap₂ : Map) : Except Error Map :=
  crcmap₂.bindings.foldlM (fun crcmap x => x.2.bindings.foldlM unionLeaf crcmap) crcmap₁

end Coercion

end Why3
