import Why3.Core.Ty
import Why3.Library.KeyMap

/-!
Unique names for pretty printing.

The hash tables of a printer are finite maps. The search for a free index is given as many
rounds as the table has names, and one more; `none` says that they were not enough.
-/
namespace Why3
namespace IdentPrinter

def isOpchar (c : Char) : Bool := "@!^$=%>#.<-&/+?:*~|\\".toList.contains c

/-- Whether `sn_decode` makes a word of the text. What it makes of an operator is not used
by the printers. -/
def snWord (s : String) : Bool :=
  let w := s.toList
  if w.length ≤ 6 ∨ w[5]? ≠ some ' ' ∧ w[6]? ≠ some ' ' then true else
  let k := match String.ofList (w.take 6) with
    | "infix " => 6
    | "prefix" => 7
    | "mixfix" => match (w.drop 7).idxOf? ']' with
      | some i => i + 8
      | none => 0
    | _ => 0
  let l := k + ((w.drop k).takeWhile isOpchar).length
  if k = 0 ∨ l = k ∧ k < 8 then true else
  !((w.drop l).all (· == '\'') && (k < 8 || ["]", "]<-", "<-]", "..]", ".._]", "_..]"].contains
    (String.ofList ((w.take l).drop 8))))

abbrev Indices := List (String × Nat)

def specname (name : String) (ind : Nat) : String :=
  if ind = 0 then name
  else name ++ if snWord name then toString ind else String.ofList (.replicate ind '\'')

def testname (indices : Indices) (name : String) (ind : Nat) : Bool :=
  KeyMap.mem indices (specname name ind)

def advance (test : Nat → Bool) : Nat → Nat → Option Nat
  | 0, _ => none
  | n + 1, ind => if test ind then advance test n (ind + 1) else some ind

def retreat (test : Nat → Bool) : Nat → Nat
  | 0 => 0
  | 1 => 1
  | ind + 2 => if test (ind + 1) then ind + 2 else retreat test (ind + 1)

def fetch (test : Nat → Bool) (rounds ind : Nat) : Option Nat :=
  if test ind then advance test rounds (ind + 1) else some (retreat test ind)

def findUnique (indices : Indices) (name : String) : Option (Indices × String) :=
  match indices.lookup name with
  | none => some (KeyMap.add name 0 indices, name)
  | some i => do
    let ind ← fetch (testname indices name) (indices.length + 1) (i + 1)
    let name' := specname name ind
    some (KeyMap.add name' 0 (KeyMap.add name ind indices), name')

def reserve (indices : Indices) (name : String) : Option Indices :=
  (findUnique indices name).map Prod.fst

structure Printer where
  indices : Indices
  values : List (Ident × String)
  sanitizer : String → String
  blacklist : List String

def createIdentPrinter (sanitizer : String → String) (sl : List String) : Option Printer := do
  let indices ← sl.foldlM reserve []
  some ⟨indices, [], sanitizer, sl⟩

namespace Printer

variable (p : Printer)

def record (id : Ident) (name : String) : Option (Printer × String) :=
  match p.values.lookup id with
  | some name => some (p, name)
  | none => do
    let (indices, name) ← findUnique p.indices name
    some ({ p with indices := indices, values := KeyMap.add id name p.values }, name)

def idUnique (sanitizer : String → String) (id : Ident) : Option (Printer × String) :=
  p.record id (sanitizer (p.sanitizer id.idString))

end Printer

def isAlpha (c : Char) : Bool := ('A' ≤ c && c ≤ 'Z') || ('a' ≤ c && c ≤ 'z')

def isWordChar (c : Char) : Bool := isAlpha c || ('0' ≤ c && c ≤ '9') || c == '_' || c == '\''

/-- The attributes of an identifier are listed by their tags. -/
def getElementName (attrs : List String) : Option String := do
  let nameAttr ← attrs.find? (·.startsWith "name:")
  let content := nameAttr.toList.drop 5
  if content.head?.any isAlpha ∧ (content.dropWhile isWordChar).head?.all (· == '\n')
  then some (String.ofList content) else none

namespace Printer

variable (p : Printer)

def idUniqueAttr (sanitizer : String → String) (id : Ident) (attrs : List String) :
    Option (Printer × String) :=
  p.record id (sanitizer ((getElementName attrs).getD (p.sanitizer id.idString)))

def stringUnique (s : String) : Option (Printer × String) := do
  let (indices, name) ← findUnique p.indices (p.sanitizer s)
  some ({ p with indices := indices }, name)

def forgetId (id : Ident) : Printer :=
  match p.values.lookup id with
  | none => p
  | some name =>
    { p with indices := KeyMap.remove name p.indices, values := KeyMap.remove id p.values }

def forgetAll : Option Printer := createIdentPrinter p.sanitizer p.blacklist

end Printer

inductive Call where
  | idUnique (sanitizer : String → String) (id : Ident)
  | idUniqueAttr (sanitizer : String → String) (id : Ident) (attrs : List String)
  | stringUnique (s : String)
  | forgetId (id : Ident)
  | forgetAll

/-- A printer with the strings `string_unique` returned since the last `forget_all`. -/
abbrev State := Printer × List String

def exec : State → Call → Option State
  | (p, strs), .idUnique sanitizer id => (p.idUnique sanitizer id).map fun r => (r.1, strs)
  | (p, strs), .idUniqueAttr sanitizer id attrs =>
    (p.idUniqueAttr sanitizer id attrs).map fun r => (r.1, strs)
  | (p, strs), .stringUnique s => (p.stringUnique s).map fun r => (r.1, r.2 :: strs)
  | (p, strs), .forgetId id => some (p.forgetId id, strs)
  | (p, _), .forgetAll => p.forgetAll.map (·, [])

def run (sanitizer : String → String) (sl : List String) (calls : List Call) : Option State := do
  let p ← createIdentPrinter sanitizer sl
  calls.foldlM exec (p, [])

end IdentPrinter
end Why3
