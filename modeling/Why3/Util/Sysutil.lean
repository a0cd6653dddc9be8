import Mathlib

/-!
File names relative to a session directory, on a Unix file system.

A file name is the list of its components, separated by one slash, and starts at the root or
in the current directory. `Filename` is the module of the standard library.
-/
namespace Why3

structure FileName where
  absolute : Bool
  comps : List String
deriving DecidableEq

namespace Filename

def currentDirName : String := "."

def parentDirName : String := ".."

def dirname (f : FileName) : FileName :=
  if !f.absolute ∧ f.comps.length ≤ 1 then ⟨false, [currentDirName]⟩
  else { f with comps := f.comps.dropLast }

def basename (f : FileName) : String := f.comps.getLast?.getD "/"

def concat (dir : FileName) (x : String) : FileName := { dir with comps := dir.comps ++ [x] }

end Filename

/-- Directories are given by the way to them from the root. There are no symbolic links. -/
structure FileSystem where
  cwd : List String
  isDir : List String → Bool

namespace FileSystem

open Filename

def enter (dir : List String) (x : String) : List String :=
  if x = currentDirName then dir else if x = parentDirName then dir.dropLast else dir ++ [x]

/-- The file a name denotes: its components entered one by one. -/
def denote (fs : FileSystem) (f : FileName) : List String :=
  f.comps.foldl enter (if f.absolute then [] else fs.cwd)

end FileSystem

namespace Sysutil

open Filename

/-- The loop of `system_independent_path_of_file`; each round shortens the name. -/
def pathOfFile : Nat → List String → FileName → List String
  | 0, acc, _ => acc
  | n + 1, acc, f =>
    if dirname f = ⟨false, [currentDirName]⟩ then basename f :: acc
    else if f = dirname f then acc
    else pathOfFile n (basename f :: acc) (dirname f)

def systemIndependentPathOfFile (f : FileName) : List String :=
  pathOfFile (f.comps.length + 1) [] f

def isRegularDir (fs : FileSystem) (fn : FileName) : Bool := fs.isDir (fs.denote fn)

def systemDependentAbsolutePath (fs : FileSystem) : FileName → List String → FileName
  | dir, [] => dir
  | dir, x :: xs =>
    if x = parentDirName ∧ isRegularDir fs dir then
      systemDependentAbsolutePath fs (dirname dir) xs
    else systemDependentAbsolutePath fs (concat dir x) xs

def aux2 : List String → List String → List String → List String
  | _, rel, [] => rel
  | abs, rel, x :: rb =>
    if x = currentDirName then aux2 abs rel rb
    else if x = parentDirName then
      match abs with
      | y :: rem => aux2 rem (y :: rel) rb
      | [] => aux2 [] rel rb
    else aux2 (x :: abs) (parentDirName :: rel) rb

def aux : List String → List String → List String → List String
  | abs, x :: rb, y :: rf => if x = y then aux (x :: abs) rb rf else aux2 abs (y :: rf) (x :: rb)
  | abs, ab, af => aux2 abs af ab

def relativizeFilename (base f : FileName) : List String :=
  aux [] (systemIndependentPathOfFile base) (systemIndependentPathOfFile f)

end Sysutil
end Why3
