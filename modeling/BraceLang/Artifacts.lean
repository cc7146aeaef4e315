import BraceLang.Compile
import BraceLang.FileTree

/-!
The artifacts of a compilation and how they are written: into a directory as files that share a
stem, `stem.ir`, `stem.opt.ir` and `stem.asm`, or into a buffer of limited size.
-/

namespace BraceLang

/-- What can go wrong when artifacts are written. -/
inductive WriteFailure where
  | directory (path : String)
  | artifact (path : String)
  /-- A buffer has no room for a whole text. -/
  | buffer
deriving DecidableEq, Repr

def WriteFailure.message : WriteFailure → String
  | directory path => "Failed to create directory: " ++ path
  | artifact path => "Failed to write artifact: " ++ path
  | buffer => "failed to write whole buffer"

/-- The artifacts of a compilation, each with the ending of its name. -/
def Compilation.artifacts (c : Compilation) : List (String × String) :=
  [("ir", c.code.render), ("opt.ir", c.optimized.render)] ++
    (c.assembly.map fun text => ("asm", text)).toList

/-- Writes artifacts one after the other; what was written before a failure stays. -/
def writeArtifacts (directory stem : String) :
    FileTree → List (String × String) → FileTree × Option WriteFailure
  | t, [] => (t, none)
  | t, (ending, contents) :: rest =>
      let path := Path.joinText directory (stem ++ "." ++ ending)
      match t.writeFile path contents with
      | none => (t, some (.artifact path))
      | some t => writeArtifacts directory stem t rest

/-- Writes the artifacts of a compilation into a directory, which is made if need be. -/
def Compilation.writeTo (c : Compilation) (t : FileTree) (directory stem : String) :
    FileTree × Option WriteFailure :=
  match t.makeDirectory directory with
  | none => (t, some (.directory directory))
  | some t => writeArtifacts directory stem t c.artifacts

/-- Writes a text into a buffer of `limit` bytes, if it has room for the whole of it. -/
def writeWithin (limit : Nat) (text : String) : Except WriteFailure String :=
  if text.utf8ByteSize ≤ limit then .ok text else .error .buffer

end BraceLang
