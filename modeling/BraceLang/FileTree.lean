/-!
Directories and files around a current directory, with what can go wrong when files are
written: a directory cannot stand where a file does, a file needs an existing directory around
it and cannot stand where a directory does, and names and path texts have a longest length.

Places outside of the current directory can be named, by `..` or from the root. Nothing is
known to stand there at first, apart from the directories themselves that lead up.
-/

namespace BraceLang

/-- A place, seen from the current directory: names downwards, with as many `..` before them as
lead up. A place that is counted from the root starts with `/`. -/
abbrev Path := List String

namespace Path

/-- The steps that a path text describes. Slashes divide it; empty parts and `.` lead nowhere. -/
def steps (parts : List String) : List String := parts.filter fun part => part != "" && part != "."

/-- Where a path text starts: at the root if its first character is a slash. -/
def start (text : String) : Path := if text.toList.head? = some '/' then ["/"] else []

/-- The place around a place. The root is around itself. -/
def up (p : Path) : Path :=
  if p = ["/"] then p
  else if p.all (· == "..") then p ++ [".."]
  else p.dropLast

/-- The place is the current directory or below it. -/
def isInside (p : Path) : Bool :=
  match p with
  | [] => true
  | name :: _ => name != ".." && name != "/"

def render (p : Path) : String := "/".intercalate p

/-- The text of a path below a directory, as it is written: nothing is simplified, and a path
that starts with a slash stands for itself. -/
def joinText (directory name : String) : String :=
  if name.toList.head? = some '/' || directory.isEmpty then name
  else if directory.toList.getLast? = some '/' then directory ++ name
  else directory ++ "/" ++ name

/-- A text that can be looked up as a path: shorter than 4096 bytes, without a NUL. -/
def isText (text : String) : Bool := text.utf8ByteSize < 4096 && !text.toList.contains '\x00'

/-- A part of a path text that can name a file or directory. -/
def isName (part : String) : Bool :=
  part != "" && part != "." && part != ".." && part.utf8ByteSize ≤ 255

/-- The text ends in a `.` of its own, up to slashes. -/
def endsInDot (text : String) : Bool := ((text.splitOn "/").filter (· != "")).getLast? == some "."

end Path

/-- What stands in a directory, one entry after the other. -/
inductive FileTree where
  | nil
  | file (name contents : String) (rest : FileTree)
  | directory (name : String) (inner rest : FileTree)
deriving DecidableEq, Repr, Inhabited

/-- What stands under a name. -/
inductive FileEntry where
  | file (contents : String)
  | directory (inner : FileTree)
deriving DecidableEq, Repr

/-- The entry under its name, before other entries. -/
def FileEntry.named (e : FileEntry) (name : String) (rest : FileTree) : FileTree :=
  match e with
  | file contents => .file name contents rest
  | directory inner => .directory name inner rest

namespace FileTree

/-- What stands under a name in the directory itself. -/
def get? (key : String) : FileTree → Option FileEntry
  | nil => none
  | file name contents rest => if name = key then some (.file contents) else get? key rest
  | directory name inner rest => if name = key then some (.directory inner) else get? key rest

/-- Puts an entry under a name, in the place of the one that is there. -/
def set (key : String) (e : FileEntry) : FileTree → FileTree
  | nil => e.named key nil
  | file name contents rest =>
      if name = key then e.named key rest else file name contents (set key e rest)
  | directory name inner rest =>
      if name = key then e.named key rest else directory name inner (set key e rest)

/-- What stands at a path. -/
def find? : FileTree → Path → Option FileEntry
  | t, [] => some (.directory t)
  | t, name :: rest =>
      match t.get? name with
      | none => none
      | some (.directory inner) => inner.find? rest
      | some (.file contents) => if rest.isEmpty then some (.file contents) else none

/-- Puts an entry at a path. Directories on the way are made; a file on the way stays. -/
def put (e : FileEntry) : FileTree → Path → FileTree
  | t, [] => t
  | t, [name] => t.set name e
  | t, name :: rest =>
      match t.get? name with
      | none => t.set name (.directory (put e nil rest))
      | some (.directory inner) => t.set name (.directory (put e inner rest))
      | some (.file _) => t

/-- The files of a directory at a place, with their contents. -/
def filesAt (here : Path) : FileTree → List (Path × String)
  | nil => []
  | file name contents rest => (here ++ [name], contents) :: filesAt here rest
  | directory name inner rest => filesAt (here ++ [name]) inner ++ filesAt here rest

/-- The files in the current directory and below it. -/
def files (t : FileTree) : List (Path × String) := (t.filesAt []).filter fun (p, _) => p.isInside

/-- Goes one step to a directory; it is made if it is not there and `make` is set. -/
def step (make : Bool) (t : FileTree) (here : Path) (part : String) : Option (FileTree × Path) :=
  if part = ".." then some (t, here.up)
  else
    let p := here ++ [part]
    match t.find? p with
    | some (.directory _) => some (t, p)
    | some (.file _) => none
    | none => if make && Path.isName part then some (t.put (.directory nil) p, p) else none

/-- Goes several steps. -/
def walk (make : Bool) : FileTree → Path → List String → Option (FileTree × Path)
  | t, here, [] => some (t, here)
  | t, here, part :: rest =>
      match t.step make here part with
      | none => none
      | some (t, here) => walk make t here rest

/-- Makes a directory and those around it, as far as they are not there. A directory that the
text names by a `.` in it has to be there already. -/
def makeDirectory (t : FileTree) (text : String) : Option FileTree := do
  guard (Path.isText text)
  let steps := Path.steps (text.splitOn "/")
  let made := if Path.endsInDot text then steps.dropLast else steps
  let (t, here) ← t.walk true (Path.start text) made
  let (t, _) ← t.walk false here (steps.drop made.length)
  return t

/-- Writes a file, in the place of one that is there. -/
def writeFile (t : FileTree) (text contents : String) : Option FileTree := do
  guard (Path.isText text)
  let parts := text.splitOn "/"
  let name ← parts.getLast?
  guard (Path.isName name)
  let (t, here) ← t.walk false (Path.start text) (Path.steps parts.dropLast)
  match t.find? (here ++ [name]) with
  | some (.directory _) => none
  | some (.file _) | none => return t.put (.file contents) (here ++ [name])

end FileTree

end BraceLang
