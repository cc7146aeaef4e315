import BraceLang.Position
import BraceLang.Ty

/-!
What checking knows about a declared name.
-/

namespace BraceLang

/-- The parameters of a function. Prototypes may leave them anonymous. -/
structure Signature where
  params : List Ty
  names : List (Option String)
  /-- False while only prototypes have been seen. -/
  defined : Bool
deriving DecidableEq, Repr

inductive SymbolKind where
  | var (length : Option UInt32) (isParam : Bool)
  | fn (signature : Signature)
deriving DecidableEq, Repr

/-- A declared variable or function. -/
structure Symbol where
  name : String
  /-- The declared type; of a function, the type of its result. -/
  type : Ty
  initialized : Bool
  used : Bool
  declaredAt : Position
  kind : SymbolKind
deriving DecidableEq, Repr

namespace Symbol

/-- A variable that nothing has read yet; parameters arrive with a value. -/
def ofVariable (name : String) (type : Ty) (pos : Position) (length : Option UInt32)
    (isParam initialized : Bool) : Symbol :=
  { name, type, initialized, used := false, declaredAt := pos, kind := .var length isParam }

/-- A function that nothing has called yet. -/
def ofFunction (name : String) (result : Ty) (signature : Signature) (pos : Position) : Symbol :=
  { name, type := result, initialized := true, used := false, declaredAt := pos,
    kind := .fn signature }

def signature? (s : Symbol) : Option Signature :=
  match s.kind with
  | .fn signature => some signature
  | .var .. => none

def isFunction (s : Symbol) : Bool := s.signature?.isSome

/-- The number of elements of an array. -/
def length? (s : Symbol) : Option UInt32 :=
  match s.kind with
  | .var length _ => length
  | .fn _ => none

def isParam (s : Symbol) : Bool :=
  match s.kind with
  | .var _ isParam => isParam
  | .fn _ => false

end Symbol

end BraceLang
