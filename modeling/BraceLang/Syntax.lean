import BraceLang.Position

/-!
Syntax trees. A tree is what a parser hands over: type names are still text, because deciding
whether a text names a type is part of the checking, and a missing `;` or `}` is recorded
rather than refused.

A block is spelled out in the statement that owns it, as its braces and its list of
statements, so that functions on trees recurse over statements, lists of statements and
optional statements only.
-/

namespace BraceLang

inductive UnOp where
  | neg
  | not
deriving DecidableEq, Repr

inductive BinOp where
  | add
  | sub
  | mul
  | div
  | mod
  | equal
  | notEqual
  | less
  | lessOrEqual
  | greater
  | greaterOrEqual
  | and
  | or
deriving DecidableEq, Repr

namespace UnOp

def symbol : UnOp → String
  | neg => "-"
  | not => "!"

def all : List UnOp := [neg, not]

/-- The operator a symbol stands for. -/
def ofSymbol? (s : String) : Option UnOp := all.find? (·.symbol == s)

end UnOp

namespace BinOp

def symbol : BinOp → String
  | add => "+"
  | sub => "-"
  | mul => "*"
  | div => "/"
  | mod => "%"
  | equal => "=="
  | notEqual => "!="
  | less => "<"
  | lessOrEqual => "<="
  | greater => ">"
  | greaterOrEqual => ">="
  | and => "&&"
  | or => "||"

def all : List BinOp :=
  [add, sub, mul, div, mod, equal, notEqual, less, lessOrEqual, greater, greaterOrEqual, and, or]

/-- The operator a symbol stands for. -/
def ofSymbol? (s : String) : Option BinOp := all.find? (·.symbol == s)

/-- Comparisons, whose result is a truth value. -/
def isRelational : BinOp → Bool
  | equal | notEqual | less | lessOrEqual | greater | greaterOrEqual => true
  | _ => false

def isLogical : BinOp → Bool
  | and | or => true
  | _ => false

end BinOp

/-- Literals keep the text they were written with. A number with a `.` in it is floating;
a character keeps its quotes. -/
inductive Literal where
  | number (text : String)
  | char (text : String)
  | bool (value : Bool)
deriving DecidableEq, Repr

/-- The text that stands for the literal in intermediate code. -/
def Literal.text : Literal → String
  | number text | char text => text
  | bool true => "true"
  | bool false => "false"

/-- A numeral with a point in it is floating. -/
def hasPoint (text : String) : Bool := text.toList.contains '.'

inductive Expr where
  | literal (pos : Position) (value : Literal)
  | var (pos : Position) (name : String)
  | element (pos : Position) (array : String) (index : Expr)
  | unary (pos : Position) (op : UnOp) (operand : Expr)
  | binary (pos : Position) (op : BinOp) (left right : Expr)
  | call (pos : Position) (callee : Located String) (args : List Expr)
deriving Repr, Inhabited

/-- The place an expression starts at. -/
def Expr.pos : Expr → Position
  | literal pos _ | var pos _ | element pos _ _ | unary pos _ _ | binary pos _ _ _
  | call pos _ _ => pos

/-- A variable declaration; `length` makes it an array. -/
structure Declaration where
  type : Located String
  name : Located String
  length : Option UInt32
  init : Option Expr
deriving Repr

/-- A parameter; a prototype may leave it anonymous. -/
structure Param where
  type : Located String
  name : Option (Located String)
deriving Repr

/-- What a prototype and a definition have in common. -/
structure Heading where
  result : Located String
  name : Located String
  params : List Param
deriving Repr

/-- Where a simple statement starts, and whether its `;` is there. -/
structure Site where
  pos : Position := {}
  terminated : Bool := true
deriving Repr

/-- Where a block opens, and where it closes unless its `}` is missing. -/
structure Braces where
  opened : Position := {}
  closed : Option Position := some {}
deriving Repr

inductive Stmt where
  | declare (site : Site) (decl : Declaration)
  | prototype (site : Site) (heading : Heading)
  | define (heading : Heading) (braces : Braces) (body : List Stmt)
  | assign (site : Site) (target : Located String) (index : Option Expr) (value : Expr)
  | call (site : Site) (callee : Located String) (args : List Expr)
  | block (braces : Braces) (body : List Stmt)
  | ifThen (cond : Expr) (braces : Braces) (body : List Stmt)
  | ifElse (cond : Expr) (braces : Braces) (body : List Stmt) (elseBraces : Braces)
      (elseBody : List Stmt)
  | whileLoop (cond : Expr) (braces : Braces) (body : List Stmt)
  | forLoop (init : Option Stmt) (cond : Expr) (update : Option Stmt) (braces : Braces)
      (body : List Stmt)
  | breakLoop (site : Site)
  | continueLoop (site : Site)
  | returnValue (site : Site) (value : Option Expr)
deriving Repr

/-- The site of a statement that has to end in `;`, and nothing for the others. -/
def Stmt.site? : Stmt → Option Site
  | declare site _ | prototype site _ | assign site _ _ _ | call site _ _ | breakLoop site
  | continueLoop site | returnValue site _ => some site
  | define .. | block .. | ifThen .. | ifElse .. | whileLoop .. | forLoop .. => none

/-- The grammar asks for a `;` after this statement. -/
def Stmt.needsTerminator (s : Stmt) : Bool := s.site?.isSome

/-- A whole program is its top-level statements. -/
structure Program where
  stmts : List Stmt
deriving Repr

end BraceLang
