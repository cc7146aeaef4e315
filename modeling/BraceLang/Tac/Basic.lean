import BraceLang.Assoc
import BraceLang.Syntax
import BraceLang.Ty

/-!
Three-address code. An instruction reads at most two operands and writes at most one
destination; control moves by labels. Temporaries and labels are numbered and written `t0`,
`l0`; names come from the program.

Data-flow questions are asked about *names*, variables and temporaries. An array element is an
operand that reads the name of its array and whatever its index reads.
-/

namespace BraceLang.Tac

/-- A jump target, written `l0`, `l1`, and so on. -/
structure Label where
  id : Nat
deriving DecidableEq, Repr

/-- A place for an intermediate value, written `t0`, `t1`, and so on. -/
structure Temp where
  id : Nat
deriving DecidableEq, Repr

def Label.render (l : Label) : String := "l" ++ toString l.id

def Temp.render (t : Temp) : String := "t" ++ toString t.id

/-- What data-flow analysis keeps track of. -/
inductive Name where
  | var (name : String)
  | temp (t : Temp)
deriving DecidableEq, Repr

def Name.render : Name → String
  | var name => name
  | temp t => t.render

inductive Operand where
  /-- A constant, as it was written. -/
  | const (text : String)
  | name (n : Name)
  | element (array : String) (index : Operand)
deriving DecidableEq, Repr

namespace Operand

@[match_pattern] abbrev var (x : String) : Operand := .name (.var x)

@[match_pattern] abbrev temp (t : Temp) : Operand := .name (.temp t)

def isConst : Operand → Bool
  | const _ => true
  | name _ | element .. => false

/-- The name, if the operand is one. -/
def name? : Operand → Option Name
  | name n => some n
  | const _ | element .. => none

/-- The operand is a name. -/
def isName (o : Operand) : Bool := o.name?.isSome

/-- The names that are read to find the operand's value, arrays before their indices. -/
def names : Operand → List Name
  | const _ => []
  | name n => [n]
  | element array index => .var array :: index.names

/-- The name takes part in the operand's value. -/
def reads (o : Operand) (n : Name) : Bool := o.names.contains n

/-- The operand `p` is a name that takes part in the value of `o`. -/
def mentions (o p : Operand) : Bool := p.name?.any o.reads

def render : Operand → String
  | const text => text
  | name n => n.render
  | element array index => array ++ "[" ++ index.render ++ "]"

end Operand

inductive Instr where
  /-- The start of a function. -/
  | function (name : String) (params : List String)
  | label (l : Label)
  | goto (target : Label)
  /-- Jumps to the target if the condition holds. -/
  | branch (cond : Operand) (target : Label)
  | copy (source result : Operand)
  | unary (op : UnOp) (operand result : Operand)
  | binary (op : BinOp) (left right result : Operand)
  | call (callee : String) (args : List Operand) (result : Temp)
  | ret (value : Option Operand)
deriving DecidableEq, Repr

namespace Instr

/-- The destination of a copy or a computation. -/
def result? : Instr → Option Operand
  | copy _ result | unary _ _ result | binary _ _ _ result => some result
  | function .. | label _ | goto _ | branch .. | call .. | ret _ => none

/-- The instruction starts or ends a basic block. -/
def isBoundary : Instr → Bool
  | function .. | label _ | goto _ | branch .. => true
  | copy .. | unary .. | binary .. | call .. | ret _ => false

def render : Instr → String
  | function name params => "function " ++ name ++ "(" ++ ", ".intercalate params ++ "):"
  | label l => l.render ++ ":"
  | goto target => "goto " ++ target.render
  | branch cond target => "if " ++ cond.render ++ " goto " ++ target.render
  | copy source result => result.render ++ " = " ++ source.render
  | unary op operand result => result.render ++ " = " ++ op.symbol ++ " " ++ operand.render
  | binary op left right result =>
      result.render ++ " = " ++ left.render ++ " " ++ op.symbol ++ " " ++ right.render
  | call callee args result =>
      result.render ++ " = call " ++ callee ++ "(" ++ ",".intercalate (args.map Operand.render) ++
        ")"
  | ret (some value) => "return " ++ value.render
  | ret none => "return"

end Instr

/-- Fresh temporaries and labels, in two independent sequences. -/
structure Supply where
  temps : Nat := 0
  labels : Nat := 0

namespace Supply

def temp (s : Supply) : Temp × Supply := (⟨s.temps⟩, { s with temps := s.temps + 1 })

def label (s : Supply) : Label × Supply := (⟨s.labels⟩, { s with labels := s.labels + 1 })

end Supply

/-- A program in three-address code: its top-level code, then every function. -/
structure Code where
  /-- The variables declared outside all functions. -/
  globals : List String := []
  /-- The declared type of each variable. A declaration that hides another has a name of its
  own, such as `x.1`, so that a name has one type. -/
  types : Assoc String Ty := {}
  instrs : List Instr := []
deriving DecidableEq

/-- One instruction a line. -/
def Code.render (c : Code) : String := String.join (c.instrs.map (·.render ++ "\n"))

end BraceLang.Tac
