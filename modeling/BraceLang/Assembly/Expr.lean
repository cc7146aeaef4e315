import BraceLang.Assembly.Storage
import BraceLang.Assoc
import BraceLang.Scope
import BraceLang.Syntax

/-!
Code for expressions. The code of an expression leaves its value in `eax` or in `st0`,
depending on its domain. A left operand waits on the processor's stack while the right one is
evaluated, so no call finds values on the x87 stack.

Calls follow the C convention: arguments are pushed from the last to the first, eight bytes
for a `double` and four for the rest, and removed by the caller; the result is in `eax`, or in
`st0` for a `double`.
-/

namespace BraceLang.Assembly

/-- How a function is called. -/
structure Convention where
  result : Ty
  params : List Ty
deriving DecidableEq, Repr

/-- What the whole program says about its functions. -/
structure Interface where
  /-- The last heading of each function at top level. -/
  conventions : Assoc String Convention := {}
  /-- The functions with a definition at top level. -/
  defined : List String := []

/-- The function whose code is being made. -/
structure Frame where
  result : Ty
  /-- Bytes taken by local variables so far. -/
  size : Nat := 0

structure State where
  env : Env Slot := {}
  /-- How many numbered jump targets are in use. -/
  labels : Nat := 0
  reservations : List Reservation := []
  /-- The floating-point constants of the `.data` section. -/
  constants : List String := []
  /-- Called functions that are not defined here. -/
  externals : List String := []
  /-- Nothing while the code is at top level. -/
  frame : Option Frame := none

abbrev Emit := StateM State

def note (event : Event) : Emit Unit := modify fun s => { s with env := s.env.note event }

def freshTarget : Emit Target := do
  let n := (← get).labels
  modify fun s => { s with labels := s.labels + 1 }
  return .numbered n

def slotOf (name : String) : Emit (Option Slot) := return (← get).env.stack.lookup name

/-- The label of the constant at a place of the `.data` section. -/
def constantLabel (i : Nat) : String := "_cd" ++ toString i

/-- The label of a floating-point constant. -/
def constant (text : String) : Emit String := do
  let s ← get
  match s.constants.idxOf? text with
  | some i => return constantLabel i
  | none =>
      set { s with constants := s.constants ++ [text] }
      return constantLabel s.constants.length

/-- A text between backquotes, where the assembler reads escapes. -/
def escaped (text : String) : String := "`" ++ text ++ "`"

/-- Drops the quotes at both ends. -/
def unquoted (text : String) : String :=
  String.ofList (((text.toList.dropWhile (· == '\'')).reverse.dropWhile (· == '\'')).reverse)

/-- How a character literal is written. -/
def charText (text : String) : String :=
  if text.toList.contains '\\' then escaped (unquoted text) else text

/-! ### Fixed sequences -/

/-- Turns the value into 0 or 1 in `eax`. -/
def truth : Domain → List Instr
  | .int => [.cmpZero, .set .ne, .widen]
  | .float => [.fldz, .fcomip, .fdrop, .set .ne, .widen]

/-- Moves `eax` to `st0`. -/
def toFloat : List Instr := [.push .eax, .fild ⟨.dword, .top, none⟩, .release 4]

/-- Moves `st0` to `eax`, rounded toward zero. -/
def toInt : List Instr := [.reserve 4, .fisttp ⟨.dword, .top, none⟩, .pop .eax]

/-- Brings the value to the domain of a type; a `bool` is 0 or 1. -/
def convert (d : Domain) (t : Ty) : List Instr :=
  if t = .bool then truth d
  else match d, t.domain with
    | .int, .float => toFloat
    | .float, .int => toInt
    | .int, .int | .float, .float => []

/-- The bytes that a pushed value takes. -/
def pushedBytes : Domain → Nat
  | .int => 4
  | .float => 8

def pushValue : Domain → List Instr
  | .int => [.push .eax]
  | .float => [.reserve 8, .fstp ⟨.qword, .top, none⟩]

def popValue : Domain → List Instr
  | .int => [.pop .eax]
  | .float => [.fld ⟨.qword, .top, none⟩, .release 8]

/-- Pops a value of either domain to `st0`. -/
def popAsFloat : Domain → List Instr
  | .int => [.fild ⟨.dword, .top, none⟩, .release 4]
  | .float => popValue .float

/-- Drops a value that nobody uses. -/
def dropValue : Domain → List Instr
  | .int => []
  | .float => [.fdrop]

def loadSlot (slot : Slot) (indexed : Bool) : List Instr :=
  match slot.type with
  | .double => [.fld (slot.mem indexed)]
  | .char => [.loadSigned (slot.mem indexed)]
  | .void | .int | .bool => [.load (slot.mem indexed)]

/-- Converts the value to the type of the slot and stores it. An index is in `ecx`, which
conversion leaves alone. -/
def storeSlot (d : Domain) (slot : Slot) (indexed : Bool) : List Instr :=
  convert d slot.type ++
    match slot.type with
    | .double => [.fstp (slot.mem indexed)]
    | .char => [.storeByte (slot.mem indexed)]
    | .void | .int | .bool => [.store (slot.mem indexed)]

/-- Puts a test of the flags into `eax`. -/
def testFlags (c : Cond) : List Instr := [.set c, .widen]

/-- An operation on `eax` and `ecx`. Connectives are not among them. -/
def integerOp : BinOp → List Instr
  | .add => [.alu .add]
  | .sub => [.alu .sub]
  | .mul => [.alu .imul]
  | .div => [.cdq, .idiv]
  | .mod => [.cdq, .idiv, .movReg .eax .edx]
  | .equal => .cmp :: testFlags .e
  | .notEqual => .cmp :: testFlags .ne
  | .less => .cmp :: testFlags .l
  | .lessOrEqual => .cmp :: testFlags .le
  | .greater => .cmp :: testFlags .g
  | .greaterOrEqual | .and | .or => .cmp :: testFlags .ge

/-- A comparison of `st0` and `st1`, which takes both. -/
def compareFloats (c : Cond) : List Instr := [.fcomip, .fdrop] ++ testFlags c

/-- A remainder is found piece by piece until it is complete. -/
def remainder (again : Target) : List Line :=
  .label again :: code [.fprem, .fnstsw, .sahf, .jp again, .fnip]

/-- An operation on `st0` and `st1`, and the domain of its result. -/
def floatOp : BinOp → Emit (List Line × Domain)
  | .add => return (code [.fpu .add], .float)
  | .sub => return (code [.fpu .sub], .float)
  | .mul => return (code [.fpu .mul], .float)
  | .div => return (code [.fpu .div], .float)
  | .mod => return (remainder (← freshTarget), .float)
  | .equal => return (code (compareFloats .e), .int)
  | .notEqual => return (code (compareFloats .ne), .int)
  | .less => return (code (compareFloats .b), .int)
  | .lessOrEqual => return (code (compareFloats .be), .int)
  | .greater => return (code (compareFloats .a), .int)
  | .greaterOrEqual | .and | .or => return (code (compareFloats .ae), .int)

/-- A connective; both operands have been evaluated. -/
def connective (op : Alu) (left right : Domain) : List Instr :=
  truth right ++ [.movReg .ecx .eax] ++ popValue left ++ truth left ++ [.alu op]

/-- An operator applied to a pushed left operand and a right operand in its place. -/
def binaryOp (op : BinOp) (left right : Domain) : Emit (List Line × Domain) :=
  match op with
  | .and => return (code (connective .and left right), .int)
  | .or => return (code (connective .or left right), .int)
  | op =>
      match left, right with
      | .int, .int => return (code ([.movReg .ecx .eax, .pop .eax] ++ integerOp op), .int)
      | left, right => do
          let widened := match right with
            | .int => toFloat
            | .float => []
          let (operation, d) ← floatOp op
          return (code (widened ++ popAsFloat left) ++ operation, d)

/-- An operator applied to a value, and the domain of the result. -/
def unaryOp : UnOp → Domain → List Instr × Domain
  | .neg, .int => ([.neg], .int)
  | .neg, .float => ([.fchs], .float)
  | .not, d => (truth d ++ [.flip], .int)

/-! ### Expressions -/

/-- A name without storage has been reported; its value is zero. -/
def noStorage (name : String) : Emit Unit := note ⟨.debug, s!"no storage for `{name}`"⟩

def literal : Literal → Emit (List Instr × Domain)
  | .number text =>
      if hasPoint text then do
        return ([.fld ⟨.qword, .label (← constant text), none⟩], .float)
      else return ([.movText .eax text], .int)
  | .bool value => return ([.movNat .eax (if value then 1 else 0)], .int)
  | .char text => return ([.movText .eax (charText text)], .int)

/-- Reads a variable, or the element of it that `ecx` is the index of. -/
def readSlot (name : String) (indexed : Bool) : Emit (List Instr × Domain) := do
  match ← slotOf name with
  | some slot => return (loadSlot slot indexed, slot.type.domain)
  | none =>
      noStorage name
      return ([.movNat .eax 0], .int)

/-- Where a call leaves its result; nowhere if the function is `void`. An unknown function
leaves an integer. -/
def Convention.domain? : Option Convention → Option Domain
  | none => some .int
  | some c => if c.result = .void then none else some c.result.domain

/-- Notes that a function has to come from elsewhere, unless it is defined. -/
def callee (iface : Interface) (name : String) : Emit Unit :=
  modify fun s =>
    if iface.defined.contains name || s.externals.contains name then s
    else { s with externals := s.externals ++ [name] }

/-- The call itself, once `bytes` bytes of arguments are on the stack. -/
def callCode (name : String) (bytes : Nat) : List Instr :=
  .call name :: if 0 < bytes then [.release bytes] else []

/-- Pushes an argument, converted to the type of its parameter if that is known. -/
def pushArg (d : Domain) : Option Ty → List Instr × Nat
  | none => (pushValue d, pushedBytes d)
  | some t => (convert d t ++ pushValue t.domain, pushedBytes t.domain)

/-- The parameters that a function is known to have. -/
def Interface.params (iface : Interface) (name : String) : List Ty :=
  ((iface.conventions.get? name).map (·.params)).getD []

variable (iface : Interface)

mutual

/-- The code of an expression and the domain of its value. -/
def expr : Expr → Emit (List Line × Domain)
  | .literal _ value => do
      let (instrs, d) ← literal value
      return (code instrs, d)
  | .var _ name => do
      let (instrs, d) ← readSlot name false
      return (code instrs, d)
  | .element _ array index => do
      let (indexCode, i) ← expr index
      let (instrs, d) ← readSlot array true
      return (indexCode ++ code (convert i .int ++ [.movReg .ecx .eax] ++ instrs), d)
  | .unary _ op operand => do
      let (operandCode, a) ← expr operand
      let (instrs, d) := unaryOp op a
      return (operandCode ++ code instrs, d)
  | .binary _ op left right => do
      let (leftCode, a) ← expr left
      let (rightCode, b) ← expr right
      let (operation, d) ← binaryOp op a b
      return (leftCode ++ code (pushValue a) ++ rightCode ++ operation, d)
  | .call _ name args => do
      callee iface name.val
      let (argsCode, bytes) ← exprArgs (iface.params name.val) args
      let lines := argsCode ++ code (callCode name.val bytes)
      match Convention.domain? (iface.conventions.get? name.val) with
      | some d => return (lines, d)
      | none => return (lines ++ code [.movNat .eax 0], .int)

/-- The code that pushes arguments, the last one first, and the bytes they take. -/
def exprArgs : List Ty → List Expr → Emit (List Line × Nat)
  | _, [] => return ([], 0)
  | params, arg :: args => do
      let (restCode, restBytes) ← exprArgs params.tail args
      let (argCode, d) ← expr arg
      let (instrs, bytes) := pushArg d params.head?
      return (restCode ++ argCode ++ code instrs, restBytes + bytes)

end

/-- A call and where it leaves its result. -/
def call (name : String) (args : List Expr) : Emit (List Line × Option Domain) := do
  callee iface name
  let (argsCode, bytes) ← exprArgs iface (iface.params name) args
  return (argsCode ++ code (callCode name bytes),
    Convention.domain? (iface.conventions.get? name))

end BraceLang.Assembly
