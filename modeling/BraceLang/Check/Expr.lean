import BraceLang.Check.State
import BraceLang.Syntax

/-!
The types of expressions. An expression whose type cannot be told has type `none`; whoever
uses it stays silent, so that one mistake is reported once.
-/

namespace BraceLang

/-- The type of a literal is told by how it is written. -/
def Literal.type : Literal → Ty
  | number text => if hasPoint text then .double else .int
  | char _ => .char
  | bool _ => .bool

/-- A negated `double` stays one; every other operand gives an `int`. -/
def UnOp.resultType (op : UnOp) (operand : Ty) : Ty :=
  match op, operand with
  | neg, .double => .double
  | _, _ => .int

/-- The operator may be applied to an operand of this type. -/
def BinOp.admits (op : BinOp) (operand : Ty) : Bool :=
  operand.isNumeric && !(op == mod && operand == .double)

/-- Comparisons and connectives give an `int`, arithmetic the promoted type. -/
def BinOp.resultType (op : BinOp) (left right : Ty) : Option Ty :=
  if op.isRelational || op.isLogical then some .int else left.promote right

namespace Check

/-- What is wrong with reading a variable; `exempt` is its use in its own assignment. -/
def readFault? (symbol : Symbol) (isElement exempt : Bool) : Option Finding :=
  if isElement && symbol.length?.isNone then some (.notAnArray symbol.name)
  else if !symbol.initialized && !exempt then some (.uninitializedUse symbol.name)
  else none

/-- Reads a variable or an element of it. -/
def readVariable (name : String) (pos : Position) (isElement : Bool) : Check (Option Ty) := do
  match ← lookup name with
  | none =>
      complainOf (← undeclared? name pos)
      return none
  | some symbol =>
      if symbol.isFunction then
        complain (.notAVariable name) pos
        return none
      else
        let exempt := (← get).assigning == some name
        update name ({ · with used := true })
        complainOf ((readFault? symbol isElement exempt).map (·, pos))
        return some symbol.type

/-- An index has to be integral. -/
def checkIndex (pos : Position) : Option Ty → Check Unit
  | none => pure ()
  | some t => unless t.isIntegral do complain (.nonIntegerIndex t) pos

def checkUnary (op : UnOp) (pos : Position) : Option Ty → Check (Option Ty)
  | none => return none
  | some t =>
      if t.isNumeric then return some (op.resultType t)
      else do
        complain (.arithmeticTypeError op.symbol t) pos
        return none

def checkBinary (op : BinOp) (pos : Position) : Option Ty → Option Ty → Check (Option Ty)
  | some left, some right =>
      match [left, right].find? (!op.admits ·) with
      | none => return op.resultType left right
      | some t => do
          complain (.arithmeticTypeError op.symbol t) pos
          return none
  | _, _ => return none

/-- The findings for arguments that their parameters do not accept, counted from `position`. -/
def argumentFaults (name : String) : Nat → List (Position × Option Ty) → List Ty →
    List (Finding × Position)
  | position, (pos, found?) :: args, expected :: params =>
      let rest := argumentFaults name (position + 1) args params
      match found? with
      | none => rest
      | some found =>
          if expected.accepts found then rest
          else (.argumentTypeMismatch name position expected found, pos) :: rest
  | _, _, _ => []

/-- What is wrong with the arguments of a call: their number, or else their types. -/
def callFaults (callee : Located String) (args : List (Position × Option Ty)) (params : List Ty) :
    List (Finding × Position) :=
  if args.length = params.length then argumentFaults callee.val 1 args params
  else [(.arityMismatch callee.val params.length args.length, callee.pos)]

/-- Checks a call whose arguments have been checked; `isValue` if its result is used. -/
def checkCall (callee : Located String) (args : List (Position × Option Ty)) (isValue : Bool) :
    Check (Option Ty) := do
  match ← lookup callee.val with
  | none =>
      complainOf (← undeclared? callee.val callee.pos)
      return none
  | some symbol =>
      match symbol.signature? with
      | none =>
          complain (.notAFunction callee.val) callee.pos
          return none
      | some signature =>
          update callee.val ({ · with used := true })
          (callFaults callee args signature.params).forM fun (finding, pos) => complain finding pos
          if isValue && symbol.type == .void then
            complain (.voidValueUsed callee.val) callee.pos
            return none
          else return some symbol.type

/-- The tokens a call is written with beside its arguments: name, parentheses and commas. -/
def callTokens (args : List Expr) : Nat := 3 + (args.length - 1)

mutual

/-- Finds the type of an expression. -/
def inferExpr : Expr → Check (Option Ty)
  | .literal _ value => do
      visit 1
      return some value.type
  | .var pos name => do
      visit 1
      readVariable name pos false
  | .element pos array index => do
      visit 3
      checkIndex index.pos (← inferExpr index)
      readVariable array pos true
  | .unary pos op operand => do
      visit 1
      checkUnary op pos (← inferExpr operand)
  | .binary pos op left right => do
      visit 1
      let leftType ← inferExpr left
      let rightType ← inferExpr right
      checkBinary op pos leftType rightType
  | .call _ callee args => do
      visit (callTokens args)
      checkCall callee (← inferArgs args) true

/-- Finds the types of arguments, each with its place. -/
def inferArgs : List Expr → Check (List (Position × Option Ty))
  | [] => return []
  | arg :: args => do
      let found ← inferExpr arg
      return (arg.pos, found) :: (← inferArgs args)

end

end Check

end BraceLang
