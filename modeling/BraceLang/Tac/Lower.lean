import BraceLang.Scope
import BraceLang.Tac.Basic

/-!
Lowering of syntax trees to three-address code.

The code of an expression is a function of the expression, of the names its variables have in
the code and of the next free temporary; statements thread the rest of the state. Code is
returned, not accumulated: the code of a whole is put together from the code of its parts.
Only function bodies are set aside, to follow the top-level code.

A declaration that hides a visible one, or that uses the name of another variable with a
different type, gets a name of its own (`x.1`, `x.2`, and so on). Nothing is checked here; a
`break` outside of a loop, for one, lowers to nothing.
-/

namespace BraceLang.Tac

/-- The code of an expression, the operand that holds its value after it, and the next free
temporary. -/
structure ExprCode where
  instrs : List Instr
  value : Operand
  next : Nat

/-- The code of a list of arguments, evaluated from the left. -/
structure ArgsCode where
  instrs : List Instr
  values : List Operand
  next : Nat

/-- A call once its arguments are there; its result is in a temporary of its own. -/
def ArgsCode.call (args : ArgsCode) (callee : String) : ExprCode :=
  ⟨args.instrs ++ [.call callee args.values ⟨args.next⟩], .temp ⟨args.next⟩, args.next + 1⟩

mutual

/-- Lowers an expression; `resolve` gives variables their names in the code. -/
def lowerExpr (resolve : String → String) : Nat → Expr → ExprCode
  | next, .literal _ value => ⟨[], .const value.text, next⟩
  | next, .var _ name => ⟨[], .var (resolve name), next⟩
  | next, .element _ array index =>
      let i := lowerExpr resolve next index
      ⟨i.instrs, .element (resolve array) i.value, i.next⟩
  | next, .unary _ op operand =>
      let a := lowerExpr resolve next operand
      ⟨a.instrs ++ [.unary op a.value (.temp ⟨a.next⟩)], .temp ⟨a.next⟩, a.next + 1⟩
  | next, .binary _ op left right =>
      let a := lowerExpr resolve next left
      let b := lowerExpr resolve a.next right
      ⟨a.instrs ++ b.instrs ++ [.binary op a.value b.value (.temp ⟨b.next⟩)], .temp ⟨b.next⟩,
        b.next + 1⟩
  | next, .call _ callee args => (lowerArgs resolve next args).call callee.val

/-- Lowers arguments from the left. -/
def lowerArgs (resolve : String → String) : Nat → List Expr → ArgsCode
  | next, [] => ⟨[], [], next⟩
  | next, arg :: args =>
      let a := lowerExpr resolve next arg
      let rest := lowerArgs resolve a.next args
      ⟨a.instrs ++ rest.instrs, a.value :: rest.values, rest.next⟩

end

namespace Lower

structure State where
  supply : Supply := {}
  /-- The name in the code of each visible variable. -/
  env : Env String := {}
  globals : List String := []
  types : Assoc String Ty := {}
  /-- How often each name has been replaced. -/
  renames : Assoc String Nat := {}
  /-- Declarations are not global for now. -/
  inFunction : Bool := false
  /-- The code of the functions lowered so far. -/
  functions : List Instr := []

/-- Where `continue` and `break` go. -/
structure Targets where
  next : Label
  stop : Label

end Lower

/-- Lowering never fails. -/
abbrev Lower := StateM Lower.State

namespace Lower

def freshLabel : Lower Label := do
  let (l, supply) := (← get).supply.label
  modify ({ · with supply })
  return l

/-- The name in the code of a variable: its own, unless it was replaced where it was declared. -/
def State.resolve (s : State) (name : String) : String := (s.env.stack.lookup name).getD name

/-- Lowers an expression at the current place. -/
def expr (e : Expr) : Lower (List Instr × Operand) := do
  let s ← get
  let code := lowerExpr s.resolve s.supply.temps e
  set { s with supply := { s.supply with temps := code.next } }
  return (code.instrs, code.value)

def call (callee : String) (args : List Expr) : Lower (List Instr) := do
  let s ← get
  let code := (lowerArgs s.resolve s.supply.temps args).call callee
  set { s with supply := { s.supply with temps := code.next } }
  return code.instrs

def openScope : Lower Unit := modify fun s => { s with env := s.env.enter }

def closeScope : Lower Unit := modify fun s => { s with env := s.env.leave.2 }

/-- The name cannot be used as it is: it hides a visible one, or another variable of that name
has a different type. -/
def State.clashes (s : State) (name : String) (type? : Option Ty) : Bool :=
  (s.env.stack.lookup name).isSome ||
    match type?, s.types.get? name with
    | some t, some other => t != other
    | _, _ => false

/-- Records a declaration and gives it its name in the code. -/
def declare (name type : String) : Lower String := do
  let s ← get
  let type? := Ty.parse? type
  let count := (s.renames.get? name).getD 0 + 1
  let clash := s.clashes name type?
  let unique := if clash then name ++ "." ++ toString count else name
  set { s with
    renames := if clash then s.renames.set name count else s.renames
    types := match type? with
      | some t => s.types.set unique t
      | none => s.types
    env := (s.env.declare name unique).2 }
  return unique

/-- A name declared outside of functions is global. -/
def declareGlobal (name : String) : Lower Unit :=
  modify fun s =>
    if s.inFunction || s.globals.contains name then s
    else { s with globals := s.globals ++ [name] }

def declaration (d : Declaration) : Lower (List Instr) := do
  -- The initial value does not see the variable it is for.
  match d.init with
  | none =>
      declareGlobal (← declare d.name.val d.type.val)
      return []
  | some init =>
      let (code, source) ← expr init
      let name ← declare d.name.val d.type.val
      declareGlobal name
      return code ++ [.copy source (.var name)]

def assignment (target : String) (index : Option Expr) (value : Expr) : Lower (List Instr) := do
  let name := (← get).resolve target
  match index with
  | none =>
      let (code, source) ← expr value
      return code ++ [.copy source (.var name)]
  | some index =>
      let (indexCode, i) ← expr index
      let (code, source) ← expr value
      return indexCode ++ code ++ [.copy source (.element name i)]

/-- Declares the named parameters and gives their names in the code. -/
def params : List Param → Lower (List String)
  | [] => return []
  | p :: rest =>
      match p.name with
      | none => params rest
      | some name => do
          let unique ← declare name.val p.type.val
          return unique :: (← params rest)

/-- Goes on at `enter` if the condition holds and at `stop` otherwise. -/
def test (cond : Expr) (enter stop : Label) : Lower (List Instr) := do
  let (code, value) ← expr cond
  return code ++ [.branch value enter, .goto stop, .label enter]

/-- Lowers the inside of a block in a scope of its own. -/
def inScope (inside : Lower (List Instr)) : Lower (List Instr) := do
  openScope
  let code ← inside
  closeScope
  return code

/-- Sets the code of a function aside. -/
def setAside (code : List Instr) : Lower Unit :=
  modify fun s => { s with functions := s.functions ++ code }

mutual

/-- Lowers a statement; `targets` are those of the innermost loop around it. -/
def stmt (targets : Option Targets) : Stmt → Lower (List Instr)
  | .declare _ decl => declaration decl
  | .prototype .. => return []
  | .define heading _ body => do
      openScope
      let names ← params heading.params
      modify ({ · with inFunction := true })
      let code ← stmts targets body
      closeScope
      modify ({ · with inFunction := false })
      setAside (.function heading.name.val names :: code)
      return []
  | .assign _ target index value => assignment target.val index value
  | .call _ callee args => call callee.val args
  | .block _ body => inScope (stmts targets body)
  | .ifThen cond _ body => do
      let (code, value) ← expr cond
      let holds ← freshLabel
      let fails ← freshLabel
      let bodyCode ← inScope (stmts targets body)
      return code ++ [.branch value holds, .goto fails, .label holds] ++ bodyCode ++ [.label fails]
  | .ifElse cond _ body _ elseBody => do
      let (code, value) ← expr cond
      let holds ← freshLabel
      let fails ← freshLabel
      let bodyCode ← inScope (stmts targets body)
      let stop ← freshLabel
      let elseCode ← inScope (stmts targets elseBody)
      return code ++ [.branch value holds, .goto fails, .label holds] ++ bodyCode ++
        [.goto stop, .label fails] ++ elseCode ++ [.label stop]
  | .whileLoop cond _ body => do
      let start ← freshLabel
      let enter ← freshLabel
      let stop ← freshLabel
      let testCode ← test cond enter stop
      let bodyCode ← inScope (stmts (some ⟨start, stop⟩) body)
      return .label start :: testCode ++ bodyCode ++ [.goto start, .label stop]
  | .forLoop init cond update _ body =>
      inScope do
        let initCode ← header targets init
        let start ← freshLabel
        let enter ← freshLabel
        let next ← freshLabel
        let stop ← freshLabel
        let testCode ← test cond enter stop
        let bodyCode ← inScope (stmts (some ⟨next, stop⟩) body)
        let updateCode ← header targets update
        return initCode ++ .label start :: testCode ++ bodyCode ++ .label next :: updateCode ++
          [.goto start, .label stop]
  | .breakLoop _ => return (targets.map fun t => Instr.goto t.stop).toList
  | .continueLoop _ => return (targets.map fun t => Instr.goto t.next).toList
  | .returnValue _ none => return [.ret none]
  | .returnValue _ (some e) => do
      let (code, value) ← expr e
      return code ++ [.ret (some value)]

/-- Lowers a part of a `for` header; the loop itself is not around it. -/
def header (targets : Option Targets) : Option Stmt → Lower (List Instr)
  | none => return []
  | some s => stmt targets s

/-- Lowers statements one after the other. -/
def stmts (targets : Option Targets) : List Stmt → Lower (List Instr)
  | [] => return []
  | s :: rest => do
      let code ← stmt targets s
      return code ++ (← stmts targets rest)

end

end Lower

end BraceLang.Tac

namespace BraceLang

/-- Lowers a program: its top-level code first, then every function in the order they end. -/
def Program.lower (p : Program) : Tac.Code × Journal :=
  let (top, s) := (do Tac.Lower.openScope; Tac.Lower.stmts none p.stmts : Tac.Lower _).run {}
  let instrs := top ++ s.functions
  ({ globals := s.globals, types := s.types, instrs },
    s.env.journal.push ⟨.debug, "generated " ++ toString instrs.length ++ " instructions"⟩)

end BraceLang
