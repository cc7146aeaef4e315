import BraceLang.Assembly.Expr

/-!
Code for statements. Between two statements the processor's stack is as the unit found it and
the x87 stack is empty. Making code fails only where the frame of a function does not fit; what
was noted before that stays in the journal.
-/

namespace BraceLang.Assembly

/-- Making code for statements may fail; the state outlives the failure. -/
abbrev EmitStmt := ExceptT Fault Emit

/-- Where `continue` and `break` go. -/
structure Targets where
  next : Target
  stop : Target

/-- The type a text names. A text that names none has been reported and counts as `int`. -/
def typeOf (text : String) : Ty := (Ty.parse? text).getD .int

/-- The type of a variable; `void` has been reported and counts as `int`. -/
def variableType (text : String) : Ty :=
  match typeOf text with
  | .void => .int
  | t => t

def openScope : Emit Unit := modify fun s => { s with env := s.env.enter }

def closeScope : Emit Unit := modify fun s => { s with env := s.env.leave.2 }

def declareSlot (name : String) (slot : Slot) : Emit Unit :=
  modify fun s => { s with env := (s.env.declare name slot).2 }

/-- Finds storage for a variable: in the frame, or in a reservation at top level. -/
def allocate (name : String) (t : Ty) (length : Option UInt32) : EmitStmt Slot := do
  let count := max ((length.map UInt32.toNat).getD 1) 1
  let s ← get
  match s.frame with
  | some frame =>
      let (size, offset) ← growFrame frame.size t count
      set { s with frame := some { frame with size } }
      return ⟨t, .frame offset⟩
  | none =>
      let (label, reservations) := reserveSpace s.reservations name t count
      set { s with reservations }
      return ⟨t, .global label⟩

variable (iface : Interface)

def declaration (d : Declaration) : EmitStmt (List Line) := do
  let t := variableType d.type.val
  -- The initial value does not see the variable it is for.
  match d.init with
  | none =>
      declareSlot d.name.val (← allocate d.name.val t d.length)
      return []
  | some init =>
      let (lines, domain) ← expr iface init
      let slot ← allocate d.name.val t d.length
      declareSlot d.name.val slot
      return lines ++ code (storeSlot domain slot false)

def assignment (target : String) (index : Option Expr) (value : Expr) : Emit (List Line) := do
  match ← slotOf target, index with
  | some slot, none =>
      let (lines, d) ← expr iface value
      return lines ++ code (storeSlot d slot false)
  | some slot, some index =>
      let (indexLines, i) ← expr iface index
      let (lines, d) ← expr iface value
      return indexLines ++ code (convert i .int ++ [.push .eax]) ++ lines ++
        code (.pop .ecx :: storeSlot d slot true)
  | none, _ =>
      noStorage target
      let (lines, d) ← expr iface value
      return lines ++ code (dropValue d)

def callStmt (name : String) (args : List Expr) : Emit (List Line) := do
  let (lines, d?) ← call iface name args
  return lines ++ code (d?.elim [] dropValue)

/-- The value that a unit returns if nothing else does. -/
def defaultValue : Ty → List Instr
  | .double => [.fldz]
  | .void | .int | .char | .bool => [.movNat .eax 0]

/-- Leaves the result in its place and goes to the end of the unit. The top-level code returns
an `int`. -/
def returnStmt (value : Option Expr) : Emit (List Line) := do
  let result := ((← get).frame.map (·.result)).getD .int
  let lines ← match value with
    | some e => do
        let (lines, d) ← expr iface e
        pure (lines ++ code (if result = .void then dropValue d else convert d result))
    | none => pure (code (if result = .void then [] else defaultValue result))
  return lines ++ code [.jmp .exit]

/-- Evaluates a condition and goes to `target` if it does not hold. -/
def jumpUnless (cond : Expr) (target : Target) : Emit (List Line) := do
  let (lines, d) ← expr iface cond
  let test := match d with
    | .int => []
    | .float => truth .float
  return lines ++ code (test ++ [.cmpZero, .je target])

/-- Makes code in a scope of its own. -/
def inScope (inside : EmitStmt (List Line)) : EmitStmt (List Line) := do
  openScope
  let lines ← inside
  closeScope
  return lines

mutual

/-- The code of a statement; `targets` are those of the innermost loop around it. Functions
have code of their own elsewhere. -/
def stmt (targets : Option Targets) : Stmt → EmitStmt (List Line)
  | .declare _ decl => declaration iface decl
  | .prototype .. | .define .. => return []
  | .assign _ target index value => assignment iface target.val index value
  | .call _ callee args => callStmt iface callee.val args
  | .block _ body => inScope (stmts targets body)
  | .ifThen cond _ body => do
      let fails ← freshTarget
      let test ← jumpUnless iface cond fails
      let lines ← inScope (stmts targets body)
      return test ++ lines ++ [.label fails]
  | .ifElse cond _ body _ elseBody => do
      let fails ← freshTarget
      let test ← jumpUnless iface cond fails
      let lines ← inScope (stmts targets body)
      let stop ← freshTarget
      let elseLines ← inScope (stmts targets elseBody)
      return test ++ lines ++ [.instr (.jmp stop), .label fails] ++ elseLines ++ [.label stop]
  | .whileLoop cond _ body => do
      let start ← freshTarget
      let stop ← freshTarget
      let test ← jumpUnless iface cond stop
      let lines ← inScope (stmts (some ⟨start, stop⟩) body)
      return .label start :: test ++ lines ++ [.instr (.jmp start), .label stop]
  | .forLoop init cond update _ body =>
      inScope do
        let initLines ← header targets init
        let start ← freshTarget
        let next ← freshTarget
        let stop ← freshTarget
        let test ← jumpUnless iface cond stop
        let lines ← inScope (stmts (some ⟨next, stop⟩) body)
        let updateLines ← header targets update
        return initLines ++ .label start :: test ++ lines ++ .label next :: updateLines ++
          [.instr (.jmp start), .label stop]
  | .breakLoop _ => return code (targets.map fun t => Instr.jmp t.stop).toList
  | .continueLoop _ => return code (targets.map fun t => Instr.jmp t.next).toList
  | .returnValue _ value => returnStmt iface value

/-- A part of a `for` header; the loop itself is not around it. -/
def header (targets : Option Targets) : Option Stmt → EmitStmt (List Line)
  | none => return []
  | some s => stmt targets s

/-- The code of statements one after the other. -/
def stmts (targets : Option Targets) : List Stmt → EmitStmt (List Line)
  | [] => return []
  | s :: rest => do
      let lines ← stmt targets s
      return lines ++ (← stmts targets rest)

end

end BraceLang.Assembly
