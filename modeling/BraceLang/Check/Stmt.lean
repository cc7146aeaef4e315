import BraceLang.Check.Expr

/-!
Checking of statements and of whole programs. Every statement leaves the scopes, the loop
count and the enclosing function as it found them, whatever is reported on the way.
-/

namespace BraceLang

/-- The sole, anonymous `void` that stands for an empty parameter list. -/
def Heading.takesVoid (h : Heading) : Bool :=
  match h.params with
  | [p] => p.name.isNone && Text.sameFolded (Text.trim p.type.val.toList) Ty.void.name.toList
  | _ => false

/-- The tokens of a heading: result, name, parentheses, parameters and commas. -/
def Heading.tokens (h : Heading) : Nat :=
  4 + h.params.length + h.params.countP (·.name.isSome) + (h.params.length - 1)

namespace Check

/-- The type a text names; a text that names none is reported. -/
def resolveType (text : Located String) : Check (Option Ty) :=
  match Ty.parse? text.val with
  | some t => return some t
  | none => do
      complain (.unknownType text.val) text.pos
      return none

/-- The type of a variable, which cannot be `void`. -/
def resolveVariableType (text : Located String) (name : String) (pos : Position) :
    Check (Option Ty) := do
  match ← resolveType text with
  | some .void =>
      complain (.voidVariable name) pos
      return none
  | t => return t

/-- What is wrong with giving a value of type `found` to a destination, if both are known. -/
def storeFault? (expected : Ty) (pos : Position) : Option Ty → Option (Finding × Position)
  | none => none
  | some found =>
      if expected.accepts found then none else some (.incompatibleType expected found, pos)

/-- Enters a variable into the current scope, unless its name is taken there or its type is
unknown. -/
def declareVariable (name : Located String) (type? : Option Ty) (length : Option UInt32)
    (isParam initialized : Bool) : Check Unit :=
  match type? with
  | none => poison name.val
  | some t => declare (Symbol.ofVariable name.val t name.pos length isParam initialized)

def checkDeclaration (d : Declaration) : Check Unit := do
  visit (2 + (if d.length.isSome then 3 else 0) + (if d.init.isSome then 1 else 0))
  let found ← match d.init with
    | none => pure none
    | some init => inferExpr init
  if ← declaredHere d.name.val then
    complain (.doubleDeclaration d.name.val) d.name.pos
  else
    let type? ← resolveVariableType d.type d.name.val d.name.pos
    complainOf do storeFault? (← type?) (← d.init).pos found
    let isGlobal := (← get).env.stack.isGlobal
    declareVariable d.name type? d.length false (isGlobal || d.init.isSome || d.length.isSome)

/-- The types of the parameters; a sole, anonymous `void` gives none. -/
def paramTypes (h : Heading) : Check (List (Option Ty)) :=
  if h.takesVoid then return []
  else h.params.mapM fun p =>
    resolveVariableType p.type ((p.name.map (·.val)).getD Ty.void.name) p.type.pos

/-- How a heading stands to what is known of its name. -/
inductive Standing where
  /-- The name is new. -/
  | fresh
  /-- The heading fits the function that the name stands for. -/
  | fits
  | conflict (finding : Finding)

/-- Compares a heading with what its name stands for in the global scope. -/
def standing (name : String) (result : Ty) (types : List Ty) (defining : Bool) :
    Option Symbol → Standing
  | none => .fresh
  | some symbol =>
      match symbol.kind with
      | .var .. => .conflict (.doubleDeclaration name)
      | .fn signature =>
          if symbol.type ≠ result ∨ signature.params ≠ types then
            .conflict (.incompatibleSignature name)
          else if defining && signature.defined then .conflict (.functionRedefinition name)
          else .fits

/-- A definition settles the names of the parameters. -/
def completed (names : List (Option String)) (symbol : Symbol) : Symbol :=
  match symbol.kind with
  | .fn signature => { symbol with kind := .fn { signature with names, defined := true } }
  | .var .. => symbol

/-- Enters a function into the global scope, or compares it with what is there. -/
def declareFunction (h : Heading) (result : Ty) (types : List Ty) (defining : Bool) :
    Check Unit := do
  let name := h.name.val
  let names := h.params.map fun p => p.name.map (·.val)
  match standing name result types defining ((← get).env.stack.lookupGlobal name) with
  | .fresh =>
      let symbol := Symbol.ofFunction name result ⟨types, names, defining⟩ h.name.pos
      modify fun s => { s with env := (s.env.declareGlobal name symbol).2 }
  | .fits =>
      if defining then modify fun s => { s with env := s.env.updateGlobal name (completed names) }
  | .conflict finding => complain finding h.name.pos

/-- Checks a heading and enters it if all its types are known. The types are handed back for
the body. -/
def checkHeading (h : Heading) (defining : Bool) : Check (Option Ty × List (Option Ty)) := do
  visit h.tokens
  let result? ← resolveType h.result
  let types? ← paramTypes h
  match result?, types?.mapM id with
  | some result, some types => declareFunction h result types defining
  | _, _ => pure ()
  return (result?, types?)

/-- Enters the named parameters into the scope of the body. -/
def declareParams : List Param → List (Option Ty) → Check Unit
  | p :: params, type? :: types => do
      match p.name with
      | none => pure ()
      | some name =>
          if ← declaredHere name.val then complain (.doubleDeclaration name.val) name.pos
          else declareVariable name type? none true true
      declareParams params types
  | _, _ => pure ()

/-- A function that returns a value has to contain a `return`. -/
def checkReturned (name : Located String) : Option Context → Check Unit
  | some ⟨_, some result, false⟩ =>
      unless result == .void do complain (.missingReturn name.val result) name.pos
  | _ => pure ()

/-- What is wrong with storing a value of type `found` into the target of an assignment. -/
def assignFault? (symbol : Symbol) (target : Located String) (isElement : Bool)
    (valuePos : Position) (found : Option Ty) : Option (Finding × Position) :=
  if isElement && symbol.length?.isNone then some (.notAnArray target.val, target.pos)
  else storeFault? symbol.type valuePos found

def checkAssign (target : Located String) (index : Option Expr) (value : Expr) : Check Unit := do
  visit (2 + (if index.isSome then 2 else 0))
  modify ({ · with assigning := some target.val })
  match index with
  | none => pure ()
  | some index => checkIndex index.pos (← inferExpr index)
  let found ← inferExpr value
  modify ({ · with assigning := none })
  match ← lookup target.val with
  | none => complainOf (← undeclared? target.val target.pos)
  | some symbol =>
      if symbol.isFunction then complain (.notAVariable target.val) target.pos
      else
        update target.val ({ · with initialized := true })
        complainOf (assignFault? symbol target index.isSome value.pos found)

/-- What is wrong with a `return`; `value` is the place and type of what it carries. -/
def returnFault? (context : Context) (pos : Position) :
    Option (Position × Option Ty) → Option (Finding × Position)
  | none =>
      match context.result with
      | none | some .void => none
      | some result => some (.missingReturnValue context.name result, pos)
  | some (valuePos, found) =>
      match context.result with
      | none => none
      | some .void => some (.unexpectedReturnValue context.name, pos)
      | some result => storeFault? result valuePos found

def checkReturn (pos : Position) (value : Option Expr) : Check Unit := do
  visit 1
  let found ← match value with
    | none => pure none
    | some e => do pure (some (e.pos, ← inferExpr e))
  match (← get).function with
  | none => complain .returnOutsideFunction pos
  | some context =>
      modify ({ · with function := some { context with returned := true } })
      complainOf (returnFault? context pos found)

/-- `break` and `continue` belong into loops. -/
def checkInLoop (finding : Finding) (pos : Position) : Check Unit := do
  visit 1
  if (← get).loops = 0 then complain finding pos

def enterLoop : Check Unit := modify fun s => { s with loops := s.loops + 1 }

def leaveLoop : Check Unit := modify fun s => { s with loops := s.loops - 1 }

/-- The braces of a block are tokens of its own. -/
def openBraces (b : Braces) : Check Unit := visit (1 + if b.closed.isSome then 1 else 0)

/-- A `}` that is missing is reported where the block opens. -/
def closeBraces (b : Braces) : Check Unit :=
  if b.closed.isNone then complain (.missingToken "\x7d") b.opened else pure ()

/-- The `;` of a statement that needs one is a token of its own, or reported as missing. -/
def checkTerminator (s : Stmt) : Check Unit :=
  match s.site? with
  | none => pure ()
  | some site =>
      if site.terminated then
        modify fun st => { st with stats := { st.stats with tokens := st.stats.tokens + 1 } }
      else complain (.missingToken ";") site.pos

/-- Checks the inside of a block between its braces, in a scope of its own. -/
def inBlock (braces : Braces) (inside : Check Unit) : Check Unit := do
  openScope
  openBraces braces
  inside
  closeBraces braces
  closeScope

mutual

/-- Checks a statement apart from its `;`. -/
def checkStmt : Stmt → Check Unit
  | .declare _ decl => checkDeclaration decl
  | .prototype _ heading => do
      let _ ← checkHeading heading false
  | .define heading braces body => do
      let (result?, types?) ← checkHeading heading true
      let outer := (← get).function
      modify ({ · with function := some { name := heading.name.val, result := result? } })
      openScope
      declareParams heading.params types?
      openBraces braces
      checkStmts body
      closeBraces braces
      closeScope
      let inner := (← get).function
      modify ({ · with function := outer })
      checkReturned heading.name inner
  | .assign _ target index value => checkAssign target index value
  | .call _ callee args => do
      visit 0
      visit (callTokens args)
      let _ ← checkCall callee (← inferArgs args) false
  | .block braces body => inBlock braces (checkStmts body)
  | .ifThen cond braces body => do
      visit 3
      let _ ← inferExpr cond
      inBlock braces (checkStmts body)
  | .ifElse cond braces body elseBraces elseBody => do
      visit 4
      let _ ← inferExpr cond
      inBlock braces (checkStmts body)
      inBlock elseBraces (checkStmts elseBody)
  | .whileLoop cond braces body => do
      visit 3
      enterLoop
      let _ ← inferExpr cond
      inBlock braces (checkStmts body)
      leaveLoop
  | .forLoop init cond update braces body => do
      visit 5
      openScope
      checkHeader init
      enterLoop
      let _ ← inferExpr cond
      inBlock braces (checkStmts body)
      checkHeader update
      leaveLoop
      closeScope
  | .breakLoop site => checkInLoop .breakOutsideLoop site.pos
  | .continueLoop site => checkInLoop .continueOutsideLoop site.pos
  | .returnValue site value => checkReturn site.pos value

/-- Checks a part of a `for` header, which has no `;` of its own. -/
def checkHeader : Option Stmt → Check Unit
  | none => pure ()
  | some s => checkStmt s

/-- Checks statements one after the other. -/
def checkStmts : List Stmt → Check Unit
  | [] => pure ()
  | s :: rest => do
      checkTerminator s
      checkStmt s
      checkStmts rest

end

/-- Checks a whole program in a fresh global scope. -/
def checkProgram (p : Program) : Check Unit := do
  visit 0
  openScope
  checkStmts p.stmts
  sweep (← get).env.stack.values
  modify fun s => { s with env := s.env.leave.2 }

end Check

/-- What checking a program yields. -/
structure Checked where
  diagnostics : Diagnostics
  stats : Statistics
  journal : Journal

/-- The line that the journal gets when the checking is over. -/
def Checked.summary (diagnostics : Diagnostics) (stats : Statistics) : Event :=
  ⟨.info, "semantic analysis: " ++ toString stats.nodes ++ " nodes, " ++ toString stats.tokens ++
    " tokens, " ++ toString diagnostics.errorCount ++ " errors, " ++
    toString diagnostics.warningCount ++ " warnings"⟩

/-- Checks a program; the findings are added to `log`. -/
def Program.check (p : Program) (log : Diagnostics := {}) : Checked :=
  let s := ((Check.checkProgram p).run { diagnostics := log }).2
  { diagnostics := s.diagnostics, stats := s.stats,
    journal := s.env.journal.push (Checked.summary s.diagnostics s.stats) }

end BraceLang
