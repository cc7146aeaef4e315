import BraceLang.Check.Stmt

/-!
Checking as a chain of states. Each equation here gives the result and the last state of an action
in terms of those of its parts; the parts of declarations and definitions that other results
start from have names of their own.
-/

namespace BraceLang.Check

/-! ### Questions about the state -/

section Questions

variable {α : Type}

theorem lookup_bind (name : String) (next : Option Symbol → Check α) (c : State) :
    (lookup name >>= next) c = next (c.env.stack.lookup name) c := rfl

theorem get_bind (next : State → Check α) (c : State) : (get >>= next) c = next c c := rfl

end Questions

/-! ### Expressions -/

theorem inferExpr_literal (pos : Position) (value : Literal) (c : State) :
    inferExpr (.literal pos value) c = (some value.type, (visit 1 c).2) := rfl

theorem inferExpr_var (pos : Position) (name : String) (c : State) :
    inferExpr (.var pos name) c = readVariable name pos false (visit 1 c).2 := rfl

theorem inferExpr_element (pos : Position) (array : String) (index : Expr) (c : State) :
    inferExpr (.element pos array index) c =
      let found := inferExpr index (visit 3 c).2
      readVariable array pos true (checkIndex index.pos found.1 found.2).2 := rfl

theorem inferExpr_unary (pos : Position) (op : UnOp) (operand : Expr) (c : State) :
    inferExpr (.unary pos op operand) c =
      let found := inferExpr operand (visit 1 c).2
      checkUnary op pos found.1 found.2 := rfl

theorem inferExpr_binary (pos : Position) (op : BinOp) (left right : Expr) (c : State) :
    inferExpr (.binary pos op left right) c =
      let leftType := inferExpr left (visit 1 c).2
      let rightType := inferExpr right leftType.2
      checkBinary op pos leftType.1 rightType.1 rightType.2 := rfl

theorem inferExpr_call (pos : Position) (callee : Located String) (args : List Expr) (c : State) :
    inferExpr (.call pos callee args) c =
      let found := inferArgs args (visit (callTokens args) c).2
      checkCall callee found.1 true found.2 := rfl

theorem inferArgs_cons (arg : Expr) (args : List Expr) (c : State) :
    inferArgs (arg :: args) c =
      let found := inferExpr arg c
      let rest := inferArgs args found.2
      ((arg.pos, found.1) :: rest.1, rest.2) := rfl

/-! ### Scopes and types -/

/-- What is left to say about a symbol is a warning. -/
theorem severity_leftover? {symbol : Symbol} {d : Diagnostic} (left : leftover? symbol = some d) :
    d.severity = .warning := by
  unfold leftover? at left
  split at left <;> split at left
  · cases left
    rfl
  · contradiction
  · cases left
    rfl
  · contradiction

theorem closeScope_eq (c : State) :
    closeScope c = match c.env.stack.scopes with
      | [] => ((), c)
      | s :: _ => sweep s.values { c with env := c.env.leave.2 } := by
  obtain ⟨⟨⟨scopes⟩, journal⟩, _⟩ := c
  cases scopes <;> rfl

theorem resolveType_eq (text : Located String) (c : State) :
    resolveType text c = match Ty.parse? text.val with
      | some t => (some t, c)
      | none => (none, (complain (.unknownType text.val) text.pos c).2) := by
  unfold resolveType
  cases Ty.parse? text.val <;> rfl

theorem resolveVariableType_eq (text : Located String) (name : String) (pos : Position)
    (c : State) :
    resolveVariableType text name pos c = match (resolveType text c).1 with
      | some .void => (none, (complain (.voidVariable name) pos (resolveType text c).2).2)
      | t => (t, (resolveType text c).2) := by
  have same (resolve : Check (Option Ty)) : (do
      match ← resolve with
      | some .void =>
          complain (.voidVariable name) pos
          return none
      | t => return t : Check (Option Ty)) c = match (resolve c).1 with
        | some .void => (none, (complain (.voidVariable name) pos (resolve c).2).2)
        | t => (t, (resolve c).2) := by
    change (match (resolve c).1 with
      | some .void => _
      | t => _ : Check (Option Ty)) (resolve c).2 = _
    cases (resolve c).1 with
    | none => rfl
    | some t => cases t <;> rfl
  exact same (resolveType text)

theorem mapM_cons_eq {α β : Type} (f : α → Check β) (a : α) (rest : List α) (c : State) :
    (a :: rest).mapM f c =
      ((f a c).1 :: (rest.mapM f (f a c).2).1, (rest.mapM f (f a c).2).2) := by
  rw [List.mapM_cons]
  rfl

/-! ### Declarations -/

/-- The type of the initial value of a declaration. -/
def initType (d : Declaration) : Check (Option Ty) :=
  match d.init with
  | none => pure none
  | some init => inferExpr init

/-- What is wrong with the initial value of a declaration. -/
def initFault? (d : Declaration) (found type? : Option Ty) : Option (Finding × Position) := do
  storeFault? (← type?) (← d.init).pos found

/-- A declaration whose initial value has been checked. -/
def declareFound (d : Declaration) (found : Option Ty) : Check Unit := do
  if ← declaredHere d.name.val then
    complain (.doubleDeclaration d.name.val) d.name.pos
  else
    let type? ← resolveVariableType d.type d.name.val d.name.pos
    complainOf (initFault? d found type?)
    let isGlobal := (← get).env.stack.isGlobal
    declareVariable d.name type? d.length false (isGlobal || d.init.isSome || d.length.isSome)

/-- How a declaration is checked before its initial value. -/
def visitDeclaration (d : Declaration) : Check Unit :=
  visit (2 + (if d.length.isSome then 3 else 0) + (if d.init.isSome then 1 else 0))

theorem checkDeclaration_eq (d : Declaration) (c : State) :
    checkDeclaration d c =
      let init := initType d (visitDeclaration d c).2
      declareFound d init.1 init.2 := by
  unfold checkDeclaration initType declareFound initFault? visitDeclaration
  cases d.init <;> rfl

theorem declareFound_eq (d : Declaration) (found : Option Ty) (c : State) :
    declareFound d found c =
      if c.env.stack.declaredHere d.name.val then
        complain (.doubleDeclaration d.name.val) d.name.pos c
      else
        let type := resolveVariableType d.type d.name.val d.name.pos c
        let next := (complainOf (initFault? d found type.1) type.2).2
        declareVariable d.name type.1 d.length false
          (next.env.stack.isGlobal || d.init.isSome || d.length.isSome) next := by
  -- The type is resolved by any action, so that comparing the two sides does not open it.
  have same (resolve : Check (Option Ty)) :
      (if c.env.stack.declaredHere d.name.val then
        complain (.doubleDeclaration d.name.val) d.name.pos
      else do
        let type? ← resolve
        complainOf (initFault? d found type?)
        let isGlobal := (← get).env.stack.isGlobal
        declareVariable d.name type? d.length false
          (isGlobal || d.init.isSome || d.length.isSome) : Check Unit) c =
      if c.env.stack.declaredHere d.name.val then
        complain (.doubleDeclaration d.name.val) d.name.pos c
      else
        let next := (complainOf (initFault? d found (resolve c).1) (resolve c).2).2
        declareVariable d.name (resolve c).1 d.length false
          (next.env.stack.isGlobal || d.init.isSome || d.length.isSome) next := by
    split <;> rfl
  exact same (resolveVariableType d.type d.name.val d.name.pos)

/-! ### Definitions -/

/-- The names of the parameters, where they have one. -/
def paramNames (h : Heading) : List (Option String) := h.params.map fun p => p.name.map (·.val)

/-- The symbol of a function that is new. -/
def headingSymbol (h : Heading) (result : Ty) (types : List Ty) (defining : Bool) : Symbol :=
  Symbol.ofFunction h.name.val result ⟨types, paramNames h, defining⟩ h.name.pos

theorem declareFunction_eq (h : Heading) (result : Ty) (types : List Ty) (defining : Bool)
    (c : State) : (declareFunction h result types defining c).2 =
      match standing h.name.val result types defining (c.env.stack.lookupGlobal h.name.val) with
      | .fresh =>
          let symbol := headingSymbol h result types defining
          { c with env := (c.env.declareGlobal h.name.val symbol).2 }
      | .fits =>
          if defining then
            { c with env := c.env.updateGlobal h.name.val (completed (paramNames h)) }
          else c
      | .conflict finding => (complain finding h.name.pos c).2 := by
  unfold declareFunction
  rw [get_bind]
  cases standing h.name.val result types defining (c.env.stack.lookupGlobal h.name.val) <;>
    cases defining <;> rfl

/-- The function that a heading with known types stands for is entered. -/
def enterFunction (h : Heading) (result? : Option Ty) (types? : List (Option Ty))
    (defining : Bool) : Check Unit :=
  match result?, types?.mapM id with
  | some result, some types => declareFunction h result types defining
  | _, _ => pure ()

theorem checkHeading_eq (h : Heading) (defining : Bool) (c : State) :
    checkHeading h defining c =
      let result := resolveType h.result (visit h.tokens c).2
      let types := paramTypes h result.2
      ((result.1, types.1), (enterFunction h result.1 types.1 defining types.2).2) := by
  have enters (result? : Option Ty) (types? : List (Option Ty)) (c : State) :
      (match result?, types?.mapM id with
        | some result, some types => do
            declareFunction h result types defining
            return (result?, types?)
        | _, _ => return (result?, types?) : Check (Option Ty × List (Option Ty))) c =
      ((result?, types?), (enterFunction h result? types? defining c).2) := by
    unfold enterFunction
    generalize types?.mapM id = known
    cases result? <;> cases known <;> rfl
  have same (resolve : Check (Option Ty)) (params : Check (List (Option Ty))) (c : State) :
      ((do
        visit h.tokens
        let result? ← resolve
        let types? ← params
        match result?, types?.mapM id with
        | some result, some types => declareFunction h result types defining
        | _, _ => pure ()
        return (result?, types?)) : Check (Option Ty × List (Option Ty))) c =
      (((resolve (visit h.tokens c).2).1, (params (resolve (visit h.tokens c).2).2).1),
        (enterFunction h (resolve (visit h.tokens c).2).1
          (params (resolve (visit h.tokens c).2).2).1 defining
          (params (resolve (visit h.tokens c).2).2).2).2) := enters _ _ _
  unfold checkHeading
  exact same (resolveType h.result) (paramTypes h) c

/-- What precedes the statements of a body: a scope with the parameters. -/
def enterBody (h : Heading) (braces : Braces) (found : Option Ty × List (Option Ty)) :
    Check Unit := do
  modify ({ · with function := some { name := h.name.val, result := found.1 } })
  openScope
  declareParams h.params found.2
  openBraces braces

/-- The part of a definition after its heading. -/
def checkBody (h : Heading) (braces : Braces) (body : List Stmt)
    (found : Option Ty × List (Option Ty)) : Check Unit := do
  let outer := (← get).function
  enterBody h braces found
  checkStmts body
  closeBraces braces
  closeScope
  let inner := (← get).function
  modify ({ · with function := outer })
  checkReturned h.name inner

theorem checkBody_eq (h : Heading) (braces : Braces) (body : List Stmt)
    (found : Option Ty × List (Option Ty)) (c : State) :
    checkBody h braces body found c =
      let entered := (enterBody h braces found c).2
      let closed := (closeScope (closeBraces braces (checkStmts body entered).2).2).2
      checkReturned h.name closed.function { closed with function := c.function } := rfl

theorem checkStmt_prototype (site : Site) (h : Heading) (c : State) :
    (checkStmt (.prototype site h) c).2 = (checkHeading h false c).2 := by
  have same (heading : Check (Option Ty × List (Option Ty))) :
      ((do let _ ← heading : Check Unit) c).2 = (heading c).2 := rfl
  exact same _

/-- The heading is checked by any action, so that comparing the two sides does not open it. -/
theorem heading_checkBody (heading : Check (Option Ty × List (Option Ty))) (h : Heading)
    (braces : Braces) (body : List Stmt) (c : State) : ((do
      let (result?, types?) ← heading
      let outer := (← get).function
      modify ({ · with function := some { name := h.name.val, result := result? } })
      openScope
      declareParams h.params types?
      openBraces braces
      checkStmts body
      closeBraces braces
      closeScope
      let inner := (← get).function
      modify ({ · with function := outer })
      checkReturned h.name inner : Check Unit)) c =
        checkBody h braces body (heading c).1 (heading c).2 := rfl

theorem checkStmt_define (h : Heading) (braces : Braces) (body : List Stmt) (c : State) :
    checkStmt (.define h braces body) c =
      checkBody h braces body (checkHeading h true c).1 (checkHeading h true c).2 :=
  heading_checkBody (checkHeading h true) h braces body c

/-! ### Other statements -/

/-- The last part of an assignment, when its value has been checked. -/
def checkTarget (target : Located String) (isElement : Bool) (valuePos : Position)
    (found : Option Ty) : Check Unit := do
  match ← lookup target.val with
  | none => complainOf (← undeclared? target.val target.pos)
  | some symbol =>
      if symbol.isFunction then complain (.notAVariable target.val) target.pos
      else
        update target.val ({ · with initialized := true })
        complainOf (assignFault? symbol target isElement valuePos found)

/-- The first part of an assignment. -/
def visitAssign (target : Located String) (index : Option Expr) (c : State) : State :=
  { (visit (2 + if index.isSome then 2 else 0) c).2 with assigning := some target.val }

theorem checkAssign_none (target : Located String) (value : Expr) (c : State) :
    checkAssign target none value c =
      let found := inferExpr value (visitAssign target none c)
      checkTarget target false value.pos found.1 { found.2 with assigning := none } := rfl

theorem checkAssign_some (target : Located String) (index value : Expr) (c : State) :
    checkAssign target (some index) value c =
      let first := inferExpr index (visitAssign target (some index) c)
      let found := inferExpr value (checkIndex index.pos first.1 first.2).2
      checkTarget target true value.pos found.1 { found.2 with assigning := none } := rfl

/-- The last part of a `return`, when its value has been checked. -/
def checkResult (pos : Position) (found : Option (Position × Option Ty)) : Check Unit := do
  match (← get).function with
  | none => complain .returnOutsideFunction pos
  | some context =>
      modify ({ · with function := some { context with returned := true } })
      complainOf (returnFault? context pos found)

theorem checkReturn_none (pos : Position) (c : State) :
    checkReturn pos none c = checkResult pos none (visit 1 c).2 := rfl

theorem checkReturn_some (pos : Position) (value : Expr) (c : State) :
    checkReturn pos (some value) c =
      let found := inferExpr value (visit 1 c).2
      checkResult pos (some (value.pos, found.1)) found.2 := rfl

theorem inBlock_eq (braces : Braces) (inside : Check Unit) (c : State) :
    inBlock braces inside c =
      closeScope (closeBraces braces (inside (openBraces braces (openScope c).2).2).2).2 := rfl

theorem checkStmt_ifThen (cond : Expr) (braces : Braces) (body : List Stmt) (c : State) :
    checkStmt (.ifThen cond braces body) c =
      inBlock braces (checkStmts body) (inferExpr cond (visit 3 c).2).2 := rfl

theorem checkStmt_ifElse (cond : Expr) (braces : Braces) (body : List Stmt)
    (elseBraces : Braces) (elseBody : List Stmt) (c : State) :
    checkStmt (.ifElse cond braces body elseBraces elseBody) c =
      inBlock elseBraces (checkStmts elseBody)
        (inBlock braces (checkStmts body) (inferExpr cond (visit 4 c).2).2).2 := rfl

theorem checkStmt_whileLoop (cond : Expr) (braces : Braces) (body : List Stmt) (c : State) :
    checkStmt (.whileLoop cond braces body) c =
      leaveLoop (inBlock braces (checkStmts body)
        (inferExpr cond (enterLoop (visit 3 c).2).2).2).2 := rfl

theorem checkStmt_forLoop (init : Option Stmt) (cond : Expr) (update : Option Stmt)
    (braces : Braces) (body : List Stmt) (c : State) :
    checkStmt (.forLoop init cond update braces body) c =
      let started := (enterLoop (checkHeader init (openScope (visit 5 c).2).2).2).2
      let bodied := (inBlock braces (checkStmts body) (inferExpr cond started).2).2
      closeScope (leaveLoop (checkHeader update bodied).2).2 := rfl

theorem checkStmt_call (site : Site) (callee : Located String) (args : List Expr) (c : State) :
    checkStmt (.call site callee args) c =
      let found := inferArgs args (visit (callTokens args) (visit 0 c).2).2
      ((), (checkCall callee found.1 false found.2).2) := rfl

theorem checkStmts_cons (x : Stmt) (rest : List Stmt) (c : State) :
    checkStmts (x :: rest) c = checkStmts rest (checkStmt x (checkTerminator x c).2).2 := rfl

end BraceLang.Check
