import BraceLang.Proofs.Check.Growth

/-!
The rules that a program has to follow, said without the checker: what names stand for, which
types expressions have, and which statements are legal where they stand.

A variable carries with it whether it has a value. It has one from the start if it is a parameter
or an array, if it is declared with an initial value, or if it is declared in the global scope
itself; and it has one from its first assignment on, in the order of the text, where the update of
a `for` comes behind its body. Reading it before is against the rules, except in an assignment to
that very name.

* `HasType`: the types of expressions;
* `Enters`: how a prototype or a definition makes its function known;
* `Legal`: the statements that follow the rules, with the scopes before and after them;
* `Program.WellFormed`: the programs that do.
-/

namespace BraceLang

/-- What a name is declared as. -/
inductive Entity where
  | variable (type : Ty) (isArray hasValue : Bool)
  | function (result : Ty) (params : List Ty) (isDefined : Bool)

/-- The entity when it has been assigned to. -/
def Entity.given : Entity → Entity
  | .variable type isArray _ => .variable type isArray true
  | .function result params isDefined => .function result params isDefined

/-- What the names of the open scopes stand for, the innermost scope first and the global one
last. -/
abbrev Scopes := List (View Entity)

namespace Scopes

/-- From now on the variable that the name stands for has a value. -/
def give (name : String) : Scopes → Scopes
  | [] => []
  | l :: rest =>
      match l name with
      | some e => l.add name e.given :: rest
      | none => l :: give name rest

/-- Makes a name stand for something in the global scope. -/
def setGlobal (name : String) (e : Entity) : Scopes → Scopes
  | [] => []
  | [g] => [g.add name e]
  | l :: rest => l :: setGlobal name e rest

/-- What a name stands for in the global scope. -/
def findGlobal (Γ : Scopes) (name : String) : Option Entity := Γ.getLast?.bind (· name)

/-- The name stands for a variable of the type that may be read here: an array, if it is an
element that is read, and one with a value, unless `target` is assigned to. -/
def Reads (Γ : Scopes) (target : Option String) (name : String) (isElement : Bool) (t : Ty) :
    Prop :=
  ∃ isArray hasValue, View.look Γ name = some (.variable t isArray hasValue) ∧
    (isElement = true → isArray = true) ∧ (hasValue = true ∨ target = some name)

/-- The name stands for a function that accepts arguments of these types. -/
def Calls (Γ : Scopes) (name : String) (args : List Ty) (result : Ty) : Prop :=
  ∃ params isDefined, View.look Γ name = some (.function result params isDefined) ∧
    List.Forall₂ (fun param arg => param.accepts arg = true) params args

end Scopes

/-! ### Expressions -/

mutual

/-- The expression has the type; `target` is what the assignment around it gives a value to. -/
inductive HasType (Γ : Scopes) (target : Option String) : Expr → Ty → Prop where
  | literal {pos : Position} {value : Literal} :
      HasType Γ target (.literal pos value) value.type
  | var {pos : Position} {name : String} {t : Ty} :
      Γ.Reads target name false t → HasType Γ target (.var pos name) t
  | element {pos : Position} {array : String} {index : Expr} {i t : Ty} :
      HasType Γ target index i → i.isIntegral = true → Γ.Reads target array true t →
      HasType Γ target (.element pos array index) t
  /-- A negated `double` is one; every other operand that is not `void` gives an `int`. -/
  | negate {pos : Position} {operand : Expr} :
      HasType Γ target operand .double → HasType Γ target (.unary pos .neg operand) .double
  | unary {pos : Position} {op : UnOp} {operand : Expr} {t : Ty} :
      HasType Γ target operand t → t ≠ .void → (op = .neg → t ≠ .double) →
      HasType Γ target (.unary pos op operand) .int
  | compare {pos : Position} {op : BinOp} {left right : Expr} {a b : Ty} :
      HasType Γ target left a → HasType Γ target right b → a ≠ .void → b ≠ .void →
      (op.isRelational || op.isLogical) = true → HasType Γ target (.binary pos op left right) .int
  /-- Arithmetic gives the wider type; there is no remainder of a `double`. -/
  | arithmetic {pos : Position} {op : BinOp} {left right : Expr} {a b t : Ty} :
      HasType Γ target left a → HasType Γ target right b → a.promote b = some t →
      (op = .mod → a ≠ .double ∧ b ≠ .double) →
      (op.isRelational || op.isLogical) = false → HasType Γ target (.binary pos op left right) t
  | call {pos : Position} {callee : Located String} {args : List Expr} {types : List Ty}
      {result : Ty} :
      HaveTypes Γ target args types → Γ.Calls callee.val types result → result ≠ .void →
      HasType Γ target (.call pos callee args) result

/-- The expressions have the types, in their order. -/
inductive HaveTypes (Γ : Scopes) (target : Option String) : List Expr → List Ty → Prop where
  | nil : HaveTypes Γ target [] []
  | cons {e : Expr} {rest : List Expr} {t : Ty} {types : List Ty} :
      HasType Γ target e t → HaveTypes Γ target rest types →
      HaveTypes Γ target (e :: rest) (t :: types)

end

/-! ### Functions -/

/-- The parameters with a name, each with its type. -/
def namedParams (params : List Param) (types : List Ty) : List (String × Ty) :=
  (params.zip types).filterMap fun (p, t) => p.name.map (·.val, t)

/-- The scope of a body before its first statement: the parameters, which have values. -/
def paramScope (params : List (String × Ty)) : View Entity :=
  params.foldl (fun l p => l.add p.1 (.variable p.2 false true)) fun _ => none

/-- A heading makes its function known in the global scope. Its name is new there, or it stands
for a function with the same types; and a function is defined once. -/
inductive Enters (h : Heading) (defining : Bool) (result : Ty) (types : List Ty) (Γ : Scopes) :
    Scopes → Prop where
  | new : Γ.findGlobal h.name.val = none →
      Enters h defining result types Γ (Γ.setGlobal h.name.val (.function result types defining))
  | known {isDefined : Bool} :
      Γ.findGlobal h.name.val = some (.function result types isDefined) →
      (defining && isDefined) = false →
      Enters h defining result types Γ
        (Γ.setGlobal h.name.val (.function result types (isDefined || defining)))

/-- The types of a heading are known, and its function enters the global scope. -/
def Heading.Legal (h : Heading) (defining : Bool) (result : Ty) (types : List Ty)
    (Γ Γ' : Scopes) : Prop :=
  Ty.parse? h.result.val = some result ∧ h.Takes types ∧ Enters h defining result types Γ Γ'

/-! ### Statements -/

/-- What is around a statement. -/
structure Setting where
  /-- The result of the function it is in. -/
  result : Option Ty := none
  /-- It is in a loop. -/
  inLoop : Bool := false

/-- The same place in a loop. -/
def Setting.loop (s : Setting) : Setting := { s with inLoop := true }

namespace Stmt

/-- The `;` that the grammar asks for is there. -/
def IsTerminated (x : Stmt) : Prop := ∀ site, x.site? = some site → site.terminated = true

mutual

/-- There is a `return` in the statement; those of functions inside of it do not count. -/
def returns : Stmt → Bool
  | .returnValue .. => true
  | .block _ body | .ifThen _ _ body | .whileLoop _ _ body => anyReturns body
  | .ifElse _ _ body _ elseBody => anyReturns body || anyReturns elseBody
  | .forLoop init _ update _ body => headerReturns init || anyReturns body || headerReturns update
  | .declare .. | .prototype .. | .define .. | .assign .. | .call .. | .breakLoop _
  | .continueLoop _ => false

def headerReturns : Option Stmt → Bool
  | none => false
  | some x => x.returns

def anyReturns : List Stmt → Bool
  | [] => false
  | x :: rest => x.returns || anyReturns rest

end

end Stmt

mutual

/-- The statement follows the rules in its setting and in the first scopes; the second ones
are those behind it. -/
inductive Legal : Setting → Scopes → Stmt → Scopes → Prop where
  | declare {around : Setting} {site : Site} {d : Declaration} {l : View Entity}
      {rest : Scopes} {t : Ty} :
      Ty.parse? d.type.val = some t → t ≠ .void → l d.name.val = none →
      (∀ e, d.init = some e → ∃ found, HasType (l :: rest) none e found ∧
        t.accepts found = true) →
      Legal around (l :: rest) (.declare site d)
        (l.add d.name.val (.variable t d.length.isSome
          (rest.isEmpty || d.init.isSome || d.length.isSome)) :: rest)
  | prototype {around : Setting} {site : Site} {h : Heading} {result : Ty}
      {types : List Ty} {Γ Γ' : Scopes} :
      h.Legal false result types Γ Γ' → Legal around Γ (.prototype site h) Γ'
  /-- The parameters share the scope of the body, and a result that is not `void` is returned
  somewhere in it. -/
  | define {around : Setting} {h : Heading} {braces : Braces} {body : List Stmt}
      {result : Ty} {types : List Ty} {Γ Γ₁ Γ' : Scopes} {l : View Entity} :
      h.Legal true result types Γ Γ₁ → ((namedParams h.params types).map Prod.fst).Nodup →
      LegalAll { around with result := some result }
        (paramScope (namedParams h.params types) :: Γ₁) body (l :: Γ') →
      braces.closed.isSome = true → result = .void ∨ Stmt.anyReturns body = true →
      Legal around Γ (.define h braces body) Γ'
  | assign {around : Setting} {site : Site} {target : Located String}
      {index : Option Expr} {value : Expr} {t found : Ty} {isArray hasValue : Bool} {Γ : Scopes} :
      View.look Γ target.val = some (.variable t isArray hasValue) →
      (∀ e, index = some e → isArray = true ∧ ∃ i, HasType Γ (some target.val) e i ∧
        i.isIntegral = true) →
      HasType Γ (some target.val) value found → t.accepts found = true →
      Legal around Γ (.assign site target index value) (Γ.give target.val)
  | call {around : Setting} {site : Site} {callee : Located String} {args : List Expr}
      {types : List Ty} {result : Ty} {Γ : Scopes} :
      HaveTypes Γ none args types → Γ.Calls callee.val types result →
      Legal around Γ (.call site callee args) Γ
  | block {around : Setting} {braces : Braces} {body : List Stmt} {Γ Γ' : Scopes}
      {l : View Entity} :
      LegalAll around ((fun _ => none) :: Γ) body (l :: Γ') → braces.closed.isSome = true →
      Legal around Γ (.block braces body) Γ'
  | ifThen {around : Setting} {cond : Expr} {braces : Braces} {body : List Stmt} {t : Ty}
      {Γ Γ' : Scopes} :
      HasType Γ none cond t → Legal around Γ (.block braces body) Γ' →
      Legal around Γ (.ifThen cond braces body) Γ'
  | ifElse {around : Setting} {cond : Expr} {braces elseBraces : Braces}
      {body elseBody : List Stmt} {t : Ty} {Γ Γ₁ Γ' : Scopes} :
      HasType Γ none cond t → Legal around Γ (.block braces body) Γ₁ →
      Legal around Γ₁ (.block elseBraces elseBody) Γ' →
      Legal around Γ (.ifElse cond braces body elseBraces elseBody) Γ'
  | whileLoop {around : Setting} {cond : Expr} {braces : Braces} {body : List Stmt} {t : Ty}
      {Γ Γ' : Scopes} :
      HasType Γ none cond t → Legal around.loop Γ (.block braces body) Γ' →
      Legal around Γ (.whileLoop cond braces body) Γ'
  /-- The header is in a scope around that of the body, and its parts need no `;`. -/
  | forLoop {around : Setting} {init : Option Stmt} {cond : Expr} {update : Option Stmt}
      {braces : Braces} {body : List Stmt} {t : Ty} {Γ Γ₁ Γ₂ Γ' : Scopes} {l : View Entity} :
      LegalHeader around ((fun _ => none) :: Γ) init Γ₁ → HasType Γ₁ none cond t →
      Legal around.loop Γ₁ (.block braces body) Γ₂ → LegalHeader around.loop Γ₂ update (l :: Γ') →
      Legal around Γ (.forLoop init cond update braces body) Γ'
  | breakLoop {around : Setting} {site : Site} {Γ : Scopes} :
      around.inLoop = true → Legal around Γ (.breakLoop site) Γ
  | continueLoop {around : Setting} {site : Site} {Γ : Scopes} :
      around.inLoop = true → Legal around Γ (.continueLoop site) Γ
  | returnNothing {around : Setting} {site : Site} {Γ : Scopes} :
      around.result = some .void → Legal around Γ (.returnValue site none) Γ
  | returnValue {around : Setting} {site : Site} {value : Expr} {result found : Ty}
      {Γ : Scopes} :
      around.result = some result → HasType Γ none value found → result.accepts found = true →
      Legal around Γ (.returnValue site (some value)) Γ

inductive LegalHeader : Setting → Scopes → Option Stmt → Scopes → Prop where
  | none {around : Setting} {Γ : Scopes} : LegalHeader around Γ none Γ
  | some {around : Setting} {x : Stmt} {Γ Γ' : Scopes} :
      Legal around Γ x Γ' → LegalHeader around Γ (some x) Γ'

/-- Statements one after the other, each with its `;`. -/
inductive LegalAll : Setting → Scopes → List Stmt → Scopes → Prop where
  | nil {around : Setting} {Γ : Scopes} : LegalAll around Γ [] Γ
  | cons {around : Setting} {x : Stmt} {rest : List Stmt} {Γ Γ₁ Γ' : Scopes} :
      x.IsTerminated → Legal around Γ x Γ₁ → LegalAll around Γ₁ rest Γ' →
      LegalAll around Γ (x :: rest) Γ'

end

/-- The program follows the rules, from a global scope without names on. -/
def Program.WellFormed (p : Program) : Prop := ∃ Γ, LegalAll {} [fun _ => none] p.stmts Γ

end BraceLang
