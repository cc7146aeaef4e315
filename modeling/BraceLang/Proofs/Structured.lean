import BraceLang.Proofs.Tac.Machine
import BraceLang.Proofs.Trees
import BraceLang.Scope

/-!
The meaning of structured statements, read off the tree. Variables live in lexical scopes that
open and close with the blocks, a value is converted when it is stored, `break` and `continue`
concern the innermost loop, and `continue` in a `for` loop runs the update.

A variable or an element of an array that nothing was stored to has no value to read, and a
run that reads one has no result. The same holds for whatever is not part of the structured
language: calls, functions inside of functions, arrays without an index or with an initial
value, and headers of `for` loops that hold anything but assignments and, in the first part, a
declaration.

A call has one argument for each parameter, whether the parameter has a name or not; only a sole
`void` takes none.

Runs have fuel, which every statement uses up some of; a run **finishes** if some amount is
enough.
-/

namespace BraceLang.Structured

open Tac (Interpretation Ending)

variable {V : Type}

/-- What a variable holds; nothing where nothing was stored. -/
inductive Content (V : Type) where
  | scalar (value : Option V)
  | array (cells : V → Option V)

structure Variable (V : Type) where
  type : Ty
  content : Content V

/-- The variables in the open scopes. -/
abbrev Vars (V : Type) := ScopeStack (Variable V)

section

variable [DecidableEq V] (I : Interpretation V)

namespace Variable

/-- The value of a scalar. -/
def read? (x : Variable V) : Option V :=
  match x.content with
  | .scalar value => value
  | .array _ => none

/-- The value of an element. -/
def readCell? (x : Variable V) (index : V) : Option V :=
  match x.content with
  | .scalar _ => none
  | .array cells => cells index

/-- A scalar after a value has been stored in it. -/
def store? (x : Variable V) (v : V) : Option (Variable V) :=
  match x.content with
  | .scalar _ => some { x with content := .scalar (some (I.keep (some x.type) v)) }
  | .array _ => none

/-- An array after a value has been stored in an element. -/
def storeCell? (x : Variable V) (index v : V) : Option (Variable V) :=
  match x.content with
  | .scalar _ => none
  | .array cells =>
      some { x with content := .array fun i =>
        if i = index then some (I.keepElement (some x.type) v) else cells i }

end Variable

/-- The value of an expression. -/
def eval (σ : Vars V) : Expr → Option V
  | .literal _ value => some (I.const value.text)
  | .var _ name => do (← σ.lookup name).read?
  | .element _ array index => do
      let i ← eval σ index
      (← σ.lookup array).readCell? i
  | .unary _ op operand => do return I.unary op (← eval σ operand)
  | .binary _ op left right => do
      let a ← eval σ left
      let b ← eval σ right
      return I.binary op a b
  | .call .. => none

/-- Declares a variable. The initial value does not see it. -/
def declare? (σ : Vars V) (d : Declaration) : Option (Vars V) := do
  let t ← Ty.parse? d.type.val
  match d.length, d.init with
  | none, none => σ.declare? d.name.val ⟨t, .scalar none⟩
  | none, some init =>
      let v ← eval I σ init
      σ.declare? d.name.val ⟨t, .scalar (some (I.keep (some t) v))⟩
  | some _, none => σ.declare? d.name.val ⟨t, .array fun _ => none⟩
  | some _, some _ => none

/-- A variable after a value has been stored in it, or in an element of it. -/
def stored? (σ : Vars V) (x : Variable V) (value : Expr) : Option Expr → Option (Variable V)
  | none => do x.store? I (← eval I σ value)
  | some index => do
      let i ← eval I σ index
      x.storeCell? I i (← eval I σ value)

/-- Stores a value in the visible variable of a name, or in an element of it. -/
def assign? (σ : Vars V) (target : String) (index : Option Expr) (value : Expr) :
    Option (Vars V) := do
  let x ← σ.lookup target
  let stored ← stored? I σ x value index
  return σ.update target fun _ => stored

/-- The first part of a `for` header: a declaration, an assignment or nothing. -/
def init? (σ : Vars V) : Option Stmt → Option (Vars V)
  | none => some σ
  | some (.declare _ d) => declare? I σ d
  | some (.assign _ target index value) => assign? I σ target.val index value
  | some _ => none

/-- The last part of a `for` header: an assignment or nothing. -/
def update? (σ : Vars V) : Option Stmt → Option (Vars V)
  | none => some σ
  | some (.assign _ target index value) => assign? I σ target.val index value
  | some _ => none

end

/-- How control goes on after a statement. -/
inductive Flow (V : Type) where
  | normal
  /-- To the end of the innermost loop. -/
  | stopped
  /-- To the next round of the innermost loop. -/
  | continued
  | returned (value : Option V)

/-- How control goes on, and the variables then. -/
abbrev After (V : Type) := Flow V × Vars V

/-- Runs a block in a scope of its own, which is closed however it is left. -/
def inScope (inside : Vars V → Option (After V)) (σ : Vars V) : Option (After V) := do
  let (flow, σ) ← inside σ.push
  let (_, σ) ← σ.pop?
  return (flow, σ)

variable [DecidableEq V] (I : Interpretation V)

mutual

/-- Runs a statement. -/
def exec : Nat → Stmt → Vars V → Option (After V)
  | 0, _, _ => none
  | fuel + 1, s, σ =>
      match s with
      | .declare _ d => do return (.normal, ← declare? I σ d)
      | .assign _ target index value => do
          return (.normal, ← assign? I σ target.val index value)
      | .block _ body => inScope (execAll fuel body) σ
      | .ifThen cond _ body => do
          if I.isTrue (← eval I σ cond) then inScope (execAll fuel body) σ
          else return (.normal, σ)
      | .ifElse cond _ body _ elseBody => do
          if I.isTrue (← eval I σ cond) then inScope (execAll fuel body) σ
          else inScope (execAll fuel elseBody) σ
      | .whileLoop cond _ body => execLoop fuel cond none body σ
      | .forLoop init cond update _ body =>
          inScope (fun σ => do execLoop fuel cond update body (← init? I σ init)) σ
      | .breakLoop _ => return (.stopped, σ)
      | .continueLoop _ => return (.continued, σ)
      | .returnValue _ none => return (.returned none, σ)
      | .returnValue _ (some e) => do return (.returned (some (← eval I σ e)), σ)
      | .prototype .. | .define .. | .call .. => none

/-- Runs statements one after the other. -/
def execAll : Nat → List Stmt → Vars V → Option (After V)
  | 0, _, _ => none
  | _ + 1, [], σ => some (.normal, σ)
  | fuel + 1, s :: rest, σ => do
      match ← exec fuel s σ with
      | (.normal, σ) => execAll fuel rest σ
      | left => return left

/-- Runs a loop from the test on. A `while` loop has no update. -/
def execLoop : Nat → Expr → Option Stmt → List Stmt → Vars V → Option (After V)
  | 0, _, _, _, _ => none
  | fuel + 1, cond, update, body, σ => do
      if I.isTrue (← eval I σ cond) then
        match ← inScope (execAll fuel body) σ with
        | (.stopped, σ) => return (.normal, σ)
        | (.returned value, σ) => return (.returned value, σ)
        | (.normal, σ) | (.continued, σ) =>
            execLoop fuel cond update body (← update? I σ update)
      else return (.normal, σ)

end

/-- Gives each parameter its argument. A parameter without a name receives one too, which nothing
can read. -/
def bindParams? (σ : Vars V) : List Param → List V → Option (Vars V)
  | [], [] => some σ
  | ⟨_, none⟩ :: params, _ :: args => bindParams? σ params args
  | ⟨type, some name⟩ :: params, v :: args => do
      let t ← Ty.parse? type.val
      let σ ← σ.declare? name.val ⟨t, .scalar (some (I.receive (some t) v))⟩
      bindParams? σ params args
  | _, _ => none

/-- Calls a function of a program without global variables. Its parameters and its body are in
one scope. -/
def call? (fuel : Nat) (h : Heading) (body : List Stmt) (args : List V) : Option (Ending V) := do
  let σ ← bindParams? I (ScopeStack.push (ScopeStack.push {})) h.receivers args
  match ← execAll I fuel body σ with
  | (.normal, _) => return .fell
  | (.returned value, _) => return .returned value
  | (.stopped, _) | (.continued, _) => none

/-- A call of the function finishes, and this is how. -/
def Finishes (h : Heading) (body : List Stmt) (args : List V) (ending : Ending V) : Prop :=
  ∃ fuel, call? I fuel h body args = some ending

end BraceLang.Structured
