import BraceLang.Diagnostics
import BraceLang.Scope
import BraceLang.Symbol

/-!
The state of checking: the open scopes, the findings so far, and where in the program the
checker stands. The actions here are the only ones that touch the log and the scopes.
-/

namespace BraceLang

/-- How many nodes were visited and how many tokens they were written with. Parentheses that
only group are not part of a tree and are not counted. -/
structure Statistics where
  nodes : Nat := 0
  tokens : Nat := 0
deriving DecidableEq, Repr

namespace Check

/-- The function whose body is being checked. -/
structure Context where
  name : String
  /-- The declared result, unless its type could not be resolved. -/
  result : Option Ty
  /-- A `return` has been seen. -/
  returned : Bool := false
deriving DecidableEq, Repr

structure State where
  env : Env Symbol := {}
  diagnostics : Diagnostics := {}
  /-- How many loops are open. -/
  loops : Nat := 0
  function : Option Context := none
  /-- Names whose declared type could not be resolved; using them is not a finding. -/
  poisoned : List String := []
  /-- The target of the assignment being checked, which may be read before it has a value. -/
  assigning : Option String := none
  stats : Statistics := {}

end Check

/-- Checking never fails: it reports and goes on. -/
abbrev Check := StateM Check.State

namespace Check

def State.visited (s : State) (tokens : Nat) : State :=
  { s with stats := { nodes := s.stats.nodes + 1, tokens := s.stats.tokens + tokens } }

def State.reported (s : State) (d : Diagnostic) : State :=
  { s with diagnostics := s.diagnostics.push d, env := s.env.note d.event }

/-- Counts one node, written with so many tokens of its own. -/
def visit (tokens : Nat) : Check Unit := modify (·.visited tokens)

def report (d : Diagnostic) : Check Unit := modify (·.reported d)

def complain (finding : Finding) (pos : Position) : Check Unit := report ⟨.error, finding, pos⟩

/-- Reports a finding, if there is one. -/
def complainOf : Option (Finding × Position) → Check Unit
  | none => pure ()
  | some (finding, pos) => complain finding pos

/-- What a name stands for here. -/
def lookup (name : String) : Check (Option Symbol) := return (← get).env.stack.lookup name

def declaredHere (name : String) : Check Bool := return (← get).env.stack.declaredHere name

def declare (symbol : Symbol) : Check Unit :=
  modify fun s => { s with env := (s.env.declare symbol.name symbol).2 }

/-- Changes the symbol that a name stands for here. -/
def update (name : String) (f : Symbol → Symbol) : Check Unit :=
  modify fun s => { s with env := s.env.update name f }

/-- The type of the name is not known, and that has been reported. -/
def poison (name : String) : Check Unit :=
  modify fun s => { s with poisoned := name :: s.poisoned }

/-- The finding for a name that stands for nothing: none if it has been reported already. -/
def undeclared? (name : String) (pos : Position) : Check (Option (Finding × Position)) :=
  return if (← get).poisoned.contains name then none else some (.undeclaredIdentifier name, pos)

def openScope : Check Unit := modify fun s => { s with env := s.env.enter }

/-- What is left to say about a symbol when its scope closes: a variable that nothing read, or
a function that was called and never defined. -/
def leftover? (symbol : Symbol) : Option Diagnostic :=
  match symbol.kind with
  | .var _ isParam =>
      if !isParam && !symbol.used then
        some ⟨.warning, .unusedVariable symbol.name, symbol.declaredAt⟩
      else none
  | .fn signature =>
      if symbol.used && !signature.defined then
        some ⟨.warning, .undefinedFunction symbol.name, symbol.declaredAt⟩
      else none

/-- What is left to say about some symbols, in the order of their places. -/
def leftovers (symbols : List Symbol) : List Diagnostic :=
  (symbols.filterMap leftover?).mergeSort fun d e => d.pos.notAfter e.pos

def sweep (symbols : List Symbol) : Check Unit := (leftovers symbols).forM report

/-- Closes the current scope and reports what is left to say about its symbols. -/
def closeScope : Check Unit := do
  let (scope?, env) := (← get).env.leave
  modify fun s => { s with env }
  match scope? with
  | none => pure ()
  | some scope => sweep scope.values

end Check

end BraceLang
