import BraceLang.Check.Stmt

/-!
Questions about syntax trees that results are stated with: what a tree declares, and which
constructs it keeps clear of.
-/

namespace BraceLang

/-- The names of the parameters that have one. -/
def Heading.declared (h : Heading) : List String := h.params.filterMap fun p => p.name.map (·.val)

/-- The parameters that take an argument: all but a sole `void`. -/
def Heading.receivers (h : Heading) : List Param := if h.takesVoid then [] else h.params

/-- No parameter without a name stands in front of one with a name. -/
def Heading.NamedFirst (h : Heading) : Prop :=
  h.params.Pairwise fun p q => p.name = none → q.name = none

instance (h : Heading) : Decidable h.NamedFirst :=
  inferInstanceAs (Decidable (List.Pairwise _ h.params))

/-- The sole, anonymous `void` names the type `void`. -/
theorem params_of_takesVoid {h : Heading} (void : h.takesVoid = true) :
    ∃ p, h.params = [p] ∧ p.name = none ∧ Ty.parse? p.type.val = some .void := by
  unfold Heading.takesVoid at void
  split at void
  · rename_i p params
    obtain ⟨anonymous, text⟩ := Bool.and_eq_true_iff.mp void
    refine ⟨p, params, Option.isNone_iff_eq_none.mp anonymous, ?_⟩
    have folded := beq_iff_eq.mp text
    simp only [Ty.parse?, Text.sameFolded, folded]
    decide
  · contradiction

/-- The parts of a loop that statements may stand in. What starts a `for` loop is in front of
it. -/
inductive LoopPart where
  | body
  | update
deriving DecidableEq, Repr

namespace Stmt

mutual

/-- The names that a statement declares as variables or parameters, wherever in it. -/
def declared : Stmt → List String
  | .declare _ d => [d.name.val]
  | .define heading _ body => heading.declared ++ declaredIn body
  | .block _ body | .ifThen _ _ body | .whileLoop _ _ body => declaredIn body
  | .ifElse _ _ body _ elseBody => declaredIn body ++ declaredIn elseBody
  | .forLoop init _ update _ body =>
      declaredBy init ++ declaredBy update ++ declaredIn body
  | .prototype .. | .assign .. | .call .. | .breakLoop _ | .continueLoop _ | .returnValue .. => []

/-- The names that a part of a `for` header declares. -/
def declaredBy : Option Stmt → List String
  | none => []
  | some s => s.declared

/-- The names that statements declare. -/
def declaredIn : List Stmt → List String
  | [] => []
  | s :: rest => s.declared ++ declaredIn rest

end

mutual

/-- No function is defined inside of the statement. -/
def isDefinitionFree : Stmt → Bool
  | .define .. => false
  | .block _ body | .ifThen _ _ body | .whileLoop _ _ body => allDefinitionFree body
  | .ifElse _ _ body _ elseBody => allDefinitionFree body && allDefinitionFree elseBody
  | .forLoop init _ update _ body =>
      headerDefinitionFree init && headerDefinitionFree update && allDefinitionFree body
  | .declare .. | .prototype .. | .assign .. | .call .. | .breakLoop _ | .continueLoop _
  | .returnValue .. => true

def headerDefinitionFree : Option Stmt → Bool
  | none => true
  | some s => s.isDefinitionFree

def allDefinitionFree : List Stmt → Bool
  | [] => true
  | s :: rest => s.isDefinitionFree && allDefinitionFree rest

end

mutual

/-- No function is defined or declared inside of the statement. -/
def isHeadingFree : Stmt → Bool
  | .define .. | .prototype .. => false
  | .block _ body | .ifThen _ _ body | .whileLoop _ _ body => allHeadingFree body
  | .ifElse _ _ body _ elseBody => allHeadingFree body && allHeadingFree elseBody
  | .forLoop init _ update _ body =>
      headerHeadingFree init && headerHeadingFree update && allHeadingFree body
  | .declare .. | .assign .. | .call .. | .breakLoop _ | .continueLoop _ | .returnValue .. => true

def headerHeadingFree : Option Stmt → Bool
  | none => true
  | some s => s.isHeadingFree

def allHeadingFree : List Stmt → Bool
  | [] => true
  | s :: rest => s.isHeadingFree && allHeadingFree rest

end

/-- A function that is defined or declared by the statement is so at the top of it. -/
def hasHeadingsAtTop : Stmt → Bool
  | .prototype .. => true
  | .define _ _ body => allHeadingFree body
  | s => s.isHeadingFree

theorem hasHeadingsAtTop_cases {x : Stmt} (top : x.hasHeadingsAtTop = true) :
    (∃ site h, x = .prototype site h) ∨
      (∃ h braces body, x = .define h braces body ∧ allHeadingFree body = true) ∨
      x.isHeadingFree = true := by
  cases x with
  | prototype site h => exact .inl ⟨site, h, rfl⟩
  | define h braces body => exact .inr (.inl ⟨h, braces, body, rfl, top⟩)
  | _ => exact .inr (.inr top)

/-- How many scopes a statement without headings adds to: the current one, if it is a
declaration. -/
def reach : Stmt → Nat
  | .declare .. => 1
  | _ => 0

theorem reach_eq_zero_or (x : Stmt) : x.reach = 0 ∨ ∃ site d, x = .declare site d := by
  cases x with
  | declare site d => exact .inr ⟨site, d, rfl⟩
  | _ => exact .inl rfl

theorem reach_le (x : Stmt) : x.reach ≤ 1 := by
  unfold reach
  split <;> decide

end Stmt

/-- Functions are defined and declared at top level only. -/
def Program.hasHeadingsAtTop (p : Program) : Bool := p.stmts.all Stmt.hasHeadingsAtTop

end BraceLang
