import BraceLang.Proofs.Check.Steps
import BraceLang.Proofs.Views

/-!
What names stand for while a program is checked. Of a symbol only its meaning counts here, its
type and the types of its parameters, and, if it is a variable, where and how it was declared; that
it has been read or given a value is left out.

**Main results.** `calm_inferExpr`, and its companions for the parts of statements: checking an
expression changes no meaning and no variable, and only appends to the log.
-/

namespace BraceLang

/-- What a name stands for: a type, and the parameters if it is a function. -/
structure Meaning where
  type : Ty
  params : Option (List Ty)
deriving DecidableEq, Repr

def Symbol.meaning (s : Symbol) : Meaning := ⟨s.type, s.signature?.map (·.params)⟩

/-- What is settled about a variable where it is declared. -/
structure VarInfo where
  /-- Its type, if the text of the declaration names one. -/
  type : Option Ty
  declaredAt : Position
  length : Option UInt32
  isParam : Bool
deriving DecidableEq, Repr

/-- The variable that a symbol stands for, unless it is a function. -/
def Symbol.var? (s : Symbol) : Option VarInfo :=
  match s.kind with
  | .var length isParam => some ⟨some s.type, s.declaredAt, length, isParam⟩
  | .fn _ => none

namespace Check

/-! ### Actions that leave all meanings alone -/

variable {α β : Type}

/-- What the names in the open scopes mean. -/
def State.layers (c : State) : List (View Meaning) := c.env.stack.views Symbol.meaning

/-- The variables in the open scopes. -/
def State.vars (c : State) : List (View VarInfo) :=
  (c.env.stack.views Symbol.var?).map View.present

/-- No error has been found yet. -/
def State.Clean (c : State) : Prop := c.diagnostics.hasErrors = false

theorem State.Clean.before {c c' : State} (clean : c'.Clean)
    (log : c.diagnostics.entries <+: c'.diagnostics.entries) : c.Clean := by
  obtain ⟨rest, appended⟩ := log
  simp only [Clean, Diagnostics.hasErrors, ← appended, List.any_append,
    Bool.or_eq_false_iff] at clean ⊢
  exact clean.1

/-- The later state has the same meanings and variables and all that was logged before. -/
structure State.Steady (c c' : State) : Prop where
  log : c.diagnostics.entries <+: c'.diagnostics.entries
  layers : c'.layers = c.layers
  vars : c'.vars = c.vars
  poisoned : c'.poisoned = c.poisoned

theorem State.Steady.refl (c : State) : c.Steady c := ⟨List.prefix_rfl, rfl, rfl, rfl⟩

theorem State.Steady.trans {c c' c'' : State} (first : c.Steady c') (second : c'.Steady c'') :
    c.Steady c'' :=
  ⟨first.log.trans second.log, second.layers.trans first.layers,
    second.vars.trans first.vars, second.poisoned.trans first.poisoned⟩

/-- An action that leaves all meanings alone. -/
def Calm (action : Check α) : Prop := ∀ c : State, c.Steady (action c).2

namespace Calm

theorem pure (a : α) : Calm (pure a) := State.Steady.refl

theorem bind {action : Check α} {next : α → Check β} (first : Calm action)
    (second : ∀ a, Calm (next a)) : Calm (action >>= next) := fun c =>
  (first c).trans (second (action c).1 (action c).2)

theorem modify {f : State → State} (steady : ∀ c : State, c.Steady (f c)) :
    Calm (modify f) := steady

theorem read {next : State → Check α} (second : ∀ c, Calm (next c)) :
    Calm (get >>= next) := fun c => second c c

theorem forM {f : α → Check PUnit} (each : ∀ a, Calm (f a)) (list : List α) :
    Calm (list.forM f) := by
  induction list with
  | nil => exact pure _
  | cons a rest ih => exact (each a).bind fun _ => ih

theorem mapM {f : α → Check β} (each : ∀ a, Calm (f a)) (list : List α) :
    Calm (list.mapM f) := by
  induction list with
  | nil => exact pure _
  | cons a rest ih =>
      rw [List.mapM_cons]
      exact (each a).bind fun _ => ih.bind fun _ => pure _

end Calm

theorem calm_visit (tokens : Nat) : Calm (visit tokens) :=
  .modify fun _ => ⟨List.prefix_rfl, rfl, rfl, rfl⟩

theorem calm_report (d : Diagnostic) : Calm (report d) :=
  .modify fun _ => ⟨List.prefix_append _ _, rfl, rfl, rfl⟩

theorem calm_complain (finding : Finding) (pos : Position) : Calm (complain finding pos) :=
  calm_report _

theorem calm_complainOf (fault : Option (Finding × Position)) : Calm (complainOf fault) := by
  cases fault with
  | none => exact .pure _
  | some fault => exact calm_complain _ _

theorem calm_lookup (name : String) : Calm (lookup name) := .read fun _ => .pure _

theorem calm_undeclared? (name : String) (pos : Position) : Calm (undeclared? name pos) :=
  .read fun _ => .pure _

/-- What is noted about a symbol is not part of its meaning, nor of its declaration. -/
theorem calm_update (name : String) {f : Symbol → Symbol}
    (keeps : ∀ symbol, (f symbol).meaning = symbol.meaning)
    (settled : ∀ symbol, (f symbol).var? = symbol.var?) : Calm (update name f) := by
  refine .modify fun c => ⟨List.prefix_rfl, ?_, ?_, rfl⟩
  · exact c.env.stack.views_update Symbol.meaning name keeps
  · exact congrArg (List.map View.present)
      (c.env.stack.views_update Symbol.var? name settled)

theorem calm_markUsed (name : String) : Calm (update name ({ · with used := true })) :=
  calm_update name (fun _ => rfl) fun _ => rfl

theorem calm_markInitialized (name : String) :
    Calm (update name ({ · with initialized := true })) :=
  calm_update name (fun _ => rfl) fun _ => rfl

theorem calm_setAssigning (target : Option String) :
    Calm (modify fun c : State => { c with assigning := target }) :=
  .modify fun _ => ⟨List.prefix_rfl, rfl, rfl, rfl⟩

theorem calm_setFunction (context : Option Context) :
    Calm (modify fun c : State => { c with function := context }) :=
  .modify fun _ => ⟨List.prefix_rfl, rfl, rfl, rfl⟩

theorem calm_sweep (symbols : List Symbol) : Calm (sweep symbols) := .forM calm_report _

/-! ### Expressions -/

theorem calm_readVariable (name : String) (pos : Position) (isElement : Bool) :
    Calm (readVariable name pos isElement) := by
  refine (calm_lookup name).bind fun found => ?_
  cases found with
  | none =>
      exact (calm_undeclared? name pos).bind fun _ => (calm_complainOf _).bind fun _ => .pure _
  | some symbol =>
      dsimp only
      split
      · exact (calm_complain _ pos).bind fun _ => .pure _
      · exact .read fun c => (calm_markUsed name).bind fun _ =>
          (calm_complainOf _).bind fun _ => .pure _

theorem calm_checkIndex (pos : Position) (found : Option Ty) : Calm (checkIndex pos found) := by
  cases found with
  | none => exact .pure _
  | some t =>
      unfold checkIndex
      dsimp only
      split
      · exact .pure _
      · exact calm_complain _ pos

theorem calm_checkUnary (op : UnOp) (pos : Position) (found : Option Ty) :
    Calm (checkUnary op pos found) := by
  cases found with
  | none => exact .pure _
  | some t =>
      unfold checkUnary
      dsimp only
      split
      · exact .pure _
      · exact (calm_complain _ pos).bind fun _ => .pure _

theorem calm_checkBinary (op : BinOp) (pos : Position) (left right : Option Ty) :
    Calm (checkBinary op pos left right) := by
  unfold checkBinary
  split
  · split
    · exact .pure _
    · exact (calm_complain _ pos).bind fun _ => .pure _
  · exact .pure _

theorem calm_checkCall (callee : Located String) (args : List (Position × Option Ty))
    (isValue : Bool) : Calm (checkCall callee args isValue) := by
  refine (calm_lookup callee.val).bind fun found => ?_
  cases found with
  | none =>
      exact (calm_undeclared? callee.val callee.pos).bind fun _ =>
        (calm_complainOf _).bind fun _ => .pure _
  | some symbol =>
      dsimp only
      cases symbol.signature? with
      | none => exact (calm_complain _ callee.pos).bind fun _ => .pure _
      | some signature =>
          refine (calm_markUsed callee.val).bind fun _ => Calm.bind ?_ fun _ => ?_
          · exact .forM (fun _ => calm_complain _ _) (callFaults callee args signature.params)
          · split
            · exact (calm_complain _ callee.pos).bind fun _ => .pure _
            · exact .pure _

mutual

/-- Finding the type of an expression changes no meaning. -/
theorem calm_inferExpr : (e : Expr) → Calm (inferExpr e)
  | .literal _ value => by
      rw [inferExpr]
      exact (calm_visit 1).bind fun _ => .pure _
  | .var pos name => by
      rw [inferExpr]
      exact (calm_visit 1).bind fun _ => calm_readVariable name pos false
  | .element pos array index => by
      rw [inferExpr]
      exact (calm_visit 3).bind fun _ => (calm_inferExpr index).bind fun found =>
        (calm_checkIndex index.pos found).bind fun _ => calm_readVariable array pos true
  | .unary pos op operand => by
      rw [inferExpr]
      exact (calm_visit 1).bind fun _ => (calm_inferExpr operand).bind fun found =>
        calm_checkUnary op pos found
  | .binary pos op left right => by
      rw [inferExpr]
      exact (calm_visit 1).bind fun _ => (calm_inferExpr left).bind fun leftType =>
        (calm_inferExpr right).bind fun rightType => calm_checkBinary op pos leftType rightType
  | .call _ callee args => by
      rw [inferExpr]
      exact (calm_visit _).bind fun _ => (calm_inferArgs args).bind fun found =>
        calm_checkCall callee found true

theorem calm_inferArgs : (args : List Expr) → Calm (inferArgs args)
  | [] => by
      rw [inferArgs]
      exact .pure _
  | arg :: args => by
      rw [inferArgs]
      exact (calm_inferExpr arg).bind fun _ => (calm_inferArgs args).bind fun _ => .pure _

end

/-! ### Parts of statements -/

theorem calm_resolveType (text : Located String) : Calm (resolveType text) := by
  unfold resolveType
  split
  · exact .pure _
  · exact (calm_complain _ _).bind fun _ => .pure _

theorem calm_resolveVariableType (text : Located String) (name : String) (pos : Position) :
    Calm (resolveVariableType text name pos) := by
  refine (calm_resolveType text).bind fun found => ?_
  split
  · exact (calm_complain _ pos).bind fun _ => .pure _
  · exact .pure _

theorem calm_paramTypes (h : Heading) : Calm (paramTypes h) := by
  unfold paramTypes
  split
  · exact .pure _
  · exact .mapM (fun _ => calm_resolveVariableType _ _ _) _

theorem calm_checkReturned (name : Located String) (context : Option Context) :
    Calm (checkReturned name context) := by
  unfold checkReturned
  split
  · rename_i result
    cases result == .void
    · exact calm_complain _ _
    · exact .pure _
  · exact .pure _

theorem calm_checkTarget (target : Located String) (isElement : Bool) (valuePos : Position)
    (found : Option Ty) : Calm (checkTarget target isElement valuePos found) := by
  refine (calm_lookup target.val).bind fun known => ?_
  cases known with
  | none => exact (calm_undeclared? _ _).bind fun _ => calm_complainOf _
  | some symbol =>
      dsimp only
      split
      · exact calm_complain _ _
      · exact (calm_markInitialized target.val).bind fun _ => calm_complainOf _

theorem steady_visitAssign (target : Located String) (index : Option Expr) (c : State) :
    c.Steady (visitAssign target index c) := ⟨List.prefix_rfl, rfl, rfl, rfl⟩

theorem calm_checkAssign (target : Located String) (index : Option Expr) (value : Expr) :
    Calm (checkAssign target index value) := by
  intro c
  have stores (c₁ : State) (first : c.Steady c₁) (isElement : Bool) :
      c.Steady (checkTarget target isElement value.pos (inferExpr value c₁).1
        { (inferExpr value c₁).2 with assigning := none }).2 :=
    ((first.trans (calm_inferExpr value c₁)).trans (calm_setAssigning none _)).trans
      (calm_checkTarget target isElement value.pos _ _)
  have visited := steady_visitAssign target index c
  cases index with
  | none => exact stores _ visited false
  | some index =>
      have indexed := visited.trans (calm_inferExpr index _)
      exact stores _ (indexed.trans (calm_checkIndex index.pos _ _)) true

theorem calm_checkResult (pos : Position) (found : Option (Position × Option Ty)) :
    Calm (checkResult pos found) := by
  refine .read fun c => ?_
  cases c.function with
  | none => exact calm_complain _ _
  | some context => exact (calm_setFunction _).bind fun _ => calm_complainOf _

theorem calm_checkReturn (pos : Position) (value : Option Expr) :
    Calm (checkReturn pos value) := by
  intro c
  cases value with
  | none =>
      rw [checkReturn_none]
      exact (calm_visit 1 c).trans (calm_checkResult pos _ _)
  | some e =>
      rw [checkReturn_some]
      exact ((calm_visit 1 c).trans (calm_inferExpr e _)).trans (calm_checkResult pos _ _)

theorem calm_checkInLoop (finding : Finding) (pos : Position) : Calm (checkInLoop finding pos) := by
  refine (calm_visit 1).bind fun _ => .read fun c => ?_
  split
  · exact calm_complain _ _
  · exact .pure _

theorem calm_enterLoop : Calm enterLoop := .modify fun _ => ⟨List.prefix_rfl, rfl, rfl, rfl⟩

theorem calm_leaveLoop : Calm leaveLoop := .modify fun _ => ⟨List.prefix_rfl, rfl, rfl, rfl⟩

theorem calm_openBraces (b : Braces) : Calm (openBraces b) := calm_visit _

theorem calm_closeBraces (b : Braces) : Calm (closeBraces b) := by
  unfold closeBraces
  split
  · exact calm_complain _ _
  · exact .pure _

theorem calm_checkTerminator (s : Stmt) : Calm (checkTerminator s) := by
  unfold checkTerminator
  split
  · exact .pure _
  · split
    · exact .modify fun _ => ⟨List.prefix_rfl, rfl, rfl, rfl⟩
    · exact calm_complain _ _

end Check

end BraceLang
