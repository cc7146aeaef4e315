import BraceLang.Proofs.Tac.Represent
import BraceLang.Proofs.Tac.Walk

/-!
Where the expressions of a tree are in its code. On the way of lowering through a program each of
its expressions, those inside of others among them, is noted as it is lowered: with the names that
its variables have in the code there and with the first temporary that is free for it.

* **`expr_lowered`**: no expression of the tree is left out;
* **`placed_lowered`**: the code of each of them is a piece of the code of the program.
-/

namespace BraceLang

/-! ### Expressions of trees -/

namespace Expr

mutual

/-- The expressions that an expression is made of, itself before the others. -/
def parts : Expr → List Expr
  | literal pos value => [literal pos value]
  | var pos name => [var pos name]
  | element pos array index => element pos array index :: index.parts
  | unary pos op operand => unary pos op operand :: operand.parts
  | binary pos op left right => binary pos op left right :: (left.parts ++ right.parts)
  | call pos callee args => call pos callee args :: partsIn args

def partsIn : List Expr → List Expr
  | [] => []
  | arg :: args => arg.parts ++ partsIn args

end

end Expr

namespace Stmt

mutual

/-- The expressions in a statement, those in bodies of functions included. A statement that is a
call counts as the expression. -/
def expressions : Stmt → List Expr
  | declare _ d => d.init.elim [] Expr.parts
  | assign _ _ index value => index.elim [] Expr.parts ++ value.parts
  | call site callee args => (Expr.call site.pos callee args).parts
  | define _ _ body | block _ body => expressionsIn body
  | ifThen cond _ body | whileLoop cond _ body => cond.parts ++ expressionsIn body
  | ifElse cond _ body _ elseBody => cond.parts ++ expressionsIn body ++ expressionsIn elseBody
  | forLoop init cond update _ body =>
      expressionsOf init ++ (cond.parts ++ expressionsIn body ++ expressionsOf update)
  | returnValue _ value => value.elim [] Expr.parts
  | prototype .. | breakLoop _ | continueLoop _ => []

/-- The expressions in a part of a `for` header. -/
def expressionsOf : Option Stmt → List Expr
  | none => []
  | some x => x.expressions

def expressionsIn : List Stmt → List Expr
  | [] => []
  | x :: rest => x.expressions ++ expressionsIn rest

end

end Stmt

def Program.expressions (p : Program) : List Expr := Stmt.expressionsIn p.stmts

/-- The expressions of what is come to at a move. -/
def Move.expressions : Move → List Expr
  | .single x => x.val.expressions
  | .branch cond _ | .whileTest _ cond | .forTest _ cond => cond.parts
  | _ => []

namespace Stmt

mutual

theorem expressions_moves : (x : Stmt) → (x.moves true).flatMap Move.expressions = x.expressions
  | .define _ _ body => by
      simp [moves, Move.expressions, expressions, expressions_movesIn body]
  | .block _ body => by
      simp [moves, movesBetween, Move.expressions, expressions, expressions_movesIn body]
  | .ifThen _ _ body | .whileLoop _ _ body => by
      simp [moves, movesBetween, Move.expressions, expressions, expressions_movesIn body]
  | .ifElse _ _ body _ elseBody => by
      simp [moves, movesBetween, Move.expressions, expressions, expressions_movesIn body,
        expressions_movesIn elseBody]
  | .forLoop init _ update _ body => by
      simp [moves, movesBetween, Move.expressions, expressions, expressions_movesBy init,
        expressions_movesIn body, expressions_movesBy update]
  | .declare .. | .prototype .. | .assign .. | .call .. | .breakLoop _ | .continueLoop _
  | .returnValue .. => by simp [moves, Move.expressions]

theorem expressions_movesBy : (part : Option Stmt) →
    (movesBy true part).flatMap Move.expressions = expressionsOf part
  | none => rfl
  | some x => expressions_moves x

theorem expressions_movesIn : (body : List Stmt) →
    (movesIn true body).flatMap Move.expressions = expressionsIn body
  | [] => rfl
  | x :: rest => by
      simp [movesIn, Move.expressions, expressionsIn, expressions_moves x,
        expressions_movesIn rest]

end

end Stmt

namespace Tac

/-! ### Expressions as they are lowered -/

/-- An expression of a tree, with what it is lowered with. -/
structure LoweredExpr where
  expr : Expr
  /-- The name in the code of each variable. -/
  resolve : String → String
  /-- The first free temporary. -/
  next : Nat

namespace LoweredExpr

open Lower (State Targets openScope inScope)

def code (x : LoweredExpr) : ExprCode := lowerExpr x.resolve x.next x.expr

mutual

/-- The expressions that an expression is made of, with the temporaries that are free for them. -/
def ofExpr (resolve : String → String) : Nat → Expr → List LoweredExpr
  | next, .literal pos value => [⟨.literal pos value, resolve, next⟩]
  | next, .var pos name => [⟨.var pos name, resolve, next⟩]
  | next, .element pos array index =>
      ⟨.element pos array index, resolve, next⟩ :: ofExpr resolve next index
  | next, .unary pos op operand =>
      ⟨.unary pos op operand, resolve, next⟩ :: ofExpr resolve next operand
  | next, .binary pos op left right =>
      ⟨.binary pos op left right, resolve, next⟩ ::
        (ofExpr resolve next left ++ ofExpr resolve (lowerExpr resolve next left).next right)
  | next, .call pos callee args =>
      ⟨.call pos callee args, resolve, next⟩ :: ofArgs resolve next args

def ofArgs (resolve : String → String) : Nat → List Expr → List LoweredExpr
  | _, [] => []
  | next, arg :: args =>
      ofExpr resolve next arg ++ ofArgs resolve (lowerExpr resolve next arg).next args

end

/-- The expressions that an expression is made of, at the current place. -/
def here (s : State) (e : Expr) : List LoweredExpr := ofExpr s.resolve s.supply.temps e

/-- The expressions in a statement that has no other statements in it. -/
def ofSingle : Stmt → State → List LoweredExpr
  | .declare _ d, s => d.init.elim [] (here s)
  | .assign _ _ none value, s => here s value
  | .assign _ _ (some index) value, s => here s index ++ here (Lower.expr index s).2 value
  | .call site callee args, s => here s (.call site.pos callee args)
  | .returnValue _ value, s => value.elim [] (here s)
  | _, _ => []

/-- The expressions that are lowered at a move. A loop takes its labels before its condition. -/
def ofMove : Move → State → List LoweredExpr
  | .single x, s => ofSingle x s
  | .branch cond _, s => here s cond
  | .whileTest _ cond, s => here (s.skip 3) cond
  | .forTest _ cond, s => here (s.skip 4) cond
  | _, _ => []

end LoweredExpr

end Tac

/-- The expressions of a whole program, as they are lowered. -/
def Program.loweredExprs (p : Program) : List Tac.LoweredExpr :=
  p.lowering.flatMap fun t => Tac.LoweredExpr.ofMove t.move t.state.state

namespace Tac

open Lower (State Walk)
open LoweredExpr (ofExpr ofArgs ofSingle ofMove here)

/-! ### No expression is left out -/

mutual

theorem expr_ofExpr (resolve : String → String) : (next : Nat) → (e : Expr) →
    (ofExpr resolve next e).map LoweredExpr.expr = e.parts
  | _, .literal .. | _, .var .. => rfl
  | next, .element _ _ index => by
      rw [ofExpr, List.map_cons, expr_ofExpr resolve next index, Expr.parts]
  | next, .unary _ _ operand => by
      rw [ofExpr, List.map_cons, expr_ofExpr resolve next operand, Expr.parts]
  | next, .binary _ _ left right => by
      rw [ofExpr, List.map_cons, List.map_append, expr_ofExpr resolve next left,
        expr_ofExpr resolve _ right, Expr.parts]
  | next, .call _ _ args => by
      rw [ofExpr, List.map_cons, expr_ofArgs resolve next args, Expr.parts]

theorem expr_ofArgs (resolve : String → String) : (next : Nat) → (args : List Expr) →
    (ofArgs resolve next args).map LoweredExpr.expr = Expr.partsIn args
  | _, [] => rfl
  | next, arg :: args => by
      rw [ofArgs, List.map_append, expr_ofExpr resolve next arg, expr_ofArgs resolve _ args,
        Expr.partsIn]

end

theorem expr_here (s : State) (e : Expr) : (here s e).map LoweredExpr.expr = e.parts :=
  expr_ofExpr ..

theorem expr_ofSingle {x : Stmt} (single : x.isSingle = true) (s : State) :
    (ofSingle x s).map LoweredExpr.expr = x.expressions := by
  cases x with
  | declare _ d =>
      obtain ⟨type, name, length, init⟩ := d
      cases init with
      | none => rfl
      | some init => exact expr_here s init
  | assign _ _ index value =>
      cases index with
      | none => exact expr_here s value
      | some index =>
          rw [ofSingle, List.map_append, expr_here, expr_here]
          rfl
  | call => exact expr_here s _
  | returnValue _ value =>
      cases value with
      | none => rfl
      | some e => exact expr_here s e
  | prototype | breakLoop | continueLoop => rfl
  | _ => contradiction

theorem expr_ofMove (m : Move) (s : State) :
    (ofMove m s).map LoweredExpr.expr = m.expressions := by
  cases m with
  | single x => exact expr_ofSingle x.2 s
  | branch cond => exact expr_here s cond
  | whileTest loop cond => exact expr_here _ cond
  | forTest loop cond => exact expr_here _ cond
  | _ => rfl

/-- **No expression of a program is left out.** -/
theorem expr_lowered (p : Program) : p.loweredExprs.map LoweredExpr.expr = p.expressions := by
  unfold Program.expressions
  rw [← Stmt.expressions_movesIn]
  exact Pass.map_noted (run_lowering p) fun m w => expr_ofMove m w.state

/-! ### The code of each expression -/

mutual

/-- The code of what an expression is made of is within its own. -/
theorem within_ofExpr (resolve : String → String) : (next : Nat) → (e : Expr) →
    ∀ x ∈ ofExpr resolve next e, x.code.instrs <:+: (lowerExpr resolve next e).instrs
  | _, .literal .. | _, .var .. => List.forall_mem_singleton.mpr List.infix_rfl
  | next, .element _ _ index =>
      List.forall_mem_cons.mpr ⟨List.infix_rfl, within_ofExpr resolve next index⟩
  | next, .unary _ _ operand => by
      refine List.forall_mem_cons.mpr ⟨List.infix_rfl, fun x mem => ?_⟩
      exact (within_ofExpr resolve next operand x mem).trans List.infix_append_left
  | next, .binary _ _ left right => by
      refine List.forall_mem_cons.mpr ⟨List.infix_rfl, List.forall_mem_append.mpr
        ⟨fun x mem => ?_, fun x mem => ?_⟩⟩
      · exact ((within_ofExpr resolve next left x mem).trans List.infix_append_left).trans
          List.infix_append_left
      · exact (within_ofExpr resolve _ right x mem).trans (List.infix_append ..)
  | next, .call _ _ args => by
      refine List.forall_mem_cons.mpr ⟨List.infix_rfl, fun x mem => ?_⟩
      exact (within_ofArgs resolve next args x mem).trans List.infix_append_left

theorem within_ofArgs (resolve : String → String) : (next : Nat) → (args : List Expr) →
    ∀ x ∈ ofArgs resolve next args, x.code.instrs <:+: (lowerArgs resolve next args).instrs
  | _, [] => nofun
  | next, arg :: args => by
      refine List.forall_mem_append.mpr ⟨fun x mem => ?_, fun x mem => ?_⟩
      · exact (within_ofExpr resolve next arg x mem).trans List.infix_append_left
      · exact (within_ofArgs resolve _ args x mem).trans List.infix_append_right

end

theorem within_here (s : State) (e : Expr) :
    ∀ x ∈ here s e, x.code.instrs <:+: (Lower.expr e s).1.1 :=
  within_ofExpr s.resolve s.supply.temps e

/-- The code of the expressions of a statement without others in it is within that of the
statement. -/
theorem within_ofSingle (targets : Option Lower.Targets) {x : Stmt} (single : x.isSingle = true)
    (s : State) : ∀ e ∈ ofSingle x s, e.code.instrs <:+: (Lower.stmt targets x s).1 := by
  cases x with
  | declare _ d =>
      obtain ⟨type, name, length, init⟩ := d
      cases init with
      | none => exact nofun
      | some init => exact fun e mem => (within_here s init e mem).trans List.infix_append_left
  | assign _ _ index value =>
      cases index with
      | none => exact fun e mem => (within_here s value e mem).trans List.infix_append_left
      | some index =>
          refine List.forall_mem_append.mpr ⟨fun e mem => ?_, fun e mem => ?_⟩
          · exact ((within_here s index e mem).trans List.infix_append_left).trans
              List.infix_append_left
          · exact (within_here _ value e mem).trans (List.infix_append ..)
  | call => exact within_here s _
  | returnValue _ value =>
      cases value with
      | none => exact nofun
      | some e => exact fun x mem => (within_here s e x mem).trans List.infix_append_left
  | prototype | breakLoop | continueLoop => exact nofun
  | _ => contradiction

/-- The code of the expressions of a condition is within that of the branching at it. -/
theorem within_branching (s : State) (cond : Expr) (holds fails : Label) :
    ∀ x ∈ here s cond, x.code.instrs <:+: Lower.branching (Lower.expr cond s).1 holds fails :=
  fun x mem => (within_here s cond x mem).trans List.infix_append_left

/-- The code of the expressions that are lowered at a move is there behind it. -/
theorem has_ofMove {m : Move} {w w' : Walk} (step : Lower.pass m w = some w') :
    ∀ e ∈ ofMove m w.state, w'.Has e.code.instrs := by
  cases m with
  | single x =>
      cases step
      exact fun e mem => .inl ((within_ofSingle _ x.2 _ e mem).trans List.infix_append_right)
  | branch cond =>
      cases step
      exact fun e mem => .inl ((within_branching _ cond _ _ e mem).trans List.infix_append_right)
  | whileTest loop cond =>
      cases step
      exact fun e mem => .inl ((List.infix_cons (within_branching _ cond _ _ e mem)).trans
        List.infix_append_right)
  | forTest loop cond =>
      refine fun e mem => .inl ?_
      rw [Lower.code_forTest step]
      exact (List.infix_cons (within_branching _ cond _ _ e mem)).trans List.infix_append_right
  | _ => exact nofun

/-- **The code of each expression is a piece of the code of the program.** -/
theorem placed_lowered (p : Program) :
    ∀ x ∈ p.loweredExprs, ∃ q, p.lower.1.Has q x.code.instrs := by
  intro x mem
  obtain ⟨t, at_t, mem⟩ := List.mem_flatMap.mp mem
  exact Code.Has.of_isInfix (infix_lower at_t fun w step => has_ofMove step x mem)

end Tac

end BraceLang
