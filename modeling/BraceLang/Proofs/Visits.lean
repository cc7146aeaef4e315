import BraceLang.Proofs.Assembly.Walk
import BraceLang.Proofs.Check.Walk

/-!
Where checking and making code meet. Both go through a program on their own: checking takes the
statements in their order, bodies of functions included, while code is made for the whole top
level first and for the functions afterwards, and arguments are pushed from the last to the
first. A visit is a place of the tree that both come to, with the state that each of them is in
when it gets there.

Where making code stops with a fault, it does not come to the rest of the program, and there are
no more visits.

**Main result.** `points_visits`: when code is made for the whole program, every expression, every
use of a variable and every call in it has a visit.
-/

namespace BraceLang

/-- What both decide at a place of the tree. -/
inductive Point where
  /-- What kind of value an expression has. -/
  | value (e : Expr)
  /-- Which variable a name stands for. -/
  | storage (name : String)
  /-- How a function is called. -/
  | call (name : String)

mutual

/-- The places of an expression, in the order they are visited in. -/
def Expr.points : Expr → List Point
  | .literal pos value => [.value (.literal pos value)]
  | .var pos name => [.value (.var pos name), .storage name]
  | .element pos array index =>
      .value (.element pos array index) :: index.points ++ [.storage array]
  | .unary pos op operand => .value (.unary pos op operand) :: operand.points
  | .binary pos op left right => .value (.binary pos op left right) :: left.points ++ right.points
  | .call pos name args =>
      .value (.call pos name args) :: Expr.pointsIn args ++ [.call name.val]

def Expr.pointsIn : List Expr → List Point
  | [] => []
  | e :: rest => e.points ++ Expr.pointsIn rest

end

namespace Stmt

mutual

/-- The places of a statement; functions have theirs elsewhere. -/
def points : Stmt → List Point
  | .declare _ d => d.init.elim [] Expr.points
  | .assign _ target index value =>
      index.elim [] Expr.points ++ value.points ++ [.storage target.val]
  | .call _ name args => Expr.pointsIn args ++ [.call name.val]
  | .block _ body => pointsIn body
  | .ifThen cond _ body | .whileLoop cond _ body => cond.points ++ pointsIn body
  | .ifElse cond _ body _ elseBody => cond.points ++ pointsIn body ++ pointsIn elseBody
  | .forLoop init cond update _ body =>
      pointsOf init ++ (cond.points ++ pointsIn body ++ pointsOf update)
  | .returnValue _ value => value.elim [] Expr.points
  | .prototype .. | .define .. | .breakLoop _ | .continueLoop _ => []

/-- The places of a part of a `for` header. -/
def pointsOf : Option Stmt → List Point
  | none => []
  | some x => x.points

def pointsIn : List Stmt → List Point
  | [] => []
  | x :: rest => x.points ++ pointsIn rest

end

end Stmt

/-- The places of a move. -/
def Move.points : Move → List Point
  | .single x => x.val.points
  | .branch cond _ | .whileTest _ cond | .forTest _ cond => cond.points
  | _ => []

namespace Stmt

mutual

/-- The moves come to all places of a statement. -/
theorem points_moves : (x : Stmt) → (x.moves false).flatMap Move.points = x.points
  | .block _ body | .ifThen _ _ body | .whileLoop _ _ body => by
      simp [moves, movesBetween, Move.points, points, points_movesIn body]
  | .ifElse _ _ body _ elseBody => by
      simp [moves, movesBetween, Move.points, points, points_movesIn body,
        points_movesIn elseBody]
  | .forLoop init _ update _ body => by
      simp [moves, movesBetween, Move.points, points, points_movesBy init, points_movesIn body,
        points_movesBy update]
  | .declare .. | .prototype .. | .assign .. | .call .. | .breakLoop _ | .continueLoop _
  | .returnValue .. => List.append_nil _
  | .define .. => rfl

theorem points_movesBy : (part : Option Stmt) →
    (movesBy false part).flatMap Move.points = pointsOf part
  | none => rfl
  | some x => points_moves x

theorem points_movesIn : (body : List Stmt) →
    (movesIn false body).flatMap Move.points = pointsIn body
  | [] => rfl
  | x :: rest => by
      simp [movesIn, Move.points, pointsIn, points_moves x, points_movesIn rest]

end

/-- The places of the body of a function. -/
def bodyPoints : Stmt → List Point
  | .define _ _ body => pointsIn body
  | _ => []

end Stmt

/-- The places of a program: of its top level, and of its functions after that. -/
def Program.points (p : Program) : List Point :=
  Stmt.pointsIn p.stmts ++ p.stmts.flatMap Stmt.bodyPoints

structure Visit where
  point : Point
  /-- The state that checking is in. -/
  checking : Check.State
  /-- The state that making code is in. -/
  making : Assembly.State

namespace Visit

open Check (inferExpr inferArgs checkStmt checkHeading checkIndex checkTerminator enterLoop
  enterBody visitAssign visitDeclaration callTokens)

open Assembly (Interface expr exprArgs freshTarget callee onDone routine)

variable (iface : Interface)

mutual

/-- The visits of an expression. -/
def ofExpr : Expr → Check.State → Assembly.State → List Visit
  | .literal pos value, c, s => [⟨.value (.literal pos value), c, s⟩]
  | .var pos name, c, s =>
      [⟨.value (.var pos name), c, s⟩, ⟨.storage name, (Check.visit 1 c).2, s⟩]
  | .element pos array index, c, s =>
      let found := inferExpr index (Check.visit 3 c).2
      ⟨.value (.element pos array index), c, s⟩ :: ofExpr index (Check.visit 3 c).2 s ++
        [⟨.storage array, (checkIndex index.pos found.1 found.2).2, (expr iface index s).2⟩]
  | .unary pos op operand, c, s =>
      ⟨.value (.unary pos op operand), c, s⟩ :: ofExpr operand (Check.visit 1 c).2 s
  | .binary pos op left right, c, s =>
      ⟨.value (.binary pos op left right), c, s⟩ :: ofExpr left (Check.visit 1 c).2 s ++
        ofExpr right (inferExpr left (Check.visit 1 c).2).2 (expr iface left s).2
  | .call pos name args, c, s =>
      let c₁ := (Check.visit (callTokens args) c).2
      let s₁ := (callee iface name.val s).2
      ⟨.value (.call pos name args), c, s⟩ :: ofArgs (iface.params name.val) args c₁ s₁ ++
        [⟨.call name.val, (inferArgs args c₁).2, s₁⟩]

/-- The visits of arguments, which code is made for from the last to the first. -/
def ofArgs : List Ty → List Expr → Check.State → Assembly.State → List Visit
  | _, [], _, _ => []
  | params, arg :: args, c, s =>
      ofExpr arg c (exprArgs iface params.tail args s).2 ++
        ofArgs params.tail args (inferExpr arg c).2 s

end

/-- The visits of an assignment. The target is looked up last by one and first by the other. -/
def ofAssign (target : Located String) (index : Option Expr) (value : Expr) (c : Check.State)
    (s : Assembly.State) : List Visit :=
  let c₁ := visitAssign target index c
  let stored (c : Check.State) : Visit :=
    ⟨.storage target.val, { (inferExpr value c).2 with assigning := none }, s⟩
  match index with
  | none => ofExpr iface value c₁ s ++ [stored c₁]
  | some index =>
      let found := inferExpr index c₁
      let c₂ := (checkIndex index.pos found.1 found.2).2
      ofExpr iface index c₁ s ++ ofExpr iface value c₂ (expr iface index s).2 ++ [stored c₂]

/-- The visits of a call whose result is not used. -/
def ofCall (name : Located String) (args : List Expr) (c : Check.State) (s : Assembly.State) :
    List Visit :=
  let c₁ := (Check.visit (callTokens args) (Check.visit 0 c).2).2
  let s₁ := (callee iface name.val s).2
  ofArgs iface (iface.params name.val) args c₁ s₁ ++
    [⟨.call name.val, (inferArgs args c₁).2, s₁⟩]

/-- The visits of a move; functions have theirs elsewhere. -/
def ofMove (m : Move) (c : Check.State) (s : Assembly.State) : List Visit :=
  match m with
  | .single ⟨.declare _ d, _⟩ =>
      d.init.elim [] fun init => ofExpr iface init (visitDeclaration d c).2 s
  | .single ⟨.assign _ target index value, _⟩ => ofAssign iface target index value c s
  | .single ⟨.call _ name args, _⟩ => ofCall iface name args c s
  | .single ⟨.returnValue _ value, _⟩ =>
      value.elim [] fun e => ofExpr iface e (Check.visit 1 c).2 s
  | .branch cond hasElse =>
      ofExpr iface cond (Check.visit (if hasElse then 4 else 3) c).2 (freshTarget s).2
  | .whileTest _ cond =>
      ofExpr iface cond (enterLoop (Check.visit 3 c).2).2 (freshTarget (freshTarget s).2).2
  | .forTest _ cond =>
      ofExpr iface cond (enterLoop c).2 (freshTarget (freshTarget (freshTarget s).2).2).2
  | _ => []

/-- The pass of checking and that of making code at once. -/
def pass : Pass (Check.Walk × Assembly.Walk) := Check.pass.both (Assembly.pass iface)

/-- The visits on the way through some moves. -/
def ofMoves (ms : List Move) (w : Check.Walk × Assembly.Walk) : List Visit :=
  (pass iface).noted (fun m w => ofMove iface m w.1.state w.2.state) ms w

/-- The visits of the statements of a unit. -/
def ofStmts (body : List Stmt) (c : Check.State) (s : Assembly.State) : List Visit :=
  ofMoves iface (Stmt.movesIn false body) (⟨c, []⟩, .start s)

/-- The visits of the bodies of the functions that are defined by some statements. -/
def ofRoutines : List Stmt → Check.State → Assembly.State → List Visit
  | [], _, _ => []
  | .define h braces body :: rest, c, s =>
      let heading := checkHeading h true c
      ofStmts iface body (enterBody h braces heading.1 heading.2).2
          (Assembly.enterRoutine h s).2 ++
        onDone (routine iface h body) s fun s' =>
          ofRoutines rest (checkStmt (.define h braces body) c).2 s'
  | x :: rest, c, s => ofRoutines rest (checkStmt x (checkTerminator x c).2).2 s

end Visit

/-- The visits of a whole program: of its top level, and of its functions after that. -/
def Program.visits (p : Program) : List Visit :=
  let iface := Assembly.Interface.ofProgram p
  let c := (Check.openScope (Check.visit 0 {}).2).2
  let s := (Assembly.openScope {}).2
  Visit.ofStmts iface p.stmts c s ++
    Assembly.onDone (Assembly.stmts iface none p.stmts) s fun s' =>
      Visit.ofRoutines iface p.stmts c (Assembly.finish iface s').2

/-! ### Every place is visited -/

section Points

open Assembly (Interface Done stmts)

variable {iface : Interface} {c : Check.State} {s s' : Assembly.State}

mutual

theorem points_ofExpr : (e : Expr) → ∀ c s,
    (Visit.ofExpr iface e c s).map Visit.point = e.points
  | .literal pos value, c, s => by
      rw [Visit.ofExpr, Expr.points]
      rfl
  | .var pos name, c, s => by
      rw [Visit.ofExpr, Expr.points]
      rfl
  | .element pos array index, c, s => by
      rw [Visit.ofExpr, Expr.points, List.map_append, List.map_cons, points_ofExpr index]
      rfl
  | .unary pos op operand, c, s => by
      rw [Visit.ofExpr, Expr.points, List.map_cons, points_ofExpr operand]
  | .binary pos op left right, c, s => by
      rw [Visit.ofExpr, Expr.points, List.map_append, List.map_cons, points_ofExpr left,
        points_ofExpr right]
  | .call pos name args, c, s => by
      rw [Visit.ofExpr, Expr.points, List.map_append, List.map_cons, points_ofArgs args]
      rfl

theorem points_ofArgs : (args : List Expr) → ∀ params c s,
    (Visit.ofArgs iface params args c s).map Visit.point = Expr.pointsIn args
  | [], params, c, s => by
      rw [Visit.ofArgs, Expr.pointsIn]
      rfl
  | e :: rest, params, c, s => by
      rw [Visit.ofArgs, Expr.pointsIn, List.map_append, points_ofExpr e, points_ofArgs rest]

end

theorem points_ofAssign (target : Located String) (index : Option Expr) (value : Expr)
    (c : Check.State) (s : Assembly.State) :
    (Visit.ofAssign iface target index value c s).map Visit.point =
      index.elim [] Expr.points ++ value.points ++ [.storage target.val] := by
  unfold Visit.ofAssign
  cases index with
  | none =>
      rw [List.map_append, points_ofExpr value]
      rfl
  | some index =>
      rw [List.map_append, List.map_append, points_ofExpr index, points_ofExpr value]
      rfl

theorem points_ofMove (m : Move) (c : Check.State) (s : Assembly.State) :
    (Visit.ofMove iface m c s).map Visit.point = m.points := by
  cases m with
  | single x =>
      obtain ⟨x, single⟩ := x
      cases x with
      | declare site d =>
          rw [Visit.ofMove, Move.points, Stmt.points]
          cases d.init with
          | none => rfl
          | some e => exact points_ofExpr e _ s
      | assign site target index value =>
          rw [Visit.ofMove, Move.points, Stmt.points]
          exact points_ofAssign target index value c s
      | call site name args =>
          rw [Visit.ofMove, Move.points, Stmt.points, Visit.ofCall, List.map_append,
            points_ofArgs args]
          rfl
      | returnValue site value =>
          rw [Visit.ofMove, Move.points, Stmt.points]
          cases value with
          | none => rfl
          | some e => exact points_ofExpr e _ s
      | prototype | breakLoop | continueLoop => rfl
      | _ => contradiction
  | branch cond hasElse => exact points_ofExpr cond _ _
  | whileTest loop cond | forTest loop cond => exact points_ofExpr cond _ _
  | _ => rfl

/-- All places are visited when code is made for the statements without a fault. -/
theorem points_ofStmts {body : List Stmt} {lines : List Assembly.Line}
    (done : Done (stmts iface none body) s lines s') :
    (Visit.ofStmts iface body c s).map Visit.point = Stmt.pointsIn body := by
  have made := Assembly.run_of_done (w := .start s) done
  have ran : (Visit.pass iface).run (Stmt.movesIn false body) (⟨c, []⟩, .start s) = some (_, _) :=
    Pass.run_both_eq_some.mpr ⟨Check.run_movesIn body ⟨c, []⟩, made⟩
  rw [← Stmt.points_movesIn]
  exact Pass.map_noted ran fun m w => points_ofMove m w.1.state w.2.state

theorem points_ofRoutines (body : List Stmt) {c : Check.State} {s s' : Assembly.State}
    {made : List Assembly.Routine} (done : Done (Assembly.routines iface body) s made s') :
    (Visit.ofRoutines iface body c s).map Visit.point = body.flatMap Stmt.bodyPoints := by
  induction body generalizing c s made with
  | nil =>
      rw [Visit.ofRoutines]
      rfl
  | cons x rest ih =>
      rw [List.flatMap_cons]
      obtain ⟨h, braces, body, _, _, _, rfl, routine, others, -⟩ | ⟨other, skips⟩ :=
        Assembly.done_routines_cons done
      · obtain ⟨_, _, fills, -⟩ := Assembly.done_routine routine
        rw [Visit.ofRoutines, List.map_append, points_ofStmts fills,
          Assembly.onDone_of_done routine, ih others]
        rfl
      · rw [Visit.ofRoutines, ih skips]
        · cases x with
          | define h braces body => exact absurd rfl (other h braces body)
          | _ => rfl
        · exact other

/-- When code is made for the whole program, every place of it is visited. -/
theorem points_visits {p : Program} {listing : Assembly.Listing}
    (assembled : p.assemble.1 = .ok listing) : p.visits.map Visit.point = p.points := by
  obtain ⟨_, _, _, top, made, -⟩ := Assembly.done_listing assembled
  rw [Program.visits, Program.points, List.map_append, points_ofStmts top,
    Assembly.onDone_of_done top, points_ofRoutines p.stmts made]

end Points

end BraceLang
