import BraceLang.Proofs.Check.Growth
import BraceLang.Proofs.Moves

/-!
Checking as a pass. The walk through a program has the state of checking, and for each function
that it is in what was known of the one around.

* **`run_moves`**: a statement is gone through as it is checked;
* **`log_step`**: what has been reported stays in the log.
-/

namespace BraceLang.Check

/-- How far checking has come. -/
@[ext]
structure Walk where
  state : State
  /-- What was around each function that the place is in, innermost first. -/
  outer : List (Option Context)

/-- What is checked at a move, apart from functions that are gone into. -/
def checkMove : Move → Check Unit
  | .next x => checkTerminator x
  | .single x => checkStmt x
  | .passBy h braces body => checkStmt (.define h braces body)
  | .enter braces => do
      openScope
      openBraces braces
  | .leave braces => do
      closeBraces braces
      closeScope
  | .branch cond hasElse => do
      visit (if hasElse then 4 else 3)
      let _ ← inferExpr cond
  | .whileTest _ cond => do
      visit 3
      enterLoop
      let _ ← inferExpr cond
  | .whileEnd => leaveLoop
  | .forStart => do
      visit 5
      openScope
  | .forTest _ cond => do
      enterLoop
      let _ ← inferExpr cond
  | .forEnd => do
      leaveLoop
      closeScope
  | .enterBody .. | .leaveBody .. | .otherwise | .join | .forUpdate => pure ()

namespace Walk

/-- Behind something that is checked here. -/
def behind (action : Check Unit) (w : Walk) : Walk := { w with state := (action w.state).2 }

/-- At the first statement in the body of a function. -/
def enterBody (h : Heading) (braces : Braces) (w : Walk) : Walk :=
  let heading := checkHeading h true w.state
  ⟨(Check.enterBody h braces heading.1 heading.2).2, heading.2.function :: w.outer⟩

end Walk

/-- Behind a function. -/
def State.behindBody (s : State) (h : Heading) (braces : Braces) (outer : Option Context) :
    State :=
  let closed := (closeScope (closeBraces braces s).2).2
  (checkReturned h.name closed.function { closed with function := outer }).2

/-- The pass of checking. It stops only at an end of a function that it is not in. -/
def pass : Pass Walk
  | .enterBody h braces, w => some (w.enterBody h braces)
  | .leaveBody h braces, ⟨s, outer :: outers⟩ => some ⟨s.behindBody h braces outer, outers⟩
  | .leaveBody .., ⟨_, []⟩ => none
  | m, w => some (w.behind (checkMove m))

/-! ### What a move can do -/

variable {m : Move} {w w' : Walk}

theorem step_leaveBody {h : Heading} {braces : Braces}
    (step : pass (.leaveBody h braces) w = some w') :
    ∃ outer, w'.state = w.state.behindBody h braces outer := by
  obtain ⟨s, _ | ⟨outer, outers⟩⟩ := w
  · contradiction
  · cases step
    exact ⟨outer, rfl⟩

theorem step_between (between : m.isBetween = true) (step : pass m w = some w') :
    w' = w.behind (checkMove m) := by
  cases m <;> first | contradiction | exact (Option.some_inj.mp step).symm

/-- The scopes of checking with one opened or closed, if a move does so. -/
def State.scoped (m : Move) (c : State) : State :=
  match m.scoping with
  | .opens => (openScope c).2
  | .closes => (closeScope c).2
  | .stays => c

/-- Apart from the scope, moves between statements leave the table alone. -/
theorem steady_between (between : m.isBetween = true) (c : State) :
    ∃ c₁, c.Steady c₁ ∧ (c₁.scoped m).Steady (checkMove m c).2 := by
  cases m with
  | next x => exact ⟨_, calm_checkTerminator x c, .refl _⟩
  | enter braces => exact ⟨c, .refl c, calm_openBraces braces _⟩
  | leave braces => exact ⟨_, calm_closeBraces braces c, .refl _⟩
  | branch cond hasElse => exact ⟨_, calm_visit _ c, calm_inferExpr cond _⟩
  | whileTest _ cond =>
      exact ⟨_, (calm_visit 3 c).trans (calm_enterLoop _), calm_inferExpr cond _⟩
  | whileEnd => exact ⟨_, calm_leaveLoop c, .refl _⟩
  | forStart => exact ⟨_, calm_visit 5 c, .refl _⟩
  | forTest _ cond => exact ⟨_, calm_enterLoop c, calm_inferExpr cond _⟩
  | forEnd => exact ⟨_, calm_leaveLoop c, .refl _⟩
  | otherwise | join | forUpdate => exact ⟨c, .refl c, .refl c⟩
  | single | passBy | enterBody | leaveBody => contradiction

theorem layers_scoped (m : Move) (c : State) :
    (c.scoped m).layers = m.scopes (fun _ => none) c.layers := by
  unfold State.scoped Move.scopes
  cases m.scoping
  · exact layers_openScope c
  · exact layers_closeScope c
  · rfl

theorem poisoned_scoped (m : Move) (c : State) : (c.scoped m).poisoned = c.poisoned := by
  unfold State.scoped
  cases m.scoping
  · rfl
  · exact poisoned_closeScope c
  · rfl

theorem log_scoped (m : Move) (c : State) :
    c.diagnostics.entries <+: (c.scoped m).diagnostics.entries := by
  unfold State.scoped
  cases m.scoping
  · exact List.prefix_rfl
  · exact log_closeScope c
  · exact List.prefix_rfl

theorem layers_between (between : m.isBetween = true) (c : State) :
    (checkMove m c).2.layers = m.scopes (fun _ => none) c.layers := by
  obtain ⟨c₁, before, after⟩ := steady_between between c
  rw [after.layers, layers_scoped, before.layers]

theorem poisoned_between (between : m.isBetween = true) (c : State) :
    (checkMove m c).2.poisoned = c.poisoned := by
  obtain ⟨c₁, before, after⟩ := steady_between between c
  rw [after.poisoned, poisoned_scoped, before.poisoned]

theorem log_between (between : m.isBetween = true) (c : State) :
    c.diagnostics.entries <+: (checkMove m c).2.diagnostics.entries := by
  obtain ⟨c₁, before, after⟩ := steady_between between c
  exact before.log.trans ((log_scoped m c₁).trans after.log)

theorem log_stmt (x : Stmt) (w : Walk) :
    w.state.diagnostics.entries <+: (w.behind (checkStmt x)).state.diagnostics.entries :=
  (runs_checkStmt x w.state).log

/-- What has been reported is in the log behind the move. -/
theorem log_step (step : pass m w = some w') :
    w.state.diagnostics.entries <+: w'.state.diagnostics.entries := by
  cases between : m.isBetween with
  | true =>
      obtain rfl := step_between between step
      exact log_between between w.state
  | false =>
      cases m with
      | single x =>
          obtain rfl : w.behind (checkStmt x) = w' := Option.some_inj.mp step
          exact log_stmt x w
      | passBy h braces body =>
          obtain rfl : w.behind (checkMove (.passBy h braces body)) = w' :=
            Option.some_inj.mp step
          rw [checkMove]
          exact log_stmt _ w
      | enterBody h braces =>
          cases step
          obtain ⟨c, steady, after⟩ := after_enterBody h braces
            (checkHeading h true w.state).1 _ checkHeading_reports
          exact ((runs_checkHeading h true w.state).log.trans steady.log).trans after.log
      | leaveBody h braces =>
          obtain ⟨outer, same⟩ := step_leaveBody step
          rw [same]
          have closed := (calm_closeBraces braces w.state).log.trans (log_closeScope _)
          exact closed.trans
            ((calm_setFunction outer).bind (fun _ => calm_checkReturned h.name _) _).log
      | _ => contradiction

theorem log_run {ms : List Move} (ran : pass.run ms w = some w') :
    w.state.diagnostics.entries <+: w'.state.diagnostics.entries :=
  Pass.run_keeps (P := fun v => w.state.diagnostics.entries <+: v.state.diagnostics.entries)
    (fun _ _ _ step before => before.trans (log_step step)) List.prefix_rfl ran

/-! ### Going through statements is checking them -/

namespace Walk

theorem behind_behind (w : Walk) (first second : Check Unit) :
    (w.behind first).behind second = w.behind (do first; second) := rfl

end Walk

variable {deep : Bool}

/-- The moves of a block do what checking does between its braces. -/
theorem run_movesBetween (braces : Braces) {body : List Stmt}
    (fills : ∀ w, pass.run (Stmt.movesIn deep body) w = some (w.behind (checkStmts body)))
    (w : Walk) : pass.run (Stmt.movesBetween braces (Stmt.movesIn deep body)) w =
      some (w.behind (inBlock braces (checkStmts body))) := by
  have filled := fills (w.behind (checkMove (.enter braces)))
  exact Pass.run_trans ((Pass.run_cons rfl).trans filled) rfl

mutual

/-- A statement is gone through as it is checked, whether bodies of functions are gone into or
not. -/
theorem run_moves : (x : Stmt) → (w : Walk) →
    pass.run (x.moves deep) w = some (w.behind (checkStmt x))
  | .define h braces body, w => by
      have filled := run_movesIn body (w.enterBody h braces)
      rw [Stmt.moves]
      split
      · refine (Pass.run_trans ((Pass.run_cons rfl).trans filled) rfl).trans (congrArg some ?_)
        refine Walk.ext (congrArg Prod.snd ?_) rfl
        rw [checkStmt_define, checkBody_eq]
        rfl
      · rfl
  | .block braces body, w => run_movesBetween braces (run_movesIn body) w
  | .ifThen cond braces body, w => by
      have held := run_movesBetween braces (run_movesIn body)
        (w.behind (checkMove (.branch cond false)))
      exact Pass.run_trans ((Pass.run_cons rfl).trans held) rfl
  | .ifElse cond braces body elseBraces elseBody, w => by
      have held := run_movesBetween braces (run_movesIn body)
        (w.behind (checkMove (.branch cond true)))
      have failed := run_movesBetween elseBraces (run_movesIn elseBody)
      refine (Pass.run_trans (Pass.run_trans ((Pass.run_cons rfl).trans held)
        ((Pass.run_cons rfl).trans (failed _))) rfl).trans (congrArg some ?_)
      exact Walk.ext (congrArg Prod.snd (checkStmt_ifElse ..)).symm rfl
  | .whileLoop cond braces body, w => by
      have rounds := run_movesBetween braces (run_movesIn body)
        (w.behind (checkMove (.whileTest (.whileLoop cond braces body) cond)))
      exact Pass.run_trans ((Pass.run_cons rfl).trans rounds) rfl
  | .forLoop init cond update braces body, w => by
      have started := run_movesBy init (w.behind (checkMove .forStart))
      have filled := run_movesBetween braces (run_movesIn body)
      have updated := run_movesBy update
      refine (Pass.run_trans (Pass.run_trans (Pass.run_trans ((Pass.run_cons rfl).trans started)
        ((Pass.run_cons rfl).trans (filled _))) ((Pass.run_cons rfl).trans (updated _)))
        rfl).trans (congrArg some ?_)
      exact Walk.ext (congrArg Prod.snd (checkStmt_forLoop ..)).symm rfl
  | .declare .., _ | .prototype .., _ | .assign .., _ | .call .., _ | .breakLoop _, _
  | .continueLoop _, _ | .returnValue .., _ => rfl

theorem run_movesBy : (part : Option Stmt) → (w : Walk) →
    pass.run (Stmt.movesBy deep part) w = some (w.behind (checkHeader part))
  | none, _ => rfl
  | some x, w => run_moves x w

theorem run_movesIn : (body : List Stmt) → (w : Walk) →
    pass.run (Stmt.movesIn deep body) w = some (w.behind (checkStmts body))
  | [], _ => rfl
  | x :: rest, _ =>
      Pass.run_trans ((Pass.run_cons rfl).trans (run_moves x _)) (run_movesIn rest _)

end

end BraceLang.Check
