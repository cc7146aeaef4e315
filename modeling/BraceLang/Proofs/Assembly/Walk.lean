import BraceLang.Proofs.Assembly.Slots
import BraceLang.Proofs.Moves

/-!
Making code as a pass. The walk through a unit has the state of making code, the code so far, and
what is around the place that it has come to. Functions are passed by: they have code of their
own elsewhere. The pass stops where code cannot be made.

* **`step_cases`**: what a move can do to the state;
* **`run_moves`**: a statement is gone through as code is made for it;
* **`layers_routine`**: a function leaves the scopes around it as they were.
-/

namespace BraceLang.Assembly

/-- What is around a place. -/
inductive Around where
  /-- A statement that has branched, with the label at its end. -/
  | branch (stop : Target)
  /-- A loop, with the label that its rounds start at, its targets and those around it. -/
  | loop (start : Target) (own : Targets) (outer : Option Targets)

/-- How far making code has come. -/
@[ext]
structure Walk where
  state : State
  /-- The code of the unit. -/
  code : List Line
  targets : Option Targets
  /-- What is around, innermost first. -/
  around : List Around

namespace Walk

/-- Before the first statement of a unit. -/
def start (s : State) : Walk := ⟨s, [], none, []⟩

/-- Behind an action that makes code, if it ends without a fault. -/
def behind? (action : EmitStmt (List Line)) (w : Walk) : Option Walk :=
  match action.run w.state with
  | (.ok lines, s) => some { w with state := s, code := w.code ++ lines }
  | (.error _, _) => none

variable (iface : Interface)

def branch (cond : Expr) (w : Walk) : Walk :=
  let fails := freshTarget w.state
  let test := jumpUnless iface cond fails.1 fails.2
  ⟨test.2, w.code ++ test.1, w.targets, .branch fails.1 :: w.around⟩

def whileTest (cond : Expr) (w : Walk) : Walk :=
  let start := freshTarget w.state
  let stop := freshTarget start.2
  let test := jumpUnless iface cond stop.1 stop.2
  let own : Targets := ⟨start.1, stop.1⟩
  ⟨test.2, w.code ++ .label start.1 :: test.1, some own, .loop start.1 own w.targets :: w.around⟩

def forTest (cond : Expr) (w : Walk) : Walk :=
  let start := freshTarget w.state
  let next := freshTarget start.2
  let stop := freshTarget next.2
  let test := jumpUnless iface cond stop.1 stop.2
  let own : Targets := ⟨next.1, stop.1⟩
  ⟨test.2, w.code ++ .label start.1 :: test.1, some own, .loop start.1 own w.targets :: w.around⟩

end Walk

/-- The pass of making code. It stops with a fault, at functions that are gone into, and at moves
that do not fit what is around. -/
def pass (iface : Interface) : Pass Walk
  | .next _, w | .passBy .., w => some w
  | .single x, w => w.behind? (stmt iface w.targets x)
  | .enter _, w | .forStart, w => some { w with state := (openScope w.state).2 }
  | .leave _, w => some { w with state := (closeScope w.state).2 }
  | .branch cond _, w => some (w.branch iface cond)
  | .otherwise, ⟨s, code, targets, .branch fails :: around⟩ =>
      let stop := freshTarget s
      some ⟨stop.2, code ++ [.instr (.jmp stop.1), .label fails], targets,
        .branch stop.1 :: around⟩
  | .join, ⟨s, code, targets, .branch stop :: around⟩ =>
      some ⟨s, code ++ [.label stop], targets, around⟩
  | .whileTest _ cond, w => some (w.whileTest iface cond)
  | .whileEnd, ⟨s, code, _, .loop start own outer :: around⟩ =>
      some ⟨s, code ++ [.instr (.jmp start), .label own.stop], outer, around⟩
  | .forTest _ cond, w => some (w.forTest iface cond)
  | .forUpdate, ⟨s, code, _, .loop start own outer :: around⟩ =>
      some ⟨s, code ++ [.label own.next], outer, .loop start own outer :: around⟩
  | .forEnd, ⟨s, code, _, .loop start own outer :: around⟩ =>
      some ⟨(closeScope s).2, code ++ [.instr (.jmp start), .label own.stop], outer, around⟩
  | _, _ => none

variable {iface : Interface} {w w' : Walk}

/-! ### What a move can do -/

theorem Walk.behind?_eq_some {action : EmitStmt (List Line)} (ends : w.behind? action = some w') :
    ∃ lines, Done action w.state lines w'.state ∧ w'.code = w.code ++ lines := by
  unfold Walk.behind? at ends
  split at ends
  · rename_i lines s ran
    cases ends
    exact ⟨lines, ran, rfl⟩
  · contradiction

theorem grows_of_done {α : Type} {action : Emit α} {a : α} {s s' : State}
    (growing : Growing action) (done : Done (liftM action) s a s') : s.Grows s' := by
  have grown := growing s
  rwa [done_lift done] at grown

/-- Of the statements without other statements in them, only declarations change storage. -/
theorem grows_single {targets : Option Targets} {lines : List Line} {s s' : State}
    (x : { x : Stmt // x.isSingle = true }) (done : Done (stmt iface targets x) s lines s') :
    (∃ site d, x.val = .declare site d) ∨ s.Grows s' := by
  obtain ⟨x, single⟩ := x
  dsimp only at done ⊢
  cases x <;> rw [stmt] at done
  case declare site d => exact .inl ⟨site, d, rfl⟩
  case assign target index value =>
    exact .inr (grows_of_done (growing_assignment target.val index value) done)
  case call callee args => exact .inr (grows_of_done (growing_callStmt callee.val args) done)
  case returnValue value => exact .inr (grows_of_done (growing_returnStmt value) done)
  case prototype | breakLoop | continueLoop => exact .inr ((done_pure done).2 ▸ .refl _)
  all_goals contradiction

/-- What a move between statements does to the state. -/
def State.Passes (m : Move) (s s' : State) : Prop :=
  match m.scoping with
  | .opens => s' = (openScope s).2
  | .closes => s' = (closeScope s).2
  | .stays => s.Grows s'

theorem step_cases {m : Move} (step : pass iface m w = some w') :
    (∃ x lines, m = .single x ∧ Done (stmt iface w.targets x) w.state lines w'.state) ∨
      (∃ h braces body, m = .passBy h braces body ∧ w' = w) ∨
      m.isBetween = true ∧ w.state.Passes m w'.state := by
  unfold pass at step
  split at step
  case h_2 h braces body => exact .inr (.inl ⟨h, braces, body, rfl, (Option.some_inj.mp step).symm⟩)
  case h_3 x =>
    obtain ⟨lines, done, -⟩ := Walk.behind?_eq_some step
    exact .inl ⟨x, lines, rfl, done⟩
  case h_15 => contradiction
  all_goals
    cases step
    refine .inr (.inr ⟨rfl, ?_⟩)
  case h_7.refl cond _ => exact grows_test iface cond (.refl _)
  case h_8.refl s _ _ _ _ => exact growing_freshTarget s
  case h_10.refl cond => exact grows_test iface cond (growing_freshTarget _)
  case h_12.refl cond =>
    exact grows_test iface cond ((growing_freshTarget _).trans (growing_freshTarget _))
  all_goals first | rfl | exact .refl _

theorem State.Passes.layers {m : Move} {s s' : State} (passes : s.Passes m s') :
    s'.layers = m.scopes (fun _ => none) s.layers := by
  unfold State.Passes at passes
  unfold Move.scopes
  cases scoping : m.scoping <;> rw [scoping] at passes
  · exact congrArg State.layers passes
  · exact (congrArg State.layers passes).trans (layers_closeScope s)
  · exact State.Grows.layers passes

/-- Statements without other statements in them fill the current scope only. -/
theorem tail_single {targets : Option Targets} {lines : List Line} {s s' : State}
    (x : { x : Stmt // x.isSingle = true }) (done : Done (stmt iface targets x) s lines s') :
    s'.layers.tail = s.layers.tail := by
  rcases grows_single x done with ⟨site, d, declared⟩ | grows
  · rw [declared, stmt] at done
    obtain ⟨slot, middle, -, layers, rfl⟩ := done_declaration done
    rw [tail_declareSlot, layers]
  · rw [grows.layers]

/-- Below the current scope, a move leaves the scopes around as they are. -/
theorem drop_step {m : Move} {n n' : Nat} (counted : Pass.depth m n = some n')
    (step : pass iface m w = some w') :
    w'.state.layers.drop (1 + n') = w.state.layers.drop (1 + n) := by
  obtain ⟨x, lines, rfl, done⟩ | ⟨h, braces, body, rfl, rfl⟩ | ⟨-, passes⟩ := step_cases step
  · obtain rfl : n = n' := Option.some_inj.mp counted
    rw [← List.drop_drop, List.drop_one, tail_single x done, ← List.drop_one, List.drop_drop]
  · obtain rfl : n = n' := Option.some_inj.mp counted
    rfl
  · rw [passes.layers, Pass.drop_scopes counted]

/-! ### Going through statements is making code for them -/

theorem Walk.behind?_nil (w : Walk) : w.behind? (pure []) = some w :=
  congrArg some (Walk.ext rfl (List.append_nil w.code) rfl rfl)

/-- Moves that make the code of an action, and then some that make what follows on it. -/
theorem run_then {action : EmitStmt (List Line)} {next : List Line → EmitStmt (List Line)}
    {ms ms' : List Move} {w₁ : Walk} (first : (pass iface).run ms w₁ = w₁.behind? action)
    (rest : ∀ lines s, (pass iface).run ms' { w₁ with state := s, code := w₁.code ++ lines } =
      Walk.behind? (next lines) { w with state := s }) :
    (pass iface).run (ms ++ ms') w₁ =
      Walk.behind? (action >>= next) { w with state := w₁.state } := by
  rw [Pass.run_append, first]
  unfold Walk.behind? at rest ⊢
  rw [run_bind]
  rcases action.run w₁.state with ⟨_ | lines, s⟩
  · rfl
  · exact rest lines s

/-- The moves of a block make its code in a scope of its own. -/
theorem run_movesBetween (braces : Braces) {body : List Stmt}
    (fills : ∀ w : Walk, (pass iface).run (Stmt.movesIn false body) w =
      w.behind? (stmts iface w.targets body)) (w : Walk) :
    (pass iface).run (Stmt.movesBetween braces (Stmt.movesIn false body)) w =
      w.behind? (inScope (stmts iface w.targets body)) := by
  rw [Stmt.movesBetween, List.cons_append, Pass.run_cons rfl]
  exact run_then (fills _) fun lines s => rfl

mutual

/-- A statement is gone through as code is made for it. -/
theorem run_moves : (x : Stmt) → (w : Walk) →
    (pass iface).run (x.moves false) w = w.behind? (stmt iface w.targets x)
  | .define _ _ _, w => by
      rw [stmt]
      exact (Walk.behind?_nil w).symm
  | .block braces body, w => by
      rw [stmt]
      exact run_movesBetween braces (run_movesIn body) w
  | .ifThen cond braces body, w => by
      have held := run_movesBetween braces (run_movesIn body) (w.branch iface cond)
      rw [stmt, Stmt.moves, List.cons_append, Pass.run_cons rfl]
      refine run_then held fun lines s => congrArg some (Walk.ext rfl ?_ rfl rfl)
      have parts (test : List Line) (stop : Line) :
          w.code ++ test ++ lines ++ [stop] = w.code ++ (test ++ lines ++ [stop]) := by
        simp only [List.append_assoc]
      exact parts _ _
  | .ifElse cond braces body elseBraces elseBody, w => by
      have held := run_movesBetween braces (run_movesIn body) (w.branch iface cond)
      have failed := run_movesBetween elseBraces (run_movesIn elseBody)
      rw [stmt, Stmt.moves, List.append_assoc, List.cons_append, Pass.run_cons rfl]
      refine run_then held fun lines s => ?_
      rw [List.cons_append, Pass.run_cons rfl]
      refine run_then (failed _) fun elseLines s' => congrArg some (Walk.ext rfl ?_ rfl rfl)
      have parts (test between : List Line) (stop : Line) :
          w.code ++ test ++ lines ++ between ++ elseLines ++ [stop] =
            w.code ++ (test ++ lines ++ between ++ elseLines ++ [stop]) := by
        simp only [List.append_assoc]
      exact parts _ _ _
  | .whileLoop cond braces body, w => by
      have rounds := run_movesBetween braces (run_movesIn body) (w.whileTest iface cond)
      rw [stmt, Stmt.moves, List.cons_append, Pass.run_cons rfl]
      refine run_then rounds fun lines s => congrArg some (Walk.ext rfl ?_ rfl rfl)
      have parts (test back : List Line) :
          w.code ++ test ++ lines ++ back = w.code ++ (test ++ lines ++ back) := by
        simp only [List.append_assoc]
      exact parts (_ :: _) _
  | .forLoop init cond update braces body, w => by
      have started := run_movesBy init { w with state := (openScope w.state).2 }
      have filled := run_movesBetween braces (run_movesIn body)
      have updated := run_movesBy update
      rw [stmt, inScope, Stmt.moves, List.append_assoc, List.append_assoc, List.cons_append,
        Pass.run_cons rfl]
      simp only [bind_assoc, pure_bind]
      refine run_then started fun initLines s => ?_
      rw [List.cons_append, Pass.run_cons rfl]
      refine run_then (filled _) fun lines s' => ?_
      rw [List.cons_append, Pass.run_cons rfl]
      refine run_then (updated _) fun updateLines s'' => congrArg some (Walk.ext rfl ?_ rfl rfl)
      have parts (test next back : List Line) :
          w.code ++ initLines ++ test ++ lines ++ next ++ updateLines ++ back =
            w.code ++ (initLines ++ test ++ lines ++ (next ++ updateLines) ++ back) := by
        simp only [List.append_assoc]
      exact parts (_ :: _) [_] _
  | .declare .., _ | .prototype .., _ | .assign .., _ | .call .., _ | .breakLoop _, _
  | .continueLoop _, _ | .returnValue .., _ => Pass.run_singleton _ _ _

theorem run_movesBy : (part : Option Stmt) → (w : Walk) →
    (pass iface).run (Stmt.movesBy false part) w = w.behind? (header iface w.targets part)
  | none, w => by
      rw [header]
      exact (Walk.behind?_nil w).symm
  | some x, w => by
      rw [header]
      exact run_moves x w

theorem run_movesIn : (body : List Stmt) → (w : Walk) →
    (pass iface).run (Stmt.movesIn false body) w = w.behind? (stmts iface w.targets body)
  | [], w => by
      rw [stmts]
      exact (Walk.behind?_nil w).symm
  | x :: rest, w => by
      rw [stmts, Stmt.movesIn, List.cons_append, Pass.run_cons rfl]
      refine run_then (run_moves x w) fun lines s => ?_
      rw [← List.append_nil (Stmt.movesIn false rest)]
      refine run_then (run_movesIn rest _) fun others s' => congrArg some (Walk.ext rfl ?_ rfl rfl)
      exact List.append_assoc _ _ _

end

/-- Where code is made for statements, the pass does not stop. -/
theorem run_of_done {body : List Stmt} {lines : List Line} {s' : State}
    (done : Done (stmts iface w.targets body) w.state lines s') :
    (pass iface).run (Stmt.movesIn false body) w =
      some { w with state := s', code := w.code ++ lines } := by
  rw [run_movesIn, Walk.behind?, done]

/-- A function leaves the scopes around it as they were. -/
theorem layers_routine {h : Heading} {body : List Stmt} {r : Routine} {s s' : State}
    (done : Done (routine iface h body) s r s') : s'.layers = s.layers := by
  obtain ⟨lines, filled, made, layers⟩ := done_routine done
  have outer : filled.layers.drop 1 = (enterRoutine h s).2.layers.drop 1 :=
    Pass.run_keeps_deep
      (P := fun n w => w.state.layers.drop (1 + n) = (enterRoutine h s).2.layers.drop 1)
      (fun _ _ _ _ _ _ counted step same => (drop_step counted step).trans same) rfl
      (Pass.depth_movesIn body 0) (run_of_done (w := .start _) made)
  rw [layers, ← List.drop_one, outer, List.drop_one]
  exact tail_declareParams h.params firstArgument _

end BraceLang.Assembly
