import BraceLang.Proofs.Moves
import BraceLang.Proofs.Tac.Shape

/-!
Lowering as a pass. The walk through a program has the state of lowering, the code of the unit that
it is in, and what is around the place that it has come to. So each spot of `Program.lowering` has
what the place is lowered with, and each piece of code comes from a spot.

* **`run_moves`**: a statement is gone through as it is lowered;
* **`infix_lower`**: what a spot adds to the code is a piece of the code of the program.
-/

namespace BraceLang

namespace Tac

/-- A loop around a place, and how it is lowered. -/
structure LoopAround where
  /-- The part of the loop that the place is in. -/
  part : LoopPart
  loop : Stmt
  /-- The labels of the loop. -/
  own : Lower.Targets
  /-- The labels that lowering has for the loop around the loop. -/
  outer : Option Lower.Targets
  /-- The state that the loop is lowered in. -/
  start : Lower.State

namespace Lower

/-- What is around a place. -/
inductive Frame where
  /-- A function, with the names of its parameters and the code that has been made for what is
  around it. -/
  | body (names : List String) (outside : List Instr)
  /-- A statement that has branched, with the label at its end. -/
  | branch (stop : Label)
  /-- A `for` loop whose test has not come yet, and the state that it started in. -/
  | header (start : State)
  /-- A loop, and the label that its rounds start at. -/
  | loop (around : LoopAround) (start : Label)

namespace Frame

def loop? : Frame → Option LoopAround
  | .loop around _ => some around
  | _ => none

/-- The code of what is around a function. -/
def outside? : Frame → Option (List Instr)
  | .body _ outside => some outside
  | _ => none

/-- The loops of some frames, innermost first. -/
def loops (frames : List Frame) : List LoopAround := frames.filterMap loop?

/-- Where `continue` and `break` go: to the innermost loop that has the place in its body. -/
def targets (frames : List Frame) : Option Targets :=
  ((loops frames).find? (·.part = .body)).map LoopAround.own

end Frame

/-- How far lowering has come. -/
@[ext]
structure Walk where
  state : State
  /-- The code of the unit. -/
  code : List Instr
  /-- What is around, innermost first. -/
  frames : List Frame

namespace Walk

def targets (w : Walk) : Option Targets := Frame.targets w.frames

def loops (w : Walk) : List LoopAround := Frame.loops w.frames

/-- The code of the units around. -/
def outsides (w : Walk) : List (List Instr) := w.frames.filterMap Frame.outside?

/-- The place is in the body of a function. -/
def inside (w : Walk) : Bool := !w.outsides.isEmpty

/-- Behind something that is lowered here. -/
def behind (w : Walk) (lowered : List Instr × State) : Walk :=
  { w with state := lowered.2, code := w.code ++ lowered.1 }

/-- At the first statement in the body of a function. -/
def enterBody (h : Heading) (w : Walk) : Walk :=
  ⟨w.state.inside h, [], .body (params h.params (openScope w.state).2).1 w.code :: w.frames⟩

def branch (cond : Expr) (w : Walk) : Walk :=
  let test := expr cond w.state
  ⟨test.2.skip 2, w.code ++ branching test.1 (test.2.label 0) (test.2.label 1),
    .branch (test.2.label 1) :: w.frames⟩

def whileTest (loop : Stmt) (cond : Expr) (w : Walk) : Walk :=
  let s := w.state
  let test := expr cond (s.skip 3)
  ⟨test.2, w.code ++ .label (s.label 0) :: branching test.1 (s.label 1) (s.label 2),
    .loop ⟨.body, loop, ⟨s.label 0, s.label 2⟩, w.targets, s⟩ (s.label 0) :: w.frames⟩

def forStart (w : Walk) : Walk :=
  ⟨(openScope w.state).2, w.code, .header w.state :: w.frames⟩

end Walk

/-- Behind a function, whose code has been set aside. -/
def State.behindBody (s : State) (h : Heading) (names : List String) (code : List Instr) : State :=
  { (closeScope s).2 with
    inFunction := false
    functions := s.functions ++ .function h.name.val names :: code }

/-- The pass of lowering. It stops only at moves that do not fit what is around. -/
def pass : Pass Walk
  | .next _, w => some w
  | .single x, w => some (w.behind (stmt w.targets x w.state))
  | .enterBody h _, w => some (w.enterBody h)
  | .leaveBody h _, ⟨s, code, .body names outside :: frames⟩ =>
      some ⟨s.behindBody h names code, outside, frames⟩
  | .enter _, w => some { w with state := (openScope w.state).2 }
  | .leave _, w => some { w with state := (closeScope w.state).2 }
  | .branch cond _, w => some (w.branch cond)
  | .otherwise, ⟨s, code, .branch fails :: frames⟩ =>
      some ⟨s.skip 1, code ++ [.goto (s.label 0), .label fails], .branch (s.label 0) :: frames⟩
  | .join, ⟨s, code, .branch stop :: frames⟩ => some ⟨s, code ++ [.label stop], frames⟩
  | .whileTest loop cond, w => some (w.whileTest loop cond)
  | .whileEnd, ⟨s, code, .loop around start :: frames⟩ =>
      some ⟨s, code ++ [.goto start, .label around.own.stop], frames⟩
  | .forStart, w => some w.forStart
  | .forTest loop cond, ⟨s, code, .header start :: frames⟩ =>
      let test := expr cond (s.skip 4)
      let around := ⟨.body, loop, ⟨s.label 2, s.label 3⟩, Frame.targets frames, start⟩
      some ⟨test.2, code ++ .label (s.label 0) :: branching test.1 (s.label 1) (s.label 3),
        .loop around (s.label 0) :: frames⟩
  | .forUpdate, ⟨s, code, .loop around start :: frames⟩ =>
      some ⟨s, code ++ [.label around.own.next],
        .loop { around with part := .update } start :: frames⟩
  | .forEnd, ⟨s, code, .loop around start :: frames⟩ =>
      some ⟨(closeScope s).2, code ++ [.goto start, .label around.own.stop], frames⟩
  | _, _ => none

/-! ### What a move can do -/

/-- A move between statements. -/
structure Walk.Passes (w w' : Walk) : Prop where
  code : w.code <+: w'.code
  outsides : w'.outsides = w.outsides
  /-- At most one scope is opened or closed, and temporaries and labels are taken. -/
  env : w'.state.env = w.state.env ∨ w'.state.env = (openScope w.state).2.env ∨
    w'.state.env = (closeScope w.state).2.env
  state : w'.state = { w.state with supply := w'.state.supply, env := w'.state.env }

theorem step_cases {m : Move} {w w' : Walk} (step : pass m w = some w') :
    (∃ x, m = .single x ∧ w' = w.behind (stmt w.targets x w.state)) ∨
      (∃ h braces, m = .enterBody h braces ∧ w' = w.enterBody h) ∨
      (∃ h braces names outside, m = .leaveBody h braces ∧
        w.frames = .body names outside :: w'.frames ∧ w'.code = outside ∧
        w'.state = w.state.behindBody h names w.code) ∨
      m.isBetween = true ∧ w.Passes w' := by
  unfold pass at step
  split at step <;> cases step
  case h_2.refl x => exact .inl ⟨x, rfl, rfl⟩
  case h_3.refl h braces => exact .inr (.inl ⟨h, braces, rfl, rfl⟩)
  case h_4.refl h braces _ _ names outside _ =>
    exact .inr (.inr (.inl ⟨h, braces, names, outside, rfl, rfl, rfl, rfl⟩))
  all_goals
    refine .inr (.inr (.inr ⟨rfl, ?_, rfl, ?_, rfl⟩))
    · first | exact List.prefix_append _ _ | exact List.prefix_rfl
    · first | exact .inl rfl | exact .inr (.inl rfl) | exact .inr (.inr rfl)

/-- The state behind a move between statements. -/
def State.between : Move → State → State
  | .enter _, s | .forStart, s => (openScope s).2
  | .leave _, s | .forEnd, s => (closeScope s).2
  | .branch cond _, s => (expr cond s).2.skip 2
  | .otherwise, s => s.skip 1
  | .whileTest _ cond, s => (expr cond (s.skip 3)).2
  | .forTest _ cond, s => (expr cond (s.skip 4)).2
  | _, s => s

theorem state_between {m : Move} {w w' : Walk} (between : m.isBetween = true)
    (step : pass m w = some w') : w'.state = w.state.between m := by
  unfold pass at step
  split at step <;> cases step <;> first | rfl | contradiction

/-- What the test of a `for` loop adds to the code. -/
theorem code_forTest {loop : Stmt} {cond : Expr} {w w' : Walk}
    (step : pass (.forTest loop cond) w = some w') :
    w'.code = w.code ++ .label (w.state.label 0) ::
      branching (expr cond (w.state.skip 4)).1 (w.state.label 1) (w.state.label 3) := by
  obtain ⟨s, code, _ | ⟨_ | _ | _ | _, frames⟩⟩ := w <;> cases step
  rfl

/-! ### Going through statements is lowering them -/

namespace Walk

variable {w : Walk}

theorem behind_nil (w : Walk) : w.behind ([], w.state) = w := by
  rw [behind, List.append_nil]

theorem behind_behind (w : Walk) (first second : List Instr × State) :
    (w.behind first).behind second = w.behind (first.1 ++ second.1, second.2) := by
  simp only [behind, List.append_assoc]

end Walk

/-- The moves of a block do what lowering does in a scope of its own. -/
theorem run_movesBetween (braces : Braces) {body : List Stmt}
    (fills : ∀ w : Walk, pass.run (Stmt.movesIn true body) w =
      some (w.behind (stmts w.targets body w.state))) (w : Walk) :
    pass.run (Stmt.movesBetween braces (Stmt.movesIn true body)) w =
      some (w.behind (inScope (stmts w.targets body) w.state)) :=
  Pass.run_trans (fills { w with state := (openScope w.state).2 }) rfl

mutual

/-- A statement is gone through as it is lowered, and what was around it is around it then. -/
theorem run_moves : (x : Stmt) → (w : Walk) →
    pass.run (x.moves true) w = some (w.behind (stmt w.targets x w.state))
  | .define h braces body, w => by
      rw [Stmt.moves, if_pos rfl]
      have filled := run_movesIn body (w.enterBody h)
      refine (Pass.run_trans ((Pass.run_cons rfl).trans filled) rfl).trans (congrArg some ?_)
      exact Walk.ext rfl (List.append_nil w.code).symm rfl
  | .block braces body, w => run_movesBetween braces (run_movesIn body) w
  | .ifThen cond braces body, w => by
      have held := run_movesBetween braces (run_movesIn body) (w.branch cond)
      refine (Pass.run_trans ((Pass.run_cons rfl).trans held) rfl).trans (congrArg some ?_)
      rw [stmt_ifThen]
      refine Walk.ext rfl ?_ rfl
      change _ ++ _ ++ _ ++ _ = _ ++ (_ ++ _ ++ _)
      simp only [List.append_assoc]
      rfl
  | .ifElse cond braces body elseBraces elseBody, w => by
      have held := run_movesBetween braces (run_movesIn body) (w.branch cond)
      have failed := run_movesBetween elseBraces (run_movesIn elseBody)
      refine (Pass.run_trans (Pass.run_trans ((Pass.run_cons rfl).trans held)
        ((Pass.run_cons rfl).trans (failed _))) rfl).trans (congrArg some ?_)
      rw [stmt_ifElse]
      refine Walk.ext rfl ?_ rfl
      change _ ++ _ ++ _ ++ _ ++ _ ++ _ = _ ++ (_ ++ _ ++ _ ++ _ ++ _)
      simp only [List.append_assoc]
      rfl
  | .whileLoop cond braces body, w => by
      have rounds := run_movesBetween braces (run_movesIn body)
        (w.whileTest (.whileLoop cond braces body) cond)
      refine (Pass.run_trans ((Pass.run_cons rfl).trans rounds) rfl).trans (congrArg some ?_)
      rw [stmt_whileLoop]
      refine Walk.ext rfl ?_ rfl
      change _ ++ _ ++ _ ++ _ = _ ++ (_ ++ _ ++ _)
      simp only [List.append_assoc]
      rfl
  | .forLoop init cond update braces body, w => by
      have started := run_movesBy init w.forStart
      have filled := run_movesBetween braces (run_movesIn body)
      have updated := run_movesBy update
      refine (Pass.run_trans (Pass.run_trans (Pass.run_trans ((Pass.run_cons rfl).trans started)
        ((Pass.run_cons rfl).trans (filled _))) ((Pass.run_cons rfl).trans (updated _)))
        rfl).trans (congrArg some ?_)
      rw [stmt_forLoop]
      refine Walk.ext rfl ?_ rfl
      change _ ++ _ ++ _ ++ _ ++ _ ++ _ ++ _ = _ ++ (_ ++ (_ ++ _ ++ _ ++ _))
      simp only [List.append_assoc]
      rfl
  | .declare .., _ | .prototype .., _ | .assign .., _ | .call .., _ | .breakLoop _, _
  | .continueLoop _, _ | .returnValue .., _ => rfl

theorem run_movesBy : (part : Option Stmt) → (w : Walk) →
    pass.run (Stmt.movesBy true part) w = some (w.behind (header w.targets part w.state))
  | none, w => congrArg some (w.behind_nil).symm
  | some x, w => run_moves x w

theorem run_movesIn : (body : List Stmt) → (w : Walk) →
    pass.run (Stmt.movesIn true body) w = some (w.behind (stmts w.targets body w.state))
  | [], w => congrArg some (w.behind_nil).symm
  | x :: rest, w => by
      have first := (Pass.run_cons (m := .next x) rfl).trans (run_moves x w)
      refine (Pass.run_trans first (run_movesIn rest _)).trans ?_
      rw [Walk.behind_behind]
      rfl

end

/-! ### Code stays -/

namespace Walk

variable {w w' : Walk} {piece : List Instr}

/-- The piece is in the code of the unit, or has been set aside, or is in that of a unit around. -/
def Has (w : Walk) (piece : List Instr) : Prop :=
  piece <:+: w.code ∨ piece <:+: w.state.functions ∨ ∃ code ∈ w.outsides, piece <:+: code

/-- More code in the unit, and nothing else that matters. -/
theorem Has.add (has : w.Has piece) (code : w.code <+: w'.code)
    (functions : w'.state.functions = w.state.functions) (outsides : w'.outsides = w.outsides) :
    w'.Has piece := by
  rcases has with here | aside | around
  · exact .inl (here.trans code.isInfix)
  · exact .inr (.inl (functions ▸ aside))
  · exact .inr (.inr (outsides ▸ around))

theorem isDefinitionFree_of_isSingle {x : Stmt} (single : x.isSingle = true) :
    x.isDefinitionFree = true := by
  cases x <;> first | rfl | contradiction

/-- What there is in the code stays there. -/
theorem Has.step (has : w.Has piece) {m : Move} (step : pass m w = some w') : w'.Has piece := by
  rcases step_cases step with ⟨x, rfl, rfl⟩ | ⟨h, braces, rfl, rfl⟩ |
    ⟨h, braces, names, outside, rfl, around, code, state⟩ | ⟨-, passes⟩
  · exact has.add (List.prefix_append _ _)
      (functions_stmt _ _ (isDefinitionFree_of_isSingle x.2) w.state) rfl
  · have kept : (w.enterBody h).state.functions = w.state.functions :=
      (params_unchanged h.params (openScope w.state).2).2
    rcases has with here | aside | ⟨outside, mem, around⟩
    · exact .inr (.inr ⟨w.code, List.mem_cons_self, here⟩)
    · exact .inr (.inl (kept.symm ▸ aside))
    · exact .inr (.inr ⟨outside, List.mem_cons_of_mem _ mem, around⟩)
  · have functions := congrArg State.functions state
    rcases has with here | aside | ⟨piece', mem, within⟩
    · exact .inr (.inl (functions ▸
        here.trans ((List.suffix_cons _ _).trans (List.suffix_append _ _)).isInfix))
    · exact .inr (.inl (functions ▸ aside.trans (List.prefix_append _ _).isInfix))
    · rw [outsides, around] at mem
      rcases List.mem_cons.mp mem with rfl | further
      · exact .inl (code ▸ within)
      · exact .inr (.inr ⟨piece', further, within⟩)
  · exact has.add passes.code (by rw [passes.state]) passes.outsides

theorem Has.run {ms : List Move} (has : w.Has piece) (ran : pass.run ms w = some w') :
    w'.Has piece :=
  Pass.run_keeps (P := (·.Has piece)) (fun _ _ _ step has => has.step step) has ran

/-- Before the first statement of a program. -/
def start : Walk := ⟨(openScope {}).2, [], []⟩

end Walk

end Lower

end Tac

/-- The way of lowering through a program. -/
def Program.lowering (p : Program) : List (Spot Tac.Lower.Walk) :=
  Tac.Lower.pass.trace (Stmt.movesIn true p.stmts) .start

namespace Tac

open Lower (Walk)

/-- Behind the last statement of a program. -/
def Lower.Walk.last (p : Program) : Walk :=
  Walk.start.behind (Lower.stmts none p.stmts (Lower.openScope {}).2)

/-- A program is gone through as it is lowered. -/
theorem run_lowering (p : Program) :
    Lower.pass.run (Stmt.movesIn true p.stmts) .start = some (.last p) :=
  Lower.run_movesIn p.stmts .start

/-- The code that there is in the end is that of the program. -/
theorem infix_of_has {p : Program} {piece : List Instr} (has : (Walk.last p).Has piece) :
    piece <:+: p.lower.1.instrs := by
  rcases has with top | aside | ⟨_, around, -⟩
  · exact top.trans (List.prefix_append _ _).isInfix
  · exact aside.trans (List.suffix_append _ _).isInfix
  · contradiction

/-- What is added to the code at a spot is in the code of the program. -/
theorem infix_lower {p : Program} {t : Spot Walk} (mem : t ∈ p.lowering) {piece : List Instr}
    (adds : ∀ w, Lower.pass t.move t.state = some w → w.Has piece) :
    piece <:+: p.lower.1.instrs := by
  obtain ⟨next, rest, step, later⟩ := Pass.goes_on mem (run_lowering p)
  exact infix_of_has ((adds next step).run later)

end Tac

end BraceLang
